import Mathlib.Data.Nat.Dist
import PolkadotOracle.Lib.Sequence
import PolkadotOracle.Ocw.Prices

/-! The average of the stored prices, whose sum stops at the largest 32-bit number, and the priority
that the validation derives from it. -/

namespace PolkadotOracle.OcwPallet

variable {T : Config}

/-! ### The average -/

/-- The exact sum of the prices. -/
def Prices.sum (prices : Prices T) : Nat := (prices.val.map UInt32.toNat).sum

/-- The exact average of the prices, rounded down. -/
def Prices.mean (prices : Prices T) : Nat := prices.sum / prices.val.length

theorem saturatingAdd_toNat (a b : UInt32) :
    (saturatingAdd a b).toNat = min (a.toNat + b.toNat) (2 ^ 32 - 1) := by
  unfold saturatingAdd
  split
  · rw [UInt32.toNat_add]
    omega
  · rw [UInt32.toNat_ofNat']
    omega

theorem foldl_saturatingAdd (prices : List UInt32) (a : UInt32) :
    (prices.foldl saturatingAdd a).toNat =
      min (a.toNat + (prices.map UInt32.toNat).sum) (2 ^ 32 - 1) := by
  induction prices generalizing a with
  | nil =>
    have ha := a.toNat_lt
    rw [List.foldl_nil, List.map_nil, List.sum_nil]
    omega
  | cons price prices ih =>
    rw [List.foldl_cons, ih, saturatingAdd_toNat, List.map_cons, List.sum_cons]
    omega

theorem Prices.length_toNat (prices : Prices T) :
    (UInt32.ofNat prices.val.length).toNat = prices.val.length := by
  have hbound := prices.property
  have hmax := T.maxPrices.toNat_lt
  rw [UInt32.toNat_ofNat']
  omega

theorem averagePrice_eq {prices : Prices T} (hne : prices.val ≠ []) :
    ∃ average, averagePrice prices = some average ∧
      average.toNat = min prices.sum (2 ^ 32 - 1) / prices.val.length := by
  refine ⟨_, if_neg hne, ?_⟩
  rw [UInt32.toNat_div, foldl_saturatingAdd, prices.length_toNat, UInt32.toNat_zero, Nat.zero_add,
    Prices.sum]

theorem Prices.mean_between {prices : Prices T} (hne : prices.val ≠ []) :
    ∃ low ∈ prices.val, ∃ high ∈ prices.val,
      low.toNat ≤ prices.mean ∧ prices.mean ≤ high.toNat := by
  have hmap : prices.val.map UInt32.toNat ≠ [] := by simpa using hne
  obtain ⟨n, hn, hlow⟩ := Sequence.exists_le_mean hmap
  obtain ⟨m, hm, hhigh⟩ := Sequence.exists_mean_le hmap
  rw [List.length_map] at hlow hhigh
  obtain ⟨low, hmem, rfl⟩ := List.mem_map.mp hn
  obtain ⟨high, hmem', rfl⟩ := List.mem_map.mp hm
  exact ⟨low, hmem, high, hmem', hlow, hhigh⟩

/-! ### The priority -/

theorem priceDistance_toNat {prices : Prices T} {average : UInt32}
    (h : averagePrice prices = some average) (newPrice : UInt32) :
    (priceDistance prices newPrice).toNat = Nat.dist average.toNat newPrice.toNat := by
  simp only [priceDistance, h]
  split
  next hlt =>
    have hle := Nat.le_of_lt (UInt32.lt_iff_toNat_lt.mp hlt)
    rw [UInt32.toNat_sub_of_le _ _ (UInt32.le_iff_toNat_le.mpr hle),
      Nat.dist_eq_sub_of_le_right hle]
  next hge =>
    have hle := Nat.le_of_not_lt (UInt32.lt_iff_toNat_lt.not.mp hge)
    rw [UInt32.toNat_sub_of_le _ _ (UInt32.le_iff_toNat_le.mpr hle), Nat.dist_eq_sub_of_le hle]

theorem priority_of_valid {s : State T} {blockNumber : Nat} {newPrice : UInt32}
    {transaction : ValidTransaction}
    (h : validateTransactionParameters s blockNumber newPrice = .valid transaction) :
    transaction.priority =
      saturatingAdd64 T.unsignedPriority (priceDistance s.prices newPrice).toUInt64 := by
  unfold validateTransactionParameters at h
  split at h
  · contradiction
  split at h
  · contradiction
  obtain rfl := Validity.valid.inj h
  rfl

/-- The average of the prices is exact and between two of them, and the bonus in the priority of an
unsigned price is its exact distance from this average. -/
structure AverageExact (s : State T) : Prop where
  floor : ∃ average, averagePrice s.prices = some average ∧ average.toNat = s.prices.mean
  between : ∃ low ∈ s.prices.val, ∃ high ∈ s.prices.val, ∃ average,
    averagePrice s.prices = some average ∧ low ≤ average ∧ average ≤ high
  bonus : ∀ newPrice,
    (priceDistance s.prices newPrice).toNat = Nat.dist s.prices.mean newPrice.toNat
  priority : ∀ blockNumber newPrice transaction,
    validateTransactionParameters s blockNumber newPrice = .valid transaction →
    transaction.priority = saturatingAdd64 T.unsignedPriority
      (UInt64.ofNat (Nat.dist s.prices.mean newPrice.toNat))

theorem averageExact_of_floor {s : State T} (hne : s.prices.val ≠ []) {average : UInt32}
    (haverage : averagePrice s.prices = some average) (hfloor : average.toNat = s.prices.mean) :
    AverageExact s := by
  constructor
  case floor => exact ⟨average, haverage, hfloor⟩
  case between =>
    obtain ⟨low, hlow, high, hhigh, hle, hge⟩ := Prices.mean_between hne
    rw [← hfloor] at hle hge
    exact ⟨low, hlow, high, hhigh, average, haverage, UInt32.le_iff_toNat_le.mpr hle,
      UInt32.le_iff_toNat_le.mpr hge⟩
  case bonus =>
    intro newPrice
    rw [priceDistance_toNat haverage, hfloor]
  case priority =>
    intro blockNumber newPrice transaction hvalid
    rw [priority_of_valid hvalid, ← hfloor, ← priceDistance_toNat haverage,
      UInt64.ofNat_uInt32ToNat]

/-- The average is exact exactly when the sum of the prices is below the first multiple of their
number after the largest 32-bit number. -/
theorem averageExact_iff {s : State T} (hne : s.prices.val ≠ []) :
    AverageExact s ↔
      s.prices.sum < s.prices.val.length * ((2 ^ 32 - 1) / s.prices.val.length + 1) := by
  obtain ⟨average, haverage, hvalue⟩ := averagePrice_eq hne
  rw [← Sequence.min_div_eq_iff (List.length_pos_iff.mpr hne), ← hvalue]
  constructor
  · intro h
    obtain ⟨average', haverage', hfloor⟩ := h.floor
    obtain rfl : average = average' := Option.some.inj (haverage.symm.trans haverage')
    exact hfloor
  · exact averageExact_of_floor hne haverage

/-- The state of a new chain with some prices. -/
def withPrices (prices : Prices sampleRuntime) : State sampleRuntime :=
  { State.genesis sampleRuntime Book.empty with prices }

theorem averageExact_iff_sample : AverageExact (withPrices ⟨[2, 4, 9], by decide⟩) :=
  (averageExact_iff (by decide)).mpr (by decide)

/-- Two submissions of the largest price have an average of half of it. -/
theorem average_halved :
    ∃ s, Lts.run State.submit (State.genesis sampleRuntime Book.empty)
        [.submitPrice (sampleAccount 1) 4294967295, .submitPrice (sampleAccount 2) 4294967295] =
          some s ∧
      s.prices.val = [4294967295, 4294967295] ∧ averagePrice s.prices = some 2147483647 ∧
      priceDistance s.prices 4294967295 = 2147483648 ∧ ¬AverageExact s := by
  refine ⟨_, rfl, rfl, rfl, rfl, ?_⟩
  rintro ⟨⟨average, haverage, hfloor⟩, -, -, -⟩
  obtain rfl : (2147483647 : UInt32) = average := Option.some.inj haverage
  exact absurd hfloor (by decide)

end PolkadotOracle.OcwPallet
