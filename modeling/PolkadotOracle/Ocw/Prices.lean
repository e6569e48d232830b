import PolkadotOracle.Lib.Buffer
import PolkadotOracle.Ocw.Effect

/-! The prices that the three price calls submit, one after the other: recording one never panics,
and the stored prices are the last submitted ones as long as each overwrites the oldest. -/

namespace PolkadotOracle.OcwPallet

open Exec Frame

variable {T : Config}

/-! ### Submissions -/

/-- A dispatch of one of the three price calls, with the origin that it asks for. -/
inductive Submission (T : Config)
  | submitPrice (who : T.AccountId) (price : UInt32)
  | submitPriceUnsigned (blockNumber : Nat) (price : UInt32)
  | submitPriceUnsignedWithSignedPayload (pricePayload : PricePayload T.Public)
      (signature : T.Signature)

namespace Submission

def price : Submission T → UInt32
  | submitPrice _ price => price
  | submitPriceUnsigned _ price => price
  | submitPriceUnsignedWithSignedPayload pricePayload _ => pricePayload.price

def origin : Submission T → Origin T
  | submitPrice who _ => .signed who
  | _ => .none

def call : Submission T → Call T
  | submitPrice _ price => .submitPrice price
  | submitPriceUnsigned blockNumber price => .submitPriceUnsigned blockNumber price
  | submitPriceUnsignedWithSignedPayload pricePayload signature =>
    .submitPriceUnsignedWithSignedPayload pricePayload signature

end Submission

/-- The state after a submission; none when it panics. -/
def State.submit (s : State T) (sub : Submission T) : Option (State T) := s.call sub.origin sub.call

/-- The place that a price overwrites once the prices are full. -/
def priceSlot (T : Config) (price : UInt32) : Nat := (price % T.maxPrices).toNat

theorem priceSlot_lt (hmax : 0 < T.maxPrices.toNat) (price : UInt32) :
    priceSlot T price < T.maxPrices.toNat := by
  rw [priceSlot, UInt32.toNat_mod]
  exact Nat.mod_lt _ hmax

theorem Prices.push_some (hmax : 0 < T.maxPrices.toNat) (prices : Prices T) (price : UInt32) :
    ∃ prices', prices.push price = some prices' ∧
      prices'.val = Buffer.push T.maxPrices.toNat (priceSlot T) prices.val price := by
  have hne : T.maxPrices ≠ 0 := by
    intro hzero
    rw [hzero] at hmax
    contradiction
  by_cases hroom : prices.val.length < T.maxPrices.toNat
  · rw [push, dif_pos hroom, Buffer.push, if_pos hroom]
    exact ⟨_, rfl, rfl⟩
  · rw [push, dif_neg hroom, if_neg hne, Buffer.push, if_neg hroom]
    exact ⟨_, rfl, rfl⟩

theorem averagePrice_isSome {prices : Prices T} (h : prices.val ≠ []) :
    (averagePrice prices).isSome = true := by
  rw [averagePrice, if_neg h]
  rfl

theorem addData_some {s : State T} {price : UInt32} {prices : Prices T}
    (hpush : s.prices.push price = some prices) (hne : prices.val ≠ [])
    (maybeWho : Option T.AccountId) :
    addData maybeWho price s = .ok () (s.addPrice maybeWho price prices) := by
  obtain ⟨average, haverage⟩ := Option.isSome_iff_exists.mp (averagePrice_isSome hne)
  simp only [addData, bind_apply, get_apply, hpush, orFault_some, modify_apply, haverage,
    depositEvent_apply]
  rfl

theorem call_of_dispatch {s s' : State T} {origin : Origin T} {c : Call T}
    (h : c.dispatch origin s = .ok () s') : s.call origin c = some s' := by
  rw [State.call, h]

/-- Both unsigned calls go on from the added price in the same way. -/
theorem addUnsigned_some {s : State T} {price : UInt32} {prices : Prices T}
    (hadd : addData none price s = .ok () (s.addPrice none price prices)) :
    (do addData none price
        modify fun s => { s with nextUnsignedAt := s.blockNumber + T.unsignedInterval } :
      Dispatch T Unit) s = .ok () (s.addUnsigned price prices) := by
  rw [bind_apply, hadd]
  rfl

theorem submit_of_push {s : State T} {sub : Submission T} {prices : Prices T}
    (hpush : s.prices.push sub.price = some prices) (hne : prices.val ≠ []) :
    ∃ s', s.submit sub = some s' ∧ s'.prices = prices := by
  have hadd := addData_some hpush hne
  cases sub with
  | submitPrice who price =>
    exact ⟨s.addPrice (some who) price prices, call_of_dispatch (hadd (some who)), rfl⟩
  | submitPriceUnsigned blockNumber price =>
    have hdispatch : (Call.submitPriceUnsigned blockNumber price).dispatch .none s =
        .ok () (s.addUnsigned price prices) := addUnsigned_some (hadd none)
    exact ⟨s.addUnsigned price prices, call_of_dispatch hdispatch, rfl⟩
  | submitPriceUnsignedWithSignedPayload pricePayload signature =>
    have hdispatch :
        (Call.submitPriceUnsignedWithSignedPayload pricePayload signature).dispatch .none s =
          .ok () (s.addUnsigned pricePayload.price prices) := addUnsigned_some (hadd none)
    exact ⟨s.addUnsigned pricePayload.price prices, call_of_dispatch hdispatch, rfl⟩

/-- A submission adds its price to the stored ones. -/
theorem submit_some (hmax : 0 < T.maxPrices.toNat) (s : State T) (sub : Submission T) :
    ∃ s', s.submit sub = some s' ∧
      s'.prices.val = Buffer.push T.maxPrices.toNat (priceSlot T) s.prices.val sub.price := by
  obtain ⟨prices, hpush, hval⟩ := s.prices.push_some hmax sub.price
  have hmem := Buffer.mem_push (l := s.prices.val) (priceSlot_lt hmax sub.price)
  rw [← hval] at hmem
  obtain ⟨s', hsubmit, hprices⟩ := submit_of_push hpush (List.ne_nil_of_mem hmem)
  exact ⟨s', hsubmit, hprices ▸ hval⟩

theorem run_submit_some (hmax : 0 < T.maxPrices.toNat) (s : State T) (subs : List (Submission T)) :
    ∃ s', Lts.run State.submit s subs = some s' ∧ s'.prices.val =
      (subs.map Submission.price).foldl (Buffer.push T.maxPrices.toNat (priceSlot T))
        s.prices.val := by
  induction subs generalizing s with
  | nil => exact ⟨s, rfl, rfl⟩
  | cons sub subs ih =>
    obtain ⟨s₁, hsubmit, hprices⟩ := submit_some hmax s sub
    obtain ⟨s', hrun, hval⟩ := ih s₁
    refine ⟨s', ?_, ?_⟩
    · rw [Lts.run, hsubmit]
      exact hrun
    · rw [hval, hprices, List.map_cons, List.foldl_cons]

/-- From no prices, any submissions give a buffer of theirs. -/
theorem run_submit_empty (hmax : 0 < T.maxPrices.toNat) {s : State T} (hempty : s.prices.val = [])
    (subs : List (Submission T)) :
    ∃ s', Lts.run State.submit s subs = some s' ∧ s'.prices.val =
      Buffer.pushAll T.maxPrices.toNat (priceSlot T) (subs.map Submission.price) := by
  obtain ⟨s', hrun, hval⟩ := run_submit_some hmax s subs
  rw [hempty] at hval
  exact ⟨s', hrun, hval⟩

/-! ### No panic -/

/-- A price was recorded without a panic: the prices have not shrunk and are within their bound, the
place that it overwrites is there when there is no room, the average is one of some prices, and the
price is now in a place of its own, with the others unchanged. -/
structure Recorded (before after : Prices T) (price : UInt32) : Prop where
  bounded : after.val.length ≤ T.maxPrices.toNat
  grows : before.val.length ≤ after.val.length
  inRange : ¬before.val.length < T.maxPrices.toNat → priceSlot T price < before.val.length
  averaged : (averagePrice after).isSome = true
  divisor : UInt32.ofNat after.val.length ≠ 0
  present : price ∈ after.val
  unchanged : ∃ place, ∀ i < before.val.length, i ≠ place → after.val[i]? = before.val[i]?

theorem recorded_of_push (hmax : 0 < T.maxPrices.toNat) {before after : Prices T} {price : UInt32}
    (h : after.val = Buffer.push T.maxPrices.toNat (priceSlot T) before.val price) :
    Recorded before after price := by
  have hslot := priceSlot_lt hmax price
  have hmem : price ∈ after.val := h ▸ Buffer.mem_push hslot
  have hlength : after.val.length = if before.val.length < T.maxPrices.toNat then
      before.val.length + 1 else before.val.length := h ▸ Buffer.length_push
  constructor
  case bounded => exact after.property
  case grows => split at hlength <;> omega
  case inRange =>
    intro hfull
    omega
  case averaged => exact averagePrice_isSome (List.ne_nil_of_mem hmem)
  case divisor =>
    have hpos := List.length_pos_of_mem hmem
    have hbound := after.property
    have hsize := T.maxPrices.toNat_lt
    intro hzero
    have hnat := congrArg UInt32.toNat hzero
    rw [UInt32.toNat_ofNat', UInt32.toNat_zero] at hnat
    omega
  case present => exact hmem
  case unchanged =>
    refine ⟨priceSlot T price, fun i hi hne => ?_⟩
    rw [h, Buffer.getElem?_push hi hne]

/-- Any submissions from no prices succeed, and whatever submission follows records its price. -/
theorem recording_succeeds (hmax : 0 < T.maxPrices.toNat) {s : State T}
    (hempty : s.prices.val = []) (subs : List (Submission T)) (sub : Submission T) :
    ∃ t t', Lts.run State.submit s subs = some t ∧ t.submit sub = some t' ∧
      Recorded t.prices t'.prices sub.price := by
  obtain ⟨t, hrun, -⟩ := run_submit_empty hmax hempty subs
  obtain ⟨t', hsubmit, hprices⟩ := submit_some hmax t sub
  exact ⟨t, t', hrun, hsubmit, recorded_of_push hmax hprices⟩

theorem recording_succeeds_sample :
    ∃ t t', Lts.run State.submit (State.genesis sampleRuntime Book.empty)
        [.submitPrice (sampleAccount 1) 7] = some t ∧
      t.submit (.submitPriceUnsigned 0 9) = some t' ∧ Recorded t.prices t'.prices 9 :=
  recording_succeeds (by decide) rfl _ (.submitPriceUnsigned 0 9)

/-! ### The last prices -/

/-- The stored prices after some submissions are the last submitted ones, in any order. -/
def Window (s : State T) (subs : List (Submission T)) : Prop :=
  ∃ t, Lts.run State.submit s subs = some t ∧
    t.prices.val.Perm ((subs.map Submission.price).rtake T.maxPrices.toNat)

/-- The place that the next submission overwrites has the oldest of the last prices. -/
def OverwritesOldest (s : State T) (subs : List (Submission T)) (sub : Submission T) : Prop :=
  ∃ t, Lts.run State.submit s subs = some t ∧
    t.prices.val[priceSlot T sub.price]? =
      (subs.map Submission.price)[subs.length - T.maxPrices.toNat]?

theorem window_iff_recent (hmax : 0 < T.maxPrices.toNat) {s : State T} (hempty : s.prices.val = [])
    (subs : List (Submission T)) : Window s subs ↔
      Buffer.Recent T.maxPrices.toNat (priceSlot T) (subs.map Submission.price) := by
  obtain ⟨t, hrun, hval⟩ := run_submit_empty hmax hempty subs
  rw [Window, Buffer.Recent, hrun, ← hval]
  simp only [Option.some.injEq, exists_eq_left']

theorem overwritesOldest_iff (hmax : 0 < T.maxPrices.toNat) {s : State T}
    (hempty : s.prices.val = []) (subs : List (Submission T)) (sub : Submission T) :
    OverwritesOldest s subs sub ↔
      Buffer.Oldest T.maxPrices.toNat (priceSlot T) (subs.map Submission.price) sub.price := by
  obtain ⟨t, hrun, hval⟩ := run_submit_empty hmax hempty subs
  rw [OverwritesOldest, Buffer.Oldest, hrun, ← hval, List.length_map]
  simp only [Option.some.injEq, exists_eq_left']

/-- The stored prices are the last submitted ones all along a sequence of submissions exactly when
each of them that finds the prices full overwrites the oldest. -/
theorem window_iff (hmax : 0 < T.maxPrices.toNat) {s : State T} (hempty : s.prices.val = [])
    (subs : List (Submission T)) :
    (∀ before, before <+: subs → Window s before) ↔
      ∀ before sub, before ++ [sub] <+: subs → T.maxPrices.toNat ≤ before.length →
        OverwritesOldest s before sub := by
  simp only [window_iff_recent hmax hempty, overwritesOldest_iff hmax hempty]
  exact Buffer.recent_iff Submission.price (priceSlot_lt hmax) subs

/-- The sample runtime with room for two prices. -/
def twoPrices : Config := { sampleRuntime with maxPrices := 2 }

/-- The submission of a price by account 1. -/
def twoPricesSubmission (price : UInt32) : Submission twoPrices :=
  .submitPrice (sampleAccount 1) price

/-- A new chain of that runtime. -/
def twoPricesGenesis : State twoPrices := State.genesis twoPrices Book.empty

theorem window_iff_sample : Window twoPricesGenesis ([0, 1, 4].map twoPricesSubmission) := by
  apply (window_iff (by decide) rfl _).mpr _ _ List.prefix_rfl
  intro before sub hprefix hfull
  have hlength : ([0, 1, 4].map twoPricesSubmission).length ≤ (before ++ [sub]).length := by
    rw [List.length_append, List.length_singleton]
    exact Nat.succ_le_succ hfull
  have hwhole : before ++ [sub] = [0, 1].map twoPricesSubmission ++ [twoPricesSubmission 4] :=
    hprefix.eq_of_length_le hlength
  obtain ⟨rfl, hsub⟩ := List.append_inj' hwhole rfl
  obtain rfl := List.singleton_inj.mp hsub
  exact ⟨_, rfl, rfl⟩

/-- The third price overwrites the second one, and the first one stays. -/
theorem oldest_kept :
    (Lts.run State.submit twoPricesGenesis ([0, 1, 3].map twoPricesSubmission)).map
        (fun t => t.prices.val) = some [0, 3] ∧
      ¬Window twoPricesGenesis ([0, 1, 3].map twoPricesSubmission) := by
  have hrun : (Lts.run State.submit twoPricesGenesis ([0, 1, 3].map twoPricesSubmission)).map
      (fun t => t.prices.val) = some [0, 3] := rfl
  refine ⟨hrun, ?_⟩
  rintro ⟨t, ht, hperm⟩
  rw [ht] at hrun
  obtain hprices : t.prices.val = [0, 3] := Option.some.inj hrun
  rw [hprices] at hperm
  exact absurd hperm (by decide)

end PolkadotOracle.OcwPallet
