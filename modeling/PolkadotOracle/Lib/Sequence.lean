import Mathlib.Algebra.Order.BigOperators.Group.List
import Mathlib.Algebra.Order.Ring.Nat
import Mathlib.Data.List.Basic
import Mathlib.Data.List.Nodup
import Mathlib.Tactic.Common

/-! Sequences that are split back into their parts: chunks of a fixed width, and prefix codes.  And
what an update of one place does to the number of places with a property, and averages. -/

namespace Sequence

variable {α β : Type*}

def chunksFrom (width : Nat) : Nat → List α → List (List α)
  | 0, _ => []
  | _ + 1, [] => []
  | fuel + 1, a :: l => (a :: l).take width :: chunksFrom width fuel ((a :: l).drop width)

/-- `l` cut into chunks of `width`, the last one shorter when `width` does not divide the
length. -/
def chunks (width : Nat) (l : List α) : List (List α) := chunksFrom width l.length l

theorem chunksFrom_flatten {width : Nat} (hw : 0 < width) {parts : List (List α)}
    (hparts : ∀ p ∈ parts, p.length = width) {fuel : Nat} (hfuel : parts.length ≤ fuel) :
    chunksFrom width fuel parts.flatten = parts := by
  induction parts generalizing fuel with
  | nil => cases fuel <;> rfl
  | cons p parts ih =>
    obtain ⟨fuel, rfl⟩ : ∃ n, fuel = n + 1 := ⟨fuel - 1, by simp at hfuel; omega⟩
    have hp : p.length = width := hparts p (by simp)
    obtain ⟨a, p', rfl⟩ : ∃ a p', p = a :: p' := by
      cases p with
      | nil => simp at hp; omega
      | cons a p' => exact ⟨a, p', rfl⟩
    have hsplit : (a :: p') ++ parts.flatten = a :: (p' ++ parts.flatten) := rfl
    simp only [List.flatten_cons, hsplit, chunksFrom]
    rw [← hsplit, List.take_left' hp, List.drop_left' hp,
      ih (fun q hq => hparts q (by simp [hq])) (by simp at hfuel; omega)]

theorem length_le_flatten {width : Nat} (hw : 0 < width) {parts : List (List α)}
    (hparts : ∀ p ∈ parts, p.length = width) : parts.length ≤ parts.flatten.length := by
  induction parts with
  | nil => simp
  | cons p parts ih =>
    have hp := hparts p (by simp)
    have := ih fun q hq => hparts q (by simp [hq])
    simp only [List.length_cons, List.flatten_cons, List.length_append]
    omega

theorem chunks_flatten {width : Nat} (hw : 0 < width) {parts : List (List α)}
    (hparts : ∀ p ∈ parts, p.length = width) : chunks width parts.flatten = parts :=
  chunksFrom_flatten hw hparts (length_le_flatten hw hparts)

/-- No word of the code `f` is empty or begins another. -/
structure PrefixCode (f : α → List β) : Prop where
  ne_nil : ∀ a, f a ≠ []
  prefix_free : ∀ a b rest rest', f a ++ rest = f b ++ rest' → a = b

/-- A sequence of words of a prefix code is read back in one way only. -/
theorem PrefixCode.flatMap_injective {f : α → List β} (hf : PrefixCode f) :
    Function.Injective fun l : List α => l.flatMap f := by
  intro l
  induction l with
  | nil =>
    intro l' h
    cases l' with
    | nil => rfl
    | cons b l' => simp [hf.ne_nil b] at h
  | cons a l ih =>
    intro l' h
    cases l' with
    | nil => simp [hf.ne_nil a] at h
    | cons b l' =>
      simp only [List.flatMap_cons] at h
      obtain rfl := hf.prefix_free a b _ _ h
      rw [ih (List.append_cancel_left h)]

/-- Parts that a separator follows, and does not occur in, are told apart by it. -/
theorem append_cons_inj {a : α} {l l' rest rest' : List α} (hl : a ∉ l) (hl' : a ∉ l')
    (h : l ++ a :: rest = l' ++ a :: rest') : l = l' ∧ rest = rest' := by
  induction l generalizing l' with
  | nil =>
    cases l' with
    | nil => exact ⟨rfl, (List.cons.inj h).2⟩
    | cons b l' => exact absurd ((List.cons.inj h).1 ▸ List.mem_cons_self) hl'
  | cons b l ih =>
    cases l' with
    | nil => exact absurd ((List.cons.inj h).1 ▸ List.mem_cons_self) hl
    | cons b' l' =>
      obtain ⟨rfl, htail⟩ := List.cons.inj h
      obtain ⟨rfl, hrest⟩ := ih (mt (List.mem_cons_of_mem _) hl)
        (mt (List.mem_cons_of_mem _) hl') htail
      exact ⟨rfl, hrest⟩

/-! ### Counting after an update -/

section CountP

variable {p : α → Bool} {l : List α} {i : Nat} {a b : α}

theorem countP_set_le (ha : p a = false) : (l.set i a).countP p ≤ l.countP p := by
  by_cases hi : i < l.length
  · rw [List.countP_set hi, ha]
    simp
  · exact Nat.le_of_eq (by rw [List.set_eq_of_length_le (by omega)])

theorem countP_set_hit (hi : l[i]? = some b) (hb : p b = true) (ha : p a = false) :
    (l.set i a).countP p + 1 = l.countP p := by
  obtain ⟨hlt, rfl⟩ := List.getElem?_eq_some_iff.mp hi
  have hpos : 0 < l.countP p := List.countP_pos_iff.mpr ⟨_, List.getElem_mem hlt, hb⟩
  rw [List.countP_set hlt, hb, ha]
  simp
  omega

end CountP

/-! ### Averages -/

/-- The average of natural numbers is not below all of them. -/
theorem exists_le_mean {l : List Nat} (h : l ≠ []) : ∃ n ∈ l, n ≤ l.sum / l.length := by
  by_contra hall
  push Not at hall
  have hle : l.length • (l.sum / l.length + 1) ≤ l.sum := List.card_nsmul_le_sum l _ hall
  have hlt := Nat.lt_mul_div_succ l.sum (List.length_pos_iff.mpr h)
  rw [Nat.nsmul_eq_mul] at hle
  omega

/-- The average of natural numbers is not above all of them. -/
theorem exists_mean_le {l : List Nat} (h : l ≠ []) : ∃ n ∈ l, l.sum / l.length ≤ n := by
  have hsum : (l.map fun _ => l.sum / l.length).sum ≤ (l.map id).sum := by
    rw [List.map_const', List.sum_replicate, List.map_id, Nat.nsmul_eq_mul]
    exact Nat.mul_div_le l.sum l.length
  exact List.exists_le_of_sum_le h _ _ hsum

/-- The average of a sum that stops at a largest number is that of the sum exactly when the sum is
below the next multiple of the length. -/
theorem min_div_eq_iff {sum largest length : Nat} (hlength : 0 < length) :
    min sum largest / length = sum / length ↔ sum < length * (largest / length + 1) := by
  rw [Nat.mul_comm, ← Nat.div_lt_iff_lt_mul hlength]
  constructor
  · intro h
    have hle : min sum largest / length ≤ largest / length :=
      Nat.div_le_div_right (min_le_right sum largest)
    omega
  · intro h
    have hle : sum / length ≤ largest / length := Nat.le_of_lt_succ h
    rcases le_total sum largest with hsum | hsum
    · rw [min_eq_left hsum]
    · rw [min_eq_right hsum]
      exact Nat.le_antisymm (Nat.div_le_div_right hsum) hle

/-- The update of a place exchanges two items. -/
theorem cons_set_perm {l : List α} {i : Nat} {a : α} (h : l[i]? = some a) (b : α) :
    (a :: l.set i b).Perm (b :: l) := by
  obtain ⟨hi, rfl⟩ := List.getElem?_eq_some_iff.mp h
  have hset : (l.set i b).Perm (b :: l.eraseIdx i) := List.set_perm_cons_eraseIdx hi b
  have hget : (l[i] :: l.eraseIdx i).Perm l := List.getElem_cons_eraseIdx_perm hi
  exact (hset.cons _).trans ((List.Perm.swap _ _ _).trans (hget.cons b))

/-- A list that ends in an item begins with the items before its first place, which are all
different when those before the end are. -/
theorem exists_first [DecidableEq α] {l : List α} (hl : l.Nodup) (a : α) :
    ∃ before after, l ++ [a] = (before ++ [a]) ++ after ∧ (before ++ [a]).Nodup := by
  by_cases ha : a ∈ l
  · obtain ⟨before, after, rfl, hnot⟩ := List.eq_append_cons_of_mem ha
    refine ⟨before, after ++ [a], by simp, ?_⟩
    rw [← List.concat_eq_append]
    exact hl.of_append_left.concat hnot
  · refine ⟨l, [], by simp, ?_⟩
    rw [← List.concat_eq_append]
    exact hl.concat ha

end Sequence
