import PolkadotOracle.Lib.Exec
import PolkadotOracle.Lib.Scale

/-! Records in a linear memory: the fields of a record lie one after the other, each with the width
of its kind, and the record's value is the tuple of what is found at their places.  A reader walks
over a record when it reads each field where it stands and moves on by the field's width. -/

namespace Layout

open Scale

variable {ι : Type} (width : ι → Nat)

/-- The sum of the widths of some fields. -/
def size : List ι → Nat
  | [] => 0
  | i :: is => width i + size is

theorem size_congr {width width' : ι → Nat} {is : List ι} (h : ∀ i ∈ is, width i = width' i) :
    size width is = size width' is := by
  induction is with
  | nil => rfl
  | cons i is ih =>
    rw [size, size, h i List.mem_cons_self, ih fun j hj => h j (List.mem_cons_of_mem i hj)]

/-- The place of field `k` of the record `is` at `base`: the fields before it come first. -/
def offset (is : List ι) (base k : Nat) : Nat := base + size width (is.take k)

@[simp] theorem offset_zero (is : List ι) (base : Nat) : offset width is base 0 = base := rfl

@[simp] theorem offset_cons (i : ι) (is : List ι) (base k : Nat) :
    offset width (i :: is) base (k + 1) = offset width is (base + width i) k := by
  simp only [offset, List.take_succ_cons, size]
  omega

/-- A field ends before its record does. -/
theorem offset_add_width_le (is : List ι) (base : Nat) (k : Fin is.length) :
    offset width is base k + width (is.get k) ≤ base + size width is := by
  induction is generalizing base with
  | nil => exact k.elim0
  | cons i is ih =>
    obtain ⟨k, hk⟩ := k
    cases k with
    | zero =>
      simp only [offset_zero, size, List.get_eq_getElem, List.getElem_cons_zero]
      omega
    | succ k =>
      have hrest := ih (base + width i) ⟨k, Nat.lt_of_succ_lt_succ hk⟩
      simp only [offset_cons, size, List.get_eq_getElem, List.getElem_cons_succ] at hrest ⊢
      omega

/-- What holds at the places of a record's fields holds at the first place, and at the places of the
record of the other fields, which begins behind the first. -/
theorem forall_offset_cons {R : ι → Nat → Prop} {i : ι} {is : List ι} {base : Nat} :
    (∀ k : Fin (i :: is).length, R ((i :: is).get k) (offset width (i :: is) base k)) ↔
      R i base ∧ ∀ k : Fin is.length, R (is.get k) (offset width is (base + width i) k) := by
  constructor
  · intro h
    refine ⟨h ⟨0, Nat.succ_pos _⟩, fun k => ?_⟩
    have hk := h k.succ
    rw [Fin.val_succ, offset_cons] at hk
    exact hk
  · rintro ⟨hfirst, hrest⟩ ⟨k, hk⟩
    cases k with
    | zero => exact hfirst
    | succ k =>
      rw [offset_cons]
      exact hrest ⟨k, Nat.lt_of_succ_lt_succ hk⟩

variable {C : ι → Type} (valueAt : (i : ι) → Nat → C i)

def tupleAt : (is : List ι) → Nat → Tuple C is
  | [], _ => ()
  | i :: is, base => (valueAt i base, tupleAt is (base + width i))

theorem get_tupleAt (is : List ι) (base : Nat) (k : Fin is.length) :
    (tupleAt width valueAt is base).get k = valueAt (is.get k) (offset width is base k) := by
  induction is generalizing base with
  | nil => exact k.elim0
  | cons i is ih =>
    obtain ⟨k, hk⟩ := k
    cases k with
    | zero =>
      rw [offset_zero]
      rfl
    | succ k =>
      rw [offset_cons]
      exact ih (base + width i) ⟨k, Nat.lt_of_succ_lt_succ hk⟩

/-- A tuple of fields of fixed sizes takes the sum of their widths. -/
theorem sized_tuple {c : (i : ι) → Codec (C i)} (h : ∀ i, (c i).Sized (width i)) (is : List ι) :
    (Codec.tuple c is).Sized (size width is) := by
  induction is with
  | nil => exact Codec.Sized.unit
  | cons i is ih => exact (h i).prod ih

/-! ### Readers that walk over a record -/

section Walks

variable {σ ε : Type} {place : σ → Nat} {step : σ → ι → Except ε σ} {R : ι → Nat → Prop}

/-- A step reads one field at the place where it stands: it succeeds exactly when the field can be
read there, and moves on by the field's width. -/
structure Walks (width : ι → Nat) (place : σ → Nat) (step : σ → ι → Except ε σ)
    (R : ι → Nat → Prop) : Prop where
  moves : ∀ {s i s'}, step s i = .ok s' → place s' = place s + width i
  succeeds : ∀ s i, (∃ s', step s i = .ok s') ↔ R i (place s)

variable {width}

theorem Walks.place_foldlM (h : Walks width place step R) {is : List ι} {s s' : σ}
    (hrun : is.foldlM step s = .ok s') : place s' = place s + size width is := by
  induction is generalizing s with
  | nil =>
    obtain rfl := Except.ok.inj hrun
    rfl
  | cons i is ih =>
    rw [List.foldlM_cons] at hrun
    obtain ⟨s₁, hstep, hrun⟩ := Exec.bind_eq_ok hrun
    rw [ih hrun, h.moves hstep, size]
    omega

/-- A walk over a record succeeds exactly when every field can be read at its own place. -/
theorem Walks.foldlM_iff (h : Walks width place step R) (is : List ι) (s : σ) :
    (∃ s', is.foldlM step s = .ok s') ↔
      ∀ k : Fin is.length, R (is.get k) (offset width is (place s) k) := by
  induction is generalizing s with
  | nil => exact iff_of_true ⟨s, rfl⟩ fun k => k.elim0
  | cons i is ih =>
    rw [forall_offset_cons, ← h.succeeds]
    simp only [List.foldlM_cons, Exec.bind_eq_ok_iff]
    constructor
    · rintro ⟨s', s₁, hstep, hrun⟩
      refine ⟨⟨s₁, hstep⟩, ?_⟩
      rw [← h.moves hstep]
      exact (ih s₁).mp ⟨s', hrun⟩
    · rintro ⟨⟨s₁, hstep⟩, hrest⟩
      rw [← h.moves hstep] at hrest
      obtain ⟨s', hrun⟩ := (ih s₁).mpr hrest
      exact ⟨s', s₁, hstep, hrun⟩

end Walks

end Layout
