import Mathlib.Data.List.Induction
import PolkadotOracle.Lib.Lts

/-! Registers: a place of the state that a step writes when it wants to and the state is ready for
it.  At the end of a run the place holds what has been written last. -/

namespace Register

variable {S L V : Type*}

/-- The place that `read` shows is written by the steps that want to, as soon as the state is ready
for it, and a state that is ready stays so. -/
structure IsRegister (step : S → L → Option S) (read : S → Option V) (ready : S → Prop)
    (wants : L → Option V) : Prop where
  writes : ∀ s l s' v, step s l = some s' → ready s → wants l = some v → read s' = some v
  keeps : ∀ s l s', step s l = some s' → (ready s → wants l = none) → read s' = read s
  stable : ∀ s l s', step s l = some s' → ready s → ready s'

/-- A value is written in the run `ls`, and no step after that wants to write. -/
def WritesLast (step : S → L → Option S) (ready : S → Prop) (wants : L → Option V) (s₀ : S)
    (ls : List L) (v : V) : Prop :=
  ∃ before l after s₁, ls = before ++ l :: after ∧ Lts.run step s₀ before = some s₁ ∧ ready s₁ ∧
    wants l = some v ∧ ∀ l' ∈ after, wants l' = none

variable {step : S → L → Option S} {read : S → Option V} {ready : S → Prop} {wants : L → Option V}
  {s₀ s s₁ : S} {ls : List L} {l : L} {v : V}

/-- A part of a list that ends in `l` ends there too, unless it begins with `l`. -/
theorem concat_eq_append_cons {before after : List L} {l' : L}
    (h : ls ++ [l] = before ++ l' :: after) :
    (ls = before ∧ l = l' ∧ after = []) ∨
      ∃ mid, after = mid ++ [l] ∧ ls = before ++ l' :: mid := by
  rcases List.eq_nil_or_concat after with rfl | ⟨mid, l'', rfl⟩
  · obtain ⟨hls, hlast⟩ := List.append_inj' h rfl
    exact .inl ⟨hls, List.singleton_inj.mp hlast, rfl⟩
  · rw [List.concat_eq_append, ← List.cons_append, ← List.append_assoc] at h
    obtain ⟨hls, hlast⟩ := List.append_inj' h rfl
    obtain rfl := List.singleton_inj.mp hlast
    exact .inr ⟨mid, List.concat_eq_append, hls⟩

theorem WritesLast.concat_iff (hl : wants l = none) :
    WritesLast step ready wants s₀ (ls ++ [l]) v ↔ WritesLast step ready wants s₀ ls v := by
  constructor
  · rintro ⟨before, l', after, s₁, hls, hrun, hready, hwants, hafter⟩
    rcases concat_eq_append_cons hls with ⟨rfl, rfl, rfl⟩ | ⟨mid, rfl, rfl⟩
    · rw [hl] at hwants
      contradiction
    · exact ⟨before, l', mid, s₁, rfl, hrun, hready, hwants,
        fun l'' hmem => hafter l'' (List.mem_append_left _ hmem)⟩
  · rintro ⟨before, l', after, s₁, rfl, hrun, hready, hwants, hafter⟩
    refine ⟨before, l', after ++ [l], s₁, by simp, hrun, hready, hwants, ?_⟩
    intro l'' hmem
    rcases List.mem_append.mp hmem with hmem | hmem
    · exact hafter l'' hmem
    · rw [List.mem_singleton.mp hmem]
      exact hl

theorem WritesLast.concat_wants_iff (hrun : Lts.run step s₀ ls = some s₁) {w : V}
    (hl : wants l = some w) :
    WritesLast step ready wants s₀ (ls ++ [l]) v ↔ ready s₁ ∧ v = w := by
  constructor
  · rintro ⟨before, l', after, s₂, hls, hbefore, hready, hwants, hafter⟩
    rcases concat_eq_append_cons hls with ⟨rfl, rfl, rfl⟩ | ⟨mid, rfl, rfl⟩
    · obtain rfl := Option.some.inj (hbefore.symm.trans hrun)
      exact ⟨hready, Option.some.inj (hwants.symm.trans hl)⟩
    · have hnone := hafter l (by simp)
      rw [hl] at hnone
      contradiction
  · rintro ⟨hready, rfl⟩
    exact ⟨ls, l, [], s₁, rfl, hrun, hready, hl, by simp⟩

namespace IsRegister

theorem ready_run (h : IsRegister step read ready wants) (hrun : Lts.run step s₀ ls = some s)
    (hready : ready s₀) : ready s :=
  (Lts.reaches_run hrun).relates (R := fun s s' => ready s → ready s') (fun _ => id)
    (fun _ _ _ h₁ h₂ => h₂ ∘ h₁) h.stable hready

/-- A run that has written has found a state ready, which its end still is. -/
theorem ready_of_writesLast (h : IsRegister step read ready wants)
    (hrun : Lts.run step s₀ ls = some s) (hwrites : WritesLast step ready wants s₀ ls v) :
    ready s := by
  obtain ⟨before, l, after, s₁, rfl, hbefore, hready, -, -⟩ := hwrites
  rw [Lts.run_append, hbefore] at hrun
  exact h.ready_run hrun hready

/-- A place that is empty at the start holds what the run has written last. -/
theorem read_run_iff (h : IsRegister step read ready wants) (hempty : read s₀ = none)
    (hrun : Lts.run step s₀ ls = some s) :
    read s = some v ↔ WritesLast step ready wants s₀ ls v := by
  induction ls using List.reverseRecOn generalizing s with
  | nil =>
    obtain rfl : s₀ = s := Option.some.inj hrun
    rw [hempty]
    constructor
    · intro hnone
      contradiction
    · rintro ⟨before, l, after, _, hls, _⟩
      simp at hls
  | append_singleton ls l ih =>
    obtain ⟨s₁, hrun₁, hstep⟩ := Lts.run_concat hrun
    have hbefore := ih hrun₁
    cases hwants : wants l with
    | none =>
      rw [h.keeps s₁ l s hstep (fun _ => hwants), hbefore, WritesLast.concat_iff hwants]
    | some w =>
      rw [WritesLast.concat_wants_iff hrun₁ hwants]
      by_cases hready : ready s₁
      · rw [h.writes s₁ l s w hstep hready hwants, Option.some.injEq, eq_comm]
        exact (and_iff_right hready).symm
      · -- Nothing has been written before, since the state would be ready.
        rw [h.keeps s₁ l s hstep (fun hr => absurd hr hready), hbefore]
        constructor
        · intro hwrites
          exact absurd (h.ready_of_writesLast hrun₁ hwrites) hready
        · rintro ⟨hr, -⟩
          exact absurd hr hready

end IsRegister

end Register
