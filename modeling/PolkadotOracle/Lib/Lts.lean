import Mathlib.Logic.Relation

/-! Labelled transition systems with an executable step: runs of labels, the states that a run
reaches when every step meets a condition, and the invariant rules. -/

namespace Lts

variable {S L : Type*} {step : S → L → Option S} {C C' : S → L → Prop} {s₀ s s' : S}

def Next (step : S → L → Option S) (C : S → L → Prop) (s s' : S) : Prop :=
  ∃ l, C s l ∧ step s l = some s'

/-- `s` is reached from `s₀` by steps that all meet `C`. -/
def ReachesBy (step : S → L → Option S) (C : S → L → Prop) (s₀ s : S) : Prop :=
  Relation.ReflTransGen (Next step C) s₀ s

def Reaches (step : S → L → Option S) (s₀ s : S) : Prop :=
  ReachesBy step (fun _ _ => True) s₀ s

namespace ReachesBy

theorem refl (s : S) : ReachesBy step C s s := Relation.ReflTransGen.refl

theorem trans {s₁ s₂ s₃ : S} (h₁ : ReachesBy step C s₁ s₂) (h₂ : ReachesBy step C s₂ s₃) :
    ReachesBy step C s₁ s₃ :=
  Relation.ReflTransGen.trans h₁ h₂

theorem tail {l : L} (h : ReachesBy step C s₀ s) (hC : C s l) (hs : step s l = some s') :
    ReachesBy step C s₀ s' :=
  Relation.ReflTransGen.tail h ⟨l, hC, hs⟩

theorem mono (h : ReachesBy step C s₀ s) (hC : ∀ s l, C s l → C' s l) :
    ReachesBy step C' s₀ s :=
  Relation.ReflTransGen.mono (fun _ _ ⟨l, hl, hs⟩ => ⟨l, hC _ _ hl, hs⟩) _ _ h

theorem reaches (h : ReachesBy step C s₀ s) : Reaches step s₀ s := h.mono fun _ _ _ => trivial

/-- What holds at the start and is kept by every step that meets `C` holds of every state reached
by such steps. -/
theorem invariant {I : S → Prop} (h : ReachesBy step C s₀ s) (h₀ : I s₀)
    (hstep : ∀ s l s', I s → C s l → step s l = some s' → I s') : I s := by
  induction h with
  | refl => exact h₀
  | tail _ hs ih =>
    obtain ⟨l, hC, hl⟩ := hs
    exact hstep _ _ _ ih hC hl

/-- A reflexive and transitive relation that every step respects relates the ends of a run. -/
theorem relates {R : S → S → Prop} (h : ReachesBy step C s₀ s) (hrefl : ∀ s, R s s)
    (htrans : ∀ a b c, R a b → R b c → R a c)
    (hstep : ∀ s l s', step s l = some s' → R s s') : R s₀ s :=
  h.invariant (hrefl s₀) fun a _ b ha _ hab => htrans _ a b ha (hstep _ _ _ hab)

/-- A run is one of another system, as `view` shows it, when every step between states of the
invariant is a step of the other system or does not show. -/
theorem simulates {S' L' : Type*} {step' : S' → L' → Option S'} {D : S' → L' → Prop}
    {I : S → Prop} (h : ReachesBy step C s₀ s) (view : S → S') (h₀ : I s₀)
    (hI : ∀ s l s', I s → C s l → step s l = some s' → I s')
    (hsim : ∀ s l s', I s → I s' → step s l = some s' →
      view s' = view s ∨ ∃ a, D (view s) a ∧ step' (view s) a = some (view s')) :
    ReachesBy step' D (view s₀) (view s) := by
  refine (h.invariant (I := fun s => I s ∧ ReachesBy step' D (view s₀) (view s))
    ⟨h₀, refl _⟩ ?_).2
  rintro s l s' ⟨hs, hreach⟩ hC hstep
  have hs' := hI s l s' hs hC hstep
  refine ⟨hs', ?_⟩
  rcases hsim s l s' hs hs' hstep with hsame | ⟨a, hD, ha⟩
  · rw [hsame]
    exact hreach
  · exact hreach.tail hD ha

end ReachesBy

def run (step : S → L → Option S) : S → List L → Option S
  | s, [] => some s
  | s, l :: ls => (step s l).bind fun s' => run step s' ls

theorem run_append (s : S) (ls ls' : List L) :
    run step s (ls ++ ls') = (run step s ls).bind fun s' => run step s' ls' := by
  induction ls generalizing s with
  | nil => rfl
  | cons l ls ih =>
    rw [List.cons_append, run, run, Option.bind_assoc]
    exact congrArg _ (funext ih)

theorem run_concat {ls : List L} {l : L} (h : run step s₀ (ls ++ [l]) = some s) :
    ∃ s₁, run step s₀ ls = some s₁ ∧ step s₁ l = some s := by
  rw [run_append] at h
  obtain ⟨s₁, hrun, hlast⟩ := Option.bind_eq_some_iff.mp h
  obtain ⟨s₂, hstep, hend⟩ := Option.bind_eq_some_iff.mp hlast
  obtain rfl : s₂ = s := Option.some.inj hend
  exact ⟨s₁, hrun, hstep⟩

/-- Every label of a run has been taken in some state. -/
theorem step_of_mem_run {ls : List L} {l : L} (h : run step s₀ ls = some s) (hl : l ∈ ls) :
    ∃ s₁ s₂, step s₁ l = some s₂ := by
  induction ls generalizing s₀ with
  | nil => contradiction
  | cons l' ls ih =>
    obtain ⟨s₁, hstep, hrun⟩ := Option.bind_eq_some_iff.mp h
    rcases List.mem_cons.mp hl with rfl | hl
    · exact ⟨s₀, s₁, hstep⟩
    · exact ih hrun hl

/-- The state after the labels `ls`, when every one of them meets `C` and can be taken. -/
def runBy (step : S → L → Option S) (C : S → L → Prop) [∀ s l, Decidable (C s l)] :
    S → List L → Option S
  | s, [] => some s
  | s, l :: ls => if C s l then (step s l).bind fun s' => runBy step C s' ls else none

/-- Every step of the run of the labels `ls` has the property `P`. -/
def Always (step : S → L → Option S) (P : S → L → Prop) : S → List L → Prop
  | _, [] => True
  | s, l :: ls => P s l ∧ ∀ s', step s l = some s' → Always step P s' ls

/-- What holds at the start and is kept by every step with a property holds at the end of a run of
such steps. -/
theorem always_invariant {P : S → L → Prop} {I : S → Prop} {ls : List L} (h₀ : I s₀)
    (hstep : ∀ s l s', I s → P s l → step s l = some s' → I s')
    (halways : Always step P s₀ ls) (h : run step s₀ ls = some s) : I s := by
  induction ls generalizing s₀ with
  | nil =>
    obtain rfl : s₀ = s := Option.some.inj h
    exact h₀
  | cons l ls ih =>
    obtain ⟨s₁, hs, hrun⟩ := Option.bind_eq_some_iff.mp h
    exact ih (hstep _ _ _ h₀ halways.1 hs) (halways.2 s₁ hs) hrun

/-- A run whose labels meet `D` has a property at every step exactly when all its labels meet `Q`,
if steps with the property keep an invariant under which the property is `Q` for such labels. -/
theorem always_iff {P : S → L → Prop} {I : S → Prop} {D Q : L → Prop} {ls : List L}
    (hiff : ∀ s l, I s → D l → (P s l ↔ Q l))
    (hstep : ∀ s l s', I s → P s l → step s l = some s' → I s')
    (h₀ : I s₀) (hD : ∀ l ∈ ls, D l) (h : run step s₀ ls = some s) :
    Always step P s₀ ls ↔ ∀ l ∈ ls, Q l := by
  induction ls generalizing s₀ with
  | nil => simp [Always]
  | cons l ls ih =>
    obtain ⟨s₁, hs, hrun⟩ := Option.bind_eq_some_iff.mp h
    have hfirst := hiff s₀ l h₀ (hD l List.mem_cons_self)
    have hrest : P s₀ l → (Always step P s₁ ls ↔ ∀ l ∈ ls, Q l) := fun hP =>
      ih (hstep _ _ _ h₀ hP hs) (fun l hl => hD l (List.mem_cons_of_mem _ hl)) hrun
    rw [List.forall_mem_cons, ← hfirst]
    constructor
    · rintro ⟨hP, halways⟩
      exact ⟨hP, (hrest hP).mp (halways s₁ hs)⟩
    · rintro ⟨hP, hall⟩
      refine ⟨hP, fun s' hs' => ?_⟩
      obtain rfl := Option.some.inj (hs.symm.trans hs')
      exact (hrest hP).mpr hall

theorem reaches_run {ls : List L} (h : run step s₀ ls = some s) : Reaches step s₀ s := by
  induction ls generalizing s₀ with
  | nil =>
    obtain rfl : s₀ = s := Option.some.inj h
    exact ReachesBy.refl _
  | cons l ls ih =>
    obtain ⟨s₁, hs, hrun⟩ := Option.bind_eq_some_iff.mp h
    exact Relation.ReflTransGen.head ⟨l, trivial, hs⟩ (ih hrun)

theorem reachesBy_runBy [∀ s l, Decidable (C s l)] {ls : List L}
    (h : runBy step C s₀ ls = some s) : ReachesBy step C s₀ s := by
  induction ls generalizing s₀ with
  | nil =>
    obtain rfl : s₀ = s := Option.some.inj h
    exact ReachesBy.refl _
  | cons l ls ih =>
    simp only [runBy] at h
    split at h
    · rename_i hC
      obtain ⟨s₁, hs, hrun⟩ := Option.bind_eq_some_iff.mp h
      exact Relation.ReflTransGen.head ⟨l, hC, hs⟩ (ih hrun)
    · contradiction

/-- A run that can be evaluated reaches a state with any property that evaluates to true at its
end. -/
theorem reaches_of_run {ls : List L} {p : S → Bool} (h : (run step s₀ ls).any p = true) :
    ∃ s, Reaches step s₀ s ∧ p s = true := by
  obtain ⟨s, hs, hp⟩ := (Option.any_eq_true _ _).mp h
  exact ⟨s, reaches_run hs, hp⟩

theorem reachesBy_of_runBy [∀ s l, Decidable (C s l)] {ls : List L} {p : S → Bool}
    (h : (runBy step C s₀ ls).any p = true) : ∃ s, ReachesBy step C s₀ s ∧ p s = true := by
  obtain ⟨s, hs, hp⟩ := (Option.any_eq_true _ _).mp h
  exact ⟨s, reachesBy_runBy hs, hp⟩

end Lts
