import PolkadotOracle.Lib.Lts

/-! Journals of a chain.  A state holds the entries of its own block, and a new block clears them;
an observer that has kept those of the blocks before rebuilds from all of them what it wants to know
of the state. -/

namespace Journal

variable {S L E V : Type*}

/-- A state with the entries of the blocks before. -/
structure Observed (S E : Type*) where
  state : S
  archive : List E

/-- The entries of a state that are still there after a step. -/
def kept (entries : S → List E) (clears : L → Bool) (s : S) (l : L) : List E :=
  if clears l then [] else entries s

/-- A step of the system, before which the observer keeps the entries that the step clears. -/
def observe (step : S → L → Option S) (entries : S → List E) (clears : L → Bool)
    (x : Observed S E) (l : L) : Option (Observed S E) :=
  (step x.state l).map fun s =>
    ⟨s, if clears l then x.archive ++ entries x.state else x.archive⟩

/-- All entries up to now. -/
def Observed.journal (entries : S → List E) (x : Observed S E) : List E :=
  x.archive ++ entries x.state

variable {step : S → L → Option S} {entries : S → List E} {clears : L → Bool}
  {x x' : Observed S E} {s₀ : S}

theorem journal_observe {l : L} {new : List E} (h : observe step entries clears x l = some x')
    (hnew : entries x'.state = kept entries clears x.state l ++ new) :
    x'.journal entries = x.journal entries ++ new := by
  obtain ⟨s, -, rfl⟩ := Option.map_eq_some_iff.mp h
  unfold kept at hnew
  simp only [Observed.journal] at hnew ⊢
  rw [hnew]
  split <;> simp

/-- What holds of the journal and the state at the start, and is kept by every step with the entries
that it adds, holds at the end of every run. -/
theorem invariant {P : List E → S → Prop} (h₀ : entries s₀ = []) (hstart : P [] s₀)
    (hstep : ∀ s l s' j, P j s → step s l = some s' →
      ∃ new, entries s' = kept entries clears s l ++ new ∧ P (j ++ new) s')
    (h : Lts.Reaches (observe step entries clears) ⟨s₀, []⟩ x) :
    P (x.journal entries) x.state := by
  apply Lts.ReachesBy.invariant (I := fun x => P (x.journal entries) x.state) h
  · simpa [Observed.journal, h₀] using hstart
  · intro x l x' hP _ hx
    have hmove := hx
    obtain ⟨s', hs', rfl⟩ := Option.map_eq_some_iff.mp hx
    obtain ⟨new, hnew, hafter⟩ := hstep _ _ _ _ hP hs'
    rw [journal_observe hmove hnew]
    exact hafter

end Journal
