import PolkadotOracle.Lib.Lts
import PolkadotOracle.Lib.Store

/-! Concurrent updates of one key of a store.  A run reads what is under the key, makes a value of
it or fails, and writes the value only if the key still has what was read.  In every interleaving
the writes are linked: each has read what the one before it wrote. -/

namespace Mutate

variable {K V ι E W : Type}

/-- An update of a key: the value that a run with some input makes of what it reads, and how the
value is written. -/
structure Update (K V ι E W : Type) where
  key : K
  value : ι → Option V → Except E W
  encode : W → V

inductive MutateError (E W : Type)
  | valueFunctionFailed (error : E)
  | concurrentModification (value : W)

inductive Phase (V E W : Type)
  | reading
  | writing (orig : Option V) (value : W)
  | returned (result : Except (MutateError E W) W)

structure Run (V ι E W : Type) where
  input : ι
  phase : Phase V E W

/-- A write that has succeeded: its run, and what the run has read and written. -/
structure Write (V ι W : Type) where
  run : Nat
  input : ι
  orig : Option V
  value : W

/-- The store, the runs, and the writes so far, which no step reads. -/
structure State (K V ι E W : Type) where
  store : Store K V
  runs : List (Run V ι E W)
  writes : List (Write V ι W)

def State.init (store : Store K V) : State K V ι E W := ⟨store, [], []⟩

def State.setRun (s : State K V ι E W) (i : Nat) (run : Run V ι E W) : State K V ι E W :=
  { s with runs := s.runs.set i run }

/-- A new run starts, a run takes one of its two steps, or something else writes another key. -/
inductive Label (K V ι : Type)
  | start (input : ι)
  | read (i : Nat)
  | write (i : Nat)
  | other (key : K) (v : V)

/-- Where a run is once it has read. -/
def Update.afterRead (u : Update K V ι E W) (input : ι) (orig : Option V) : Phase V E W :=
  match u.value input orig with
  | .ok value => .writing orig value
  | .error error => .returned (.error (.valueFunctionFailed error))

variable {u : Update K V ι E W}

/-! ### Linked writes -/

/-- The first write has read `first`, each other one what the one before it wrote, and `last` is
what is there after them. -/
def Linked (u : Update K V ι E W) : Option V → List (Write V ι W) → Option V → Prop
  | first, [], last => first = last
  | first, w :: ws, last => w.orig = first ∧ Linked u (some (u.encode w.value)) ws last

theorem Linked.concat {first last : Option V} {ws : List (Write V ι W)} {w : Write V ι W}
    (h : Linked u first ws last) (hw : w.orig = last) :
    Linked u first (ws ++ [w]) (some (u.encode w.value)) := by
  induction ws generalizing first with
  | nil =>
    have hfirst : first = last := h
    exact ⟨hw.trans hfirst.symm, rfl⟩
  | cons w' ws ih => exact ⟨h.1, ih h.2⟩

/-- A transitive relation between writes that follow one another is one between all of them. -/
theorem Linked.pairwise {R : Write V ι W → Write V ι W → Prop} {first last : Option V}
    {ws : List (Write V ι W)} (h : Linked u first ws last)
    (htrans : ∀ a b c, R a b → R b c → R a c)
    (hR : ∀ a ∈ ws, ∀ b ∈ ws, b.orig = some (u.encode a.value) → R a b) : ws.Pairwise R := by
  have hchain : ws.IsChain R := by
    induction ws generalizing first with
    | nil => exact .nil
    | cons w ws ih =>
      have hrest := ih h.2 fun a ha b hb =>
        hR a (List.mem_cons_of_mem w ha) b (List.mem_cons_of_mem w hb)
      cases ws with
      | nil => exact .singleton w
      | cons w' ws =>
        have hnext := hR w List.mem_cons_self w' (List.mem_cons_of_mem w List.mem_cons_self) h.2.1
        exact .cons_cons hnext hrest
  have : IsTrans _ R := ⟨htrans⟩
  exact hchain.pairwise

/-! ### The invariant -/

/-- The writes are linked, from what was under the key at first to what is there now; a run that is
about to write has made its value of what it has read; and the writes belong to the runs that have
returned a value, one to each. -/
structure Inv (u : Update K V ι E W) (P : ι → Prop) (first : Option V)
    (s : State K V ι E W) : Prop where
  linked : Linked u first s.writes (s.store.get u.key)
  inputs : ∀ run ∈ s.runs, P run.input
  computed : ∀ (i : Nat) (input : ι) (orig : Option V) (value : W),
    s.runs[i]? = some ⟨input, .writing orig value⟩ → u.value input orig = .ok value
  valid : ∀ w ∈ s.writes, u.value w.input w.orig = .ok w.value
  writer : ∀ w ∈ s.writes, s.runs[w.run]? = some ⟨w.input, .returned (.ok w.value)⟩
  written : ∀ (i : Nat) (input : ι) (value : W),
    s.runs[i]? = some ⟨input, .returned (.ok value)⟩ → ∃ w ∈ s.writes, w.run = i
  nodup : (s.writes.map Write.run).Nodup

variable {P : ι → Prop} {first : Option V} {s : State K V ι E W}

theorem lookup_setRun {i j : Nat} {run run' old : Run V ι E W} (hold : s.runs[i]? = some old) :
    (s.setRun i run).runs[j]? = some run' ↔
      j = i ∧ run' = run ∨ j ≠ i ∧ s.runs[j]? = some run' := by
  obtain ⟨hi, -⟩ := List.getElem?_eq_some_iff.mp hold
  by_cases hj : j = i
  · subst hj
    rw [State.setRun, List.getElem?_set_self hi]
    simp [eq_comm]
  · rw [State.setRun, List.getElem?_set_ne (Ne.symm hj)]
    simp [hj]

theorem Inv.init {store : Store K V} : Inv u P (store.get u.key) (State.init store) where
  linked := rfl
  inputs := by simp [State.init]
  computed := by simp [State.init]
  valid := by simp [State.init]
  writer := by simp [State.init]
  written := by simp [State.init]
  nodup := .nil

theorem Inv.start (h : Inv u P first s) {input : ι} (hinput : P input) :
    Inv u P first { s with runs := s.runs ++ [⟨input, .reading⟩] } := by
  have hlookup : ∀ {i : Nat} {run : Run V ι E W}, (s.runs ++ [⟨input, .reading⟩])[i]? = some run →
      s.runs[i]? = some run ∨ run = ⟨input, .reading⟩ := by
    intro i run hrun
    rw [List.getElem?_append] at hrun
    split at hrun
    · exact .inl hrun
    · exact .inr (List.mem_singleton.mp (List.mem_of_getElem? hrun))
  constructor
  case linked => exact h.linked
  case inputs =>
    intro run hrun
    rcases List.mem_append.mp hrun with hold | hnew
    · exact h.inputs run hold
    · rw [List.mem_singleton.mp hnew]
      exact hinput
  case computed =>
    intro i input' orig value hrun
    rcases hlookup hrun with hold | hnew
    · exact h.computed i input' orig value hold
    · exact absurd (Run.mk.inj hnew).2 (by simp)
  case valid => exact h.valid
  case writer =>
    intro w hw
    have hrun := h.writer w hw
    obtain ⟨hi, -⟩ := List.getElem?_eq_some_iff.mp hrun
    exact (List.getElem?_append_left hi).trans hrun
  case written =>
    intro i input' value hrun
    rcases hlookup hrun with hold | hnew
    · exact h.written i input' value hold
    · exact absurd (Run.mk.inj hnew).2 (by simp)
  case nodup => exact h.nodup

/-- A run that has not returned a value has not written. -/
theorem Inv.not_writer (h : Inv u P first s) {i : Nat} {run : Run V ι E W}
    (hrun : s.runs[i]? = some run) (hphase : ∀ value, run.phase ≠ .returned (.ok value)) :
    ∀ w ∈ s.writes, w.run ≠ i := by
  rintro w hw rfl
  have hsame : run = ⟨w.input, .returned (.ok w.value)⟩ :=
    Option.some.inj (hrun.symm.trans (h.writer w hw))
  exact hphase w.value (congrArg Run.phase hsame)

theorem inputs_setRun {i : Nat} {input : ι} {phase : Phase V E W} (hinput : P input)
    (h : ∀ run ∈ s.runs, P run.input) : ∀ run ∈ (s.setRun i ⟨input, phase⟩).runs, P run.input := by
  intro run hmem
  rcases List.mem_or_eq_of_mem_set hmem with hold | rfl
  · exact h run hold
  · exact hinput

/-- A step of a run that does not write, before and after which it has returned no value. -/
theorem Inv.setRun (h : Inv u P first s) {i : Nat} {input : ι} {phase phase' : Phase V E W}
    (hrun : s.runs[i]? = some ⟨input, phase⟩) (hphase : ∀ value, phase ≠ .returned (.ok value))
    (hphase' : ∀ value, phase' ≠ .returned (.ok value))
    (hcomputed : ∀ orig value, phase' = .writing orig value → u.value input orig = .ok value) :
    Inv u P first (s.setRun i ⟨input, phase'⟩) := by
  constructor
  case linked => exact h.linked
  case inputs => exact inputs_setRun (h.inputs _ (List.mem_of_getElem? hrun)) h.inputs
  case computed =>
    intro j input' orig value hj
    rcases (lookup_setRun hrun).mp hj with ⟨-, heq⟩ | ⟨-, hold⟩
    · obtain ⟨rfl, hwriting⟩ := Run.mk.inj heq
      exact hcomputed orig value hwriting.symm
    · exact h.computed j input' orig value hold
  case valid => exact h.valid
  case writer =>
    intro w hw
    exact (lookup_setRun hrun).mpr (.inr ⟨h.not_writer hrun hphase w hw, h.writer w hw⟩)
  case written =>
    intro j input' value hj
    rcases (lookup_setRun hrun).mp hj with ⟨-, heq⟩ | ⟨-, hold⟩
    · exact absurd (Run.mk.inj heq).2.symm (hphase' value)
    · exact h.written j input' value hold
  case nodup => exact h.nodup

/-! ### Steps -/

variable [DecidableEq K] [DecidableEq V] {s' : State K V ι E W}

def step (u : Update K V ι E W) (s : State K V ι E W) :
    Label K V ι → Option (State K V ι E W)
  | .start input => some { s with runs := s.runs ++ [⟨input, .reading⟩] }
  | .read i =>
    match s.runs[i]? with
    | some ⟨input, .reading⟩ =>
      some (s.setRun i ⟨input, u.afterRead input (s.store.get u.key)⟩)
    | _ => none
  | .write i =>
    match s.runs[i]? with
    | some ⟨input, .writing orig value⟩ =>
      let (store, isSet) := s.store.compareAndSet u.key orig (u.encode value)
      if isSet then some {
        store
        runs := s.runs.set i ⟨input, .returned (.ok value)⟩
        writes := s.writes ++ [⟨i, input, orig, value⟩] }
      else some (s.setRun i ⟨input, .returned (.error (.concurrentModification value))⟩)
    | _ => none
  | .other key v => if key = u.key then none else some { s with store := s.store.set key v }

/-- Everything that a step can do. -/
inductive Step (u : Update K V ι E W) (s : State K V ι E W) :
    Label K V ι → State K V ι E W → Prop
  | start (input : ι) : Step u s (.start input) { s with runs := s.runs ++ [⟨input, .reading⟩] }
  | read {i : Nat} {input : ι} (hrun : s.runs[i]? = some ⟨input, .reading⟩) :
      Step u s (.read i) (s.setRun i ⟨input, u.afterRead input (s.store.get u.key)⟩)
  | written {i : Nat} {input : ι} {orig : Option V} {value : W}
      (hrun : s.runs[i]? = some ⟨input, .writing orig value⟩) (horig : s.store.get u.key = orig) :
      Step u s (.write i)
        { store := s.store.set u.key (u.encode value)
          runs := s.runs.set i ⟨input, .returned (.ok value)⟩
          writes := s.writes ++ [⟨i, input, orig, value⟩] }
  | lost {i : Nat} {input : ι} {orig : Option V} {value : W}
      (hrun : s.runs[i]? = some ⟨input, .writing orig value⟩) :
      Step u s (.write i)
        (s.setRun i ⟨input, .returned (.error (.concurrentModification value))⟩)
  | other {key : K} {v : V} (hkey : key ≠ u.key) :
      Step u s (.other key v) { s with store := s.store.set key v }

theorem step_sound {l : Label K V ι} (h : step u s l = some s') : Step u s l s' := by
  cases l with
  | start input =>
    obtain rfl := Option.some.inj h
    exact .start input
  | read i =>
    simp only [step] at h
    split at h
    next input hrun =>
      obtain rfl := Option.some.inj h
      exact .read hrun
    next => contradiction
  | write i =>
    simp only [step] at h
    split at h
    next input orig value hrun =>
      by_cases horig : s.store.get u.key = orig
      · rw [Store.compareAndSet_hit _ horig] at h
        obtain rfl := Option.some.inj h
        exact .written hrun horig
      · rw [Store.compareAndSet_miss _ horig] at h
        obtain rfl := Option.some.inj h
        exact .lost hrun
    next => contradiction
  | other key v =>
    by_cases hkey : key = u.key
    · rw [step, if_pos hkey] at h
      contradiction
    · rw [step, if_neg hkey] at h
      obtain rfl := Option.some.inj h
      exact .other hkey

/-! ### Runs -/

omit [DecidableEq V] in
/-- A write that succeeds. -/
theorem Inv.write (h : Inv u P first s) {i : Nat} {input : ι} {orig : Option V} {value : W}
    (hrun : s.runs[i]? = some ⟨input, .writing orig value⟩) (horig : s.store.get u.key = orig) :
    Inv u P first
      { store := s.store.set u.key (u.encode value)
        runs := s.runs.set i ⟨input, .returned (.ok value)⟩
        writes := s.writes ++ [⟨i, input, orig, value⟩] } := by
  have hnot := h.not_writer hrun (by simp)
  constructor
  case linked =>
    rw [Store.get_set_same]
    exact h.linked.concat (w := ⟨i, input, orig, value⟩) horig.symm
  case inputs => exact inputs_setRun (h.inputs _ (List.mem_of_getElem? hrun)) h.inputs
  case computed =>
    intro j input' orig' value' hj
    rcases (lookup_setRun hrun).mp hj with ⟨-, heq⟩ | ⟨-, hold⟩
    · exact absurd (Run.mk.inj heq).2 (by simp)
    · exact h.computed j input' orig' value' hold
  case valid =>
    intro w hw
    rcases List.mem_append.mp hw with hold | hnew
    · exact h.valid w hold
    · rw [List.mem_singleton.mp hnew]
      exact h.computed i input orig value hrun
  case writer =>
    intro w hw
    rcases List.mem_append.mp hw with hold | hnew
    · exact (lookup_setRun hrun).mpr (.inr ⟨hnot w hold, h.writer w hold⟩)
    · rw [List.mem_singleton.mp hnew]
      exact (lookup_setRun hrun).mpr (.inl ⟨rfl, rfl⟩)
  case written =>
    intro j input' value' hj
    rcases (lookup_setRun hrun).mp hj with ⟨rfl, -⟩ | ⟨-, hold⟩
    · exact ⟨_, List.mem_append_right _ List.mem_cons_self, rfl⟩
    · obtain ⟨w, hw, hwrun⟩ := h.written j input' value' hold
      exact ⟨w, List.mem_append_left _ hw, hwrun⟩
  case nodup =>
    rw [List.map_append, List.map_singleton]
    apply List.nodup_append.mpr
    refine ⟨h.nodup, List.nodup_singleton i, ?_⟩
    intro j hj k hk
    obtain ⟨w, hw, rfl⟩ := List.mem_map.mp hj
    rw [List.mem_singleton.mp hk]
    exact hnot w hw

omit [DecidableEq V] in
/-- What else is written leaves the key alone. -/
theorem Inv.other (h : Inv u P first s) {key : K} {v : V} (hkey : key ≠ u.key) :
    Inv u P first { s with store := s.store.set key v } where
  linked := by
    rw [Store.get_set_ne _ _ hkey.symm]
    exact h.linked
  inputs := h.inputs
  computed := h.computed
  valid := h.valid
  writer := h.writer
  written := h.written
  nodup := h.nodup

/-- The input that a label starts a run with, if any, has the property. -/
def Label.Inputs (P : ι → Prop) : Label K V ι → Prop
  | .start input => P input
  | _ => True

theorem Inv.step {l : Label K V ι} (h : Inv u P first s) (hl : l.Inputs P)
    (hstep : Mutate.step u s l = some s') : Inv u P first s' := by
  cases step_sound hstep with
  | start input => exact h.start hl
  | @read i input hrun =>
    apply h.setRun hrun (by simp)
    · intro value
      unfold Update.afterRead
      split <;> simp
    · intro orig value hwriting
      unfold Update.afterRead at hwriting
      split at hwriting
      next value' hvalue =>
        obtain ⟨rfl, rfl⟩ := Phase.writing.inj hwriting
        exact hvalue
      next => contradiction
  | written hrun horig => exact h.write hrun horig
  | lost hrun => exact h.setRun hrun (by simp) (by simp) (by simp)
  | other hkey => exact h.other hkey

/-- The invariant holds in every state that runs with such inputs reach, in any interleaving. -/
theorem inv_of_reaches {store : Store K V}
    (h : Lts.ReachesBy (step u) (fun _ l => l.Inputs P) (State.init store) s) :
    Inv u P (store.get u.key) s :=
  h.invariant .init fun _ _ _ hinv hl hstep => hinv.step hl hstep

end Mutate
