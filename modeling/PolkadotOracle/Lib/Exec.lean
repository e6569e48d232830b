import Mathlib.Tactic.Common

/-! Computations that return a value or stop with an error, with a state or without one, and those
that may not return: what each of their building blocks does. -/

namespace Exec

variable {ε σ α β : Type}

@[simp] theorem bind_apply (x : EStateM ε σ α) (f : α → EStateM ε σ β) (s : σ) :
    (x >>= f) s = match x s with
      | .ok a s' => f a s'
      | .error e s' => .error e s' := by
  show EStateM.bind x f s = _
  unfold EStateM.bind
  cases x s <;> rfl

@[simp] theorem pure_apply (a : α) (s : σ) : (pure a : EStateM ε σ α) s = .ok a s := rfl

@[simp] theorem throw_apply (e : ε) (s : σ) : (throw e : EStateM ε σ α) s = .error e s := rfl

@[simp] theorem get_apply (s : σ) : (get : EStateM ε σ σ) s = .ok s s := rfl

@[simp] theorem modify_apply (f : σ → σ) (s : σ) :
    (modify f : EStateM ε σ Unit) s = .ok () (f s) := rfl

/-- The error with which a computation stopped, if it did. -/
def error {α : Type} : EStateM.Result ε σ α → Option ε
  | .ok _ _ => none
  | .error e _ => some e

@[simp] theorem error_ok (a : α) (s : σ) : error (.ok a s : EStateM.Result ε σ α) = none := rfl

@[simp] theorem error_error (e : ε) (s : σ) :
    error (.error e s : EStateM.Result ε σ α) = some e := rfl

/-- The state that a computation leaves. -/
def final {α : Type} : EStateM.Result ε σ α → σ
  | .ok _ s => s
  | .error _ s => s

@[simp] theorem final_ok (a : α) (s : σ) : final (.ok a s : EStateM.Result ε σ α) = s := rfl

@[simp] theorem final_error (e : ε) (s : σ) :
    final (.error e s : EStateM.Result ε σ α) = s := rfl

/-! ### The errors that a computation can stop with -/

/-- Every error with which a computation stops, from any state, has a property. -/
def ErrorsIn (E : ε → Prop) (x : EStateM ε σ α) : Prop :=
  ∀ s e s', x s = .error e s' → E e

section ErrorsIn

variable {E : ε → Prop}

theorem errorsIn_pure (a : α) : ErrorsIn E (pure a : EStateM ε σ α) := by
  intro s e s' h
  simp at h

theorem errorsIn_get : ErrorsIn E (get : EStateM ε σ σ) := by
  intro s e s' h
  simp at h

theorem errorsIn_modify (f : σ → σ) : ErrorsIn E (modify f : EStateM ε σ Unit) := by
  intro s e s' h
  simp at h

theorem errorsIn_throw {e : ε} (he : E e) : ErrorsIn E (throw e : EStateM ε σ α) := by
  intro s e' s' h
  obtain ⟨rfl, -⟩ := EStateM.Result.error.inj h
  exact he

theorem ErrorsIn.bind {x : EStateM ε σ α} {f : α → EStateM ε σ β} (hx : ErrorsIn E x)
    (hf : ∀ a, ErrorsIn E (f a)) : ErrorsIn E (x >>= f) := by
  intro s e s' h
  rw [bind_apply] at h
  cases hxs : x s with
  | ok a s₁ =>
    rw [hxs] at h
    exact hf a s₁ e s' h
  | error e₁ s₁ =>
    rw [hxs] at h
    obtain ⟨rfl, rfl⟩ := EStateM.Result.error.inj h
    exact hx s e₁ s₁ hxs

end ErrorsIn

/-! ### Computations without a state -/

@[simp] theorem ok_bind (a : α) (f : α → Except ε β) : (Except.ok a >>= f) = f a := rfl

theorem bind_eq_ok {x : Except ε α} {f : α → Except ε β} {b : β} (h : x >>= f = .ok b) :
    ∃ a, x = .ok a ∧ f a = .ok b := by
  cases x with
  | error e => contradiction
  | ok a => exact ⟨a, rfl, h⟩

theorem bind_eq_ok_iff {x : Except ε α} {f : α → Except ε β} {b : β} :
    x >>= f = .ok b ↔ ∃ a, x = .ok a ∧ f a = .ok b := by
  refine ⟨bind_eq_ok, ?_⟩
  rintro ⟨a, rfl, h⟩
  exact h

/-- A loop that appends what it takes from each item, and stops at an item that it cannot take. -/
theorem foldlM_append_iff {ι : Type} {step : List β → ι → Except ε (List β)} {P : ι → Prop}
    {g : ι → Option β}
    (h : ∀ l i l', step l i = .ok l' ↔ P i ∧ l' = l ++ (g i).toList) (is : List ι)
    {l l' : List β} :
    is.foldlM step l = .ok l' ↔ (∀ i ∈ is, P i) ∧ l' = l ++ is.filterMap g := by
  induction is generalizing l with
  | nil => simp [pure, Except.pure, eq_comm]
  | cons i is ih =>
    have happend : l ++ (g i).toList ++ is.filterMap g = l ++ (i :: is).filterMap g := by
      cases hi : g i <;> simp [hi]
    rw [List.foldlM_cons, bind_eq_ok_iff, List.forall_mem_cons, ← happend]
    simp only [h, ih]
    constructor
    · rintro ⟨_, ⟨hi, rfl⟩, his, rfl⟩
      exact ⟨⟨hi, his⟩, rfl⟩
    · rintro ⟨⟨hi, his⟩, rfl⟩
      exact ⟨_, ⟨hi, rfl⟩, his, rfl⟩

/-! ### Computations that may not return -/

/-- A computation that returns a value, stops with an error, or runs forever. -/
abbrev Run (ε : Type) := ExceptT ε Option

def Returns (x : Run ε α) (a : α) : Prop := x.run = some (.ok a)

def Raises (x : Run ε α) (e : ε) : Prop := x.run = some (.error e)

def Diverges (x : Run ε α) : Prop := x.run = none

instance [DecidableEq ε] [DecidableEq α] (x : Run ε α) (e : ε) : Decidable (Raises x e) :=
  inferInstanceAs (Decidable (x.run = some (.error e)))

section Run

variable {x : Run ε α} {f : α → Run ε β} {a : α} {b : β} {e : ε}

theorem Raises.not_returns (h : Raises x e) : ¬Returns x a := by
  intro hreturns
  rw [Raises, hreturns] at h
  exact nomatch Option.some.inj h

theorem returns_or_raises (x : Run ε α) :
    (∃ a, Returns x a) ∨ (∃ e, Raises x e) ∨ Diverges x := by
  unfold Returns Raises Diverges
  rcases x.run with _ | e | a <;> simp

theorem Returns.unique {a' : α} (h : Returns x a) (h' : Returns x a') : a = a' :=
  Except.ok.inj (Option.some.inj (h.symm.trans h'))

theorem returns_pure {a' : α} : Returns (pure a' : Run ε α) a ↔ a' = a := by
  simp [Returns]

theorem returns_liftM {y : Except ε α} : Returns (liftM y : Run ε α) a ↔ y = .ok a := by
  show some y = some (.ok a) ↔ _
  rw [Option.some.injEq]

theorem returns_bind : Returns (x >>= f) b ↔ ∃ a, Returns x a ∧ Returns (f a) b := by
  unfold Returns
  rw [ExceptT.run_bind]
  rcases hx : x.run with _ | e | a <;> simp

theorem raises_pure : ¬ Raises (pure a : Run ε α) e := by
  simp [Raises]

theorem raises_liftM {y : Except ε α} : Raises (liftM y : Run ε α) e ↔ y = .error e := by
  show some y = some (.error e) ↔ _
  rw [Option.some.injEq]

theorem raises_bind : Raises (x >>= f) e ↔ Raises x e ∨ ∃ a, Returns x a ∧ Raises (f a) e := by
  unfold Raises Returns
  rw [ExceptT.run_bind]
  rcases hx : x.run with _ | e' | a <;> simp

/-- Other errors in the place of its own leave its values as they are. -/
theorem returns_adapt {ε' : Type} {g : ε → ε'} : Returns (x.adapt g) a ↔ Returns x a := by
  unfold Returns
  rw [ExceptT.run_adapt]
  rcases hx : x.run with _ | e | a <;> simp [Except.mapError]

theorem raises_adapt {ε' : Type} {g : ε → ε'} {e' : ε'} :
    Raises (x.adapt g) e' ↔ ∃ e, Raises x e ∧ g e = e' := by
  unfold Raises
  rw [ExceptT.run_adapt]
  rcases hx : x.run with _ | e | a <;> simp [Except.mapError]

end Run

end Exec
