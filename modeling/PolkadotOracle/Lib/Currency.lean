import Mathlib.Algebra.BigOperators.Finprod

/-! A currency whose accounts have a free and a reserved balance: its operations, the laws that they
obey, what each does to the total of all balances, and a ledger that obeys the laws. -/

/-- The operations of a currency.  `reserve` fails or moves funds from free to reserved; `unreserve`
moves them back and returns what it could not move; `slashReserved` takes them out of the reserve
and returns the imbalance and what it could not take; `resolveCreating` deposits an imbalance. -/
structure Currency (A : Type) where
  Ledger : Type
  minimumBalance : Nat
  free : Ledger → A → Nat
  reserved : Ledger → A → Nat
  reserve : Ledger → A → Nat → Option Ledger
  unreserve : Ledger → A → Nat → Ledger × Nat
  slashReserved : Ledger → A → Nat → (Ledger × Nat) × Nat
  resolveCreating : Ledger → A → Nat → Ledger
  makeFreeBalanceBe : Ledger → A → Nat → Ledger

namespace Currency

variable {A : Type} {C : Currency A}

/-- The ledgers agree on the account `a`. -/
def SameAt (C : Currency A) (l l' : C.Ledger) (a : A) : Prop :=
  C.free l' a = C.free l a ∧ C.reserved l' a = C.reserved l a

/-- The operations move what they say, on the account that they name and on no other.  An imbalance
reaches an account whose free balance is at least the minimum. -/
structure Lawful (C : Currency A) : Prop where
  finite : ∀ l, (Function.support fun a => C.free l a + C.reserved l a).Finite
  reserve : ∀ {l a n l'}, C.reserve l a n = some l' →
    C.free l' a + n = C.free l a ∧ C.reserved l' a = C.reserved l a + n ∧
      ∀ b ≠ a, C.SameAt l l' b
  unreserve : ∀ l a n,
    C.free (C.unreserve l a n).1 a = C.free l a + min n (C.reserved l a) ∧
    C.reserved (C.unreserve l a n).1 a + min n (C.reserved l a) = C.reserved l a ∧
    ∀ b ≠ a, C.SameAt l (C.unreserve l a n).1 b
  slashReserved : ∀ l a n,
    (C.slashReserved l a n).1.2 = min n (C.reserved l a) ∧
    C.free (C.slashReserved l a n).1.1 a = C.free l a ∧
    C.reserved (C.slashReserved l a n).1.1 a + min n (C.reserved l a) = C.reserved l a ∧
    ∀ b ≠ a, C.SameAt l (C.slashReserved l a n).1.1 b
  resolveCreating : ∀ l a n, C.minimumBalance ≤ C.free l a →
    C.free (C.resolveCreating l a n) a = C.free l a + n
  resolveCreating_frame : ∀ l a n, C.reserved (C.resolveCreating l a n) a = C.reserved l a ∧
    ∀ b ≠ a, C.SameAt l (C.resolveCreating l a n) b
  makeFreeBalanceBe : ∀ l a n, C.minimumBalance ≤ n →
    C.free (C.makeFreeBalanceBe l a n) a = n

/-- The sum of the free and reserved balances of all accounts. -/
noncomputable def total (C : Currency A) (l : C.Ledger) : Nat :=
  finsum fun a => C.free l a + C.reserved l a

namespace Lawful

/-- The total changes by what the one account changes that the ledgers do not agree on. -/
theorem total_change (h : C.Lawful) {l l' : C.Ledger} {a : A} (hsame : ∀ b ≠ a, C.SameAt l l' b) :
    C.total l' + (C.free l a + C.reserved l a) = C.total l + (C.free l' a + C.reserved l' a) := by
  have hbefore := add_finsum_cond_ne a (h.finite l)
  have hafter := add_finsum_cond_ne a (h.finite l')
  have hrest : (finsum fun b => finsum fun _ : b ≠ a => C.free l' b + C.reserved l' b) =
      finsum fun b => finsum fun _ : b ≠ a => C.free l b + C.reserved l b := by
    refine finsum_congr fun b => finsum_congr fun hb => ?_
    rw [(hsame b hb).1, (hsame b hb).2]
  simp only [total]
  omega

theorem slashReserved_free (h : C.Lawful) (l : C.Ledger) (a : A) (n : Nat) (b : A) :
    C.free (C.slashReserved l a n).1.1 b = C.free l b := by
  obtain ⟨-, hself, -, hothers⟩ := h.slashReserved l a n
  by_cases hb : b = a
  · rw [hb]
    exact hself
  · exact (hothers b hb).1

theorem resolveCreating_reserved (h : C.Lawful) (l : C.Ledger) (a : A) (n : Nat) (b : A) :
    C.reserved (C.resolveCreating l a n) b = C.reserved l b := by
  obtain ⟨hself, hothers⟩ := h.resolveCreating_frame l a n
  by_cases hb : b = a
  · rw [hb]
    exact hself
  · exact (hothers b hb).2

theorem total_reserve (h : C.Lawful) {l l' : C.Ledger} {a : A} {n : Nat}
    (hreserve : C.reserve l a n = some l') : C.total l' = C.total l := by
  obtain ⟨hfree, hreserved, hsame⟩ := h.reserve hreserve
  have hchange := h.total_change hsame
  omega

theorem total_unreserve (h : C.Lawful) (l : C.Ledger) (a : A) (n : Nat) :
    C.total (C.unreserve l a n).1 = C.total l := by
  obtain ⟨hfree, hreserved, hsame⟩ := h.unreserve l a n
  have hchange := h.total_change hsame
  omega

/-- What is taken out of a reserve leaves the total until it is deposited. -/
theorem total_slashReserved (h : C.Lawful) (l : C.Ledger) (a : A) (n : Nat) :
    C.total (C.slashReserved l a n).1.1 + (C.slashReserved l a n).1.2 = C.total l := by
  obtain ⟨himbalance, hfree, hreserved, hsame⟩ := h.slashReserved l a n
  have hchange := h.total_change hsame
  omega

theorem total_resolveCreating (h : C.Lawful) {l : C.Ledger} {a : A} (n : Nat)
    (hmin : C.minimumBalance ≤ C.free l a) :
    C.total (C.resolveCreating l a n) = C.total l + n := by
  obtain ⟨hreserved, hsame⟩ := h.resolveCreating_frame l a n
  have hfree := h.resolveCreating l a n hmin
  have hchange := h.total_change hsame
  omega

end Lawful

end Currency

/-! ### A ledger -/

/-- The balances of all accounts, of which finitely many have any. -/
structure Book (A : Type) where
  free : A → Nat
  reserved : A → Nat
  finite : (Function.support fun a => free a + reserved a).Finite

namespace Book

variable {A : Type} [DecidableEq A]

def empty : Book A := ⟨fun _ => 0, fun _ => 0, by simp⟩

/-- The book after an account's balances are set. -/
def set (b : Book A) (a : A) (free reserved : Nat) : Book A where
  free := Function.update b.free a free
  reserved := Function.update b.reserved a reserved
  finite := by
    refine (b.finite.insert a).subset fun c hc => ?_
    by_cases hca : c = a
    · exact Set.mem_insert_iff.mpr (.inl hca)
    · refine Set.mem_insert_iff.mpr (.inr ?_)
      simpa [Function.update_of_ne hca] using hc

section Set

variable (b : Book A) (a : A) (free reserved : Nat)

@[simp] theorem free_set_same : (b.set a free reserved).free a = free := Function.update_self ..

@[simp] theorem reserved_set_same : (b.set a free reserved).reserved a = reserved :=
  Function.update_self ..

theorem free_set_ne {c : A} (h : c ≠ a) : (b.set a free reserved).free c = b.free c :=
  Function.update_of_ne h ..

theorem reserved_set_ne {c : A} (h : c ≠ a) :
    (b.set a free reserved).reserved c = b.reserved c :=
  Function.update_of_ne h ..

end Set

/-- The currency of the books in which a reserve leaves at least the minimum balance free, and an
account without any balance takes no deposit below it. -/
def currency (A : Type) [DecidableEq A] (minimumBalance : Nat) : Currency A where
  Ledger := Book A
  minimumBalance
  free := free
  reserved := reserved
  reserve b a n :=
    if n + minimumBalance ≤ b.free a then some (b.set a (b.free a - n) (b.reserved a + n))
    else none
  unreserve b a n :=
    let moved := min n (b.reserved a)
    (b.set a (b.free a + moved) (b.reserved a - moved), n - moved)
  slashReserved b a n :=
    let taken := min n (b.reserved a)
    ((b.set a (b.free a) (b.reserved a - taken), taken), n - taken)
  resolveCreating b a n :=
    if b.free a + b.reserved a = 0 ∧ n < minimumBalance then b
    else b.set a (b.free a + n) (b.reserved a)
  makeFreeBalanceBe b a n :=
    if b.free a + b.reserved a = 0 ∧ n < minimumBalance then b else b.set a n (b.reserved a)

section Currency

variable {A : Type} [DecidableEq A] {minimumBalance : Nat}

theorem sameAt_set (b : Book A) (a : A) (free reserved : Nat) :
    ∀ c ≠ a, (currency A minimumBalance).SameAt b (b.set a free reserved) c := by
  intro c hc
  exact ⟨b.free_set_ne a free reserved hc, b.reserved_set_ne a free reserved hc⟩

theorem currency_reserve {b b' : Book A} {a : A} {n : Nat}
    (h : (currency A minimumBalance).reserve b a n = some b') :
    n + minimumBalance ≤ b.free a ∧ b' = b.set a (b.free a - n) (b.reserved a + n) := by
  simp only [currency] at h
  split at h
  · rename_i hle
    exact ⟨hle, (Option.some.inj h).symm⟩
  · contradiction

/-- An account whose free balance is at least the minimum takes every deposit. -/
theorem currency_resolveCreating {b : Book A} {a : A} (n : Nat)
    (h : minimumBalance ≤ b.free a) :
    (currency A minimumBalance).resolveCreating b a n =
      b.set a (b.free a + n) (b.reserved a) := by
  simp only [currency]
  rw [if_neg]
  rintro ⟨hzero, hlt⟩
  omega

theorem currency_lawful (A : Type) [DecidableEq A] (minimumBalance : Nat) :
    (currency A minimumBalance).Lawful where
  finite := Book.finite
  reserve := by
    intro (b : Book A) a n (b' : Book A) h
    obtain ⟨hle, rfl⟩ := currency_reserve h
    have hfree : (b.set a (b.free a - n) (b.reserved a + n)).free a + n = b.free a := by
      rw [free_set_same]
      omega
    exact ⟨hfree, b.reserved_set_same a (b.free a - n) (b.reserved a + n), sameAt_set b a _ _⟩
  unreserve := by
    intro (b : Book A) a n
    let moved := min n (b.reserved a)
    have hreserved : (b.set a (b.free a + moved) (b.reserved a - moved)).reserved a + moved =
        b.reserved a := by
      rw [reserved_set_same]
      omega
    exact ⟨b.free_set_same a (b.free a + moved) (b.reserved a - moved), hreserved,
      sameAt_set b a _ _⟩
  slashReserved := by
    intro (b : Book A) a n
    let taken := min n (b.reserved a)
    have hreserved : (b.set a (b.free a) (b.reserved a - taken)).reserved a + taken =
        b.reserved a := by
      rw [reserved_set_same]
      omega
    exact ⟨rfl, b.free_set_same a (b.free a) (b.reserved a - taken), hreserved,
      sameAt_set b a _ _⟩
  resolveCreating := by
    intro (b : Book A) a n h
    have hset : (currency A minimumBalance).resolveCreating b a n = _ :=
      currency_resolveCreating n h
    rw [hset]
    exact b.free_set_same a (b.free a + n) (b.reserved a)
  resolveCreating_frame := by
    intro (b : Book A) a n
    simp only [currency]
    split
    · exact ⟨rfl, fun c _ => ⟨rfl, rfl⟩⟩
    · exact ⟨b.reserved_set_same a (b.free a + n) (b.reserved a), sameAt_set b a _ _⟩
  makeFreeBalanceBe := by
    intro (b : Book A) a n h
    have hmin : minimumBalance ≤ n := h
    simp only [currency]
    rw [if_neg]
    · exact b.free_set_same a n (b.reserved a)
    · rintro ⟨-, hlt⟩
      omega

end Currency

end Book
