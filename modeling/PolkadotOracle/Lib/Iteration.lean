import Mathlib.Data.Finmap
import Mathlib.Data.List.Sort

/-! A finite map whose entries are gone through in a fixed order of their keys. -/

namespace Iteration

variable {α γ : Type*} {β : α → Type*} [LinearOrder γ] {rank : α → γ}

/-- The entries come in the order of their keys. -/
def Ascending (rank : α → γ) (entries : List (Sigma β)) : Prop :=
  entries.Pairwise fun a b => rank a.1 < rank b.1

/-- A finite map can be gone through in the order of its keys. -/
theorem exists_ascending [DecidableEq α] (hrank : Function.Injective rank) (m : Finmap β) :
    ∃ order : AList β, order.toFinmap = m ∧ Ascending rank order.entries := by
  induction m using Finmap.induction_on with
  | H order =>
    let le (a b : Sigma β) : Prop := rank a.1 ≤ rank b.1
    have htotal : Std.Total le := ⟨fun a b => le_total _ _⟩
    have htrans : IsTrans (Sigma β) le := ⟨fun a b c => le_trans⟩
    have hperm := List.perm_insertionSort le order.entries
    have hnodup := (List.perm_nodupKeys hperm).mpr order.nodupKeys
    refine ⟨⟨order.entries.insertionSort le, hnodup⟩, AList.toFinmap_eq.mpr hperm, ?_⟩
    have hsorted := List.pairwise_insertionSort le order.entries
    refine (hsorted.and (List.nodupKeys_iff_pairwise.mp hnodup)).imp ?_
    rintro a b ⟨hle, hne⟩
    exact lt_of_le_of_ne hle fun hsame => hne (hrank hsame)

section Ascending

variable {entries before after : List (Sigma β)} {e e' : Sigma β}

theorem Ascending.split (h : Ascending rank entries) (he : e ∈ entries) :
    ∃ before after, entries = before ++ e :: after ∧ ∀ e' ∈ before, rank e'.1 < rank e.1 := by
  obtain ⟨before, after, rfl⟩ := List.append_of_mem he
  refine ⟨before, after, rfl, fun e' he' => ?_⟩
  exact (List.pairwise_append.mp h).2.2 e' he' e List.mem_cons_self

/-- An entry with a smaller key is on the way to the other. -/
theorem Ascending.mem_before (h : Ascending rank entries) (heq : entries = before ++ e :: after)
    (he' : e' ∈ entries) (hlt : rank e'.1 < rank e.1) : e' ∈ before := by
  subst heq
  rcases List.mem_append.mp he' with hmem | hmem
  · exact hmem
  · rcases List.mem_cons.mp hmem with rfl | hmem
    · exact absurd hlt (lt_irrefl _)
    · have hafter := (List.pairwise_cons.mp (List.pairwise_append.mp h).2.1).1 e' hmem
      exact absurd hlt (lt_asymm hafter)

end Ascending

end Iteration
