import Mathlib.Data.List.DropRight
import Mathlib.Data.List.Induction
import Mathlib.Data.List.Perm.Basic

/-! Buffers of a bounded size.  While there is room an item is added at the end, and then it is
written over the item in a slot of its own.  The buffer holds the last items exactly when it is
always the oldest of them that is overwritten. -/

namespace Buffer

variable {α : Type*} (size : Nat) (slot : α → Nat)

def push (l : List α) (a : α) : List α :=
  if l.length < size then l ++ [a] else l.set (slot a) a

def pushAll (as : List α) : List α := as.foldl (push size slot) []

variable {size slot} {as l t : List α} {a b : α}

theorem pushAll_concat (as : List α) (a : α) :
    pushAll size slot (as ++ [a]) = push size slot (pushAll size slot as) a := List.foldl_concat ..

theorem length_push : (push size slot l a).length =
    if l.length < size then l.length + 1 else l.length := by
  unfold push
  split <;> simp

theorem length_pushAll (as : List α) :
    (pushAll size slot as).length = min as.length size := by
  induction as using List.reverseRecOn with
  | nil => simp [pushAll]
  | append_singleton as a ih =>
    rw [pushAll_concat, length_push, ih, List.length_append, List.length_singleton]
    split <;> omega

theorem mem_push (hslot : slot a < size) : a ∈ push size slot l a := by
  unfold push
  split
  · simp
  · exact List.mem_set (by omega) a

/-- An item is written over one place at most. -/
theorem getElem?_push {i : Nat} (hi : i < l.length) (hne : i ≠ slot a) :
    (push size slot l a)[i]? = l[i]? := by
  unfold push
  split
  · exact List.getElem?_append_left hi
  · exact List.getElem?_set_ne hne.symm

/-! ### The last items -/

/-- The buffer holds the last items, in any order. -/
def Recent (size : Nat) (slot : α → Nat) (as : List α) : Prop :=
  (pushAll size slot as).Perm (as.rtake size)

/-- The oldest of the last items is in the slot of the next one. -/
def Oldest (size : Nat) (slot : α → Nat) (as : List α) (a : α) : Prop :=
  (pushAll size slot as)[slot a]? = as[as.length - size]?

theorem rtake_of_length_le (h : as.length ≤ size) : as.rtake size = as := by
  rw [List.rtake, Nat.sub_eq_zero_of_le h, List.drop_zero]

theorem pushAll_of_length_le (h : as.length ≤ size) : pushAll size slot as = as := by
  induction as using List.reverseRecOn with
  | nil => rfl
  | append_singleton as a ih =>
    rw [List.length_append, List.length_singleton] at h
    rw [pushAll_concat, ih (by omega), push, if_pos (by omega)]

theorem recent_of_length_le (h : as.length ≤ size) : Recent size slot as := by
  rw [Recent, pushAll_of_length_le h, rtake_of_length_le h]

/-- The last items begin with the oldest one, which is no longer among them after the next. -/
theorem rtake_concat (hsize : 0 < size) (h : size ≤ as.length) (a : α) :
    ∃ t, as.rtake size = as[as.length - size] :: t ∧ (as ++ [a]).rtake size = t ++ [a] := by
  have hnext : (as ++ [a]).length - size = as.length - size + 1 := by
    rw [List.length_append, List.length_singleton]
    omega
  refine ⟨as.drop (as.length - size + 1), List.drop_eq_getElem_cons _, ?_⟩
  rw [List.rtake, hnext, List.drop_append_of_le_length (by omega)]

/-- A place of a list is overwritten, and the list stays equal to another up to the order when this
loses the item that was there. -/
theorem set_perm_iff {i : Nat} (hi : i < l.length) (h : l.Perm (b :: t)) :
    (l.set i a).Perm (t ++ [a]) ↔ l[i] = b := by
  have hset : (l.set i a).Perm (a :: l.eraseIdx i) := List.set_perm_cons_eraseIdx hi a
  have hget : (l[i] :: l.eraseIdx i).Perm (b :: t) := (List.getElem_cons_eraseIdx_perm hi).trans h
  have hlast : (t ++ [a]).Perm (a :: t) := List.perm_append_singleton a t
  constructor
  · intro hperm
    have herase : (l.eraseIdx i).Perm t :=
      (List.perm_cons a).mp ((hset.symm.trans hperm).trans hlast)
    have hitems : ([l[i]] ++ t).Perm ([b] ++ t) := (herase.symm.cons _).trans hget
    exact List.singleton_perm_singleton.mp ((List.perm_append_right_iff t).mp hitems)
  · intro hitem
    rw [hitem] at hget
    have herase : (l.eraseIdx i).Perm t := (List.perm_cons b).mp hget
    exact (hset.trans (herase.cons a)).trans hlast.symm

/-- A full buffer goes on to hold the last items exactly when the oldest of them is overwritten. -/
theorem recent_concat_iff (hslot : slot a < size) (hfull : size ≤ as.length)
    (h : Recent size slot as) : Recent size slot (as ++ [a]) ↔ Oldest size slot as a := by
  have hlength : (pushAll size slot as).length = size := by
    rw [length_pushAll, Nat.min_eq_right hfull]
  have hi : slot a < (pushAll size slot as).length := by omega
  obtain ⟨t, hlast, hnext⟩ := rtake_concat (by omega) hfull a
  rw [Recent, hlast] at h
  rw [Recent, Oldest, pushAll_concat, hnext, push, if_neg (by omega), set_perm_iff hi h,
    List.getElem?_eq_getElem hi, List.getElem?_eq_getElem (by omega), Option.some.injEq]

/-- The buffer holds the last items all along a sequence of events that each bring an item, exactly
when every event that finds it full overwrites the oldest of them. -/
theorem recent_iff {ε : Type*} (item : ε → α) (hslot : ∀ a, slot a < size) (events : List ε) :
    (∀ before, before <+: events → Recent size slot (before.map item)) ↔
      ∀ before e, before ++ [e] <+: events → size ≤ before.length →
        Oldest size slot (before.map item) (item e) := by
  have hconcat : ∀ before e, size ≤ before.length → Recent size slot (before.map item) →
      (Recent size slot ((before ++ [e]).map item) ↔
        Oldest size slot (before.map item) (item e)) := by
    intro before e hfull hbefore
    rw [List.map_append, List.map_singleton]
    exact recent_concat_iff (hslot (item e)) (by rwa [List.length_map]) hbefore
  constructor
  · intro hrecent before e hprefix hfull
    have hbefore := hrecent before ((List.prefix_append before [e]).trans hprefix)
    exact (hconcat before e hfull hbefore).mp (hrecent _ hprefix)
  · intro holdest before hprefix
    induction before using List.reverseRecOn with
    | nil => exact recent_of_length_le (Nat.zero_le size)
    | append_singleton before e ih =>
      have hbefore := ih ((List.prefix_append before [e]).trans hprefix)
      by_cases hfull : size ≤ before.length
      · exact (hconcat before e hfull hbefore).mpr (holdest before e hprefix hfull)
      · apply recent_of_length_le
        rw [List.length_map, List.length_append, List.length_singleton]
        omega

/-! ### Each slot -/

/-- What a full buffer has in a slot after the next item. -/
theorem getElem?_push_full (hfull : size ≤ l.length) {i : Nat} (hi : i < l.length) :
    (push size slot l a)[i]? = if slot a = i then some a else l[i]? := by
  rw [push, if_neg (by omega), List.getElem?_set]
  split
  case isTrue hslot =>
    subst hslot
    rw [if_pos hi]
  case isFalse => rfl

/-- A slot holds the last of the items for it that found the buffer full, or the item that was added
there while there was room. -/
theorem getElem?_pushAll {i : Nat} (hi : i < size) (as : List α) :
    (pushAll size slot as)[i]? = ((as.drop size).filter (slot · = i)).getLast?.or as[i]? := by
  induction as using List.reverseRecOn with
  | nil => simp [pushAll]
  | append_singleton as a ih =>
    by_cases hroom : as.length < size
    · have hlength : (as ++ [a]).length ≤ size := by
        rw [List.length_append, List.length_singleton]
        omega
      rw [pushAll_of_length_le hlength, List.drop_eq_nil_of_le hlength]
      rfl
    · have hlength : (pushAll size slot as).length = size := by
        rw [length_pushAll, Nat.min_eq_right (by omega)]
      rw [pushAll_concat, getElem?_push_full (by omega) (by omega), ih,
        List.drop_append_of_le_length (by omega), List.filter_append,
        List.getElem?_append_left (by omega)]
      by_cases hslot : slot a = i
      · simp [hslot]
      · simp [hslot]

end Buffer
