import Mathlib.Data.Finmap
import Mathlib.Logic.Function.Basic

/-! A key-value store whose reads, writes and compare-and-sets are single steps, and what a finite
map holds after insertions. -/

/-- What a store holds under each key. -/
def Store (K V : Type*) := K → Option V

namespace Store

variable {K V : Type*} [DecidableEq K]

def empty : Store K V := fun _ => none

def get (s : Store K V) (k : K) : Option V := s k

def set (s : Store K V) (k : K) (v : V) : Store K V := Function.update s k (some v)

@[simp] theorem get_set_same (s : Store K V) (k : K) (v : V) : (s.set k v).get k = some v :=
  Function.update_self ..

@[simp] theorem get_set_ne (s : Store K V) {k k' : K} (v : V) (h : k' ≠ k) :
    (s.set k v).get k' = s.get k' :=
  Function.update_of_ne h ..

variable [DecidableEq V]

/-- The store after a compare-and-set, and whether it wrote. -/
def compareAndSet (s : Store K V) (k : K) (old : Option V) (v : V) : Store K V × Bool :=
  if s.get k = old then (s.set k v, true) else (s, false)

theorem compareAndSet_hit {s : Store K V} {k : K} {old : Option V} (v : V) (h : s.get k = old) :
    s.compareAndSet k old v = (s.set k v, true) := by
  simp [compareAndSet, h]

theorem compareAndSet_miss {s : Store K V} {k : K} {old : Option V} (v : V) (h : s.get k ≠ old) :
    s.compareAndSet k old v = (s, false) := by
  simp [compareAndSet, h]

end Store

/-- After an insertion a key has the inserted value, or what it had before. -/
theorem Finmap.lookup_insert_iff {K V : Type*} [DecidableEq K] {m : Finmap fun _ : K => V}
    {k k' : K} {v v' : V} : (m.insert k v).lookup k' = some v' ↔
      k' = k ∧ v' = v ∨ k' ≠ k ∧ m.lookup k' = some v' := by
  by_cases h : k' = k
  · subst h
    rw [Finmap.lookup_insert, Option.some.injEq]
    simp [eq_comm]
  · rw [Finmap.lookup_insert_of_ne _ h]
    simp [h]

/-! ### Many insertions -/

namespace Finmap

variable {K V : Type*} [DecidableEq K]

/-- A finite map after the insertion of pairs, one after the other. -/
def insertAll (m : Finmap fun _ : K => V) (ps : List (K × V)) : Finmap fun _ : K => V :=
  ps.foldl (fun m p => m.insert p.1 p.2) m

@[simp] theorem insertAll_nil (m : Finmap fun _ : K => V) : m.insertAll [] = m := rfl

@[simp] theorem insertAll_cons (m : Finmap fun _ : K => V) (p : K × V) (ps : List (K × V)) :
    m.insertAll (p :: ps) = (m.insert p.1 p.2).insertAll ps := rfl

theorem lookup_insertAll_of_notMem {ps : List (K × V)} {k : K} (h : ∀ v, (k, v) ∉ ps)
    (m : Finmap fun _ : K => V) : (m.insertAll ps).lookup k = m.lookup k := by
  induction ps generalizing m with
  | nil => rfl
  | cons p ps ih =>
    have hp : k ≠ p.1 := by
      rintro rfl
      exact h p.2 List.mem_cons_self
    rw [insertAll_cons, ih fun v hv => h v (List.mem_cons_of_mem _ hv), lookup_insert_of_ne _ hp]

/-- When all pairs of a key have the same value, the key has this value after the insertions. -/
theorem lookup_insertAll_of_mem {ps : List (K × V)} {k : K} {v : V}
    (hunique : ∀ v', (k, v') ∈ ps → v' = v) (h : (k, v) ∈ ps) (m : Finmap fun _ : K => V) :
    (m.insertAll ps).lookup k = some v := by
  induction ps generalizing m with
  | nil => simp at h
  | cons p ps ih =>
    rw [insertAll_cons]
    have hunique' : ∀ v', (k, v') ∈ ps → v' = v := fun v' hv' =>
      hunique v' (List.mem_cons_of_mem _ hv')
    by_cases hlater : (k, v) ∈ ps
    · exact ih hunique' hlater _
    · have hp : p = (k, v) := by
        rcases List.mem_cons.mp h with heq | hmem
        · exact heq.symm
        · exact absurd hmem hlater
      have hnone : ∀ v', (k, v') ∉ ps := fun v' hv' => hlater (hunique' v' hv' ▸ hv')
      rw [lookup_insertAll_of_notMem hnone, hp, lookup_insert]

/-- Insertions that never disagree on a key depend on neither their order nor their number. -/
theorem insertAll_congr {ps ps' : List (K × V)}
    (hunique : ∀ k v v', (k, v) ∈ ps → (k, v') ∈ ps → v' = v) (hsame : ∀ p, p ∈ ps' ↔ p ∈ ps)
    (m : Finmap fun _ : K => V) : m.insertAll ps' = m.insertAll ps := by
  refine ext_lookup fun k => ?_
  by_cases hk : ∃ v, (k, v) ∈ ps
  · obtain ⟨v, hv⟩ := hk
    have hunique' : ∀ v', (k, v') ∈ ps' → v' = v := fun v' hv' =>
      hunique k v v' hv ((hsame _).mp hv')
    rw [lookup_insertAll_of_mem (fun v' => hunique k v v' hv) hv,
      lookup_insertAll_of_mem hunique' ((hsame _).mpr hv)]
  · have hnone : ∀ v, (k, v) ∉ ps := fun v hv => hk ⟨v, hv⟩
    rw [lookup_insertAll_of_notMem hnone,
      lookup_insertAll_of_notMem fun v hv => hnone v ((hsame _).mp hv)]

end Finmap
