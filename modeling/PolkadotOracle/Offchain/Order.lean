import Mathlib.Data.Finset.Max
import PolkadotOracle.Lib.Iteration
import PolkadotOracle.Offchain.Handler

/-! Which job the handler comes to.  The storage goes through the queue in the order of its storage
keys, the same in every run on every node, and the handler stops at the first job that is pending or
finished. -/

namespace PolkadotOracle

open Iteration Scale

variable {T : Config} {blake2 : Bytes → FixedBytes 16}

/-- `Blake2_128Concat` of a job's id, byte by byte. -/
def storageKey (blake2 : Bytes → FixedBytes 16) (key : Hash) : List Nat :=
  ((blake2 key.val).val ++ key.val).map UInt8.toNat

theorem storageKey_injective (blake2 : Bytes → FixedBytes 16) :
    Function.Injective (storageKey blake2) := by
  intro a b h
  have hbytes : (blake2 a.val).val ++ a.val = (blake2 b.val).val ++ b.val :=
    List.map_injective_iff.mpr (fun _ _ => UInt8.toNat_inj.mp) h
  have hprefix : (blake2 a.val).val.length = (blake2 b.val).val.length := by
    rw [(blake2 a.val).property, (blake2 b.val).property]
  exact Subtype.ext (List.append_inj hbytes hprefix).2

/-- The storage comes to the first job before the second. -/
def Precedes (blake2 : Bytes → FixedBytes 16) (key key' : Hash) : Prop :=
  storageKey blake2 key < storageKey blake2 key'

instance (blake2 : Bytes → FixedBytes 16) (key key' : Hash) :
    Decidable (Precedes blake2 key key') :=
  inferInstanceAs (Decidable (_ < _))

/-- The handler passes over every job before the one under `key`. -/
def Cleared (blake2 : Bytes → FixedBytes 16) (s : State T) (key : Hash) : Prop :=
  ∀ key' job, s.jobQueue.lookup key' = some job → Precedes blake2 key' key →
    job.state ≠ .pending ∧ job.state ≠ .finish

/-- The job keeps the handler for good: it is finished, or it is pending under an id that the
validation of its state change refuses. -/
def Stops (key : Hash) (job : OcwJob T) : Prop :=
  job.state = .finish ∨ job.state = .pending ∧ key.isClear = true

/-- No job before the one under `key` keeps the handler for good. -/
def Unblocked (blake2 : Bytes → FixedBytes 16) (s : State T) (key : Hash) : Prop :=
  ∀ key' job, s.jobQueue.lookup key' = some job → Precedes blake2 key' key → ¬Stops key' job

/-- The jobs that are still to be offered. -/
def State.pendingKeys (s : State T) : Finset Hash :=
  s.jobQueue.keys.filter fun key => (s.jobQueue.lookup key).any (·.state = .pending)

section Order

variable {s : State T} {key : Hash} {job : OcwJob T}

theorem mem_pendingKeys : key ∈ s.pendingKeys ↔
    ∃ job, s.jobQueue.lookup key = some job ∧ job.state = .pending := by
  simp only [State.pendingKeys, Finset.mem_filter, Finmap.mem_keys, Option.any_eq_true,
    decide_eq_true_eq]
  refine ⟨And.right, fun h => ⟨?_, h⟩⟩
  obtain ⟨job, hjob, -⟩ := h
  exact Finmap.mem_of_lookup_eq_some hjob

/-- The handler comes to a job that nothing before it keeps it from. -/
theorem Cleared.comesTo (h : Cleared blake2 s key) (hjob : s.jobQueue.lookup key = some job) :
    ∃ jobs : AList fun _ : Hash => OcwJob T, jobs.toFinmap = s.jobQueue ∧
      Ascending (storageKey blake2) jobs.entries ∧ ComesTo jobs.entries ⟨key, job⟩ := by
  obtain ⟨jobs, hjobs, horder⟩ := exists_ascending (storageKey_injective blake2) s.jobQueue
  obtain ⟨before, after, heq, hbefore⟩ := horder.split ((mem_entries_iff hjobs key job).mp hjob)
  refine ⟨jobs, hjobs, horder, before, after, heq, fun e he => ?_⟩
  have hmem : ⟨e.1, e.2⟩ ∈ jobs.entries := heq ▸ List.mem_append_left _ he
  exact h e.1 e.2 ((mem_entries_iff hjobs e.1 e.2).mpr hmem) (hbefore e he)

/-- When the handler comes to a job, it passes over all jobs before it in the order. -/
theorem ComesTo.passes {jobs : AList fun _ : Hash => OcwJob T}
    (h : ComesTo jobs.entries ⟨key, job⟩) (hjobs : jobs.toFinmap = s.jobQueue)
    (horder : Ascending (storageKey blake2) jobs.entries) : Cleared blake2 s key := by
  obtain ⟨before, after, heq, hbefore⟩ := h
  intro key' job' hjob' hprecedes
  exact hbefore _ (horder.mem_before heq ((mem_entries_iff hjobs key' job').mp hjob') hprecedes)

/-- What happens to a job itself does not bring anything before it. -/
theorem Cleared.of_insert {s' : State T} (h : Cleared blake2 s key)
    (hqueue : s'.jobQueue = s.jobQueue.insert key job) : Cleared blake2 s' key := by
  intro key' job' hjob' hprecedes
  have hne : key' ≠ key := fun hsame => lt_irrefl _ (hsame ▸ hprecedes)
  rw [hqueue, Finmap.lookup_insert_of_ne _ hne] at hjob'
  exact h key' job' hjob' hprecedes

theorem Cleared.of_eq {s' : State T} (h : Cleared blake2 s key)
    (hqueue : s'.jobQueue = s.jobQueue) : Cleared blake2 s' key := by
  unfold Cleared
  rwa [hqueue]

/-- Before an unblocked job the handler comes to a pending one, which it can get past, unless it
comes to the job itself. -/
theorem Unblocked.next (h : Unblocked blake2 s key) :
    Cleared blake2 s key ∨ ∃ key' job, s.jobQueue.lookup key' = some job ∧
      job.state = .pending ∧ key'.isClear = false ∧ Precedes blake2 key' key ∧
      Cleared blake2 s key' := by
  by_cases hwaits : ∃ key' ∈ s.pendingKeys, Precedes blake2 key' key
  case neg =>
    refine .inl fun key' job hjob hprecedes => ⟨fun hstate => ?_, fun hstate => ?_⟩
    · exact hwaits ⟨key', mem_pendingKeys.mpr ⟨job, hjob, hstate⟩, hprecedes⟩
    · exact h key' job hjob hprecedes (.inl hstate)
  -- The first of the pending jobs is the one that the handler comes to.
  obtain ⟨key', hmem, hprecedes⟩ := hwaits
  obtain ⟨first, hfirst, hleast⟩ :=
    s.pendingKeys.exists_min_image (storageKey blake2) ⟨key', hmem⟩
  obtain ⟨job, hjob, hstate⟩ := mem_pendingKeys.mp hfirst
  have hbefore : Precedes blake2 first key := lt_of_le_of_lt (hleast key' hmem) hprecedes
  have hclear : first.isClear = false := by
    by_contra hne
    exact h first job hjob hbefore (.inr ⟨hstate, by simpa using hne⟩)
  refine .inr ⟨first, job, hjob, hstate, hclear, hbefore, fun key₁ job₁ hjob₁ hprecedes₁ => ?_⟩
  refine ⟨fun hstate₁ => ?_, fun hstate₁ => ?_⟩
  · exact absurd hprecedes₁ (not_lt.mpr (hleast key₁ (mem_pendingKeys.mpr ⟨job₁, hjob₁, hstate₁⟩)))
  · exact h key₁ job₁ hjob₁ (lt_trans hprecedes₁ hbefore) (.inl hstate₁)

/-- A pending job that the handler comes to, and that is then processed. -/
theorem pendingKeys_ssubset {s' : State T} (hjob : s.jobQueue.lookup key = some job)
    (hstate : job.state = .pending)
    (hqueue : s'.jobQueue = s.jobQueue.insert key job.advance) :
    s'.pendingKeys ⊂ s.pendingKeys := by
  have hprocessing : job.advance.state = .processing := by
    simp [OcwJob.advance, JobState.advance, hstate]
  refine (Finset.ssubset_iff_of_subset fun key' hkey' => ?_).mpr
    ⟨key, mem_pendingKeys.mpr ⟨job, hjob, hstate⟩, fun hkey => ?_⟩
  · obtain ⟨job', hjob', hstate'⟩ := mem_pendingKeys.mp hkey'
    rw [hqueue] at hjob'
    rcases Finmap.lookup_insert_iff.mp hjob' with ⟨-, rfl⟩ | ⟨-, hjob'⟩
    · rw [hprocessing] at hstate'
      contradiction
    · exact mem_pendingKeys.mpr ⟨job', hjob', hstate'⟩
  · obtain ⟨job', hjob', hstate'⟩ := mem_pendingKeys.mp hkey
    rw [hqueue, Finmap.lookup_insert] at hjob'
    obtain rfl := Option.some.inj hjob'
    rw [hprocessing] at hstate'
    contradiction

theorem Unblocked.of_insert {s' : State T} {key' : Hash} {job' : OcwJob T}
    (h : Unblocked blake2 s key) (hqueue : s'.jobQueue = s.jobQueue.insert key' job')
    (hstops : ¬Stops key' job') : Unblocked blake2 s' key := by
  intro key₁ job₁ hjob₁ hprecedes
  rw [hqueue] at hjob₁
  rcases Finmap.lookup_insert_iff.mp hjob₁ with ⟨rfl, rfl⟩ | ⟨-, hjob₁⟩
  · exact hstops
  · exact h key₁ job₁ hjob₁ hprecedes

end Order

end PolkadotOracle
