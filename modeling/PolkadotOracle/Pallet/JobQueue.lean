import PolkadotOracle.Pallet.Effect

/-! The job queue over whole runs of the chain: its entries stay under the hash of the job as it was
queued, never disappear, never change but for their state, and only move forwards. -/

namespace PolkadotOracle

open Scale Text

variable {T : Config}

/-- The job as it was queued. -/
def OcwJob.asPending (job : OcwJob T) : OcwJob T := { job with state := .pending }

theorem OcwJob.asPending_of_pending {job : OcwJob T} (h : job.state = .pending) :
    job.asPending = job := by
  cases job
  cases h
  rfl

theorem OcwJob.asPending_eq_iff {job job' : OcwJob T} :
    job.asPending = job'.asPending ↔ job.caller = job'.caller ∧
      job.scriptName = job'.scriptName ∧ job.wasmCode = job'.wasmCode ∧
      job.wasmAbi = job'.wasmAbi := by
  simp [asPending]

theorem JobState.index_le_advance (state : JobState) : state.index ≤ state.advance.index := by
  cases state <;> decide

/-- All that a step does to the queue: nothing, a new pending job under its own key, or one job
advanced in place. -/
inductive QueueStep (s s' : State T) : Prop
  | same (h : s'.jobQueue = s.jobQueue)
  | queued (job : OcwJob T) (hstate : job.state = .pending)
      (hfresh : s.jobQueue.lookup job.key = none)
      (h : s'.jobQueue = s.jobQueue.insert job.key job)
  | advanced (key : Hash) (job : OcwJob T) (hjob : s.jobQueue.lookup key = some job)
      (h : s'.jobQueue = s.jobQueue.insert key job.advance)

theorem Effect.queueStep {s s' : State T} {origin : Origin T} {c : Call}
    (h : Effect s origin c s') : QueueStep s s' := by
  cases h with
  | request _ _ _ _ _ _ hstate hfresh => exact .queued _ hstate hfresh rfl
  | advance hjob => exact .advanced _ _ hjob rfl
  | _ => exact .same rfl

theorem chainStep_queueStep {s s' : State T} {l : ChainLabel T} (h : chainStep s l = some s') :
    QueueStep s s' := by
  rcases chainStep_effect h with ⟨_, rfl⟩ | ⟨_, _, heffect⟩
  · exact .same rfl
  · exact heffect.queueStep

/-- An entry of the queue: its key is the hash of the job as it was queued. -/
structure Queued (key : Hash) (job : OcwJob T) : Prop where
  key_eq : key = job.asPending.key
  state : job.state = .pending ∨ job.state = .processing ∨ job.state = .finish

theorem Queued.advance {key : Hash} {job : OcwJob T} (h : Queued key job) :
    Queued key job.advance := by
  refine ⟨h.key_eq, ?_⟩
  rcases h.state with hs | hs | hs <;> simp [OcwJob.advance, JobState.advance, hs]

def QueueInv (s : State T) : Prop :=
  ∀ key job, s.jobQueue.lookup key = some job → Queued key job

theorem queueInv_genesis : QueueInv (State.genesis T) := by
  intro key job h
  simp [State.genesis] at h

theorem QueueInv.step {s s' : State T} (hinv : QueueInv s) (h : QueueStep s s') :
    QueueInv s' := by
  intro k j hj
  cases h with
  | same h => exact hinv k j (h ▸ hj)
  | queued job hstate _ h =>
    rw [h] at hj
    rcases Finmap.lookup_insert_iff.mp hj with ⟨rfl, rfl⟩ | ⟨-, hj⟩
    · exact ⟨by rw [OcwJob.asPending_of_pending hstate], .inl hstate⟩
    · exact hinv k j hj
  | advanced key job hjob h =>
    rw [h] at hj
    rcases Finmap.lookup_insert_iff.mp hj with ⟨rfl, rfl⟩ | ⟨-, hj⟩
    · exact (hinv _ _ hjob).advance
    · exact hinv k j hj

theorem ChainReaches.queueInv {s : State T} (h : ChainReaches (State.genesis T) s) :
    QueueInv s :=
  h.invariant queueInv_genesis fun _ _ _ hinv _ hs => hinv.step (chainStep_queueStep hs)

/-- Every job of `s` is in `s'`, the same but for its state, which has not moved backwards. -/
def QueueGrows (s s' : State T) : Prop :=
  ∀ key job, s.jobQueue.lookup key = some job → ∃ job', s'.jobQueue.lookup key = some job' ∧
    job'.asPending = job.asPending ∧ job.state.index ≤ job'.state.index

theorem QueueGrows.refl (s : State T) : QueueGrows s s := fun _ job h =>
  ⟨job, h, rfl, UInt8.le_refl _⟩

theorem QueueGrows.trans {s₁ s₂ s₃ : State T} (h₁ : QueueGrows s₁ s₂) (h₂ : QueueGrows s₂ s₃) :
    QueueGrows s₁ s₃ := by
  intro key job hjob
  obtain ⟨job₂, hjob₂, hsame₂, hle₂⟩ := h₁ key job hjob
  obtain ⟨job₃, hjob₃, hsame₃, hle₃⟩ := h₂ key job₂ hjob₂
  exact ⟨job₃, hjob₃, hsame₃.trans hsame₂, UInt8.le_trans hle₂ hle₃⟩

theorem QueueStep.grows {s s' : State T} (h : QueueStep s s') : QueueGrows s s' := by
  intro k j hj
  cases h with
  | same h => exact ⟨j, h ▸ hj, rfl, UInt8.le_refl _⟩
  | queued job _ hfresh h =>
    have hk : k ≠ job.key := by
      rintro rfl
      simp [hfresh] at hj
    exact ⟨j, by rw [h, Finmap.lookup_insert_of_ne _ hk, hj], rfl, UInt8.le_refl _⟩
  | advanced key job hjob h =>
    by_cases hk : k = key
    · subst hk
      obtain rfl := Option.some.inj (hjob.symm.trans hj)
      exact ⟨job.advance, by rw [h, Finmap.lookup_insert], rfl, job.state.index_le_advance⟩
    · exact ⟨j, by rw [h, Finmap.lookup_insert_of_ne _ hk, hj], rfl, UInt8.le_refl _⟩

theorem ChainReaches.queueGrows {s s' : State T} (h : ChainReaches s s') : QueueGrows s s' :=
  h.relates QueueGrows.refl (fun _ _ _ => QueueGrows.trans) fun _ _ _ hs =>
    (chainStep_queueStep hs).grows

theorem QueueGrows.queued {s s' : State T} (h : QueueGrows s s') {key : Hash} {job : OcwJob T}
    (hjob : s.jobQueue.lookup key = some job) : ∃ job', s'.jobQueue.lookup key = some job' := by
  obtain ⟨job', hjob', -⟩ := h key job hjob
  exact ⟨job', hjob'⟩

/-- A finished job stays finished. -/
theorem QueueGrows.finish {s s' : State T} (h : QueueGrows s s') {key : Hash} {job : OcwJob T}
    (hjob : s.jobQueue.lookup key = some job) (hfinish : job.state = .finish) :
    ∃ job', s'.jobQueue.lookup key = some job' ∧ job'.state = .finish := by
  obtain ⟨job', hjob', _, hle⟩ := h key job hjob
  refine ⟨job', hjob', ?_⟩
  rw [hfinish] at hle
  revert hle
  cases job'.state <;> decide

/-- The queue in every state that any calls reach: the keys and states of its entries, what further
calls leave of them, and that no two of them agree on caller, name, code and ABI. -/
theorem jobQueue_invariant {s : State T} (h : ChainReaches (State.genesis T) s) :
    (∀ key job, s.jobQueue.lookup key = some job →
      key = T.hashing ((OcwJob.codec T).encode { job with state := .pending }) ∧
      (job.state = .pending ∨ job.state = .processing ∨ job.state = .finish)) ∧
    (∀ s', ChainReaches s s' → ∀ key job, s.jobQueue.lookup key = some job →
      ∃ job', s'.jobQueue.lookup key = some job' ∧ job'.caller = job.caller ∧
        job'.scriptName = job.scriptName ∧ job'.wasmCode = job.wasmCode ∧
        job'.wasmAbi = job.wasmAbi ∧ job.state.index ≤ job'.state.index) ∧
    ∀ key key' job job', s.jobQueue.lookup key = some job → s.jobQueue.lookup key' = some job' →
      job.caller = job'.caller → job.scriptName = job'.scriptName →
      job.wasmCode = job'.wasmCode → job.wasmAbi = job'.wasmAbi → key = key' := by
  have hinv := h.queueInv
  refine ⟨fun key job hjob => ⟨(hinv key job hjob).key_eq, (hinv key job hjob).state⟩, ?_, ?_⟩
  · intro s' hs' key job hjob
    obtain ⟨job', hjob', hsame, hle⟩ := hs'.queueGrows key job hjob
    obtain ⟨hcaller, hname, hcode, habi⟩ := OcwJob.asPending_eq_iff.mp hsame
    exact ⟨job', hjob', hcaller, hname, hcode, habi, hle⟩
  · intro key key' job job' hjob hjob' hcaller hname hcode habi
    have hsame := OcwJob.asPending_eq_iff.mpr ⟨hcaller, hname, hcode, habi⟩
    rw [(hinv key job hjob).key_eq, (hinv key' job' hjob').key_eq, hsame]

/-- Account 1 uploads a script and requests it. -/
def sampleQueue : State sampleRuntime :=
  ((State.genesis sampleRuntime).call (.signed (1 : UInt32))
    (.uploadWasm ['a'] .executable [1, 2] [3])).call (.signed (1 : UInt32))
    (.requestScriptExecution ['E', 'X', 'E', 'a'] none)

theorem sampleQueue_reached : ChainReaches (State.genesis sampleRuntime) sampleQueue :=
  ((ChainReaches.refl _).call _ _).call _ _

def sampleJob : OcwJob sampleRuntime :=
  ⟨(1 : UInt32), ⟨utf8 ['E', 'X', 'E', 'a'], by decide⟩, ⟨[1, 2], by decide⟩, ⟨[3], by decide⟩,
    .pending⟩

theorem sampleQueue_lookup : sampleQueue.jobQueue.lookup sampleJob.key = some sampleJob := by
  decide

/-- The job stays in the queue, with its code, when its state changes. -/
theorem jobQueue_invariant_sample :
    ∃ job', (sampleQueue.call .none (.changeJobState 0 sampleJob.key)).jobQueue.lookup
        sampleJob.key = some job' ∧ job'.wasmCode = sampleJob.wasmCode := by
  have hlater : ChainReaches sampleQueue
      (sampleQueue.call .none (.changeJobState 0 sampleJob.key)) := (ChainReaches.refl _).call _ _
  obtain ⟨job', hjob', _, _, hcode, _⟩ :=
    (jobQueue_invariant sampleQueue_reached).2.1 _ hlater _ _ sampleQueue_lookup
  exact ⟨job', hjob', hcode⟩

end PolkadotOracle
