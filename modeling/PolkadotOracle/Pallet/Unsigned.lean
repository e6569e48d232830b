import PolkadotOracle.Pallet.JobQueue

/-! The unsigned calls over whole runs of the chain: results are recorded for finished jobs only,
and a call that was once accepted is accepted ever after. -/

namespace PolkadotOracle

open Scale

variable {T : Config}

/-! ### Results -/

/-- A submission that is recorded: it is unsigned, its key is that of a finished job, and its value
fits. -/
def Recordable (s : State T) (origin : Origin T) (key value : Bytes) : Prop :=
  origin = .none ∧
  ∃ onchainKey rest job, (fixedBytes 32).decode key = some (onchainKey, rest) ∧
    s.jobQueue.lookup onchainKey = some job ∧ job.state = .finish ∧
    value.length ≤ T.maxResultSize.toNat

/-- Every result has a finished job. -/
def ResultInv (s : State T) : Prop :=
  ∀ key pub result, s.scriptResult.lookup (key, pub) = some result →
    ∃ job, s.jobQueue.lookup key = some job ∧ job.state = .finish

theorem resultInv_genesis : ResultInv (State.genesis T) := by
  intro key pub result h
  simp [State.genesis] at h

theorem ResultInv.grow {s s' : State T} (hinv : ResultInv s) (hgrows : QueueGrows s s')
    (h : s'.scriptResult = s.scriptResult) : ResultInv s' := by
  intro key pub result hresult
  obtain ⟨job, hjob, hfinish⟩ := hinv key pub result (h ▸ hresult)
  exact hgrows.finish hjob hfinish

theorem ResultInv.effect {s s' : State T} {origin : Origin T} {c : Call} (hinv : ResultInv s)
    (h : Effect s origin c s') : ResultInv s' := by
  have hgrows := h.queueStep.grows
  cases h with
  | @record _ _ _ _ processorPub _ onchainKey _ _ _ hjob hfinish _ =>
    intro key pub result hresult
    rcases Finmap.lookup_insert_iff.mp hresult with ⟨heq, -⟩ | ⟨-, hresult⟩
    · obtain ⟨rfl, rfl⟩ := Prod.mk.inj heq
      exact ⟨_, hjob, hfinish⟩
    · exact hinv key pub result hresult
  | _ => exact hinv.grow hgrows rfl

theorem ChainReaches.resultInv {s : State T} (h : ChainReaches (State.genesis T) s) :
    ResultInv s := by
  refine h.invariant resultInv_genesis fun s l s' hinv _ hs => ?_
  rcases chainStep_effect hs with ⟨_, rfl⟩ | ⟨_, _, heffect⟩
  · exact hinv.grow (QueueGrows.refl _) rfl
  · exact hinv.effect heffect

/-- A submission never touches the queue, and one that is not recorded changes nothing. -/
theorem submitResultUnsiged_frame (s : State T) (origin : Origin T) (blockNumber : Nat)
    (key value : Bytes) (processorPub : Public) (extTime : UInt32) :
    (s.call origin (.submitResultUnsiged blockNumber key value processorPub extTime)).jobQueue =
      s.jobQueue ∧
    (¬Recordable s origin key value →
      s.call origin (.submitResultUnsiged blockNumber key value processorPub extTime) = s) := by
  have heffect := call_effect s origin
    (.submitResultUnsiged blockNumber key value processorPub extTime)
  generalize s.call origin _ = s' at heffect
  cases heffect with
  | idle => exact ⟨rfl, fun _ => rfl⟩
  | @record _ _ _ _ _ _ _ _ resultData hkey hjob hfinish hdata =>
    refine ⟨rfl, fun hnot => absurd ⟨rfl, _, _, _, hkey, hjob, hfinish, ?_⟩ hnot⟩
    rw [← hdata]
    exact resultData.property

/-- In every state that any calls reach, every result has a finished job and fits its bound, and a
submission that is not recorded leaves the state as it was. -/
theorem scriptResult_finished {s : State T} (h : ChainReaches (State.genesis T) s) :
    (∀ key pub result, s.scriptResult.lookup (key, pub) = some result →
      (∃ job, s.jobQueue.lookup key = some job ∧ job.state = .finish) ∧
      result.resultData.val.length ≤ T.maxResultSize.toNat) ∧
    ∀ origin blockNumber key value processorPub extTime,
      let s' := s.call origin (.submitResultUnsiged blockNumber key value processorPub extTime)
      s'.jobQueue = s.jobQueue ∧ (¬Recordable s origin key value → s' = s) :=
  ⟨fun key pub result hresult =>
      ⟨h.resultInv key pub result hresult, result.resultData.property⟩,
    fun origin blockNumber key value processorPub extTime =>
      submitResultUnsiged_frame s origin blockNumber key value processorPub extTime⟩

/-- The sample job, processed, finished and with a result. -/
def sampleResult : State sampleRuntime :=
  ((sampleQueue.call .none (.changeJobState 0 sampleJob.key)).call .none
    (.changeJobState 0 sampleJob.key)).call .none
    (.submitResultUnsiged 0 sampleJob.key.val [7] (FixedBytes.zero 32) 5)

theorem sampleResult_reached : ChainReaches (State.genesis sampleRuntime) sampleResult :=
  ((sampleQueue_reached.call _ _).call _ _).call _ _

theorem scriptResult_finished_sample :
    ∃ result job, sampleResult.scriptResult.lookup (sampleJob.key, FixedBytes.zero 32) =
      some result ∧ sampleResult.jobQueue.lookup sampleJob.key = some job ∧
      job.state = .finish := by
  have hresult : sampleResult.scriptResult.lookup (sampleJob.key, FixedBytes.zero 32) =
      some ⟨⟨[7], by decide⟩, 5⟩ := by decide
  obtain ⟨⟨job, hjob, hfinish⟩, _⟩ :=
    (scriptResult_finished sampleResult_reached).1 _ _ _ hresult
  exact ⟨_, job, hresult, hjob, hfinish⟩

/-! ### Replay -/

theorem Effect.blockNumber {s s' : State T} {origin : Origin T} {c : Call}
    (h : Effect s origin c s') : s'.blockNumber = s.blockNumber := by
  cases h <;> rfl

theorem ChainReaches.blockNumber_le {s s' : State T} (h : ChainReaches s s') :
    s.blockNumber ≤ s'.blockNumber := by
  refine h.relates (R := fun a b => a.blockNumber ≤ b.blockNumber) (fun _ => le_rfl)
    (fun _ _ _ => le_trans) fun s l s' hs => ?_
  rcases chainStep_effect hs with ⟨_, rfl⟩ | ⟨_, _, heffect⟩
  · exact Nat.le_succ _
  · exact heffect.blockNumber.ge

theorem validateUnsigedTransaction_mono {s s' : State T} {blockNumber : Nat} {key : Hash}
    (hle : s.blockNumber ≤ s'.blockNumber)
    (h : (validateUnsigedTransaction s blockNumber key).accepts = true) :
    (validateUnsigedTransaction s' blockNumber key).accepts = true := by
  unfold validateUnsigedTransaction at h ⊢
  by_cases hfuture : s.blockNumber < blockNumber
  · simp [hfuture, Validity.accepts] at h
  · simpa [hfuture, show ¬s'.blockNumber < blockNumber by omega] using h

/-- The validation looks at no more than the block number, which only grows. -/
theorem validateUnsigned_mono {s s' : State T} {c : Call} (hle : s.blockNumber ≤ s'.blockNumber)
    (h : (validateUnsigned s c).accepts = true) : (validateUnsigned s' c).accepts = true := by
  cases c with
  | changeJobState => exact validateUnsigedTransaction_mono hle h
  | submitResultUnsiged blockNumber key =>
    simp only [validateUnsigned] at h ⊢
    cases hkey : (fixedBytes 32).decode key with
    | none => simp [hkey, Validity.accepts] at h
    | some decoded =>
      rw [hkey] at h
      exact validateUnsigedTransaction_mono hle h
  | _ => simp [validateUnsigned, Validity.accepts] at h

/-- After the call has been dispatched, no later state's validation accepts it again. -/
def ReplayRejected (s : State T) (c : Call) : Prop :=
  ∀ s', ChainReaches (s.call .none c) s' → (validateUnsigned s' c).accepts = false

/-- Whenever a call is accepted, it is accepted in every state after its dispatch too, so no
accepted call is ever protected from replay. -/
theorem replay_accepted {s : State T} {c : Call}
    (haccepts : (validateUnsigned s c).accepts = true) :
    ¬ReplayRejected s c ∧
    ∀ s', ChainReaches (s.call .none c) s' → (validateUnsigned s' c).accepts = true := by
  have hlater : ∀ s', ChainReaches (s.call .none c) s' →
      (validateUnsigned s' c).accepts = true := fun s' hs' =>
    validateUnsigned_mono ((call_effect s .none c).blockNumber.ge.trans hs'.blockNumber_le) haccepts
  refine ⟨fun hrejected => ?_, hlater⟩
  have hnow := ChainReaches.refl (s.call .none c)
  exact absurd ((hlater _ hnow).symm.trans (hrejected _ hnow)) (by decide)

theorem replay_accepted_sample :
    (validateUnsigned (sampleQueue.call .none (.changeJobState 0 sampleJob.key))
      (.changeJobState 0 sampleJob.key)).accepts = true :=
  (replay_accepted (s := sampleQueue) (by decide)).2 _ (ChainReaches.refl _)

/-- One accepted call, dispatched twice, takes a pending job to the end. -/
theorem replay_finishes : ∃ (s : State sampleRuntime) (c : Call),
    ChainReaches (State.genesis _) s ∧ (validateUnsigned s c).accepts = true ∧
    (s.call .none c).jobQueue ≠ s.jobQueue ∧
    (validateUnsigned (s.call .none c) c).accepts = true ∧
    ((s.call .none c).call .none c).jobQueue ≠ (s.call .none c).jobQueue ∧
    ¬ReplayRejected s c :=
  ⟨sampleQueue, .changeJobState 0 sampleJob.key, sampleQueue_reached, by decide, by decide,
    by decide, by decide,
    fun hrejected => absurd (hrejected _ (ChainReaches.refl _)) (by decide)⟩

end PolkadotOracle
