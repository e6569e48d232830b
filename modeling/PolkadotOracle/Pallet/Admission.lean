import PolkadotOracle.Pallet.Unsigned

/-! Whether an unsigned call that the validation accepts can be performed.  The validation looks at
neither the job nor the value, so it also accepts calls that fail or do nothing. -/

namespace PolkadotOracle

open Exec Frame Scale

variable {T : Config}

/-- What an unsigned call is for: it advances an existing job by one step, or leaves the submitted
result under the job and the processor. -/
def Performs (s s' : State T) : Call → Prop
  | .changeJobState _ key => ∃ job next, s.jobQueue.lookup key = some job ∧
      (job.state = .pending ∧ next = .processing ∨ job.state = .processing ∧ next = .finish) ∧
      s'.jobQueue.lookup key = some { job with state := next }
  | .submitResultUnsiged _ key value processorPub extTime =>
    ∃ onchainKey rest, ∃ resultData : BoundedVec T.maxResultSize.toNat,
      (fixedBytes 32).decode key = some (onchainKey, rest) ∧ resultData.val = value ∧
      s'.scriptResult.lookup (onchainKey, processorPub) = some ⟨resultData, extTime⟩
  | _ => False

/-- A call that the validation accepts returns, and does what it is for. -/
def ValidationAgrees (s : State T) (c : Call) : Prop :=
  (validateUnsigned s c).accepts = true →
    error (c.dispatch .none s) = none ∧ Performs s (s.call .none c) c

/-- A call that can be performed: its job waits or is being processed, or its job is finished and
its value fits. -/
def Feasible (s : State T) : Call → Prop
  | .changeJobState _ key => ∃ job, s.jobQueue.lookup key = some job ∧
      (job.state = .pending ∨ job.state = .processing)
  | .submitResultUnsiged _ key value _ _ => Recordable s .none key value
  | _ => False

theorem changeJobState_returns (s : State T) (blockNumber : Nat) (key : Hash) :
    error ((Call.changeJobState blockNumber key).dispatch .none s) = none := rfl

theorem changeJobState_lookup (s : State T) (blockNumber : Nat) (key : Hash) :
    (s.call .none (.changeJobState blockNumber key)).jobQueue.lookup key =
      (s.jobQueue.lookup key).map OcwJob.advance := by
  simp only [State.call, Call.dispatch, changeJobState, bind_apply, ensureNone_none, modify_apply,
    final_ok]
  cases hjob : s.jobQueue.lookup key with
  | none => simp [hjob]
  | some job => simp [Finmap.lookup_insert]

theorem changeJobState_performs_iff (s : State T) (blockNumber : Nat) (key : Hash) :
    Performs s (s.call .none (.changeJobState blockNumber key)) (.changeJobState blockNumber key) ↔
      Feasible s (.changeJobState blockNumber key) := by
  constructor
  · rintro ⟨job, next, hjob, hstate, -⟩
    exact ⟨job, hjob, hstate.imp And.left And.left⟩
  · rintro ⟨job, hjob, hstate⟩
    have hafter := changeJobState_lookup s blockNumber key
    rw [hjob] at hafter
    refine ⟨job, job.state.advance, hjob, ?_, hafter⟩
    rcases hstate with hstate | hstate
    · exact .inl ⟨hstate, by rw [hstate]; rfl⟩
    · exact .inr ⟨hstate, by rw [hstate]; rfl⟩

/-- A submission for a finished job whose value fits is recorded, whether or not the processor has
submitted before. -/
theorem submitResultUnsiged_recorded {s : State T} {key value : Bytes}
    (h : Recordable s .none key value) (blockNumber : Nat) (processorPub : Public)
    (extTime : UInt32) :
    let c : Call := .submitResultUnsiged blockNumber key value processorPub extTime
    error (c.dispatch .none s) = none ∧ Performs s (s.call .none c) c := by
  obtain ⟨-, onchainKey, rest, job, hkey, hjob, hfinish, hsize⟩ := h
  have hresult : (Call.submitResultUnsiged blockNumber key value processorPub extTime).dispatch
      .none s = _ :=
    submitResultUnsiged_fits hkey hjob hfinish hsize blockNumber processorPub extTime
  refine ⟨by rw [hresult]; rfl, onchainKey, rest, .ofLe value hsize, hkey, rfl, ?_⟩
  rw [State.call, hresult, final_ok, State.record, Finmap.lookup_insert]

/-- A submission after which its result is there was recorded: a job that is not finished has no
results. -/
theorem submitResultUnsiged_feasible {s : State T} (hinv : ResultInv s) {blockNumber : Nat}
    {key value : Bytes} {processorPub : Public} {extTime : UInt32}
    (h : Performs s (s.call .none (.submitResultUnsiged blockNumber key value processorPub extTime))
      (.submitResultUnsiged blockNumber key value processorPub extTime)) :
    Recordable s .none key value := by
  obtain ⟨onchainKey, rest, resultData, hkey, hval, hlookup⟩ := h
  by_contra hnot
  have hsame :=
    (submitResultUnsiged_frame s .none blockNumber key value processorPub extTime).2 hnot
  rw [hsame] at hlookup
  obtain ⟨job, hjob, hfinish⟩ := hinv _ _ _ hlookup
  exact hnot ⟨rfl, onchainKey, rest, job, hkey, hjob, hfinish, hval ▸ resultData.property⟩

/-- In every state that any calls reach, an accepted call returns and does what it is for exactly
when it can be performed. -/
theorem validationAgrees_iff {s : State T} (h : ChainReaches (State.genesis T) s) {c : Call}
    (haccepts : (validateUnsigned s c).accepts = true) : ValidationAgrees s c ↔ Feasible s c := by
  have hagrees : ValidationAgrees s c ↔
      error (c.dispatch .none s) = none ∧ Performs s (s.call .none c) c :=
    ⟨fun hvalid => hvalid haccepts, fun hvalid _ => hvalid⟩
  rw [hagrees]
  cases c with
  | changeJobState blockNumber key =>
    rw [changeJobState_performs_iff]
    exact and_iff_right (changeJobState_returns s blockNumber key)
  | submitResultUnsiged blockNumber key value processorPub extTime =>
    constructor
    · rintro ⟨-, hperforms⟩
      exact submitResultUnsiged_feasible h.resultInv hperforms
    · intro hfeasible
      exact submitResultUnsiged_recorded hfeasible blockNumber processorPub extTime
  | _ => simp [validateUnsigned, Validity.accepts] at haccepts

theorem validationAgrees_iff_sample :
    ValidationAgrees sampleQueue (.changeJobState 0 sampleJob.key) :=
  (validationAgrees_iff sampleQueue_reached (by decide)).mpr
    ⟨sampleJob, sampleQueue_lookup, .inl rfl⟩

/-- A key that no job has. -/
def sampleNoJob : Hash := sampleRuntime.hashing [1]

/-- The validation accepts a state change of a job that does not exist, which does nothing, and a
result for a job that has not finished, which fails. -/
theorem validation_disagrees : ChainReaches (State.genesis _) sampleQueue ∧
    (validateUnsigned sampleQueue (.changeJobState 0 sampleNoJob)).accepts = true ∧
    sampleQueue.call .none (.changeJobState 0 sampleNoJob) = sampleQueue ∧
    ¬ValidationAgrees sampleQueue (.changeJobState 0 sampleNoJob) ∧
    (validateUnsigned sampleQueue
      (.submitResultUnsiged 0 sampleJob.key.val [7] (FixedBytes.zero 32) 5)).accepts = true ∧
    error (Call.dispatch .none
      (.submitResultUnsiged 0 sampleJob.key.val [7] (FixedBytes.zero 32) 5) sampleQueue) =
        some (.module .invalidOperation) ∧
    ¬ValidationAgrees sampleQueue
      (.submitResultUnsiged 0 sampleJob.key.val [7] (FixedBytes.zero 32) 5) := by
  have hnone : sampleQueue.jobQueue.lookup sampleNoJob = none := by decide
  have hchange : (validateUnsigned sampleQueue (.changeJobState 0 sampleNoJob)).accepts = true := by
    decide
  have hsubmit : (validateUnsigned sampleQueue
      (.submitResultUnsiged 0 sampleJob.key.val [7] (FixedBytes.zero 32) 5)).accepts = true := by
    decide
  have hfault : error (Call.dispatch .none
      (.submitResultUnsiged 0 sampleJob.key.val [7] (FixedBytes.zero 32) 5) sampleQueue) =
        some (.module .invalidOperation) := by decide
  refine ⟨sampleQueue_reached, hchange, ?_, fun h => ?_, hsubmit, hfault, fun h => ?_⟩
  · simp [State.call, Call.dispatch, changeJobState, hnone]
  · obtain ⟨-, job, -, hjob, -⟩ := h hchange
    simp [hnone] at hjob
  · have hreturns := (h hsubmit).1
    rw [hfault] at hreturns
    contradiction

end PolkadotOracle
