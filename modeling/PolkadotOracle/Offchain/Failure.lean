import PolkadotOracle.Offchain.Records

/-! A run of the worker whose state change the pool refuses.  The handler logs the refusal and
returns the default payload, which the run publishes as if it were the job's. -/

namespace PolkadotOracle

open Scale

variable {T : Config}

/-! ### A run without others -/

/-- The storage and the run after `n` steps, with the pool's verdicts on what each step submits. -/
def Worker.run (submit : Nat → Call → Bool) (db : Db) (w : Worker T) : Nat → Db × Worker T
  | 0 => (db, w)
  | n + 1 =>
    let (db, w) := Worker.run submit db w n
    let (db, pc, _) := offchainWorker (submit n) db w
    (db, { w with pc })

theorem Worker.run_succ (submit : Nat → Call → Bool) (db : Db) (w : Worker T) (n : Nat) :
    w.run submit db (n + 1) =
      ((offchainWorker (submit n) (w.run submit db n).1 (w.run submit db n).2).1,
        { (w.run submit db n).2 with
          pc := (offchainWorker (submit n) (w.run submit db n).1 (w.run submit db n).2).2.1 }) :=
  rfl

section Run

variable {submit : Nat → Call → Bool} {db db' : Db} {w : Worker T} {n : Nat}

theorem Worker.run_step {pc pc' : WorkerPc} {db₁ db₂ : Db} {calls : List Call}
    (h : w.run submit db n = (db₁, { w with pc }))
    (hstep : offchainWorker (submit n) db₁ { w with pc } = (db₂, pc', calls)) :
    w.run submit db (n + 1) = (db₂, { w with pc := pc' }) := by
  rw [Worker.run_succ, h]
  simp only [hstep]

/-- A step of the loop over the results goes on to the next one or ends the run, and writes
nothing. -/
theorem offchainWorker_submitting (submit : Call → Bool) (db : Db) (w : Worker T)
    (resultKey : Bytes) (resultKeys : List Bytes) :
    ∃ pc calls, offchainWorker submit db { w with pc := .submitting (resultKey :: resultKeys) } =
        (db, pc, calls) ∧ (pc = .submitting resultKeys ∨ pc = .ended) := by
  simp only [offchainWorker]
  cases (db.get resultKey).bind ResponePayload.decode with
  | none => exact ⟨_, _, rfl, .inl rfl⟩
  | some res =>
    simp only [ocwDoSubmitResult]
    split_ifs
    · exact ⟨_, _, rfl, .inl rfl⟩
    · exact ⟨_, _, rfl, .inr rfl⟩

theorem Worker.run_submitting {resultKeys : List Bytes}
    (h : w.run submit db n = (db', { w with pc := .submitting resultKeys })) :
    ∃ m, w.run submit db m = (db', { w with pc := .ended }) := by
  induction resultKeys generalizing n with
  | nil => exact ⟨n + 1, Worker.run_step h rfl⟩
  | cons resultKey resultKeys ih =>
    obtain ⟨pc, calls, hstep, rfl | rfl⟩ :=
      offchainWorker_submitting (submit n) db' w resultKey resultKeys
    · exact ih (Worker.run_step h hstep)
    · exact ⟨n + 1, Worker.run_step h hstep⟩

/-- Once its job is handled, a run ends and writes nothing more. -/
theorem Worker.run_handleResult {resultKey : Bytes}
    (h : w.run submit db n = (db', { w with pc := .handleResult resultKey })) :
    ∃ m, w.run submit db m = (db', { w with pc := .ended }) := by
  rcases WorkerPc.handleResult_cases resultKey with hpc | ⟨resultKeys, hpc⟩
  · exact ⟨n, by rw [h, hpc]⟩
  · exact Worker.run_submitting (h.trans (by rw [hpc]))

end Run

/-! ### A refused state change -/

/-- The pool refuses the state change of the job that the handler comes to. -/
def Refused (submit : Call → Bool) (blockNumber : Nat) (jobs : Entries T) (key : Hash) : Prop :=
  (∃ before job after, jobs = before ++ ⟨key, job⟩ :: after ∧ job.state = .pending ∧
    ∀ e ∈ before, e.2.state ≠ .pending ∧ e.2.state ≠ .finish) ∧
  submit (.changeJobState blockNumber key) = false

/-- The handler offers the job's id all the same, with the default payload. -/
theorem ocwDoHandlingJob_refused {submit : Call → Bool} {blockNumber : Nat} {jobs : Entries T}
    {key : Hash} (h : Refused submit blockNumber jobs key) (params : Bytes) :
    ocwDoHandlingJob submit blockNumber params jobs =
      (.ok (.requestData (params ++ key.val) (RequestPayload.codec.encode default)), []) := by
  obtain ⟨⟨before, job, after, rfl, hstate, hbefore⟩, hsubmit⟩ := h
  induction before with
  | nil =>
    rw [List.nil_append, ocwDoHandlingJob_pending hstate, offerOf, if_neg (by simp [hsubmit])]
  | cons e before ih =>
    obtain ⟨hpending, hfinish⟩ := hbefore e (by simp)
    rw [List.cons_append, ocwDoHandlingJob_other hpending hfinish]
    exact ih fun e' he' => hbefore e' (by simp [he'])

/-- The storage after a run whose state change was refused: the job's id is on the key list, and the
default payload lies under its own id, which is empty. -/
def Db.published (db : Db) (jobKey : Bytes) (key : Hash) : Db :=
  (db.set wasmstoreKeyList (jobKey ++ key.val)).set [] (RequestPayload.codec.encode default)

/-- In whatever state the run ends, it has left the storage as it was. -/
def PublishesNothing (submit : Nat → Call → Bool) (db : Db) (w : Worker T) : Prop :=
  ∀ n, (w.run submit db n).2.pc = .ended → (w.run submit db n).1 = db

section Refused

variable {submit : Nat → Call → Bool} {db : Db} {w : Worker T} {jobKey resultKey : Bytes}
  {key : Hash}

theorem Worker.run_refused (hstart : w.pc = .getKeyList)
    (hkeys : db.get wasmstoreKeyList = some jobKey)
    (hresults : db.get wasmstoreResultList = some resultKey)
    (hrefused : Refused (submit 2) w.blockNumber w.jobs key) :
    ∃ n, w.run submit db n = (db.published jobKey key, { w with pc := .ended }) := by
  have h₀ : w.run submit db 0 = (db, { w with pc := .getKeyList }) := by
    rw [Worker.run, ← hstart]
  have hkeyList : offchainWorker (submit 0) db { w with pc := .getKeyList } =
      (db, .getResultList jobKey, []) := by
    simp only [offchainWorker, hkeys]
  have hresultList : offchainWorker (submit 1) db { w with pc := .getResultList jobKey } =
      (db, .handling jobKey resultKey, []) := by
    simp only [offchainWorker, hresults]
  -- The handler's default payload decodes like any other.
  have hhandling : offchainWorker (submit 2) db { w with pc := .handling jobKey resultKey } =
      (db, .compareAndSet jobKey resultKey (jobKey ++ key.val)
        (RequestPayload.codec.encode default) default, []) := by
    simp only [offchainWorker, ocwDoHandlingJob_refused hrefused, RequestPayload.decode_encode]
  have hpublish : offchainWorker (submit 3) db { w with
        pc := .compareAndSet jobKey resultKey (jobKey ++ key.val)
          (RequestPayload.codec.encode default) default } =
      (db.set wasmstoreKeyList (jobKey ++ key.val),
        .set resultKey (RequestPayload.codec.encode default) default, []) := by
    simp only [offchainWorker, Store.compareAndSet_hit _ hkeys]
  have h₂ := Worker.run_step (Worker.run_step h₀ hkeyList) hresultList
  have h₄ := Worker.run_step (Worker.run_step h₂ hhandling) hpublish
  exact Worker.run_handleResult (Worker.run_step h₄ rfl)

/-- The key list has grown. -/
theorem Db.published_ne (hkeys : db.get wasmstoreKeyList = some jobKey) :
    db.published jobKey key ≠ db := by
  intro heq
  have hlist : (db.published jobKey key).get wasmstoreKeyList = some (jobKey ++ key.val) := by
    rw [Db.published, Store.get_set_ne _ _ (ne_wasmstoreKeyList (.inr rfl)).symm,
      Store.get_set_same]
  rw [heq, hkeys] at hlist
  have hlength := congrArg List.length (Option.some.inj hlist)
  have hkey := key.property
  simp only [List.length_append] at hlength
  omega

/-- Whenever the pool refuses the state change of a run, the run ends, and it has added the job's id
to the key list and stored the default payload: it never leaves the storage as it was. -/
theorem failed_submission_published (hstart : w.pc = .getKeyList)
    (hkeys : db.get wasmstoreKeyList = some jobKey)
    (hresults : db.get wasmstoreResultList = some resultKey)
    (hrefused : Refused (submit 2) w.blockNumber w.jobs key) :
    ¬PublishesNothing submit db w ∧
    ∃ n, w.run submit db n = (db.published jobKey key, { w with pc := .ended }) := by
  obtain ⟨n, hrun⟩ := Worker.run_refused hstart hkeys hresults hrefused
  refine ⟨fun h => ?_, n, hrun⟩
  have hsame := h n (by rw [hrun])
  rw [hrun] at hsame
  exact Db.published_ne hkeys hsame

end Refused

/-- The queue of the sample job. -/
def sampleQueueOrder : AList fun _ : Hash => OcwJob sampleRuntime :=
  AList.insert sampleJob.key sampleJob ∅

/-- A run on the sample queue, next to an executor that has just started. -/
def sampleRun : Worker sampleRuntime :=
  ⟨sampleQueue.blockNumber, sampleQueueOrder.entries, .getKeyList⟩

theorem sampleRun_refused : Refused (fun _ => false) sampleRun.blockNumber sampleRun.jobs
    sampleJob.key :=
  ⟨⟨[], sampleJob, [], rfl, rfl, by simp⟩, rfl⟩

theorem failed_submission_published_sample :
    ¬PublishesNothing (fun _ _ => false) (runExecutor Store.empty none) sampleRun := by
  have hkeys : (runExecutor Store.empty none).get wasmstoreKeyList = some initList := by decide
  have hresults : (runExecutor Store.empty none).get wasmstoreResultList = some initList := by
    decide
  exact (failed_submission_published rfl hkeys hresults sampleRun_refused).1

/-- The first run of a node whose pool refuses the state change leaves a record under the empty key
and the job's id on the key list. -/
theorem failed_submission_leaks : ChainReaches (State.genesis sampleRuntime) sampleQueue ∧
    sampleQueueOrder.toFinmap = sampleQueue.jobQueue ∧
    Refused (fun _ => false) sampleRun.blockNumber sampleRun.jobs sampleJob.key ∧
    ((sampleRun.run (fun _ _ => false) (runExecutor Store.empty none) 5).1.get [] =
      some (RequestPayload.codec.encode default)) ∧
    (sampleRun.run (fun _ _ => false) (runExecutor Store.empty none) 5).2.pc = .ended ∧
    ¬PublishesNothing (fun _ _ => false) (runExecutor Store.empty none) sampleRun := by
  have hended : (sampleRun.run (fun _ _ => false) (runExecutor Store.empty none) 5).2.pc =
      .ended := by decide +kernel
  have hrecord : (sampleRun.run (fun _ _ => false) (runExecutor Store.empty none) 5).1.get [] =
      some (RequestPayload.codec.encode default) := by decide +kernel
  refine ⟨sampleQueue_reached, by decide, sampleRun_refused, hrecord, hended, fun h => ?_⟩
  rw [h 5 hended] at hrecord
  exact absurd hrecord (by decide)

end PolkadotOracle
