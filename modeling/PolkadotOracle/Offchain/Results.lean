import PolkadotOracle.Offchain.Formats

/-! The loop of the worker over the result list: which submissions it attempts, and what a refused
one does to those behind it. -/

namespace PolkadotOracle

open Exec Scale Sequence

variable {T : Config}

/-- What the loop has submitted: its attempts, and the calls that the pool holds. -/
structure Submissions where
  attempted : List Call
  pooled : List Call

/-- The pool's answer to one more submission.  It refuses a call that it already holds, and follows
the pattern `verdict` on the others. -/
def Submissions.accepts (verdict : Nat → Bool) (s : Submissions) (c : Call) : Bool :=
  verdict s.attempted.length && decide (c ∉ s.pooled)

/-- The call that submits a response. -/
def submitCall (blockNumber : Nat) (res : ResponePayload) : Call :=
  .submitResultUnsiged blockNumber res.jobId.val res.jobResult.val res.address res.exeTime

/-- The submission of one response.  The source expects it to succeed. -/
def expectSubmitted (verdict : Nat → Bool) (blockNumber : Nat) (res : ResponePayload) :
    EStateM String Submissions Unit := do
  let s ← get
  let (result, calls) := ocwDoSubmitResult (s.accepts verdict) blockNumber res.jobId.val
    res.jobResult.val res.address res.exeTime
  modify fun s => {
    attempted := s.attempted ++ [submitCall blockNumber res]
    pooled := s.pooled ++ calls }
  match result with
  | .ok _ => pure ()
  | .error _ => throw "Result Submitted"

def submitResults (verdict : Nat → Bool) (db : Db) (blockNumber : Nat) :
    List Bytes → EStateM String Submissions Unit
  | [] => pure ()
  | resultKey :: resultKeys => do
    match (db.get resultKey).bind ResponePayload.decode with
    | none => pure ()
    | some res => expectSubmitted verdict blockNumber res
    submitResults verdict db blockNumber resultKeys

/-- The worker's work on the result list that it has read. -/
def handleResults (verdict : Nat → Bool) (db : Db) (blockNumber : Nat) (resultKey : Bytes) :
    EStateM String Submissions Unit :=
  match ocwDoHandlingResult resultKey with
  | none => throw "range start index 4 out of range"
  | some (.ok resultKeys) => submitResults verdict db blockNumber resultKeys
  | some (.error _) => pure ()

/-- The submissions that the listed ids call for: one for each record that reads as a response. -/
def callsOf (db : Db) (blockNumber : Nat) (resultKeys : List Bytes) : List Call :=
  resultKeys.filterMap fun resultKey =>
    ((db.get resultKey).bind ResponePayload.decode).map (submitCall blockNumber)

theorem callsOf_none {db : Db} {id : Bytes} (h : (db.get id).bind ResponePayload.decode = none)
    (blockNumber : Nat) (ids : List Bytes) :
    callsOf db blockNumber (id :: ids) = callsOf db blockNumber ids :=
  List.filterMap_cons_none (by rw [h]; rfl)

theorem callsOf_some {db : Db} {id : Bytes} {q : ResponePayload}
    (h : (db.get id).bind ResponePayload.decode = some q) (blockNumber : Nat) (ids : List Bytes) :
    callsOf db blockNumber (id :: ids) =
      submitCall blockNumber q :: callsOf db blockNumber ids :=
  List.filterMap_cons_some (by rw [h]; rfl)

/-- What a step of a run attempts to submit. -/
def WorkerPc.attempts (db : Db) (blockNumber : Nat) : WorkerPc → List Call
  | .submitting (resultKey :: _) => callsOf db blockNumber [resultKey]
  | _ => []

/-- A step of a run of the worker, on a storage that stays as it is, and on the pool. -/
def workerStep (verdict : Nat → Bool) (db : Db) (blockNumber : Nat) (jobs : Entries T)
    (x : WorkerPc × Submissions) : WorkerPc × Submissions :=
  let (_, pc, calls) := offchainWorker (x.2.accepts verdict) db ⟨blockNumber, jobs, x.1⟩
  (pc, ⟨x.2.attempted ++ x.1.attempts db blockNumber, x.2.pooled ++ calls⟩)

section Loop

variable {verdict : Nat → Bool} {db : Db} {blockNumber : Nat} {s : Submissions}

theorem expectSubmitted_apply (verdict : Nat → Bool) (blockNumber : Nat) (res : ResponePayload)
    (s : Submissions) :
    expectSubmitted verdict blockNumber res s =
      if s.accepts verdict (submitCall blockNumber res) then
        .ok () ⟨s.attempted ++ [submitCall blockNumber res],
          s.pooled ++ [submitCall blockNumber res]⟩
      else
        .error "Result Submitted" ⟨s.attempted ++ [submitCall blockNumber res], s.pooled⟩ := by
  simp only [expectSubmitted, bind_apply, get_apply, ocwDoSubmitResult]
  by_cases haccepts : s.accepts verdict (submitCall blockNumber res)
  · rw [submitCall] at haccepts ⊢
    simp [haccepts]
  · rw [submitCall] at haccepts ⊢
    simp [haccepts]

/-- The attempt that is added for a response, and the call that enters the pool with it. -/
def Submissions.take (s : Submissions) (c : Call) : Submissions :=
  ⟨s.attempted ++ [c], s.pooled ++ [c]⟩

theorem submitResults_skip {resultKey : Bytes}
    (h : (db.get resultKey).bind ResponePayload.decode = none) (resultKeys : List Bytes)
    (s : Submissions) :
    submitResults verdict db blockNumber (resultKey :: resultKeys) s =
      submitResults verdict db blockNumber resultKeys s := by
  rw [submitResults, h]

theorem submitResults_submit {resultKey : Bytes} {res : ResponePayload}
    (h : (db.get resultKey).bind ResponePayload.decode = some res) (resultKeys : List Bytes)
    (s : Submissions) :
    submitResults verdict db blockNumber (resultKey :: resultKeys) s =
      if s.accepts verdict (submitCall blockNumber res) then
        submitResults verdict db blockNumber resultKeys (s.take (submitCall blockNumber res))
      else
        .error "Result Submitted" ⟨s.attempted ++ [submitCall blockNumber res], s.pooled⟩ := by
  rw [submitResults, h]
  simp only [bind_apply, expectSubmitted_apply]
  by_cases haccepts : s.accepts verdict (submitCall blockNumber res)
  · rw [if_pos haccepts, if_pos haccepts]
    rfl
  · rw [if_neg haccepts, if_neg haccepts]

/-- One iteration of the loop is one step of the worker's run, which ends where the loop panics. -/
theorem workerStep_submitResults (verdict : Nat → Bool) (db : Db) (blockNumber : Nat)
    (jobs : Entries T) (resultKey : Bytes) (resultKeys : List Bytes) (s : Submissions) :
    ∃ s', workerStep verdict db blockNumber jobs (.submitting (resultKey :: resultKeys), s) =
        (.submitting resultKeys, s') ∧
      submitResults verdict db blockNumber (resultKey :: resultKeys) s =
        submitResults verdict db blockNumber resultKeys s' ∨
    workerStep verdict db blockNumber jobs (.submitting (resultKey :: resultKeys), s) =
        (.ended, s') ∧
      submitResults verdict db blockNumber (resultKey :: resultKeys) s =
        .error "Result Submitted" s' := by
  simp only [workerStep, offchainWorker, WorkerPc.attempts]
  cases hrecord : (db.get resultKey).bind ResponePayload.decode with
  | none =>
    refine ⟨s, .inl ⟨?_, submitResults_skip hrecord resultKeys s⟩⟩
    rw [callsOf_none hrecord]
    simp [callsOf]
  | some res =>
    rw [submitResults_submit hrecord, callsOf_some hrecord]
    by_cases haccepts : s.accepts verdict (submitCall blockNumber res)
    · refine ⟨s.take (submitCall blockNumber res), .inl ⟨?_, if_pos haccepts⟩⟩
      rw [submitCall] at haccepts
      simp [callsOf, ocwDoSubmitResult, haccepts, Submissions.take, submitCall]
    · refine ⟨_, .inr ⟨?_, if_neg haccepts⟩⟩
      rw [submitCall] at haccepts
      simp [callsOf, ocwDoSubmitResult, haccepts]

/-- The worker's run over the ids submits what the loop does. -/
theorem iterate_workerStep (verdict : Nat → Bool) (db : Db) (blockNumber : Nat)
    (jobs : Entries T) (resultKeys : List Bytes) (s : Submissions) :
    ∃ n, (workerStep verdict db blockNumber jobs)^[n] (.submitting resultKeys, s) =
      (.ended, final (submitResults verdict db blockNumber resultKeys s)) := by
  induction resultKeys generalizing s with
  | nil => exact ⟨1, by simp [workerStep, offchainWorker, WorkerPc.attempts, submitResults]⟩
  | cons resultKey resultKeys ih =>
    obtain ⟨s', ⟨hstep, hloop⟩ | ⟨hstep, hloop⟩⟩ :=
      workerStep_submitResults verdict db blockNumber jobs resultKey resultKeys s
    · obtain ⟨n, hrun⟩ := ih s'
      refine ⟨n + 1, ?_⟩
      rw [Function.iterate_succ_apply, hstep, hloop, hrun]
    · refine ⟨1, ?_⟩
      rw [Function.iterate_one, hstep, hloop]
      rfl

/-! ### All results are submitted -/

/-- The pool takes the calls, one after the other. -/
def Taken (verdict : Nat → Bool) (s : Submissions) (calls : List Call) : Prop :=
  (∀ i < calls.length, verdict (s.attempted.length + i) = true) ∧ calls.Nodup ∧
    ∀ c ∈ calls, c ∉ s.pooled

theorem taken_cons {c : Call} {calls : List Call} :
    Taken verdict s (c :: calls) ↔
      s.accepts verdict c = true ∧ Taken verdict (s.take c) calls := by
  simp only [Taken, Submissions.accepts, Submissions.take, Bool.and_eq_true, decide_eq_true_eq,
    List.length_cons, List.length_append, List.length_nil, Nat.zero_add, List.nodup_cons,
    List.mem_cons, forall_eq_or_imp, List.mem_append, List.not_mem_nil, or_false, not_or]
  constructor
  · rintro ⟨hverdict, ⟨hnew, hnodup⟩, hc, hcalls⟩
    refine ⟨⟨hverdict 0 (by omega), hc⟩, fun i hi => ?_, hnodup, fun c' hc' => ?_⟩
    · rw [show s.attempted.length + 1 + i = s.attempted.length + (i + 1) by omega]
      exact hverdict (i + 1) (by omega)
    · exact ⟨hcalls c' hc', fun heq => hnew (heq ▸ hc')⟩
  · rintro ⟨⟨hfirst, hc⟩, hverdict, hnodup, hcalls⟩
    refine ⟨fun i hi => ?_, ⟨fun hmem => (hcalls c hmem).2 rfl, hnodup⟩, hc,
      fun c' hc' => (hcalls c' hc').1⟩
    cases i with
    | zero => exact hfirst
    | succ i =>
      rw [show s.attempted.length + (i + 1) = s.attempted.length + 1 + i by omega]
      exact hverdict i (by omega)

/-- The loop ends without a panic when the pool takes every call, and with one when it refuses any
of them. -/
theorem submitResults_cases (resultKeys : List Bytes) (s : Submissions) :
    Taken verdict s (callsOf db blockNumber resultKeys) ∧
      submitResults verdict db blockNumber resultKeys s =
        .ok () ⟨s.attempted ++ callsOf db blockNumber resultKeys,
          s.pooled ++ callsOf db blockNumber resultKeys⟩ ∨
    ¬Taken verdict s (callsOf db blockNumber resultKeys) ∧
      ∃ s', submitResults verdict db blockNumber resultKeys s = .error "Result Submitted" s' := by
  induction resultKeys generalizing s with
  | nil => exact .inl ⟨by simp [Taken, callsOf], by simp [submitResults, callsOf]⟩
  | cons resultKey resultKeys ih =>
    cases hrecord : (db.get resultKey).bind ResponePayload.decode with
    | none =>
      rw [callsOf_none hrecord, submitResults_skip hrecord]
      exact ih s
    | some res =>
      rw [callsOf_some hrecord, taken_cons, submitResults_submit hrecord]
      by_cases haccepts : s.accepts verdict (submitCall blockNumber res) = true
      · have hrest := ih (s.take (submitCall blockNumber res))
        rw [if_pos haccepts]
        simpa [haccepts, Submissions.take] using hrest
      · rw [if_neg haccepts]
        exact .inr ⟨fun h => haccepts h.1, _, rfl⟩

end Loop

/-- The ids of a result list. -/
def listedKeys (resultKey : Bytes) : List Bytes :=
  if resultKey = initList then [] else chunks 32 (resultKey.drop 4)

/-- The work on a result list attempts one submission for every listed id whose record reads as a
response, and does not panic. -/
structure SubmitsAll (db : Db) (blockNumber : Nat) (resultKey : Bytes)
    (result : EStateM.Result String Submissions Unit) : Prop where
  attempts : (final result).attempted = callsOf db blockNumber (listedKeys resultKey)
  returns : error result = none

theorem not_submitsAll_error {db : Db} {blockNumber : Nat} {resultKey : Bytes} (message : String)
    (s : Submissions) : ¬SubmitsAll db blockNumber resultKey (.error message s) := by
  intro h
  have hreturns := h.returns
  contradiction

/-- The worker's run over a result list that it has read submits what the loop does. -/
theorem iterate_handleResults (verdict : Nat → Bool) (db : Db) (blockNumber : Nat)
    (jobs : Entries T) (resultKey : Bytes) (s : Submissions) :
    ∃ n, (workerStep verdict db blockNumber jobs)^[n] (.handleResult resultKey, s) =
      (.ended, final (handleResults verdict db blockNumber resultKey s)) := by
  unfold WorkerPc.handleResult handleResults
  rcases ocwDoHandlingResult resultKey with _ | e | resultKeys
  · exact ⟨0, rfl⟩
  · exact ⟨0, rfl⟩
  · exact iterate_workerStep verdict db blockNumber jobs resultKeys s

/-- A panic of one submission stops the loop, so the work on a result list, over any records and any
pattern of verdicts, does all of it exactly when the pool accepts every submission: the verdicts are
all positive, the calls differ from each other, and the pool holds none of them.  The list must be
as long as the one that a node starts with.  The worker's run submits the same as the loop. -/
theorem submitsAll_iff (verdict : Nat → Bool) (pooled : List Call) (db : Db) (blockNumber : Nat)
    (resultKey : Bytes) :
    (SubmitsAll db blockNumber resultKey
        (handleResults verdict db blockNumber resultKey ⟨[], pooled⟩) ↔
      initList.length ≤ resultKey.length ∧
      (∀ i < (callsOf db blockNumber (listedKeys resultKey)).length, verdict i = true) ∧
      (callsOf db blockNumber (listedKeys resultKey)).Nodup ∧
      ∀ c ∈ callsOf db blockNumber (listedKeys resultKey), c ∉ pooled) ∧
    ∀ jobs : Entries T, ∃ n,
      (workerStep verdict db blockNumber jobs)^[n] (.handleResult resultKey, ⟨[], pooled⟩) =
        (.ended, final (handleResults verdict db blockNumber resultKey ⟨[], pooled⟩)) := by
  refine ⟨?_, fun jobs =>
    iterate_handleResults verdict db blockNumber jobs resultKey ⟨[], pooled⟩⟩
  have htaken : Taken verdict ⟨[], pooled⟩ (callsOf db blockNumber (listedKeys resultKey)) ↔
      (∀ i < (callsOf db blockNumber (listedKeys resultKey)).length, verdict i = true) ∧
      (callsOf db blockNumber (listedKeys resultKey)).Nodup ∧
      ∀ c ∈ callsOf db blockNumber (listedKeys resultKey), c ∉ pooled := by
    simp only [Taken, List.length_nil, Nat.zero_add]
  rw [← htaken]
  by_cases hinit : resultKey = initList
  · have hhandle : handleResults verdict db blockNumber resultKey ⟨[], pooled⟩ =
        .ok () ⟨[], pooled⟩ := by
      simp [handleResults, ocwDoHandlingResult, hinit]
    have hlisted : listedKeys resultKey = [] := if_pos hinit
    rw [hhandle, hlisted, hinit]
    exact iff_of_true ⟨rfl, rfl⟩ ⟨le_rfl, by simp [Taken, callsOf]⟩
  have hlisted : listedKeys resultKey = chunks 32 (resultKey.drop 4) := if_neg hinit
  by_cases hlength : 4 ≤ resultKey.length
  case neg =>
    have hhandle : handleResults verdict db blockNumber resultKey ⟨[], pooled⟩ =
        .error "range start index 4 out of range" ⟨[], pooled⟩ := by
      simp [handleResults, ocwDoHandlingResult, hinit, sliceFrom, hlength]
    rw [hhandle]
    exact iff_of_false (not_submitsAll_error _ _) fun h => hlength h.1
  have hhandle : handleResults verdict db blockNumber resultKey =
      submitResults verdict db blockNumber (listedKeys resultKey) := by
    simp [handleResults, ocwDoHandlingResult, hinit, sliceFrom, hlength, hlisted]
  rw [hhandle]
  rcases submitResults_cases (listedKeys resultKey) ⟨[], pooled⟩ with
    ⟨htakes, hresult⟩ | ⟨hrefuses, s', hresult⟩
  · rw [hresult]
    exact iff_of_true ⟨rfl, rfl⟩ ⟨hlength, htakes⟩
  · rw [hresult]
    exact iff_of_false (not_submitsAll_error _ _) fun h => hrefuses h.2

/-- The id of a finished sample job. -/
def sampleId (n : UInt8) : Bytes := List.replicate 32 n

/-- Two responses under the ids of their jobs. -/
def sampleResults : Db :=
  (Store.empty.set (sampleId 1) (ResponePayload.codec.encode
    { sampleRespone with jobId := ⟨sampleId 1, by decide⟩ })).set (sampleId 2)
    (ResponePayload.codec.encode { sampleRespone with jobId := ⟨sampleId 2, by decide⟩ })

/-- When the pool refuses the first of two results, the loop panics before it comes to the second;
and when one id is listed twice, it panics at the repetition on every block. -/
theorem results_blocked :
    (∃ c, (final (handleResults (fun i => decide (i ≠ 0)) sampleResults 0
        (initList ++ (sampleId 1 ++ sampleId 2)) ⟨[], []⟩)).attempted = [c]) ∧
    (callsOf sampleResults 0 (listedKeys (initList ++ (sampleId 1 ++ sampleId 2)))).length = 2 ∧
    error (handleResults (fun i => decide (i ≠ 0)) sampleResults 0
      (initList ++ (sampleId 1 ++ sampleId 2)) ⟨[], []⟩) = some "Result Submitted" ∧
    ¬SubmitsAll sampleResults 0 (initList ++ (sampleId 1 ++ sampleId 2))
      (handleResults (fun i => decide (i ≠ 0)) sampleResults 0
        (initList ++ (sampleId 1 ++ sampleId 2)) ⟨[], []⟩) ∧
    ¬SubmitsAll sampleResults 0 (initList ++ (sampleId 1 ++ sampleId 1))
      (handleResults (fun _ => true) sampleResults 0
        (initList ++ (sampleId 1 ++ sampleId 1)) ⟨[], []⟩) := by
  have hpanic : error (handleResults (fun i => decide (i ≠ 0)) sampleResults 0
      (initList ++ (sampleId 1 ++ sampleId 2)) ⟨[], []⟩) = some "Result Submitted" := by
    decide +kernel
  have hrepeated : error (handleResults (fun _ => true) sampleResults 0
      (initList ++ (sampleId 1 ++ sampleId 1)) ⟨[], []⟩) = some "Result Submitted" := by
    decide +kernel
  refine ⟨⟨submitCall 0 { sampleRespone with jobId := ⟨sampleId 1, by decide⟩ }, by decide +kernel⟩,
    by decide +kernel, hpanic, fun h => ?_, fun h => ?_⟩
  · exact nomatch hpanic.symm.trans h.returns
  · exact nomatch hrepeated.symm.trans h.returns

end PolkadotOracle
