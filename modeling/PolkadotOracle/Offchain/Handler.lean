import PolkadotOracle.Lib.Sequence
import PolkadotOracle.Pallet.Request

/-! The functions that the off-chain worker runs on the job queue and on the two shared lists, and
which job of a queue the job handler offers to the executor. -/

namespace PolkadotOracle

open Scale Sequence

inductive WasmStoreErr
  | valueAlreadyExist
  | isStillRunning
  | unintialize
  | other
deriving DecidableEq, Repr

inductive Command
  | none
  | requestData (keyList data : Bytes)
  | resultData (resultList : Finset Bytes)
deriving DecidableEq

/-- `bs[n..]`, which panics when the input is shorter. -/
def sliceFrom (n : Nat) (bs : Bytes) : Option Bytes :=
  if n ≤ bs.length then some (bs.drop n) else none

/-- The bytes `init`, with which both lists start. -/
def initList : Bytes := [105, 110, 105, 116]

/-- The ids of the result list.  `none` is a panic. -/
def ocwDoHandlingResult (params : Bytes) : Option (Except WasmStoreErr (List Bytes)) :=
  if params = initList then some (.error .isStillRunning)
  else (sliceFrom 4 params).map fun data => .ok (chunks 32 data)

variable {T : Config}

/-- Submits the job's state change to the pool, whose verdict is `submit`.  The second component is
what has entered the pool. -/
def ocwDoChangeJobState (submit : Call → Bool) (blockNumber : Nat) (key : Hash) :
    Except String Unit × List Call :=
  let call := Call.changeJobState blockNumber key
  if submit call then (.ok (), [call])
  else (.error "Unable to submit unsigned transaction.", [])

def Hash.toVec (h : Hash) : Vec := ⟨h.val, by rw [h.property]; decide⟩

/-- The request that the worker stores for a job. -/
def requestOf (jobId : Hash) (job : OcwJob T) : RequestPayload where
  jobId := jobId.toVec
  jobContent := toVec job.wasmCode
  contentAbi := toVec job.wasmAbi
  jobState := job.state

/-- The entries of the queue, in the order of the storage's iteration. -/
abbrev Entries (T : Config) := List (Sigma fun _ : Hash => OcwJob T)

def ocwDoHandlingJob (submit : Call → Bool) (blockNumber : Nat) (params : Bytes) :
    Entries T → Except WasmStoreErr Command × List Call
  | [] => (.ok .none, [])
  | ⟨jobId, job⟩ :: jobs =>
    match job.state with
    | .pending =>
      let keyList := params ++ jobId.val
      match ocwDoChangeJobState submit blockNumber jobId with
      | (.ok _, calls) =>
        (.ok (.requestData keyList (RequestPayload.codec.encode (requestOf jobId job))), calls)
      | (.error _, calls) =>
        (.ok (.requestData keyList (RequestPayload.codec.encode default)), calls)
    | .finish => (.ok (.resultData {jobId.val}), [])
    | _ => ocwDoHandlingJob submit blockNumber params jobs

section HandlingJob

variable (submit : Call → Bool) (blockNumber : Nat) (params : Bytes)

/-- What the handler returns for a pending job that it comes to. -/
def offerOf (jobId : Hash) (job : OcwJob T) : Except WasmStoreErr Command × List Call :=
  if submit (.changeJobState blockNumber jobId) then
    (.ok (.requestData (params ++ jobId.val) (RequestPayload.codec.encode (requestOf jobId job))),
      [.changeJobState blockNumber jobId])
  else
    (.ok (.requestData (params ++ jobId.val) (RequestPayload.codec.encode default)), [])

theorem offerOf_fst (jobId : Hash) (job : OcwJob T) :
    ∃ data, (offerOf submit blockNumber params jobId job).1 =
        .ok (.requestData (params ++ jobId.val) data) ∧
      (submit (.changeJobState blockNumber jobId) →
        data = RequestPayload.codec.encode (requestOf jobId job)) := by
  by_cases hsubmit : submit (.changeJobState blockNumber jobId)
  · exact ⟨_, by rw [offerOf, if_pos hsubmit], fun _ => rfl⟩
  · exact ⟨_, by rw [offerOf, if_neg hsubmit], fun h => absurd h hsubmit⟩

variable {submit blockNumber params} {entry : Sigma fun _ : Hash => OcwJob T} {jobs : Entries T}

theorem ocwDoHandlingJob_pending (h : entry.2.state = .pending) :
    ocwDoHandlingJob submit blockNumber params (entry :: jobs) =
      offerOf submit blockNumber params entry.1 entry.2 := by
  obtain ⟨jobId, job⟩ := entry
  simp only at h
  rw [ocwDoHandlingJob, h]
  by_cases hsubmit : submit (.changeJobState blockNumber jobId)
  · simp [ocwDoChangeJobState, offerOf, hsubmit]
  · simp [ocwDoChangeJobState, offerOf, hsubmit]

theorem ocwDoHandlingJob_finish (h : entry.2.state = .finish) :
    ocwDoHandlingJob submit blockNumber params (entry :: jobs) =
      (.ok (.resultData {entry.1.val}), []) := by
  obtain ⟨jobId, job⟩ := entry
  simp only at h
  rw [ocwDoHandlingJob, h]

theorem ocwDoHandlingJob_other (hp : entry.2.state ≠ .pending) (hf : entry.2.state ≠ .finish) :
    ocwDoHandlingJob submit blockNumber params (entry :: jobs) =
      ocwDoHandlingJob submit blockNumber params jobs := by
  obtain ⟨jobId, job⟩ := entry
  simp only at hp hf
  rw [ocwDoHandlingJob]
  cases hs : job.state <;> simp_all

/-- The handler comes to the entry: it passes over all the entries before it. -/
def ComesTo (jobs : Entries T) (entry : Sigma fun _ : Hash => OcwJob T) : Prop :=
  ∃ before after, jobs = before ++ entry :: after ∧
    ∀ e ∈ before, e.2.state ≠ .pending ∧ e.2.state ≠ .finish

theorem ComesTo.mem (h : ComesTo jobs entry) : entry ∈ jobs := by
  obtain ⟨before, after, rfl, -⟩ := h
  simp

/-- The handler does with the queue what it does with the part from the entry on. -/
theorem ComesTo.handling (h : ComesTo jobs entry) : ∃ after,
    ocwDoHandlingJob submit blockNumber params jobs =
      ocwDoHandlingJob submit blockNumber params (entry :: after) := by
  obtain ⟨before, after, rfl, hbefore⟩ := h
  refine ⟨after, ?_⟩
  induction before with
  | nil => rfl
  | cons e before ih =>
    obtain ⟨hp, hf⟩ := hbefore e List.mem_cons_self
    rw [List.cons_append, ocwDoHandlingJob_other hp hf]
    exact ih fun e' he' => hbefore e' (List.mem_cons_of_mem _ he')

theorem ComesTo.pending (h : ComesTo jobs entry) (hstate : entry.2.state = .pending) :
    ocwDoHandlingJob submit blockNumber params jobs =
      offerOf submit blockNumber params entry.1 entry.2 := by
  obtain ⟨after, hjobs⟩ := h.handling
  rw [hjobs, ocwDoHandlingJob_pending hstate]

theorem ComesTo.finish (h : ComesTo jobs entry) (hstate : entry.2.state = .finish) :
    ocwDoHandlingJob submit blockNumber params jobs = (.ok (.resultData {entry.1.val}), []) := by
  obtain ⟨after, hjobs⟩ := h.handling
  rw [hjobs, ocwDoHandlingJob_finish hstate]

variable (submit blockNumber params) in
/-- The handler stops at the first pending or finished entry: it offers a pending one, returns the
id of a finished one, and returns nothing when there is neither. -/
theorem ocwDoHandlingJob_cases (jobs : Entries T) :
    (∃ before entry after, jobs = before ++ entry :: after ∧ entry.2.state = .pending ∧
      (∀ e ∈ before, e.2.state ≠ .pending ∧ e.2.state ≠ .finish) ∧
      ocwDoHandlingJob submit blockNumber params jobs =
        offerOf submit blockNumber params entry.1 entry.2) ∨
    (∃ before entry after, jobs = before ++ entry :: after ∧ entry.2.state = .finish ∧
      (∀ e ∈ before, e.2.state ≠ .pending ∧ e.2.state ≠ .finish) ∧
      ocwDoHandlingJob submit blockNumber params jobs =
        (.ok (.resultData {entry.1.val}), [])) ∨
    ((∀ e ∈ jobs, e.2.state ≠ .pending ∧ e.2.state ≠ .finish) ∧
      ocwDoHandlingJob submit blockNumber params jobs = (.ok .none, [])) := by
  induction jobs with
  | nil => exact .inr (.inr ⟨by simp, rfl⟩)
  | cons entry jobs ih =>
    by_cases hp : entry.2.state = .pending
    · exact .inl ⟨[], entry, jobs, rfl, hp, by simp, ocwDoHandlingJob_pending hp⟩
    by_cases hf : entry.2.state = .finish
    · exact .inr (.inl ⟨[], entry, jobs, rfl, hf, by simp, ocwDoHandlingJob_finish hf⟩)
    rw [ocwDoHandlingJob_other hp hf]
    rcases ih with ⟨before, e, after, rfl, hs, hb, hr⟩ | ⟨before, e, after, rfl, hs, hb, hr⟩ |
      ⟨hnone, hr⟩
    · exact .inl ⟨entry :: before, e, after, rfl, hs, by simpa using ⟨⟨hp, hf⟩, hb⟩, hr⟩
    · exact .inr (.inl ⟨entry :: before, e, after, rfl, hs, by simpa using ⟨⟨hp, hf⟩, hb⟩, hr⟩)
    · exact .inr (.inr ⟨by simpa using ⟨⟨hp, hf⟩, hnone⟩, hr⟩)

/-! ### Starvation -/

def NoPending (s : State T) : Prop :=
  ∀ key job, s.jobQueue.lookup key = some job → job.state ≠ .pending

/-- The result is the offer of a pending job, with its request when the pool took its state
change. -/
def OffersPending (s : State T) (submit : Call → Bool) (blockNumber : Nat) (params : Bytes)
    (result : Except WasmStoreErr Command) : Prop :=
  ∃ key job data, s.jobQueue.lookup key = some job ∧ job.state = .pending ∧
    result = .ok (.requestData (params ++ key.val) data) ∧
    (submit (.changeJobState blockNumber key) →
      data = RequestPayload.codec.encode (requestOf key job))

/-- No pending job waits behind others: the handler offers a pending job if there is one, and
returns nothing or a finished job's id only when there is none. -/
def NeverStarves (s : State T) (submit : Call → Bool) (blockNumber : Nat) (params : Bytes)
    (result : Except WasmStoreErr Command) : Prop :=
  (¬NoPending s → OffersPending s submit blockNumber params result) ∧
  ((result = .ok .none ∨ ∃ resultList, result = .ok (.resultData resultList)) → NoPending s)

/-- Some pending entry comes before every finished one. -/
def PendingFirst (jobs : Entries T) : Prop :=
  ∃ before entry after, jobs = before ++ entry :: after ∧ entry.2.state = .pending ∧
    ∀ e ∈ before, e.2.state ≠ .finish

theorem pendingFirst_cons {jobs : Entries T} :
    PendingFirst (entry :: jobs) ↔
      entry.2.state = .pending ∨ entry.2.state ≠ .finish ∧ PendingFirst jobs := by
  constructor
  · rintro ⟨before, e, after, heq, hstate, hbefore⟩
    cases before with
    | nil =>
      obtain ⟨rfl, -⟩ := List.cons.inj heq
      exact .inl hstate
    | cons b before =>
      obtain ⟨rfl, rfl⟩ := List.cons.inj heq
      exact .inr ⟨hbefore _ (by simp), before, e, after, rfl, hstate,
        fun e' he' => hbefore e' (by simp [he'])⟩
  · rintro (hstate | ⟨hfinish, before, e, after, rfl, hstate, hbefore⟩)
    · exact ⟨[], entry, jobs, rfl, hstate, by simp⟩
    · exact ⟨entry :: before, e, after, rfl, hstate, by simpa using ⟨hfinish, hbefore⟩⟩

/-- Entries that the handler passes over make no difference. -/
theorem pendingFirst_append {before jobs : Entries T}
    (hbefore : ∀ e ∈ before, e.2.state ≠ .pending ∧ e.2.state ≠ .finish) :
    PendingFirst (before ++ jobs) ↔ PendingFirst jobs := by
  induction before with
  | nil => rfl
  | cons e before ih =>
    obtain ⟨hp, hf⟩ := hbefore e (by simp)
    rw [List.cons_append, pendingFirst_cons, ih fun e' he' => hbefore e' (by simp [he'])]
    simp [hp, hf]

theorem mem_entries_iff {s : State T} {order : AList fun _ : Hash => OcwJob T}
    (horder : order.toFinmap = s.jobQueue) (key : Hash) (job : OcwJob T) :
    s.jobQueue.lookup key = some job ↔ ⟨key, job⟩ ∈ order.entries := by
  rw [← horder, Finmap.lookup_toFinmap]
  exact AList.mem_lookup_iff

/-- Whatever the order in which the queue is iterated, the handler starves no pending job exactly
when there is none, or one of them comes before every finished job. -/
theorem neverStarves_iff {s : State T} {order : AList fun _ : Hash => OcwJob T}
    (horder : order.toFinmap = s.jobQueue) (submit : Call → Bool) (blockNumber : Nat)
    (params : Bytes) :
    NeverStarves s submit blockNumber params
        (ocwDoHandlingJob submit blockNumber params order.entries).1 ↔
      NoPending s ∨ PendingFirst order.entries := by
  have hmem := mem_entries_iff horder
  rcases ocwDoHandlingJob_cases submit blockNumber params order.entries with
    ⟨before, entry, after, heq, hstate, hbefore, hr⟩ |
    ⟨before, entry, after, heq, hstate, hbefore, hr⟩ | ⟨hnone, hr⟩
  · -- A pending entry comes first: it is offered.
    have hjob := (hmem entry.1 entry.2).mpr (by rw [heq]; simp)
    have hfirst : PendingFirst order.entries :=
      ⟨before, entry, after, heq, hstate, fun e he => (hbefore e he).2⟩
    obtain ⟨data, hoffer, hdata⟩ := offerOf_fst submit blockNumber params entry.1 entry.2
    rw [hr, hoffer]
    refine ⟨fun _ => .inr hfirst, fun _ => ⟨fun _ => ?_, ?_⟩⟩
    · exact ⟨entry.1, entry.2, data, hjob, hstate, rfl, hdata⟩
    · rintro (h | ⟨_, h⟩) <;> simp at h
  · -- A finished entry comes first: its id is returned, whatever waits behind it.
    rw [hr]
    have hlast : ¬PendingFirst order.entries := by
      rw [heq, pendingFirst_append hbefore, pendingFirst_cons]
      simp [hstate]
    refine ⟨fun h => .inl (h.2 (.inr ⟨_, rfl⟩)), ?_⟩
    rintro (hnone | hfirst)
    · exact ⟨fun h => absurd hnone h, fun _ => hnone⟩
    · exact absurd hfirst hlast
  · have hnone' : NoPending s := fun key job hjob => (hnone _ ((hmem key job).mp hjob)).1
    exact ⟨fun _ => .inl hnone', fun _ => ⟨fun h => absurd hnone' h, fun _ => hnone'⟩⟩

/-- Account 2 has requested the script of the finished sample job. -/
def sampleWaiting : State sampleRuntime :=
  sampleFinished.call (.signed (2 : UInt32)) (.requestScriptExecution sampleName none)

def sampleWaitingJob : OcwJob sampleRuntime := { sampleJob with caller := (2 : UInt32) }

/-- The queue of `sampleWaiting`, with the finished job last or first. -/
def sampleOrder (finishedFirst : Bool) : AList fun _ : Hash => OcwJob sampleRuntime :=
  let waiting := (sampleWaitingJob.key, sampleWaitingJob)
  let finished := (sampleJob.key, { sampleJob with state := .finish })
  if finishedFirst then AList.insert finished.1 finished.2 (AList.insert waiting.1 waiting.2 ∅)
  else AList.insert waiting.1 waiting.2 (AList.insert finished.1 finished.2 ∅)

theorem sampleWaiting_reached : ChainReaches (State.genesis sampleRuntime) sampleWaiting :=
  ((sampleQueue_reached.call _ _).call _ _).call _ _

theorem sampleOrder_toFinmap (finishedFirst : Bool) :
    (sampleOrder finishedFirst).toFinmap = sampleWaiting.jobQueue := by
  cases finishedFirst <;> decide

theorem neverStarves_iff_sample : NeverStarves sampleWaiting (fun _ => true) 0 initList
    (ocwDoHandlingJob (fun _ => true) 0 initList (sampleOrder false).entries).1 := by
  refine (neverStarves_iff (sampleOrder_toFinmap false) (fun _ => true) 0 initList).mpr (.inr ?_)
  exact ⟨[], ⟨sampleWaitingJob.key, sampleWaitingJob⟩, _, rfl, rfl, by simp⟩

/-- The handler returns the id of the finished job that it comes to first, and the pending job of
another account waits: on every block, since a finished job stays in the queue. -/
theorem pending_starved : ChainReaches (State.genesis sampleRuntime) sampleWaiting ∧
    (sampleOrder true).toFinmap = sampleWaiting.jobQueue ∧
    sampleWaiting.jobQueue.lookup sampleWaitingJob.key = some sampleWaitingJob ∧
    ocwDoHandlingJob (fun _ => true) 0 initList (sampleOrder true).entries =
      (.ok (.resultData {sampleJob.key.val}), []) ∧
    ¬NeverStarves sampleWaiting (fun _ => true) 0 initList
      (ocwDoHandlingJob (fun _ => true) 0 initList (sampleOrder true).entries).1 := by
  have hlookup : sampleWaiting.jobQueue.lookup sampleWaitingJob.key = some sampleWaitingJob := by
    decide
  have hresult : ocwDoHandlingJob (fun _ => true) 0 initList (sampleOrder true).entries =
      (.ok (.resultData {sampleJob.key.val}), []) := ocwDoHandlingJob_finish rfl
  refine ⟨sampleWaiting_reached, sampleOrder_toFinmap true, hlookup, hresult, ?_⟩
  rw [hresult]
  exact fun h => h.2 (.inr ⟨_, rfl⟩) _ _ hlookup rfl

end HandlingJob

end PolkadotOracle
