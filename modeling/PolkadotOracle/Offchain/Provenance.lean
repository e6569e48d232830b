import PolkadotOracle.Offchain.Restart
import PolkadotOracle.Offchain.Results

/-! Where the results on a node come from: what its listener writes and its worker submits is an
answer that one of its tasks has returned, or a request that reads as a response. -/

namespace PolkadotOracle

open Scale Sequence

variable {T : Config}

/-! ### What a run of the worker submits -/

/-- `list` is a list of ids with the property `P`. -/
def ListOf (P : Bytes → Prop) (list : Bytes) : Prop :=
  ∃ ids, IdList list ids ∧ ∀ id ∈ ids, P id

/-- The ids of the result list that a run has read have the property `P`. -/
def WorkerPc.Listed (P : Bytes → Prop) : WorkerPc → Prop
  | .handling _ resultKey => ListOf P resultKey
  | .compareAndSet _ resultKey _ _ _ => ListOf P resultKey
  | .set resultKey _ _ => ListOf P resultKey
  | .submitting resultKeys => ∀ resultKey ∈ resultKeys, resultKey.length = 32 ∧ P resultKey
  | _ => True

section Worker

variable {submit : Call → Bool} {db : Db} {w : Worker T} {P : Bytes → Prop} {list : Bytes}

theorem ListOf.handleResult (h : ListOf P list) : (WorkerPc.handleResult list).Listed P := by
  obtain ⟨ids, hlist, hP⟩ := h
  by_cases hids : ids = []
  · simp [WorkerPc.handleResult, hlist.handlingResult, hids, WorkerPc.Listed]
  · simp only [WorkerPc.handleResult, hlist.handlingResult, hids, WorkerPc.Listed]
    exact fun id hid => ⟨hlist.length id hid, hP id hid⟩

/-- A step of a run leaves the ids of the result list as it has read them. -/
theorem WorkerPc.Listed.step (hw : w.pc.Listed P)
    (hdb : ∃ list, db.get wasmstoreResultList = some list ∧ ListOf P list) :
    (offchainWorker submit db w).2.1.Listed P := by
  unfold offchainWorker
  cases hpc : w.pc with
  | getKeyList =>
    cases db.get wasmstoreKeyList with
    | none => trivial
    | some jobKey => trivial
  | getResultList jobKey =>
    obtain ⟨list, hget, hlist⟩ := hdb
    simp only [hget]
    exact hlist
  | handling jobKey resultKey =>
    rw [hpc] at hw
    simp only
    split
    · trivial
    · split
      · exact hw
      · exact ListOf.handleResult hw
    · exact ListOf.handleResult hw
    · exact ListOf.handleResult hw
  | compareAndSet jobKey resultKey keyList encodedPayload payload =>
    rw [hpc] at hw
    exact hw
  | set resultKey encodedPayload payload =>
    rw [hpc] at hw
    exact ListOf.handleResult hw
  | submitting resultKeys =>
    rw [hpc] at hw
    cases resultKeys with
    | nil => trivial
    | cons resultKey resultKeys =>
      have hrest : (WorkerPc.submitting resultKeys).Listed P := fun id hid =>
        hw id (List.mem_cons_of_mem _ hid)
      simp only
      split
      · exact hrest
      · split
        · exact hrest
        · trivial
  | ended => trivial

/-- A run submits the state change of a pending job, or a record that it reads as a response. -/
theorem offchainWorker_calls {c : Call} (hc : c ∈ (offchainWorker submit db w).2.2) :
    (∃ key, c = .changeJobState w.blockNumber key) ∨
    ∃ resultKey resultKeys q, w.pc = .submitting (resultKey :: resultKeys) ∧
      (db.get resultKey).bind ResponePayload.decode = some q ∧ c = submitCall w.blockNumber q := by
  unfold offchainWorker at hc
  cases hpc : w.pc with
  | getKeyList =>
    rw [hpc] at hc
    cases hget : db.get wasmstoreKeyList <;> simp [hget] at hc
  | getResultList jobKey =>
    rw [hpc] at hc
    cases hget : db.get wasmstoreResultList <;> simp [hget] at hc
  | handling jobKey resultKey =>
    left
    have hcalls : c ∈ (ocwDoHandlingJob submit w.blockNumber jobKey w.jobs).2 := by
      simp only [hpc] at hc
      generalize ocwDoHandlingJob submit w.blockNumber jobKey w.jobs = handled at hc
      obtain ⟨command, calls⟩ := handled
      cases command with
      | error e => exact hc
      | ok command =>
        cases command with
        | requestData keyList data =>
          simp only at hc
          cases hdecode : RequestPayload.decode data <;> simpa [hdecode] using hc
        | _ => exact hc
    rcases ocwDoHandlingJob_cases submit w.blockNumber jobKey w.jobs with
      ⟨before, entry, after, -, -, -, hr⟩ | ⟨before, entry, after, -, -, -, hr⟩ | ⟨-, hr⟩
    · rw [hr, offerOf] at hcalls
      split at hcalls
      · exact ⟨entry.1, List.mem_singleton.mp hcalls⟩
      · simp at hcalls
    · simp [hr] at hcalls
    · simp [hr] at hcalls
  | compareAndSet => simp [hpc] at hc
  | set => simp [hpc] at hc
  | submitting resultKeys =>
    right
    rw [hpc] at hc
    cases resultKeys with
    | nil => simp at hc
    | cons resultKey resultKeys =>
      cases hq : (db.get resultKey).bind ResponePayload.decode with
      | none => simp [hq] at hc
      | some q =>
        refine ⟨resultKey, resultKeys, q, rfl, hq, ?_⟩
        by_cases hsubmit : submit (submitCall w.blockNumber q)
        · rw [submitCall] at hsubmit
          simp only [hq, ocwDoSubmitResult, hsubmit, if_true] at hc
          exact List.mem_singleton.mp hc
        · rw [submitCall] at hsubmit
          simp [hq, ocwDoSubmitResult, hsubmit] at hc
  | ended => simp [hpc] at hc

end Worker

/-! ### A node -/

/-- `Runs p result extTime` says that the script of the request `p` may return `result`. -/
abbrev Execution := RequestPayload → Vec → UInt32 → Prop

/-- The answer is a finished one, with what the script of a queued job may return. -/
def Executed (Runs : Execution) (chain : State T) (q : ResponePayload) : Prop :=
  ∃ p, Requests chain p ∧ q.jobId = p.jobId ∧ q.jobState = .finish ∧
    Runs p q.jobResult q.exeTime

/-- The request that a task is working on. -/
def Task.inProcess : Task → Option RequestPayload
  | .processing payload => some payload
  | _ => none

/-- A task returns what the script of its request may return. -/
def Executes (Runs : Execution) (n : Node T) : NodeLabel T → Prop
  | .task i outcome => ∀ payload ∈ (n.tasks[i]?).bind Task.inProcess,
    ∀ r ∈ outcome, Runs payload r.1 r.2
  | _ => True

instance (Runs : Execution) [∀ p result extTime, Decidable (Runs p result extTime)]
    (n : Node T) : ∀ l, Decidable (Executes Runs n l)
  | .task i _ =>
    inferInstanceAs (Decidable (∀ payload ∈ (n.tasks[i]?).bind Task.inProcess, _))
  | .start _ => .isTrue trivial
  | .worker _ _ => .isTrue trivial
  | .executor => .isTrue trivial
  | .listener => .isTrue trivial

/-- What can lie under a job id: the job's request, or an answer. -/
inductive Written (Answer : ResponePayload → Prop) (chain : State T) (id : Bytes) : Bytes → Prop
  | request (p : RequestPayload) (hp : Requests chain p) (hid : p.jobId.val = id) :
      Written Answer chain id (RequestPayload.codec.encode p)
  | respone (q : ResponePayload) (hq : Answer q) (hid : q.jobId.val = id) :
      Written Answer chain id (ResponePayload.codec.encode q)

/-- Every result on its way through the node, and every record of an earlier life, is one of the
answers. -/
structure TraceInv (Answer : ResponePayload → Prop) (chain : State T) (n : Node T) : Prop where
  node : NodeInv chain n
  workers : ∀ w ∈ n.workers, w.pc.Listed fun _ => True
  records : ∀ id record, id.length = 32 → n.db.get id = some record →
    Written Answer chain id record
  tasks : ∀ res, .sending res ∈ n.tasks → Answer (res.respone n.procesorKey)
  channel : ∀ res ∈ n.channel, Answer (res.respone n.procesorKey)
  listener : ∀ res pc, n.listener = .writeRecord res pc → Answer (res.respone n.procesorKey)

section TraceInv

variable {Runs : Execution} {Answer Answer' : ResponePayload → Prop} {chain chain' : State T}
  {n n' : Node T} {l : NodeLabel T} {calls : List Call} {id record : Bytes}

theorem Written.grow (h : Written Answer chain id record) (hchain : ChainReaches chain chain') :
    Written Answer chain' id record := by
  cases h with
  | request p hp hid => exact .request p (hp.grow hchain) hid
  | respone q hq hid => exact .respone q hq hid

theorem Written.mono (h : Written Answer chain id record) (hsub : ∀ q, Answer q → Answer' q) :
    Written Answer' chain id record := by
  cases h with
  | request p hp hid => exact .request p hp hid
  | respone q hq hid => exact .respone q (hsub q hq) hid

theorem Executed.grow {q : ResponePayload} (h : Executed Runs chain q)
    (hchain : ChainReaches chain chain') : Executed Runs chain' q := by
  obtain ⟨p, hp, hanswer⟩ := h
  exact ⟨p, hp.grow hchain, hanswer⟩

/-- What a step produces is what the script of a queued job may return. -/
theorem NodeInv.executed (h : NodeInv chain n) (hC : Executes Runs n l) {res : JobResult}
    (hres : n.produces l = some res) (procesorKey : Public) :
    Executed Runs chain (res.respone procesorKey) := by
  obtain ⟨i, payload, result, extTime, rfl, htask, rfl⟩ := Node.produces_eq_some hres
  have hruns := hC payload (by simp [htask, Task.inProcess]) (result, extTime) rfl
  exact ⟨payload, h.tasks _ (List.mem_of_getElem? htask), rfl, rfl, hruns⟩

theorem TraceInv.grow (h : TraceInv Answer chain n) (hchain : ChainReaches chain chain') :
    TraceInv Answer chain' n :=
  { h with
    node := h.node.grow hchain
    records := fun id record hid hget => (h.records id record hid hget).grow hchain }

theorem TraceInv.mono (h : TraceInv Answer chain n) (hsub : ∀ q, Answer q → Answer' q) :
    TraceInv Answer' chain n where
  node := h.node
  workers := h.workers
  records id record hid hget := (h.records id record hid hget).mono hsub
  tasks res hres := hsub _ (h.tasks res hres)
  channel res hres := hsub _ (h.channel res hres)
  listener res pc hres := hsub _ (h.listener res pc hres)

theorem runExecutor_get_id (db : Db) (procesorKey : Option Public) (hid : id.length = 32) :
    (runExecutor db procesorKey).get id = db.get id := by
  have hidentity : id ≠ identity := by
    rintro rfl
    revert hid
    decide
  rw [runExecutor_get db procesorKey hidentity,
    Store.get_set_ne _ _ (ne_wasmstoreResultList (.inl hid)),
    Store.get_set_ne _ _ (ne_wasmstoreKeyList (.inl hid))]

/-- A node starts with the records that it finds. -/
theorem TraceInv.boot {db : Db} (hdb : Leftover chain db)
    (hrecords : ∀ id record, id.length = 32 → db.get id = some record →
      Written Answer chain id record)
    (procesorKey : Option Public) (ranAt : Nat) :
    TraceInv Answer chain (Node.boot db procesorKey ranAt) where
  node := NodeInv.boot hdb procesorKey ranAt
  workers := by simp [Node.boot]
  records id record hid hget :=
    hrecords id record hid ((runExecutor_get_id db procesorKey hid).symm.trans hget)
  tasks := by simp [Node.boot]
  channel := by simp [Node.boot]
  listener := by simp [Node.boot]

/-- A write under a job id must be of a request or an answer. -/
theorem TraceInv.set (h : TraceInv Answer chain n) {key val : Bytes}
    (hwritten : key.length = 32 → Written Answer chain key val)
    (hid : id.length = 32) (hget : (n.db.set key val).get id = some record) :
    Written Answer chain id record := by
  by_cases hsame : id = key
  · subst hsame
    rw [Store.get_set_same] at hget
    obtain rfl := Option.some.inj hget
    exact hwritten hid
  · rw [Store.get_set_ne _ _ hsame] at hget
    exact h.records id record hid hget

theorem TraceInv.setList (h : TraceInv Answer chain n) {key val : Bytes}
    (hkey : key = wasmstoreKeyList ∨ key = wasmstoreResultList)
    (hid : id.length = 32) (hget : (n.db.set key val).get id = some record) :
    Written Answer chain id record := by
  refine h.set (fun hlength => ?_) hid hget
  rcases hkey with rfl | rfl
  · exact absurd rfl (ne_wasmstoreKeyList (.inl hlength))
  · exact absurd rfl (ne_wasmstoreResultList (.inl hlength))

theorem TraceInv.records_move (h : TraceInv Answer chain n) (hmove : NodeMove chain n l n' calls)
    (hid : id.length = 32) (hget : n'.db.get id = some record) :
    Written Answer chain id record := by
  cases hmove with
  | publish run accepted w jobKey resultKey keyList encodedPayload payload hw hpc =>
    by_cases hlist : n.db.get wasmstoreKeyList = some jobKey
    · rw [Store.compareAndSet_hit _ hlist] at hget
      exact h.setList (.inl rfl) hid hget
    · rw [Store.compareAndSet_miss _ hlist] at hget
      exact h.records id record hid hget
  | store run accepted w resultKey encodedPayload payload hw hpc =>
    obtain ⟨rfl, hpayload⟩ := h.node.workerPc hw hpc
    exact h.set (fun hlength => .request payload (hpayload.requests hlength) rfl) hid hget
  | reset keyLists keyList pc db write hexec hwrite =>
    rcases hwrite.db_cases with rfl | rfl
    · exact h.records id record hid hget
    · exact h.setList (.inl rfl) hid hget
  | record res pc db write hlistener hwrite =>
    rcases hwrite.db_cases with rfl | rfl
    · exact h.records id record hid hget
    · exact h.set (fun _ => .respone _ (h.listener res pc hlistener) rfl) hid hget
  | appending jobId result pc pc' db hlistener hwrite =>
    rcases hwrite.db_cases with rfl | rfl
    · exact h.records id record hid hget
    · exact h.setList (.inr rfl) hid hget
  | append jobId result pc db res hlistener hwrite =>
    rcases hwrite.db_cases with rfl | rfl
    · exact h.records id record hid hget
    · exact h.setList (.inr rfl) hid hget
  | _ => exact h.records id record hid hget

/-- A result that a task sends has just been produced, or is an answer. -/
theorem TraceInv.tasks_step (h : TraceInv Answer chain n)
    (hstep : n.step chain l = some (n', calls)) {res : JobResult} (hres : .sending res ∈ n'.tasks) :
    n.produces l = some res ∨ Answer (res.respone n.procesorKey) := by
  have hproduced := Node.step_produced hstep
  cases node_move hstep with
  | give i keyList hexec =>
    rcases List.mem_append.mp hres with hres | hres
    · exact .inr (h.tasks res hres)
    · simp at hres
  | drop i outcome =>
    exact .inr (h.tasks res ((List.mem_or_eq_of_mem_set hres).resolve_right (by simp)))
  | process i outcome record payload htask hdecode =>
    exact .inr (h.tasks res ((List.mem_or_eq_of_mem_set hres).resolve_right (by simp)))
  | produce i outcome payload res' htask hjob =>
    rcases List.mem_or_eq_of_mem_set hres with hres | hres
    · exact .inr (h.tasks res hres)
    · obtain rfl := Task.sending.inj hres
      exact .inl (Option.toList_eq_singleton_iff.mp (List.append_cancel_left hproduced).symm)
  | send i outcome res' htask hroom =>
    exact .inr (h.tasks res ((List.mem_or_eq_of_mem_set hres).resolve_right (by simp)))
  | _ => exact .inr (h.tasks res hres)

theorem TraceInv.channel_move (h : TraceInv Answer chain n) (hmove : NodeMove chain n l n' calls)
    {res : JobResult} (hres : res ∈ n'.channel) : Answer (res.respone n.procesorKey) := by
  cases hmove with
  | send i outcome res' htask hroom =>
    rcases List.mem_append.mp hres with hres | hres
    · exact h.channel res hres
    · obtain rfl := List.mem_singleton.mp hres
      exact h.tasks res (List.mem_of_getElem? htask)
  | receive res' channel hlistener hchannel =>
    exact h.channel res (hchannel ▸ List.mem_cons_of_mem _ hres)
  | _ => exact h.channel res hres

theorem TraceInv.listener_move (h : TraceInv Answer chain n) (hmove : NodeMove chain n l n' calls)
    {res : JobResult} {pc : WriteDb} (hres : n'.listener = .writeRecord res pc) :
    Answer (res.respone n.procesorKey) := by
  cases hmove with
  | receive res' channel hlistener hchannel =>
    obtain ⟨rfl, -⟩ := Listener.writeRecord.inj hres
    exact h.channel _ (hchannel ▸ List.mem_cons_self)
  | record res' pc' db write hlistener hwrite =>
    cases write with
    | running pc'' =>
      obtain ⟨rfl, -⟩ := Listener.writeRecord.inj hres
      exact h.listener _ pc' hlistener
    | returned r => cases hres
  | skip => cases hres
  | read => cases hres
  | appending => cases hres
  | append => cases hres
  | _ => exact h.listener res pc hres

theorem NodeMove.procesorKey_eq (h : NodeMove chain n l n' calls) :
    n'.procesorKey = n.procesorKey := by
  cases h <;> rfl

theorem Node.step_worker {run : Nat} {accepted : Bool}
    (h : n.step chain (.worker run accepted) = some (n', calls)) :
    ∃ w, n.workers[run]? = some w ∧
      n'.workers = n.workers.set run
        { w with pc := (offchainWorker (fun _ => accepted) n.db w).2.1 } ∧
      calls = (offchainWorker (fun _ => accepted) n.db w).2.2 := by
  cases hw : n.workers[run]? with
  | none => simp [Node.step, hw] at h
  | some w =>
    obtain ⟨rfl, rfl⟩ := by
      simpa only [Node.step, hw, Option.some.injEq, Prod.mk.injEq] using h
    exact ⟨w, rfl, rfl, rfl⟩

/-- The runs read from a result list of ids with the property. -/
theorem Node.step_listed {P : Bytes → Prop} (h : ∀ w ∈ n.workers, w.pc.Listed P)
    (hdb : ∃ list, n.db.get wasmstoreResultList = some list ∧ ListOf P list)
    (hstep : n.step chain l = some (n', calls)) {w : Worker T} (hw : w ∈ n'.workers) :
    w.pc.Listed P := by
  have hmove := node_move hstep
  cases l with
  | worker run accepted =>
    obtain ⟨w', hw', hworkers, -⟩ := Node.step_worker hstep
    rw [hworkers] at hw
    rcases List.mem_or_eq_of_mem_set hw with hw | rfl
    · exact h w hw
    · exact (h w' (List.mem_of_getElem? hw')).step hdb
  | start jobs =>
    cases hmove
    rcases List.mem_append.mp hw with hw | hw
    · exact h w hw
    · obtain rfl := List.mem_singleton.mp hw
      trivial
  | _ => cases hmove <;> exact h w hw

/-- A step keeps the invariant when what it produces is among the answers. -/
theorem TraceInv.step (h : TraceInv Answer chain n)
    (hnew : ∀ res ∈ n.produces l, Answer (res.respone n.procesorKey))
    (hstep : n.step chain l = some (n', calls)) : TraceInv Answer chain n' := by
  have hmove := node_move hstep
  obtain ⟨list, hget, hlist⟩ := h.node.db.resultList
  have hdb : ListOf (fun _ => True) list := ⟨_, hlist, fun _ _ => trivial⟩
  refine ⟨h.node.move hmove, fun w => Node.step_listed h.workers ⟨list, hget, hdb⟩ hstep,
    fun id record => h.records_move hmove, ?_, ?_, ?_⟩
  all_goals rw [hmove.procesorKey_eq]
  · intro res hres
    exact (h.tasks_step hstep hres).elim (hnew res) id
  · exact fun res => h.channel_move hmove
  · exact fun res pc => h.listener_move hmove

end TraceInv

end PolkadotOracle
