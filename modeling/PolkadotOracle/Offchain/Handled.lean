import PolkadotOracle.Offchain.Recorded

/-! What a node handles: from its start on, only ids of pending jobs that one of its runs has come
to. -/

namespace PolkadotOracle

open Scale Sequence

variable {T : Config} {ι : Type}

/-- The ids for the executor that a run has read or offers have the property `P`. -/
def WorkerPc.Offered (P : Bytes → Prop) : WorkerPc → Prop
  | .getResultList jobKey => ListOf P jobKey
  | .handling jobKey _ => ListOf P jobKey
  | .compareAndSet _ _ keyList _ _ => ListOf P keyList
  | _ => True

structure Worker.Handles (P : Bytes → Prop) (w : Worker T) : Prop where
  jobs : ∀ key job, ComesTo w.jobs ⟨key, job⟩ → job.state = .pending → P key.val
  offered : w.pc.Offered P

def Executor.Handles (P : Bytes → Prop) : Executor → Prop
  | .resetting _ keyList _ => ∀ id ∈ keyList, P id
  | .spawning keyList => ∀ id ∈ keyList, P id
  | _ => True

def Task.Handles (P : Bytes → Prop) : Task → Prop
  | .spawned (some record) => ∀ p ∈ RequestPayload.decode record, P p.jobId.val
  | .processing payload => P payload.jobId.val
  | .sending res => P res.jobId.val
  | _ => True

def Listener.Handles (P : Bytes → Prop) : Listener → Prop
  | .recv => True
  | .writeRecord res _ => P res.jobId.val
  | .readList jobId => P jobId.val
  | .writeList jobId result _ => P jobId.val ∧ ListOf P result

/-- Every id in the two lists of a node and on its way between them has the property `P`. -/
structure Node.Handles (P : Bytes → Prop) (n : Node T) : Prop where
  keyList : ∃ list, n.db.get wasmstoreKeyList = some list ∧ ListOf P list
  resultList : ∃ list, n.db.get wasmstoreResultList = some list ∧ ListOf P list
  workers : ∀ w ∈ n.workers, w.Handles P
  listed : ∀ w ∈ n.workers, w.pc.Listed P
  executor : n.executor.Handles P
  tasks : ∀ t ∈ n.tasks, t.Handles P
  channel : ∀ r ∈ n.channel, P r.jobId.val
  listener : n.listener.Handles P

section Lists

variable {P : Bytes → Prop} {list id : Bytes}

theorem listOf_init : ListOf P initList := ⟨[], idList_init, by simp⟩

theorem ListOf.append (h : ListOf P list) (hid : id.length = 32) (hP : P id) :
    ListOf P (list ++ id) := by
  obtain ⟨ids, hlist, hids⟩ := h
  refine ⟨ids ++ [id], hlist.append hid, fun id' hid' => ?_⟩
  rcases List.mem_append.mp hid' with hmem | hmem
  · exact hids id' hmem
  · obtain rfl := List.mem_singleton.mp hmem
    exact hP

theorem ListOf.keyListParser {keyList : List Bytes} (h : ListOf P list)
    (hparse : keyListParser list = some (.ok keyList)) : ∀ id ∈ keyList, P id := by
  obtain ⟨ids, hlist, hids⟩ := h
  rw [hlist.keyListParser] at hparse
  obtain rfl := Except.ok.inj (Option.some.inj hparse)
  exact hids

/-- A node that has just started handles nothing. -/
theorem Node.Handles.boot (db : Db) (procesorKey : Option Public) (ranAt : Nat) :
    (Node.boot (T := T) db procesorKey ranAt).Handles P where
  keyList := ⟨initList, runExecutor_keyList db procesorKey, listOf_init⟩
  resultList := by
    refine ⟨initList, ?_, listOf_init⟩
    show (runExecutor db procesorKey).get wasmstoreResultList = some initList
    rw [runExecutor_get db procesorKey (by decide), Store.get_set_same]
  workers := by simp [Node.boot]
  listed := by simp [Node.boot]
  executor := trivial
  tasks := by simp [Node.boot]
  channel := by simp [Node.boot]
  listener := trivial

end Lists

section Moves

variable {P : Bytes → Prop} {chain : State T} {n n' : Node T} {l : NodeLabel T}
  {calls : List Call}

theorem Node.Handles.workerPc (h : n.Handles P) {run : Nat} {w : Worker T} {pc : WorkerPc}
    (hw : n.workers[run]? = some w) (hpc : w.pc = pc) : pc.Offered P :=
  hpc ▸ (h.workers w (List.mem_of_getElem? hw)).offered

theorem Node.Handles.listenerAt (h : n.Handles P) {listener : Listener}
    (hlistener : n.listener = listener) : listener.Handles P :=
  hlistener ▸ h.listener

theorem Node.Handles.executorAt (h : n.Handles P) {executor : Executor}
    (hexec : n.executor = executor) : executor.Handles P :=
  hexec ▸ h.executor

/-- A write under another key than that of a list. -/
theorem listOf_set {db : Db} {key key' val : Bytes} (hne : key ≠ key')
    (h : ∃ list, db.get key = some list ∧ ListOf P list) :
    ∃ list, (db.set key' val).get key = some list ∧ ListOf P list := by
  rwa [Store.get_set_ne _ _ hne]

theorem NodeInv.store_length (hn : NodeInv chain n) {run : Nat} {w : Worker T}
    {resultKey encodedPayload : Bytes} {payload : RequestPayload}
    (hw : n.workers[run]? = some w) (hpc : w.pc = .set resultKey encodedPayload payload) :
    payload.jobId.val.length = 32 ∨ payload.jobId.val = [] :=
  (hn.workerPc hw hpc).2.length

theorem Node.Handles.keyList_move (h : n.Handles P) (hn : NodeInv chain n)
    (hmove : NodeMove chain n l n' calls) :
    ∃ list, n'.db.get wasmstoreKeyList = some list ∧ ListOf P list := by
  cases hmove with
  | publish run accepted w jobKey resultKey keyList encodedPayload payload hw hpc =>
    by_cases hlist : n.db.get wasmstoreKeyList = some jobKey
    · rw [Store.compareAndSet_hit _ hlist]
      exact ⟨keyList, Store.get_set_same _ _ _, h.workerPc hw hpc⟩
    · rw [Store.compareAndSet_miss _ hlist]
      exact h.keyList
  | store run accepted w resultKey encodedPayload payload hw hpc =>
    exact listOf_set (ne_wasmstoreKeyList (hn.store_length hw hpc)).symm h.keyList
  | reset keyLists keyList pc db write hexec hwrite =>
    rcases hwrite.db_cases with rfl | rfl
    · exact h.keyList
    · exact ⟨initList, Store.get_set_same _ _ _, listOf_init⟩
  | record res pc db write hlistener hwrite =>
    rcases hwrite.db_cases with rfl | rfl
    · exact h.keyList
    · exact listOf_set (ne_wasmstoreKeyList (.inl (hn.listenerAt hlistener))).symm h.keyList
  | appending jobId result pc pc' db hlistener hwrite =>
    rcases hwrite.db_cases with rfl | rfl
    · exact h.keyList
    · exact listOf_set wasmstoreKeyList_ne_resultList h.keyList
  | append jobId result pc db res hlistener hwrite =>
    rcases hwrite.db_cases with rfl | rfl
    · exact h.keyList
    · exact listOf_set wasmstoreKeyList_ne_resultList h.keyList
  | _ => exact h.keyList

theorem Node.Handles.resultList_move (h : n.Handles P) (hn : NodeInv chain n)
    (hmove : NodeMove chain n l n' calls) :
    ∃ list, n'.db.get wasmstoreResultList = some list ∧ ListOf P list := by
  cases hmove with
  | publish run accepted w jobKey resultKey keyList encodedPayload payload hw hpc =>
    by_cases hlist : n.db.get wasmstoreKeyList = some jobKey
    · rw [Store.compareAndSet_hit _ hlist]
      exact listOf_set wasmstoreKeyList_ne_resultList.symm h.resultList
    · rw [Store.compareAndSet_miss _ hlist]
      exact h.resultList
  | store run accepted w resultKey encodedPayload payload hw hpc =>
    exact listOf_set (ne_wasmstoreResultList (hn.store_length hw hpc)).symm h.resultList
  | reset keyLists keyList pc db write hexec hwrite =>
    rcases hwrite.db_cases with rfl | rfl
    · exact h.resultList
    · exact listOf_set wasmstoreKeyList_ne_resultList.symm h.resultList
  | record res pc db write hlistener hwrite =>
    rcases hwrite.db_cases with rfl | rfl
    · exact h.resultList
    · exact listOf_set (ne_wasmstoreResultList (.inl (hn.listenerAt hlistener))).symm h.resultList
  | appending jobId result pc pc' db hlistener hwrite =>
    rcases hwrite.db_cases with rfl | rfl
    · exact h.resultList
    · exact ⟨result, Store.get_set_same _ _ _, (h.listenerAt hlistener).2⟩
  | append jobId result pc db res hlistener hwrite =>
    rcases hwrite.db_cases with rfl | rfl
    · exact h.resultList
    · exact ⟨result, Store.get_set_same _ _ _, (h.listenerAt hlistener).2⟩
  | _ => exact h.resultList

/-- A run goes on without offering anything. -/
theorem WorkerPc.offered_results {pc : WorkerPc}
    (h : pc = .ended ∨ ∃ resultKeys, pc = .submitting resultKeys) : pc.Offered P := by
  rcases h with rfl | ⟨resultKeys, rfl⟩
  · trivial
  · trivial

theorem WorkerPc.offered_handleResult (resultKey : Bytes) :
    (WorkerPc.handleResult resultKey).Offered P := by
  unfold WorkerPc.handleResult
  split
  · trivial
  · trivial

/-- A run that moves on keeps the jobs that it iterates. -/
theorem Node.Handles.workers_set (h : n.Handles P) {run : Nat} {w : Worker T} {pc : WorkerPc}
    (hw : n.workers[run]? = some w) (hpc : pc.Offered P) :
    ∀ w' ∈ n.workers.set run { w with pc }, w'.Handles P := fun w' hw' => by
  rcases List.mem_or_eq_of_mem_set hw' with hmem | rfl
  · exact h.workers w' hmem
  · exact ⟨(h.workers w (List.mem_of_getElem? hw)).jobs, hpc⟩

/-- A run starts with a queue in which it comes to a pending job that has the property. -/
theorem Node.Handles.workers_move (h : n.Handles P)
    (hstart : ∀ jobs, l = .start jobs → ∀ key job, ComesTo jobs.entries ⟨key, job⟩ →
      job.state = .pending → P key.val)
    (hmove : NodeMove chain n l n' calls) : ∀ w ∈ n'.workers, w.Handles P := by
  cases hmove with
  | start jobs hjobs hblock =>
    intro w hw
    rcases List.mem_append.mp hw with hw | hw
    · exact h.workers w hw
    · obtain rfl := List.mem_singleton.mp hw
      exact ⟨hstart jobs rfl, trivial⟩
  | readKeyList run accepted w jobKey hw hget =>
    obtain ⟨list, hlist, hof⟩ := h.keyList
    obtain rfl := Option.some.inj (hlist.symm.trans hget)
    exact h.workers_set hw hof
  | readResultList run accepted w jobKey resultKey hw hpc =>
    have hof : ListOf P jobKey := h.workerPc hw hpc
    exact h.workers_set hw hof
  | offer run accepted w jobKey resultKey key job payload calls hw hpc hjob hstate hpayload =>
    have hP := (h.workers w (List.mem_of_getElem? hw)).jobs key job hjob hstate
    exact h.workers_set hw (ListOf.append (h.workerPc hw hpc) key.property hP)
  | results run accepted w pc calls hw hpc hcalls =>
    exact h.workers_set hw (WorkerPc.offered_results hpc)
  | publish run accepted w jobKey resultKey keyList encodedPayload payload hw hpc =>
    exact h.workers_set hw trivial
  | store run accepted w resultKey encodedPayload payload hw hpc =>
    exact h.workers_set hw (WorkerPc.offered_handleResult resultKey)
  | _ => exact h.workers

theorem Node.Handles.executor_move (h : n.Handles P) (hmove : NodeMove chain n l n' calls) :
    n'.executor.Handles P := by
  cases hmove with
  | halt => trivial
  | parse keyLists keyList hexec hget hparse =>
    obtain ⟨list, hlist, hof⟩ := h.keyList
    obtain rfl := Option.some.inj (hlist.symm.trans hget)
    exact hof.keyListParser hparse
  | reset keyLists keyList pc db write hexec hwrite =>
    have hids := h.executorAt hexec
    cases write with
    | running pc' => exact hids
    | returned res => exact hids
  | give i keyList hexec =>
    have hids : ∀ id ∈ i :: keyList, P id := h.executorAt hexec
    exact fun id hid => hids id (List.mem_cons_of_mem _ hid)
  | rest => trivial
  | _ => exact h.executor

theorem Node.Handles.tasks_set (h : n.Handles P) (i : Nat) {t : Task} (ht : t.Handles P) :
    ∀ t' ∈ n.tasks.set i t, t'.Handles P := fun t' ht' =>
  (List.mem_or_eq_of_mem_set ht').elim (h.tasks t') (· ▸ ht)

/-- A task is for the id that the executor gives to it. -/
theorem Node.Handles.tasks_move (h : n.Handles P) (hn : NodeInv chain n)
    (hmove : NodeMove chain n l n' calls) : ∀ t ∈ n'.tasks, t.Handles P := by
  cases hmove with
  | give i keyList hexec =>
    intro t ht
    rcases List.mem_append.mp ht with ht | ht
    · exact h.tasks t ht
    obtain rfl := List.mem_singleton.mp ht
    have hids : ∀ id ∈ i :: keyList, P id := h.executorAt hexec
    have hlength : ∀ id ∈ i :: keyList, id.length = 32 := hn.executorAt hexec
    cases hget : n.db.get i with
    | none => trivial
    | some record =>
      intro p hp
      have hrecord := hn.db.records i record (hlength i List.mem_cons_self) hget
      rw [(hrecord.decode hp).2]
      exact hids i List.mem_cons_self
  | drop i outcome => exact h.tasks_set i trivial
  | process i outcome record payload htask hdecode =>
    have hspawned := h.tasks _ (List.mem_of_getElem? htask)
    exact h.tasks_set i (t := .processing payload) (hspawned payload hdecode)
  | produce i outcome payload res htask hres =>
    have hprocessing : P payload.jobId.val := h.tasks _ (List.mem_of_getElem? htask)
    have hP : P res.jobId.val := hres ▸ hprocessing
    exact h.tasks_set i (t := .sending res) hP
  | send i outcome res htask hroom => exact h.tasks_set i trivial
  | _ => exact h.tasks

theorem Node.Handles.channel_move (h : n.Handles P) (hmove : NodeMove chain n l n' calls) :
    ∀ r ∈ n'.channel, P r.jobId.val := by
  cases hmove with
  | send i outcome res htask hroom =>
    intro r hr
    rcases List.mem_append.mp hr with hr | hr
    · exact h.channel r hr
    · obtain rfl := List.mem_singleton.mp hr
      exact h.tasks _ (List.mem_of_getElem? htask)
  | receive res channel hlistener hchannel =>
    exact fun r hr => h.channel r (hchannel ▸ List.mem_cons_of_mem _ hr)
  | _ => exact h.channel

theorem Node.Handles.listener_move (h : n.Handles P) (hn : NodeInv chain n)
    (hmove : NodeMove chain n l n' calls) : n'.listener.Handles P := by
  cases hmove with
  | receive res channel hlistener hchannel =>
    exact h.channel res (hchannel ▸ List.mem_cons_self)
  | record res pc db write hlistener hwrite =>
    have hP := h.listenerAt hlistener
    cases write with
    | running pc' => exact hP
    | returned r => exact hP
  | skip => trivial
  | read jobId value hlistener hget =>
    obtain ⟨list, hlist, hof⟩ := h.resultList
    obtain rfl := Option.some.inj (hlist.symm.trans hget)
    have hP : P jobId.val := h.listenerAt hlistener
    exact ⟨hP, hof.append (hn.listenerAt hlistener) hP⟩
  | appending jobId result pc pc' db hlistener hwrite =>
    have hP := h.listenerAt hlistener
    exact hP
  | append => trivial
  | _ => exact h.listener

/-- What holds of the ids of all pending jobs that its runs come to holds of all ids that a node
handles. -/
theorem Node.Handles.step (h : n.Handles P) (hn : NodeInv chain n)
    (hstart : ∀ jobs, l = .start jobs → ∀ key job, ComesTo jobs.entries ⟨key, job⟩ →
      job.state = .pending → P key.val)
    (hstep : n.step chain l = some (n', calls)) : n'.Handles P := by
  have hmove := node_move hstep
  exact ⟨h.keyList_move hn hmove, h.resultList_move hn hmove, h.workers_move hstart hmove,
    fun w => Node.step_listed h.listed h.resultList hstep, h.executor_move hmove,
    h.tasks_move hn hmove, h.channel_move hmove, h.listener_move hn hmove⟩

end Moves

end PolkadotOracle
