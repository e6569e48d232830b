import PolkadotOracle.Offchain.Solo

/-! What a node can do for a pending job that nothing before it in the queue keeps the handler from:
from every state that a run of the whole system reaches it can bring the job's result to the chain,
in the absence of others, as long as no result is listed twice.  It first gets the pending jobs
before it out of the way, and then two of its runs offer the job, since one state change does not
finish it. -/

namespace PolkadotOracle

open Exec Iteration Scale Sequence

variable {T : Config} {ι : Type} {blake2 : Bytes → FixedBytes 16}

/-! ### The worker -/

section Worker

variable {Runs : Execution} {chain : State T} {n : Node T} {ws : List (Worker T)}

/-- The last run takes one more step, for which the pool accepts what it submits. -/
theorem NodeReaches.work {n₀ : Node T} {before calls : List Call} {w : Worker T} {db : Db}
    {pc : WorkerPc} (h : NodeReaches blake2 Runs chain n₀ before n) (hws : n.workers = ws ++ [w])
    (hstep : offchainWorker (fun _ => true) n.db w = (db, pc, calls)) :
    ∃ history, NodeReaches blake2 Runs chain n₀ (before ++ calls)
      { n with db, workers := ws ++ [{ w with pc }], history } :=
  ⟨_, h.trans (.of_step (l := .worker ws.length true) ⟨trivial, trivial⟩
    (by simp [Node.step, hws, hstep]; rfl))⟩

/-- A run on a new block reads both lists. -/
theorem nodeReaches_handling (blake2 : Bytes → FixedBytes 16) (Runs : Execution) (chain : State T)
    {jobs : AList fun _ : Hash => OcwJob T} {jobKey resultKey : Bytes}
    (hjobs : jobs.toFinmap = chain.jobQueue) (horder : Ascending (storageKey blake2) jobs.entries)
    (hblock : n.ranAt < chain.blockNumber)
    (hjobKey : n.db.get wasmstoreKeyList = some jobKey)
    (hresultKey : n.db.get wasmstoreResultList = some resultKey) :
    ∃ history, NodeReaches blake2 Runs chain n [] { n with
      ranAt := chain.blockNumber
      workers := n.workers ++ [⟨chain.blockNumber, jobs.entries, .handling jobKey resultKey⟩]
      history } := by
  have hstart : NodeReaches blake2 Runs chain n [] { n with
      ranAt := chain.blockNumber
      workers := n.workers ++ [⟨chain.blockNumber, jobs.entries, .getKeyList⟩] } :=
    .of_step (l := .start jobs) ⟨trivial, horder⟩ (if_pos ⟨hjobs, hblock⟩)
  obtain ⟨_, hkey⟩ := hstart.work rfl
    (show offchainWorker _ n.db _ = (n.db, .getResultList jobKey, []) by
      simp [offchainWorker, hjobKey])
  exact hkey.work rfl (show offchainWorker _ n.db _ = (n.db, .handling jobKey resultKey, []) by
    simp [offchainWorker, hresultKey])

/-- A run on a block in whose queue it comes to a pending job offers that job. -/
theorem nodeReaches_offer (blake2 : Bytes → FixedBytes 16) (Runs : Execution) (chain : State T)
    {jobs : AList fun _ : Hash => OcwJob T} {jobKey resultKey : Bytes}
    {key : Hash} {job : OcwJob T} (hjobs : jobs.toFinmap = chain.jobQueue)
    (horder : Ascending (storageKey blake2) jobs.entries)
    (hfirst : ComesTo jobs.entries ⟨key, job⟩)
    (hstate : job.state = .pending) (hblock : n.ranAt < chain.blockNumber)
    (hjobKey : n.db.get wasmstoreKeyList = some jobKey)
    (hresultKey : n.db.get wasmstoreResultList = some resultKey) :
    ∃ history, NodeReaches blake2 Runs chain n [.changeJobState chain.blockNumber key] { n with
      ranAt := chain.blockNumber
      workers := n.workers ++ [⟨chain.blockNumber, jobs.entries,
        .compareAndSet jobKey resultKey (jobKey ++ key.val)
          (RequestPayload.codec.encode (requestOf key job)) (requestOf key job)⟩]
      history } := by
  obtain ⟨_, hhandling⟩ :=
    nodeReaches_handling blake2 Runs chain hjobs horder hblock hjobKey hresultKey
  have hoffer : ocwDoHandlingJob (fun _ => true) chain.blockNumber jobKey jobs.entries =
      (.ok (.requestData (jobKey ++ key.val) (RequestPayload.codec.encode (requestOf key job))),
        [.changeJobState chain.blockNumber key]) := by
    rw [hfirst.pending hstate]
    rfl
  exact hhandling.work rfl (by simp [offchainWorker, hoffer])

/-- A run publishes the job that it offers and stores its request. -/
theorem NodeReaches.publish {n₀ : Node T} {before : List Call} {w : Worker T}
    {jobKey resultKey keyList encodedPayload : Bytes} {payload : RequestPayload}
    (h : NodeReaches blake2 Runs chain n₀ before n) (hws : n.workers = ws ++ [w])
    (hpc : w.pc = .compareAndSet jobKey resultKey keyList encodedPayload payload)
    (hjobKey : n.db.get wasmstoreKeyList = some jobKey) :
    ∃ history, NodeReaches blake2 Runs chain n₀ before { n with
      db := (n.db.set wasmstoreKeyList keyList).set payload.jobId.val encodedPayload
      workers := ws ++ [{ w with pc := .handleResult resultKey }]
      history } := by
  obtain ⟨_, hset⟩ := h.work hws
    (show offchainWorker _ n.db w = (n.db.set wasmstoreKeyList keyList,
        .set resultKey encodedPayload payload, []) by
      simp [offchainWorker, hpc, Store.compareAndSet_hit _ hjobKey])
  simpa using hset.work rfl
    (show offchainWorker _ (n.db.set wasmstoreKeyList keyList) _ =
      ((n.db.set wasmstoreKeyList keyList).set payload.jobId.val encodedPayload,
        .handleResult resultKey, []) by rfl)

/-- A run that has come to its results submits those under the ids `ids`. -/
theorem NodeReaches.submit {n₀ : Node T} {before : List Call} {w : Worker T}
    {ids rest : List Bytes} (h : NodeReaches blake2 Runs chain n₀ before n)
    (hws : n.workers = ws ++ [w]) (hpc : w.pc = .submitting (ids ++ rest)) :
    ∃ history, NodeReaches blake2 Runs chain n₀ (before ++ callsOf n.db w.blockNumber ids)
      { n with workers := ws ++ [{ w with pc := .submitting rest }], history } := by
  induction ids generalizing n before w with
  | nil =>
    refine ⟨n.history, ?_⟩
    have hsame : w = { w with pc := .submitting rest } := by rw [← List.nil_append rest, ← hpc]
    rw [← hsame, ← hws]
    simpa [callsOf] using h
  | cons id ids ih =>
    cases hres : (n.db.get id).bind ResponePayload.decode with
    | none =>
      obtain ⟨_, hskip⟩ := h.work hws
        (show offchainWorker _ n.db w = (n.db, .submitting (ids ++ rest), []) by
          simp [offchainWorker, hpc, hres])
      obtain ⟨history, hnext⟩ := ih hskip rfl rfl
      rw [callsOf_none hres]
      exact ⟨history, by simpa using hnext⟩
    | some res =>
      obtain ⟨_, hsubmitted⟩ := h.work hws
        (show offchainWorker _ n.db w =
            (n.db, .submitting (ids ++ rest), [submitCall w.blockNumber res]) by
          simp [offchainWorker, hpc, hres, ocwDoSubmitResult, submitCall])
      obtain ⟨history, hnext⟩ := ih hsubmitted rfl rfl
      rw [callsOf_some hres]
      exact ⟨history, by simpa using hnext⟩

/-- A run on a block in whose queue it comes to a finished job submits the results of the ids at the
head of the list. -/
theorem nodeReaches_submit (blake2 : Bytes → FixedBytes 16) (Runs : Execution) (chain : State T)
    {jobs : AList fun _ : Hash => OcwJob T} {jobKey resultKey : Bytes} {ids rest : List Bytes}
    {entry : Sigma fun _ : Hash => OcwJob T} (hjobs : jobs.toFinmap = chain.jobQueue)
    (horder : Ascending (storageKey blake2) jobs.entries) (hfirst : ComesTo jobs.entries entry)
    (hstate : entry.2.state = .finish) (hblock : n.ranAt < chain.blockNumber)
    (hjobKey : n.db.get wasmstoreKeyList = some jobKey)
    (hresultKey : n.db.get wasmstoreResultList = some resultKey)
    (hlist : IdList resultKey (ids ++ rest)) (hne : ids ≠ []) :
    ∃ n', NodeReaches blake2 Runs chain n (callsOf n.db chain.blockNumber ids) n' := by
  obtain ⟨_, hhandling⟩ :=
    nodeReaches_handling blake2 Runs chain hjobs horder hblock hjobKey hresultKey
  have hfinished : ocwDoHandlingJob (fun _ => true) chain.blockNumber jobKey jobs.entries =
      (.ok (.resultData {entry.1.val}), []) := by
    exact hfirst.finish hstate
  have hresults : WorkerPc.handleResult resultKey = .submitting (ids ++ rest) := by
    simp [WorkerPc.handleResult, hlist.handlingResult, hne]
  obtain ⟨_, hsubmitting⟩ := hhandling.work rfl
    (show offchainWorker _ n.db _ = (n.db, .submitting (ids ++ rest), []) by
      simp [offchainWorker, hfinished, hresults])
  obtain ⟨_, hsubmitted⟩ := hsubmitting.submit rfl rfl
  exact ⟨_, hsubmitted⟩

end Worker

/-! ### The executor, a task and the listener -/

section Execution

variable {Runs : Execution} {chain : State T} {n n₀ : Node T} {before : List Call}

theorem NodeReaches.monitor {db : Db} {executor : Executor} {spawned : List Task}
    (h : NodeReaches blake2 Runs chain n₀ before n)
    (hstep : offChainMonitor n.db n.executor = (db, executor, spawned)) :
    ∃ history, NodeReaches blake2 Runs chain n₀ before
      { n with db, executor, tasks := n.tasks ++ spawned, history } := by
  have hone : NodeReaches blake2 Runs chain n [] { n with
      db, executor, tasks := n.tasks ++ spawned
      history := n.history.afterExecutor n.db n.executor } :=
    .of_step (l := .executor) ⟨trivial, trivial⟩ (by simp [Node.step, hstep])
  exact ⟨_, by simpa using h.trans hone⟩

/-- The executor gives its ids to tasks, the last one at the end. -/
theorem NodeReaches.spawn {ids : List Bytes} {id : Bytes}
    (h : NodeReaches blake2 Runs chain n₀ before n) (hexec : n.executor = .spawning (ids ++ [id])) :
    ∃ ts history, NodeReaches blake2 Runs chain n₀ before
      { n with
        executor := .spawning []
        tasks := ts ++ [.spawned (n.db.get id)]
        history } := by
  induction ids generalizing n with
  | nil =>
    obtain ⟨history, hspawn⟩ := h.monitor (show offChainMonitor n.db n.executor =
        (n.db, .spawning [], [.spawned (n.db.get id)]) by simp [offChainMonitor, hexec])
    exact ⟨n.tasks, history, hspawn⟩
  | cons id' ids ih =>
    obtain ⟨_, hspawn⟩ := h.monitor (show offChainMonitor n.db n.executor =
        (n.db, .spawning (ids ++ [id]), [.spawned (n.db.get id')]) by
      simp [offChainMonitor, hexec])
    obtain ⟨ts, history, hrest⟩ := ih hspawn rfl
    exact ⟨ts, history, hrest⟩

/-- The executor empties the key list and gives its last id to a task, after the others. -/
theorem NodeReaches.execute {keyLists id : Bytes} {ids : List Bytes}
    (h : NodeReaches blake2 Runs chain n₀ before n) (hexec : n.executor = .poll)
    (hget : n.db.get wasmstoreKeyList = some keyLists) (hlist : IdList keyLists (ids ++ [id])) :
    ∃ ts history, NodeReaches blake2 Runs chain n₀ before { n with
      db := n.db.set wasmstoreKeyList initList
      executor := .spawning []
      tasks := ts ++ [.spawned ((n.db.set wasmstoreKeyList initList).get id)]
      history } := by
  obtain ⟨_, hparse⟩ := h.monitor
    (show offChainMonitor n.db n.executor = (n.db, .resetting keyLists (ids ++ [id]) .get, []) by
      simp [offChainMonitor, hexec, hget, hlist.keyListParser])
  obtain ⟨_, hread⟩ := hparse.monitor
    (show offChainMonitor n.db _ =
        (n.db, .resetting keyLists (ids ++ [id]) (.compareAndSet keyLists), []) by
      simp [offChainMonitor, writeToOffchainDb, hget, Executor.afterReset])
  obtain ⟨_, hreset⟩ := hread.monitor
    (show offChainMonitor n.db _ =
        (n.db.set wasmstoreKeyList initList, .spawning (ids ++ [id]), []) by
      simp [offChainMonitor, writeToOffchainDb, Store.compareAndSet_hit _ hget,
        Executor.afterReset])
  obtain ⟨ts, history, hspawn⟩ := hreset.spawn rfl
  exact ⟨ts, history, hspawn⟩

theorem NodeReaches.task {ts : List Task} {task : Task}
    (h : NodeReaches blake2 Runs chain n₀ before n) (outcome : Option (Vec × UInt32))
    (hts : n.tasks = ts ++ [task]) (hsending : ∀ res, task ≠ .sending res)
    (hC : ∀ payload ∈ task.inProcess, ∀ r ∈ outcome, Runs payload r.1 r.2) :
    ∃ history, NodeReaches blake2 Runs chain n₀ before
      { n with tasks := ts ++ [processTask outcome task], history } := by
  have hone : NodeReaches blake2 Runs chain n [] { n with
      tasks := ts ++ [processTask outcome task]
      history := n.history.afterTask (processTask outcome task) } := by
    refine .of_step (l := .task ts.length outcome) ⟨?_, trivial⟩ ?_
    · simpa [Executes, hts] using hC
    · cases task with
      | sending res => exact absurd rfl (hsending res)
      | _ => simp [Node.step, hts]
  exact ⟨_, by simpa using h.trans hone⟩

/-- A task executes the script of a request and sends its result. -/
theorem NodeReaches.produce {ts : List Task} {p : RequestPayload} {result : Vec}
    {extTime : UInt32} (h : NodeReaches blake2 Runs chain n₀ before n)
    (hts : n.tasks = ts ++ [.spawned (some (RequestPayload.codec.encode p))])
    (hutf8 : (ByteArray.mk p.contentAbi.val.toArray).validateUTF8 = true)
    (hruns : Runs p result extTime) (hchannel : n.channel = []) :
    ∃ history, NodeReaches blake2 Runs chain n₀ before { n with
      tasks := ts ++ [.ended]
      channel := [⟨p.jobId, result, extTime⟩]
      history } := by
  have hspawned : processTask none (.spawned (some (RequestPayload.codec.encode p))) =
      .processing p := by
    simp [processTask, hutf8]
  obtain ⟨_, hprocess⟩ := h.task none hts (by simp) (by simp [Task.inProcess])
  rw [hspawned] at hprocess
  obtain ⟨history, hsending⟩ := hprocess.task (some (result, extTime)) rfl (by simp)
    (by simpa [Task.inProcess] using hruns)
  have hsend : NodeReaches blake2 Runs chain
      { n with tasks := ts ++ [.sending ⟨p.jobId, result, extTime⟩], history } []
      { n with tasks := ts ++ [.ended], channel := [⟨p.jobId, result, extTime⟩], history } :=
    .of_step (l := .task ts.length none) ⟨by simp [Executes, Task.inProcess], trivial⟩
      (by simp [Node.step, hchannel, channelCapacity])
  exact ⟨history, by simpa using hsending.trans hsend⟩

theorem NodeReaches.listen {db : Db} {channel : List JobResult} {listener : Listener}
    (h : NodeReaches blake2 Runs chain n₀ before n)
    (hstep : resultListener n.procesorKey n.db n.channel n.listener =
      some (db, channel, listener)) :
    ∃ history,
      NodeReaches blake2 Runs chain n₀ before { n with db, channel, listener, history } := by
  have hone : NodeReaches blake2 Runs chain n [] { n with
      db, channel, listener
      history := n.history.afterListener n.listener listener } :=
    .of_step (l := .listener) ⟨trivial, trivial⟩ (by simp [Node.step, hstep])
  exact ⟨_, by simpa using h.trans hone⟩

/-- The listener writes the only response there is, over the record that is there, and lists it. -/
theorem NodeReaches.answer {res : JobResult} {record value : Bytes}
    (h : NodeReaches blake2 Runs chain n₀ before n) (hlistener : n.listener = .recv)
    (hchannel : n.channel = [res]) (hid : res.jobId.val.length = 32)
    (hrecord : n.db.get res.jobId.val = some record)
    (hvalue : n.db.get wasmstoreResultList = some value) :
    ∃ history, NodeReaches blake2 Runs chain n₀ before { n with
      db := (n.db.set res.jobId.val (ResponePayload.codec.encode
        (res.respone n.procesorKey))).set wasmstoreResultList (value ++ res.jobId.val)
      channel := []
      listener := .recv
      history } := by
  have hvalue' : (n.db.set res.jobId.val (ResponePayload.codec.encode
      (res.respone n.procesorKey))).get wasmstoreResultList = some value := by
    rw [Store.get_set_ne _ _ (ne_wasmstoreResultList (.inl hid)).symm, hvalue]
  generalize hwritten : n.db.set res.jobId.val (ResponePayload.codec.encode
    (res.respone n.procesorKey)) = written at hvalue' ⊢
  obtain ⟨_, hreceive⟩ := h.listen
    (show resultListener n.procesorKey n.db n.channel n.listener =
        some (n.db, [], .writeRecord res .get) by
      simp [resultListener, hlistener, hchannel])
  obtain ⟨_, hfound⟩ := hreceive.listen
    (show resultListener n.procesorKey n.db [] _ =
        some (n.db, [], .writeRecord res (.compareAndSet record)) by
      simp [resultListener, writeToOffchainDb, hrecord, Listener.afterRecord])
  obtain ⟨_, hwrite⟩ := hfound.listen
    (show resultListener n.procesorKey n.db [] _ = some (written, [], .readList res.jobId) by
      simp [resultListener, writeToOffchainDb, Store.compareAndSet_hit _ hrecord, hwritten,
        Listener.afterRecord])
  obtain ⟨_, hread⟩ := hwrite.listen
    (show resultListener n.procesorKey written [] _ =
        some (written, [], .writeList res.jobId (value ++ res.jobId.val) .get) by
      simp [resultListener, hvalue'])
  obtain ⟨_, hlist⟩ := hread.listen
    (show resultListener n.procesorKey written [] _ = some (written, [],
        .writeList res.jobId (value ++ res.jobId.val) (.compareAndSet value)) by
      simp [resultListener, writeToOffchainDb, hvalue', Listener.afterList])
  exact hlist.listen
    (by simp [resultListener, writeToOffchainDb, Store.compareAndSet_hit _ hvalue',
      Listener.afterList])

/-- The node has a response with `res` under its id, which it has listed after the others. -/
structure Ready (n : Node T) (res : JobResult) (resultList : Bytes) : Prop where
  keyList : n.db.get wasmstoreKeyList = some initList
  resultList : n.db.get wasmstoreResultList = some (resultList ++ res.jobId.val)
  record : n.db.get res.jobId.val =
    some (ResponePayload.codec.encode (res.respone n.procesorKey))

/-- A node at rest offers a pending job, executes it and lists its result. -/
theorem AtRest.ready {keyList resultList : Bytes} {ids : List Bytes}
    (h : AtRest n keyList resultList) (hids : IdList keyList ids)
    {jobs : AList fun _ : Hash => OcwJob T} {key : Hash} {job : OcwJob T}
    {result : Vec} {extTime : UInt32} (hjobs : jobs.toFinmap = chain.jobQueue)
    (horder : Ascending (storageKey blake2) jobs.entries)
    (hfirst : ComesTo jobs.entries ⟨key, job⟩)
    (hstate : job.state = .pending) (hblock : n.ranAt < chain.blockNumber)
    (hutf8 : (ByteArray.mk (requestOf key job).contentAbi.val.toArray).validateUTF8 = true)
    (hruns : Runs (requestOf key job) result extTime) :
    ∃ n', NodeReaches blake2 Runs chain n [.changeJobState chain.blockNumber key] n' ∧
      Ready n' ⟨key.toVec, result, extTime⟩ resultList ∧ n'.ranAt = chain.blockNumber := by
  have hid : (requestOf key job).jobId.val = key.val := rfl
  have hkey := ne_wasmstoreKeyList (.inl key.property)
  have hresult := ne_wasmstoreResultList (.inl key.property)
  obtain ⟨_, hoffer⟩ :=
    nodeReaches_offer blake2 Runs chain hjobs horder hfirst hstate hblock h.keyList h.resultList
  obtain ⟨_, hpublish⟩ := hoffer.publish rfl rfl h.keyList
  rw [hid] at hpublish
  generalize hdb : (n.db.set wasmstoreKeyList (keyList ++ key.val)).set key.val
    (RequestPayload.codec.encode (requestOf key job)) = db at hpublish
  have hlist : db.get wasmstoreKeyList = some (keyList ++ key.val) := by
    rw [← hdb, Store.get_set_ne _ _ hkey.symm, Store.get_set_same]
  have hresults : db.get wasmstoreResultList = some resultList := by
    rw [← hdb, Store.get_set_ne _ _ hresult.symm,
      Store.get_set_ne _ _ wasmstoreKeyList_ne_resultList.symm, h.resultList]
  have hrecord : (db.set wasmstoreKeyList initList).get key.val =
      some (RequestPayload.codec.encode (requestOf key job)) := by
    rw [Store.get_set_ne _ _ hkey, ← hdb]
    exact Store.get_set_same _ _ _
  obtain ⟨ts, _, hexecute⟩ := hpublish.execute h.executor hlist (hids.append key.property)
  rw [hrecord] at hexecute
  obtain ⟨_, hproduce⟩ := hexecute.produce rfl hutf8 hruns h.channel
  obtain ⟨history, hanswer⟩ := hproduce.answer h.listener rfl key.property hrecord
    (by rw [Store.get_set_ne _ _ wasmstoreKeyList_ne_resultList.symm, hresults])
  refine ⟨_, hanswer, ⟨?_, ?_, ?_⟩, rfl⟩
  · show Store.get (((db.set wasmstoreKeyList initList).set key.val _).set
      wasmstoreResultList _) wasmstoreKeyList = some initList
    rw [Store.get_set_ne _ _ wasmstoreKeyList_ne_resultList, Store.get_set_ne _ _ hkey.symm,
      Store.get_set_same]
  · exact Store.get_set_same _ _ _
  · show Store.get (((db.set wasmstoreKeyList initList).set key.val _).set
      wasmstoreResultList _) key.val = some _
    rw [Store.get_set_ne _ _ hresult]
    exact Store.get_set_same _ _ _

end Execution

/-! ### Runs of the system -/

/-- Only node `i` and the blocks take steps, the tasks of the node return what their scripts may
return, its runs go through the queue in the order of the storage, and the node submits no call that
the pool holds. -/
def Alone [DecidableEq ι] (blake2 : Bytes → FixedBytes 16) (Runs : Execution) (i : ι)
    (s : System T ι) : Label T ι → Prop
  | .block _ => True
  | .inclusion _ => True
  | .extrinsic _ _ => False
  | .node j l => j = i ∧ Takes blake2 Runs (s.nodes i) l ∧
    ∀ next ∈ (s.nodes i).step s.chain l, ∀ c ∈ next.2, c ∉ s.pool

/-- The block that an unsigned call names. -/
def Call.number : Call → Nat
  | .changeJobState blockNumber _ => blockNumber
  | .submitResultUnsiged blockNumber _ _ _ _ => blockNumber
  | _ => 0

/-- The chain has come as far as the node's last run and as all blocks that the pool names. -/
structure Current (s : System T ι) (i : ι) : Prop where
  ran : (s.nodes i).ranAt ≤ s.chain.blockNumber
  pool : ∀ c ∈ s.pool, c.number ≤ s.chain.blockNumber

theorem Current.fresh {s : System T ι} {i : ι} (h : Current s i) {c : Call}
    (hc : c.number = s.chain.blockNumber + 1) : c ∉ s.pool := fun hmem => by
  have hle := h.pool c hmem
  omega

section System

variable [DecidableEq ι] {Runs : Execution} {s : System T ι} {i : ι}

/-- Steps of the node are steps of the system, when what it submits is all new. -/
theorem reaches_of_nodeSteps {x : Node T × List Call}
    (h : Lts.ReachesBy (nodeStep s.chain) (fun x l => Takes blake2 Runs x.1 l) (s.nodes i, []) x)
    (hnew : x.2.Nodup) (hfresh : ∀ c ∈ x.2, c ∉ s.pool) :
    Lts.ReachesBy System.step (Alone blake2 Runs i) s
      { s with pool := s.pool ++ x.2, nodes := Function.update s.nodes i x.1 } := by
  induction h with
  | refl =>
    rw [Function.update_eq_self, List.append_nil]
    exact Lts.ReachesBy.refl s
  | @tail y z _ hnext ih =>
    obtain ⟨l, hC, hstep⟩ := hnext
    obtain ⟨⟨n, calls⟩, hnode, rfl⟩ := Option.map_eq_some_iff.mp hstep
    have hdisjoint := List.disjoint_of_nodup_append hnew
    have hbefore := ih hnew.of_append_left fun c hc => hfresh c (List.mem_append_left _ hc)
    refine hbefore.tail (l := .node i l) ⟨rfl, by simpa using hC, ?_⟩ ?_
    · intro next hnext c hc hpool
      have hsame : next = (n, calls) := by simpa [hnode, eq_comm] using hnext
      rw [hsame] at hc
      rcases List.mem_append.mp hpool with hpool | hpool
      · exact hfresh c (List.mem_append_right _ hc) hpool
      · exact hdisjoint hpool hc
    · simp [System.step, hnode]

theorem reaches_of_nodeReaches {n : Node T} {calls : List Call}
    (h : NodeReaches blake2 Runs s.chain (s.nodes i) calls n) (hnew : calls.Nodup)
    (hfresh : ∀ c ∈ calls, c ∉ s.pool) :
    Lts.ReachesBy System.step (Alone blake2 Runs i) s
      { s with pool := s.pool ++ calls, nodes := Function.update s.nodes i n } :=
  reaches_of_nodeSteps (h []) hnew hfresh

/-- An empty block. -/
def State.nextBlock (chain : State T) : State T :=
  { chain with blockNumber := chain.blockNumber + 1, invulnerables := [], events := [] }

theorem reaches_block (blake2 : Bytes → FixedBytes 16) (Runs : Execution) (i : ι) (s : System T ι) :
    Lts.ReachesBy System.step (Alone blake2 Runs i) s { s with chain := s.chain.nextBlock } :=
  (Lts.ReachesBy.refl s).tail (l := .block []) trivial rfl

/-- The chain after as many empty blocks as it takes. -/
theorem reaches_blocks (blake2 : Bytes → FixedBytes 16) (Runs : Execution) (i : ι)
    (s : System T ι) (N : Nat) :
    ∃ chain : State T, N < chain.blockNumber ∧ chain.jobQueue = s.chain.jobQueue ∧
      Lts.ReachesBy System.step (Alone blake2 Runs i) s { s with chain } := by
  induction N with
  | zero => exact ⟨s.chain.nextBlock, Nat.succ_pos _, rfl, reaches_block blake2 Runs i s⟩
  | succ N ih =>
    obtain ⟨chain, hblock, hqueue, hreach⟩ := ih
    exact ⟨chain.nextBlock, Nat.succ_lt_succ hblock, hqueue,
      hreach.trans (reaches_block blake2 Runs i { s with chain })⟩

/-- The inclusion of a call of the pool. -/
theorem reaches_inclusion {c : Call} {before after : List Call}
    (blake2 : Bytes → FixedBytes 16) (Runs : Execution) (i : ι)
    (hpool : s.pool = before ++ c :: after) (hadmissible : admissible s.chain .none c = true) :
    Lts.ReachesBy System.step (Alone blake2 Runs i) s { s with
      chain := s.chain.call .none c
      pool := before ++ after
      changed := s.changed ++ c.changes } := by
  refine (Lts.ReachesBy.refl s).tail (l := .inclusion before.length) trivial ?_
  simp [System.step, hpool, hadmissible, List.eraseIdx_append_of_length_le]

theorem reaches_current (blake2 : Bytes → FixedBytes 16) (Runs : Execution) (i : ι)
    (s : System T ι) :
    ∃ chain : State T, Current { s with chain } i ∧ chain.jobQueue = s.chain.jobQueue ∧
      Lts.ReachesBy System.step (Alone blake2 Runs i) s { s with chain } := by
  obtain ⟨N, hN⟩ : ∃ N, ∀ c ∈ s.pool, c.number ≤ N :=
    ⟨(s.pool.map Call.number).sum, fun c hc =>
      List.single_le_sum (by simp) _ (List.mem_map_of_mem hc)⟩
  obtain ⟨chain, hblock, hqueue, hreach⟩ := reaches_blocks blake2 Runs i s (max N (s.nodes i).ranAt)
  refine ⟨chain, ⟨?_, fun c hc => ?_⟩, hqueue, hreach⟩
  · exact (le_max_right _ _).trans hblock.le
  · exact (hN c hc).trans ((le_max_left _ _).trans hblock.le)

theorem accepts_validateUnsiged {chain : State T} {blockNumber : Nat} {key : Hash}
    (hblock : blockNumber ≤ chain.blockNumber) (hkey : key.isClear = false) :
    (validateUnsigedTransaction chain blockNumber key).accepts = true := by
  simp [validateUnsigedTransaction, hkey, Validity.accepts, Nat.not_lt.mpr hblock]

/-- A response that is submitted for a finished job enters the chain. -/
theorem call_submit {chain : State T} {key : Hash} {job : OcwJob T} (q : ResponePayload)
    (blockNumber : Nat) (hid : q.jobId = key.toVec) (hjob : chain.jobQueue.lookup key = some job)
    (hstate : job.state = .finish) (hsize : q.jobResult.val.length ≤ T.maxResultSize.toNat) :
    (chain.call .none (submitCall blockNumber q)).scriptResult.lookup (key, q.address) =
      some ⟨.ofLe q.jobResult.val hsize, q.exeTime⟩ := by
  have hkey : (fixedBytes 32).decode q.jobId.val = some (key, []) := by
    rw [hid]
    exact (fixedBytes 32).decode_encode_self key
  rw [submitCall, State.call, Call.dispatch, submitResultUnsiged_fits hkey hjob hstate hsize]
  exact Finmap.lookup_insert _

theorem admissible_submit {chain : State T} {key : Hash} {q : ResponePayload} {blockNumber : Nat}
    (hid : q.jobId = key.toVec) (hblock : blockNumber ≤ chain.blockNumber)
    (hkey : key.isClear = false) :
    admissible chain .none (submitCall blockNumber q) = true := by
  have hdecode : (fixedBytes 32).decode q.jobId.val = some (key, []) := by
    rw [hid]
    exact (fixedBytes 32).decode_encode_self key
  simpa [admissible, submitCall, validateUnsigned, hdecode] using
    accepts_validateUnsiged hblock hkey

variable {key : Hash} {job : OcwJob T} {res : JobResult}

/-- A node at rest offers the job and executes it. -/
theorem reaches_ready {keyList resultList : Bytes} {ids : List Bytes} (hcurrent : Current s i)
    (hrest : AtRest (s.nodes i) keyList resultList) (hids : IdList keyList ids)
    (hclear : Cleared blake2 s.chain key)
    (hjob : s.chain.jobQueue.lookup key = some job) (hstate : job.state = .pending)
    (hutf8 : (ByteArray.mk (requestOf key job).contentAbi.val.toArray).validateUTF8 = true)
    {result : Vec} {extTime : UInt32} (hruns : Runs (requestOf key job) result extTime) :
    ∃ s', Lts.ReachesBy System.step (Alone blake2 Runs i) s s' ∧ Current s' i ∧
      s'.pool = s.pool ++ [.changeJobState s'.chain.blockNumber key] ∧
      s'.chain.jobQueue = s.chain.jobQueue ∧
      Ready (s'.nodes i) ⟨key.toVec, result, extTime⟩ resultList ∧
      (s'.nodes i).procesorKey = (s.nodes i).procesorKey := by
  obtain ⟨jobs, hjobs, horder, hfirst⟩ := hclear.comesTo hjob
  have hqueue : jobs.toFinmap = s.chain.nextBlock.jobQueue := hjobs
  obtain ⟨n, hnode, hready, hran⟩ := hrest.ready hids hqueue horder hfirst hstate
    (Nat.lt_succ_of_le hcurrent.ran) hutf8 hruns
  have hreach := (reaches_block blake2 Runs i s).trans
    (reaches_of_nodeReaches (s := { s with chain := s.chain.nextBlock }) hnode
      (List.nodup_singleton _) (by simpa using hcurrent.fresh rfl))
  refine ⟨_, hreach, ⟨?_, ?_⟩, rfl, rfl, ?_, ?_⟩
  · simpa using hran.le
  · intro c hc
    rcases List.mem_append.mp hc with hc | hc
    · exact (hcurrent.pool c hc).trans (Nat.le_succ _)
    · rw [List.mem_singleton.mp hc]
      exact le_rfl
  · simpa using hready
  · simpa using hnode.procesorKey_eq

/-- A block includes a state change of the job. -/
theorem reaches_change (blake2 : Bytes → FixedBytes 16) (Runs : Execution) (i : ι)
    {blockNumber : Nat} {before after : List Call}
    (hpool : s.pool = before ++ .changeJobState blockNumber key :: after)
    (hle : blockNumber ≤ s.chain.blockNumber) (hkey : key.isClear = false)
    (hjob : s.chain.jobQueue.lookup key = some job) :
    ∃ s', Lts.ReachesBy System.step (Alone blake2 Runs i) s s' ∧ s'.pool = before ++ after ∧
      s'.chain.jobQueue = s.chain.jobQueue.insert key job.advance ∧
      s'.chain.blockNumber = s.chain.blockNumber ∧ s'.nodes = s.nodes := by
  have hcall : s.chain.call .none (.changeJobState blockNumber key) =
      { s.chain with jobQueue := s.chain.jobQueue.insert key job.advance } := by
    simp [State.call, Call.dispatch, changeJobState, hjob]
  refine ⟨_, reaches_inclusion blake2 Runs i hpool (accepts_validateUnsiged hle hkey), rfl,
    ?_, ?_, rfl⟩
  · simp [hcall]
  · simp [hcall]

/-- On the next block the node offers a pending job that its handler comes to. -/
theorem reaches_offered (Runs : Execution) {jobKey resultKey : Bytes} (hcurrent : Current s i)
    (hclear : Cleared blake2 s.chain key) (hjob : s.chain.jobQueue.lookup key = some job)
    (hstate : job.state = .pending) (hjobKey : (s.nodes i).db.get wasmstoreKeyList = some jobKey)
    (hresultKey : (s.nodes i).db.get wasmstoreResultList = some resultKey) :
    ∃ s' workers history, Lts.ReachesBy System.step (Alone blake2 Runs i) s s' ∧
      s'.chain = s.chain.nextBlock ∧
      s'.pool = s.pool ++ [.changeJobState s'.chain.blockNumber key] ∧
      s'.nodes i = { s.nodes i with ranAt := s'.chain.blockNumber, workers, history } := by
  obtain ⟨jobs, hjobs, horder, hfirst⟩ := hclear.comesTo hjob
  obtain ⟨_, hoffer⟩ := nodeReaches_offer blake2 Runs s.chain.nextBlock hjobs horder hfirst
    hstate (Nat.lt_succ_of_le hcurrent.ran) hjobKey hresultKey
  have hreach := (reaches_block blake2 Runs i s).trans
    (reaches_of_nodeReaches (s := { s with chain := s.chain.nextBlock }) hoffer
      (List.nodup_singleton _) (by simpa using hcurrent.fresh rfl))
  exact ⟨_, _, _, hreach, rfl, rfl, Function.update_self _ _ _⟩

/-- On the next block the job is still pending and is offered again.  Once both state changes are
included it is finished. -/
theorem reaches_finished {resultList : Bytes} {pool : List Call} {blockNumber : Nat}
    (hcurrent : Current s i) (hready : Ready (s.nodes i) res resultList)
    (hpool : s.pool = pool ++ [.changeJobState blockNumber key])
    (hclear : Cleared blake2 s.chain key)
    (hjob : s.chain.jobQueue.lookup key = some job) (hstate : job.state = .pending)
    (hkey : key.isClear = false) :
    ∃ s', Lts.ReachesBy System.step (Alone blake2 Runs i) s s' ∧ Current s' i ∧
      Cleared blake2 s'.chain key ∧
      s'.chain.jobQueue.lookup key = some { job with state := .finish } ∧
      Ready (s'.nodes i) res resultList ∧
      (s'.nodes i).procesorKey = (s.nodes i).procesorKey := by
  obtain ⟨s₁, workers, history, h₁, hchain₁, hpool₁, hnode₁⟩ := reaches_offered Runs hcurrent
    hclear hjob hstate hready.keyList hready.resultList
  have hblock₁ : s₁.chain.blockNumber = s.chain.blockNumber + 1 := by
    rw [hchain₁]
    rfl
  have hle : blockNumber ≤ s.chain.blockNumber :=
    hcurrent.pool (.changeJobState blockNumber key) (by simp [hpool])
  rw [hpool, List.append_assoc] at hpool₁
  obtain ⟨s₂, h₂, hpool₂, hqueue₂, hblock₂, hnodes₂⟩ := reaches_change blake2 Runs i hpool₁
    (by omega) hkey (show s₁.chain.jobQueue.lookup key = some job from hchain₁ ▸ hjob)
  have hjob₂ : s₂.chain.jobQueue.lookup key = some job.advance := by
    rw [hqueue₂, Finmap.lookup_insert]
  obtain ⟨s₃, h₃, hpool₃, hqueue₃, hblock₃, hnodes₃⟩ := reaches_change blake2 Runs i
    hpool₂ hblock₂.ge hkey hjob₂
  have hjob₃ : s₃.chain.jobQueue.lookup key = some job.advance.advance := by
    rw [hqueue₃, Finmap.lookup_insert]
  have hclear₁ : Cleared blake2 s₁.chain key := hclear.of_eq (by rw [hchain₁]; rfl)
  have hclear₃ : Cleared blake2 s₃.chain key := (hclear₁.of_insert hqueue₂).of_insert hqueue₃
  have hadvanced : job.advance.advance = { job with state := .finish } := by
    simp [OcwJob.advance, JobState.advance, hstate]
  have hnode : s₃.nodes i = s₁.nodes i := by
    rw [hnodes₃, hnodes₂]
  refine ⟨s₃, (h₁.trans h₂).trans h₃, ⟨?_, fun c hc => ?_⟩, hclear₃, hadvanced ▸ hjob₃, ?_, ?_⟩
  · rw [hnode, hnode₁]
    simp only
    omega
  · rw [hpool₃, List.append_nil] at hc
    have hbefore := hcurrent.pool c (hpool ▸ List.mem_append_left _ hc)
    omega
  · rw [hnode, hnode₁]
    exact ⟨hready.keyList, hready.resultList, hready.record⟩
  · rw [hnode, hnode₁]

/-- A node at rest gets a pending job out of the way: it offers the job, and a block includes the
state change. -/
theorem reaches_passed (Runs : Execution) {keyList resultList : Bytes} (hcurrent : Current s i)
    (hrest : AtRest (s.nodes i) keyList resultList) (hclear : Cleared blake2 s.chain key)
    (hjob : s.chain.jobQueue.lookup key = some job) (hstate : job.state = .pending)
    (hkey : key.isClear = false) :
    ∃ s', Lts.ReachesBy System.step (Alone blake2 Runs i) s s' ∧ Current s' i ∧
      AtRest (s'.nodes i) keyList resultList ∧
      s'.chain.jobQueue = s.chain.jobQueue.insert key job.advance ∧
      (s'.nodes i).procesorKey = (s.nodes i).procesorKey := by
  obtain ⟨s₁, workers, history, h₁, hchain₁, hpool₁, hnode₁⟩ := reaches_offered Runs hcurrent
    hclear hjob hstate hrest.keyList hrest.resultList
  have hblock₁ : s₁.chain.blockNumber = s.chain.blockNumber + 1 := by
    rw [hchain₁]
    rfl
  have hqueue₁ : s₁.chain.jobQueue = s.chain.jobQueue := by
    rw [hchain₁]
    rfl
  obtain ⟨s₂, h₂, hpool₂, hqueue₂, hblock₂, hnodes₂⟩ := reaches_change blake2 Runs i hpool₁
    le_rfl hkey (hqueue₁ ▸ hjob)
  refine ⟨s₂, h₁.trans h₂, ⟨?_, fun c hc => ?_⟩, ?_, hqueue₁ ▸ hqueue₂, ?_⟩
  · rw [hnodes₂, hnode₁]
    exact hblock₂.ge
  · rw [hpool₂, List.append_nil] at hc
    have hbefore := hcurrent.pool c hc
    omega
  · rw [hnodes₂, hnode₁]
    exact ⟨hrest.keyList, hrest.resultList, hrest.executor, hrest.channel, hrest.listener⟩
  · rw [hnodes₂, hnode₁]

/-- A node at rest gets all the pending jobs before an unblocked one out of the way. -/
theorem reaches_cleared (Runs : Execution) {keyList resultList : Bytes} (hcurrent : Current s i)
    (hrest : AtRest (s.nodes i) keyList resultList) (hunblocked : Unblocked blake2 s.chain key)
    (hjob : s.chain.jobQueue.lookup key = some job) :
    ∃ s', Lts.ReachesBy System.step (Alone blake2 Runs i) s s' ∧ Current s' i ∧
      AtRest (s'.nodes i) keyList resultList ∧ Cleared blake2 s'.chain key ∧
      s'.chain.jobQueue.lookup key = some job ∧
      (s'.nodes i).procesorKey = (s.nodes i).procesorKey := by
  -- With each job that is got out of the way fewer are pending.
  induction hcount : s.chain.pendingKeys.card using Nat.strong_induction_on generalizing s with
  | h count ih =>
    rcases hunblocked.next with
      hclear | ⟨key', job', hjob', hstate', hkey', hprecedes, hclear'⟩
    · exact ⟨s, Lts.ReachesBy.refl s, hcurrent, hrest, hclear, hjob, rfl⟩
    · obtain ⟨s₁, h₁, hcurrent₁, hrest₁, hqueue₁, hprocesor₁⟩ :=
        reaches_passed Runs hcurrent hrest hclear' hjob' hstate' hkey'
      have hprocessing : ¬Stops key' job'.advance := by
        simp [Stops, OcwJob.advance, JobState.advance, hstate']
      have hne : key ≠ key' := fun hsame => lt_irrefl _ (hsame ▸ hprecedes)
      have hjob₁ : s₁.chain.jobQueue.lookup key = some job := by
        rw [hqueue₁, Finmap.lookup_insert_of_ne _ hne, hjob]
      have hless := Finset.card_lt_card (pendingKeys_ssubset hjob' hstate' hqueue₁)
      obtain ⟨s₂, h₂, hcurrent₂, hrest₂, hclear₂, hjob₂, hprocesor₂⟩ := ih _ (hcount ▸ hless)
        hcurrent₁ hrest₁ (hunblocked.of_insert hqueue₁ hprocessing) hjob₁ rfl
      exact ⟨s₂, h₁.trans h₂, hcurrent₂, hrest₂, hclear₂, hjob₂, hprocesor₂.trans hprocesor₁⟩

theorem mem_callsOf {db : Db} {blockNumber : Nat} {ids : List Bytes} {c : Call}
    (h : c ∈ callsOf db blockNumber ids) : c.number = blockNumber := by
  obtain ⟨id, -, hc⟩ := List.mem_filterMap.mp h
  obtain ⟨q, -, rfl⟩ := Option.map_eq_some_iff.mp hc
  rfl

/-- The submissions for different ids differ. -/
theorem NodeInv.callsOf_nodup {chain : State T} {n : Node T} (h : NodeInv chain n)
    (blockNumber : Nat) {ids : List Bytes} (hids : ids.Nodup)
    (hlength : ∀ id ∈ ids, id.length = 32) : (callsOf n.db blockNumber ids).Nodup := by
  have hnamed : ∀ id ∈ ids, ∀ c,
      ((n.db.get id).bind ResponePayload.decode).map (submitCall blockNumber) = some c →
      ∃ q, q.jobId.val = id ∧ c = submitCall blockNumber q := by
    intro id hid c hc
    obtain ⟨q, hq, rfl⟩ := Option.map_eq_some_iff.mp hc
    obtain ⟨record, hget, hdecode⟩ := Option.bind_eq_some_iff.mp hq
    exact ⟨q, (h.db.records id record (hlength id hid) hget).respone_id hdecode, rfl⟩
  apply List.pairwise_filterMap.mpr
  refine hids.imp_of_mem ?_
  intro id id' hid hid' hne c hc c' hc' hsame
  obtain ⟨q, rfl, rfl⟩ := hnamed id hid c hc
  obtain ⟨q', rfl, rfl⟩ := hnamed id' hid' c' hc'
  exact hne (Call.submitResultUnsiged.inj hsame).2.1

/-- The node submits the results of its list up to the one of a finished job, and a block includes
that one. -/
theorem reaches_recorded {resultList : Bytes} {before after : List Bytes}
    (hcurrent : Current s i) (hinv : NodeInv s.chain (s.nodes i))
    (hready : Ready (s.nodes i) res resultList) (hid : res.jobId = key.toVec)
    (hlist : IdList (resultList ++ res.jobId.val) ((before ++ [key.val]) ++ after))
    (hnodup : (before ++ [key.val]).Nodup) (hclear : Cleared blake2 s.chain key)
    (hjob : s.chain.jobQueue.lookup key = some job) (hstate : job.state = .finish)
    (hkey : key.isClear = false) (hsize : res.result.val.length ≤ T.maxResultSize.toNat) :
    ∃ s', Lts.ReachesBy System.step (Alone blake2 Runs i) s s' ∧
      s'.chain.scriptResult.lookup (key, (s.nodes i).procesorKey) =
        some ⟨.ofLe res.result.val hsize, res.extTime⟩ := by
  obtain ⟨jobs, hjobs, horder, hfirst⟩ := hclear.comesTo hjob
  obtain ⟨n, hsubmit⟩ := nodeReaches_submit blake2 Runs s.chain.nextBlock hjobs horder hfirst hstate
    (Nat.lt_succ_of_le hcurrent.ran) hready.keyList hready.resultList hlist (by simp)
  have hnew := hinv.callsOf_nodup s.chain.nextBlock.blockNumber hnodup fun id hmem =>
    hlist.length id (List.mem_append_left _ hmem)
  have hreach := (reaches_block blake2 Runs i s).trans
    (reaches_of_nodeReaches (s := { s with chain := s.chain.nextBlock }) hsubmit hnew
      fun c hc => hcurrent.fresh (mem_callsOf hc))
  have hrecord : ((s.nodes i).db.get key.val).bind ResponePayload.decode =
      some (res.respone (s.nodes i).procesorKey) := by
    have hget := hready.record
    rw [hid] at hget
    rw [show key.val = key.toVec.val from rfl, hget]
    exact ResponePayload.decode_encode _
  have hcalls : callsOf (s.nodes i).db s.chain.nextBlock.blockNumber (before ++ [key.val]) =
      callsOf (s.nodes i).db s.chain.nextBlock.blockNumber before ++
        [submitCall s.chain.nextBlock.blockNumber (res.respone (s.nodes i).procesorKey)] := by
    rw [callsOf, List.filterMap_append]
    exact congrArg _ (callsOf_some hrecord _ [])
  have hadmissible : admissible s.chain.nextBlock .none
      (submitCall s.chain.nextBlock.blockNumber (res.respone (s.nodes i).procesorKey)) = true :=
    admissible_submit hid le_rfl hkey
  have hpool : s.pool ++ callsOf (s.nodes i).db s.chain.nextBlock.blockNumber
        (before ++ [key.val]) =
      (s.pool ++ callsOf (s.nodes i).db s.chain.nextBlock.blockNumber before) ++
        submitCall s.chain.nextBlock.blockNumber (res.respone (s.nodes i).procesorKey) :: [] := by
    simp [hcalls]
  refine ⟨_, hreach.trans (reaches_inclusion blake2 Runs i hpool hadmissible), ?_⟩
  exact call_submit (res.respone (s.nodes i).procesorKey) _ hid
    (show s.chain.nextBlock.jobQueue.lookup key = some job from hjob) hstate hsize

end System

/-- A node can execute a pending job in the absence of others, when no job before it keeps the
handler for good, and what the job's script returns is then on the chain, under the node's key. -/
theorem NodeInv.recordable [DecidableEq ι] {Env : Executor.Host → Prop} {s : System T ι} {i : ι}
    (h : NodeInv s.chain (s.nodes i)) (hresults : (s.nodes i).results.Nodup) {key : Hash}
    {job : OcwJob T} (hjob : s.chain.jobQueue.lookup key = some job) (hstate : job.state = .pending)
    (hunblocked : Unblocked blake2 s.chain key) (hkey : key.isClear = false) {result : Vec}
    {extTime : UInt32} (hruns : RunsIn Env (requestOf key job) result extTime)
    (hsize : result.val.length ≤ T.maxResultSize.toNat) :
    ∃ s', Lts.ReachesBy System.step (Alone blake2 (RunsIn Env) i) s s' ∧
      s'.chain.scriptResult.lookup (key, (s.nodes i).procesorKey) =
        some ⟨.ofLe result.val hsize, extTime⟩ := by
  have hutf8 : (ByteArray.mk (requestOf key job).contentAbi.val.toArray).validateUTF8 = true := by
    obtain ⟨host, -, houtcome⟩ := hruns
    obtain ⟨abi, habi, -⟩ := Executor.outcomeOf_eq_some.mp houtcome
    rw [← Text.utf8Decode_isSome, habi]
    rfl
  obtain ⟨n, keyList, ids, resultList, hrests, hatRest, hids, hlist⟩ :=
    h.rests blake2 (RunsIn Env)
  have hr₁ := reaches_of_nodeReaches hrests List.nodup_nil (by simp)
  obtain ⟨chain, hcurrent, hqueue, hr₂⟩ := reaches_current blake2 (RunsIn Env) i
    { s with pool := s.pool ++ [], nodes := Function.update s.nodes i n }
  have hunblocked₂ : Unblocked blake2 chain key := by
    unfold Unblocked
    rwa [hqueue]
  obtain ⟨s₃, hr₃, hcurrent₃, hrest₃, hclear₃, hjob₃, hprocesor₃⟩ :=
    reaches_cleared (RunsIn Env) hcurrent (by simpa using hatRest) hunblocked₂
      (hqueue ▸ hjob)
  obtain ⟨s₄, hr₄, hcurrent₄, hpool₄, hqueue₄, hready₄, hprocesor₄⟩ :=
    reaches_ready hcurrent₃ hrest₃ hids hclear₃ hjob₃ hstate hutf8 hruns
  obtain ⟨s₅, hr₅, hcurrent₅, hclear₅, hjob₅, hready₅, hprocesor₅⟩ :=
    reaches_finished hcurrent₄ hready₄ hpool₄ (hclear₃.of_eq hqueue₄) (hqueue₄ ▸ hjob₃) hstate hkey
  have hreach := (((hr₁.trans hr₂).trans hr₃).trans hr₄).trans hr₅
  obtain ⟨before, after, hfirst, hnodup⟩ := exists_first hresults key.val
  have hlist₅ := hlist.append key.property
  rw [hfirst] at hlist₅
  obtain ⟨s₆, hr₆, hresult⟩ := reaches_recorded hcurrent₅ (h.reaches hreach)
    hready₅ rfl hlist₅ hnodup hclear₅ hjob₅ rfl hkey hsize
  have hprocesor : (s₅.nodes i).procesorKey = (s.nodes i).procesorKey := by
    rw [hprocesor₅, hprocesor₄, hprocesor₃]
    simpa using hrests.procesorKey_eq
  rw [hprocesor] at hresult
  exact ⟨s₆, hreach.trans hr₆, hresult⟩

/-- From every state that a run of the whole system reaches, in which nodes start again at any time,
whatever the nodes are in the middle of and the pool holds, a node can execute any pending job that
has no job before it, in the storage's order, that keeps the handler for good.  It does so in the
absence of others, and what the job's script returns in an environment of the node is then on the
chain, under the node's key.  The node must have no result twice, the result must fit, and the job's
id must not be the one that the validation refuses. -/
theorem result_recordable [DecidableEq ι] {Env : Executor.Host → Prop} {s₀ : System T ι}
    {d : Deployment T ι} (h₀ : Booted s₀) (h : Lts.Reaches Deployment.step ⟨s₀, []⟩ d) (i : ι)
    (hresults : (d.system.nodes i).results.Nodup) {key : Hash} {job : OcwJob T}
    (hjob : d.system.chain.jobQueue.lookup key = some job) (hstate : job.state = .pending)
    (hunblocked : Unblocked blake2 d.system.chain key) (hkey : key.isClear = false)
    {result : Vec} {extTime : UInt32} (hruns : RunsIn Env (requestOf key job) result extTime)
    (hsize : result.val.length ≤ T.maxResultSize.toNat) :
    ∃ s, Lts.ReachesBy System.step (Alone blake2 (RunsIn Env) i) d.system s ∧
      s.chain.scriptResult.lookup (key, (d.system.nodes i).procesorKey) =
        some ⟨.ofLe result.val hsize, extTime⟩ :=
  (nodeInv_deployment h₀ h i).recordable hresults hjob hstate hunblocked hkey hruns hsize

/-- The node starts again, offers the sample job and executes it, its listener is about to list the
result, and account 2 requests the script. -/
def sampleBusy : List (Incident sampleRuntime Unit) :=
  [.restart () none 0] ++ (sampleEnqueue 0 ++ sampleExecute ++
    steps (.task 0 (some (default, 7))) 3 ++ steps .listener 3 ++
    [Label.extrinsic (.signed (2 : UInt32)) (.requestScriptExecution sampleName none)]).map .step

/-- An order in which the storage comes to the job of account 1 first. -/
def sampleBlake (_ : Bytes) : FixedBytes 16 := FixedBytes.zero 16

/-- The queue with the job of account 2 behind the one of account 1, both pending. -/
def sampleBehind : State sampleRuntime :=
  sampleQueue.call (.signed (2 : UInt32)) (.requestScriptExecution sampleName none)

theorem sampleBehind_jobs {key : Hash} {job : OcwJob sampleRuntime}
    (h : sampleBehind.jobQueue.lookup key = some job) :
    job.state = .pending ∧ key.isClear = false := by
  have hqueue : sampleBehind.jobQueue = Finmap.insert sampleWaitingJob.key sampleWaitingJob
      (Finmap.insert sampleJob.key sampleJob ∅) := by decide
  rw [hqueue] at h
  rcases Finmap.lookup_insert_iff.mp h with ⟨rfl, rfl⟩ | ⟨-, h⟩
  · exact ⟨rfl, by decide⟩
  · rcases Finmap.lookup_insert_iff.mp h with ⟨rfl, rfl⟩ | ⟨-, h⟩
    · exact ⟨rfl, by decide⟩
    · simp at h

theorem sampleBehind_unblocked {chain : State sampleRuntime}
    (hqueue : chain.jobQueue = sampleBehind.jobQueue) (key : Hash) :
    Unblocked sampleBlake chain key := by
  intro key' job hjob _
  obtain ⟨hstate, hclear⟩ := sampleBehind_jobs (hqueue ▸ hjob)
  simp [Stops, hstate, hclear]

theorem sampleWaiting_runsIn : RunsIn (· = answeringHost)
    (requestOf sampleWaitingJob.key sampleWaitingJob) sampleOutcome.1 sampleOutcome.2 :=
  ⟨answeringHost, rfl, by decide +kernel⟩

theorem result_recordable_sample : ∃ (d : Deployment sampleRuntime Unit)
    (s : System sampleRuntime Unit), Lts.Reaches Deployment.step ⟨sampleSystem, []⟩ d ∧
    d.system.pool = [.changeJobState 1 sampleJob.key] ∧
    d.system.chain.jobQueue.lookup sampleJob.key = some sampleJob ∧
    Precedes sampleBlake sampleJob.key sampleWaitingJob.key ∧
    Lts.ReachesBy System.step (Alone sampleBlake (RunsIn (· = answeringHost)) ()) d.system s ∧
    s.chain.scriptResult.lookup (sampleWaitingJob.key, (d.system.nodes ()).procesorKey) =
      some ⟨.ofLe [42, 0, 0, 0] (by decide), 7⟩ := by
  have hrun : (Lts.run Deployment.step ⟨sampleSystem, []⟩ sampleBusy).any (fun d =>
      (d.system.nodes ()).results = [sampleJob.key.val] ∧
      d.system.pool = [.changeJobState 1 sampleJob.key] ∧
      d.system.chain.jobQueue = sampleBehind.jobQueue) = true := by
    decide +kernel
  obtain ⟨d, hd, hend⟩ := Lts.reaches_of_run hrun
  obtain ⟨hresults, hpool, hqueue⟩ := of_decide_eq_true hend
  have hjob : d.system.chain.jobQueue.lookup sampleWaitingJob.key = some sampleWaitingJob := by
    rw [hqueue]
    decide
  obtain ⟨s, hs, hresult⟩ := result_recordable sampleSystem_booted hd ()
    (by rw [hresults]; exact List.nodup_singleton _) hjob rfl (sampleBehind_unblocked hqueue _)
    (by decide) sampleWaiting_runsIn (by decide)
  refine ⟨d, s, hd, hpool, ?_, by decide, hs, hresult⟩
  rw [hqueue]
  decide

end PolkadotOracle
