import PolkadotOracle.Lib.Lts
import PolkadotOracle.Offchain.Node

/-! The whole system: the chain, the pool of unsigned transactions, and nodes whose workers,
executors and listeners take their steps in any order. -/

namespace PolkadotOracle

open Scale Sequence

variable {T : Config} {ι : Type} [DecidableEq ι]

/-! ### Nodes -/

/-- What has happened on a node.  No step reads it. -/
structure History where
  /-- The payloads that worker runs have stored, the default ones included. -/
  stored : List RequestPayload
  /-- What the executor has given to its tasks: an id and the record under it. -/
  given : List (Bytes × Option Bytes)
  /-- The ids of the payloads that tasks have handed to `process_wasm`. -/
  processed : List Bytes
  /-- The results that `process_wasm` has returned. -/
  produced : List JobResult
  /-- The ids of the results that the listener has received. -/
  received : List Bytes
  /-- The ids of the results that the listener is done with. -/
  finished : List Bytes

structure Node (T : Config) where
  db : Db
  /-- The block of the worker's last run. -/
  ranAt : Nat
  workers : List (Worker T)
  executor : Executor
  tasks : List Task
  channel : List JobResult
  listener : Listener
  procesorKey : Public
  history : History

def runExecutor (db : Db) (procesorKey : Option Public) : Db :=
  let db := (db.set wasmstoreKeyList initList).set wasmstoreResultList initList
  match procesorKey with
  | none => db
  | some val => db.set identity val.val

/-- A node that has just started, on the local storage `db` that it finds. -/
def Node.boot (db : Db) (procesorKey : Option Public) (ranAt : Nat) : Node T where
  db := runExecutor db procesorKey
  ranAt := ranAt
  workers := []
  executor := .poll
  tasks := []
  channel := []
  listener := .recv
  procesorKey := procesorKey.getD (FixedBytes.zero 32)
  history := ⟨[], [], [], [], [], []⟩

/-- What moves a node: the worker starts on the current block, a run takes a step, for which the
pool accepts what it submits or not, or the executor, a task or the listener takes a step. -/
inductive NodeLabel (T : Config)
  | start (jobs : AList fun _ : Hash => OcwJob T)
  | worker (run : Nat) (accepted : Bool)
  | executor
  | task (i : Nat) (outcome : Option (Vec × UInt32))
  | listener

def channelCapacity : Nat := 20

def History.afterWorker (h : History) : WorkerPc → History
  | .set _ _ payload => { h with stored := h.stored ++ [payload] }
  | _ => h

def History.afterExecutor (h : History) (db : Db) : Executor → History
  | .spawning (i :: _) => { h with given := h.given ++ [(i, db.get i)] }
  | _ => h

def History.afterTask (h : History) : Task → History
  | .processing payload => { h with processed := h.processed ++ [payload.jobId.val] }
  | .sending res => { h with produced := h.produced ++ [res] }
  | _ => h

/-- The listener is done with a result when it waits for the next one. -/
def History.afterListener (h : History) : Listener → Listener → History
  | .recv, .writeRecord res _ => { h with received := h.received ++ [res.jobId.val] }
  | .readList jobId, .recv => { h with finished := h.finished ++ [jobId.val] }
  | .writeList jobId _ _, .recv => { h with finished := h.finished ++ [jobId.val] }
  | _, _ => h

/-- One step of a node, with what enters the pool. -/
def Node.step (chain : State T) (n : Node T) : NodeLabel T → Option (Node T × List Call)
  | .start jobs =>
    if jobs.toFinmap = chain.jobQueue ∧ n.ranAt < chain.blockNumber then
      let w : Worker T := ⟨chain.blockNumber, jobs.entries, .getKeyList⟩
      some ({ n with ranAt := chain.blockNumber, workers := n.workers ++ [w] }, [])
    else none
  | .worker run accepted =>
    match n.workers[run]? with
    | none => none
    | some w =>
      let (db, pc, calls) := offchainWorker (fun _ => accepted) n.db w
      some ({ n with
        db
        workers := n.workers.set run { w with pc }
        history := n.history.afterWorker w.pc }, calls)
  | .executor =>
    let (db, executor, spawned) := offChainMonitor n.db n.executor
    some ({ n with
      db
      executor
      tasks := n.tasks ++ spawned
      history := n.history.afterExecutor n.db n.executor }, [])
  | .task i outcome =>
    match n.tasks[i]? with
    | none => none
    | some (.sending res) =>
      if n.channel.length < channelCapacity then
        some ({ n with channel := n.channel ++ [res], tasks := n.tasks.set i .ended }, [])
      else none
    | some task =>
      let task := processTask outcome task
      some ({ n with tasks := n.tasks.set i task, history := n.history.afterTask task }, [])
  | .listener =>
    match resultListener n.procesorKey n.db n.channel n.listener with
    | none => none
    | some (db, channel, listener) =>
      some ({ n with
        db
        channel
        listener
        history := n.history.afterListener n.listener listener }, [])

/-- All that a step of a node can do, with what enters the pool. -/
inductive NodeMove (chain : State T) (n : Node T) :
    NodeLabel T → Node T → List Call → Prop
  /-- The executor has panicked or finds no list. -/
  | idle : NodeMove chain n .executor n []
  | start (jobs : AList fun _ : Hash => OcwJob T) (hjobs : jobs.toFinmap = chain.jobQueue)
      (hblock : n.ranAt < chain.blockNumber) :
      NodeMove chain n (.start jobs) { n with
        ranAt := chain.blockNumber
        workers := n.workers ++ [⟨chain.blockNumber, jobs.entries, .getKeyList⟩] } []
  | readKeyList (run : Nat) (accepted : Bool) (w : Worker T) (jobKey : Bytes)
      (hw : n.workers[run]? = some w) (hget : n.db.get wasmstoreKeyList = some jobKey) :
      NodeMove chain n (.worker run accepted)
        { n with workers := n.workers.set run { w with pc := .getResultList jobKey } } []
  | readResultList (run : Nat) (accepted : Bool) (w : Worker T) (jobKey resultKey : Bytes)
      (hw : n.workers[run]? = some w) (hpc : w.pc = .getResultList jobKey) :
      NodeMove chain n (.worker run accepted)
        { n with workers := n.workers.set run { w with pc := .handling jobKey resultKey } } []
  | offer (run : Nat) (accepted : Bool) (w : Worker T) (jobKey resultKey : Bytes) (key : Hash)
      (job : OcwJob T) (payload : RequestPayload) (calls : List Call)
      (hw : n.workers[run]? = some w) (hpc : w.pc = .handling jobKey resultKey)
      (hjob : ComesTo w.jobs ⟨key, job⟩) (hstate : job.state = .pending)
      (hpayload : payload = requestOf key job ∧ calls = [.changeJobState w.blockNumber key] ∨
        payload = default ∧ calls = []) :
      NodeMove chain n (.worker run accepted) { n with
        workers := n.workers.set run { w with
          pc := .compareAndSet jobKey resultKey (jobKey ++ key.val)
            (RequestPayload.codec.encode payload) payload } } calls
  /-- A run goes on to the results, submits one of them, or ends. -/
  | results (run : Nat) (accepted : Bool) (w : Worker T) (pc : WorkerPc) (calls : List Call)
      (hw : n.workers[run]? = some w)
      (hpc : pc = .ended ∨ ∃ resultKeys, pc = .submitting resultKeys)
      (hcalls : ∀ c ∈ calls, ∃ blockNumber key value processorPub extTime,
        c = .submitResultUnsiged blockNumber key value processorPub extTime) :
      NodeMove chain n (.worker run accepted)
        { n with workers := n.workers.set run { w with pc } } calls
  | publish (run : Nat) (accepted : Bool) (w : Worker T)
      (jobKey resultKey keyList encodedPayload : Bytes) (payload : RequestPayload)
      (hw : n.workers[run]? = some w)
      (hpc : w.pc = .compareAndSet jobKey resultKey keyList encodedPayload payload) :
      NodeMove chain n (.worker run accepted) { n with
        db := (n.db.compareAndSet wasmstoreKeyList (some jobKey) keyList).1
        workers := n.workers.set run { w with pc := .set resultKey encodedPayload payload } } []
  | store (run : Nat) (accepted : Bool) (w : Worker T) (resultKey encodedPayload : Bytes)
      (payload : RequestPayload) (hw : n.workers[run]? = some w)
      (hpc : w.pc = .set resultKey encodedPayload payload) :
      NodeMove chain n (.worker run accepted) { n with
        db := n.db.set payload.jobId.val encodedPayload
        workers := n.workers.set run { w with pc := .handleResult resultKey }
        history := { n.history with stored := n.history.stored ++ [payload] } } []
  | halt (keyLists : Bytes) (hexec : n.executor = .poll)
      (hget : n.db.get wasmstoreKeyList = some keyLists)
      (hparse : keyListParser keyLists = none) :
      NodeMove chain n .executor { n with executor := .panicked } []
  | parse (keyLists : Bytes) (keyList : List Bytes) (hexec : n.executor = .poll)
      (hget : n.db.get wasmstoreKeyList = some keyLists)
      (hparse : keyListParser keyLists = some (.ok keyList)) :
      NodeMove chain n .executor { n with executor := .resetting keyLists keyList .get } []
  | reset (keyLists : Bytes) (keyList : List Bytes) (pc : WriteDb) (db : Db) (write : Write)
      (hexec : n.executor = .resetting keyLists keyList pc)
      (hwrite : WriteMove n.db wasmstoreKeyList initList pc db write) :
      NodeMove chain n .executor
        { n with db, executor := .afterReset keyLists keyList write } []
  | give (i : Bytes) (keyList : List Bytes) (hexec : n.executor = .spawning (i :: keyList)) :
      NodeMove chain n .executor { n with
        executor := .spawning keyList
        tasks := n.tasks ++ [.spawned (n.db.get i)]
        history := { n.history with given := n.history.given ++ [(i, n.db.get i)] } } []
  | rest (hexec : n.executor = .spawning []) :
      NodeMove chain n .executor { n with executor := .poll } []
  /-- A task ends without a result, or has ended. -/
  | drop (i : Nat) (outcome : Option (Vec × UInt32)) :
      NodeMove chain n (.task i outcome) { n with tasks := n.tasks.set i .ended } []
  | process (i : Nat) (outcome : Option (Vec × UInt32)) (record : Bytes)
      (payload : RequestPayload) (htask : n.tasks[i]? = some (.spawned (some record)))
      (hdecode : RequestPayload.decode record = some payload) :
      NodeMove chain n (.task i outcome) { n with
        tasks := n.tasks.set i (.processing payload)
        history := { n.history with
          processed := n.history.processed ++ [payload.jobId.val] } } []
  | produce (i : Nat) (outcome : Option (Vec × UInt32)) (payload : RequestPayload)
      (res : JobResult) (htask : n.tasks[i]? = some (.processing payload))
      (hres : res.jobId = payload.jobId) :
      NodeMove chain n (.task i outcome) { n with
        tasks := n.tasks.set i (.sending res)
        history := { n.history with produced := n.history.produced ++ [res] } } []
  | send (i : Nat) (outcome : Option (Vec × UInt32)) (res : JobResult)
      (htask : n.tasks[i]? = some (.sending res))
      (hroom : n.channel.length < channelCapacity) :
      NodeMove chain n (.task i outcome)
        { n with channel := n.channel ++ [res], tasks := n.tasks.set i .ended } []
  | receive (res : JobResult) (channel : List JobResult) (hlistener : n.listener = .recv)
      (hchannel : n.channel = res :: channel) :
      NodeMove chain n .listener { n with
        channel
        listener := .writeRecord res .get
        history := { n.history with received := n.history.received ++ [res.jobId.val] } } []
  | record (res : JobResult) (pc : WriteDb) (db : Db) (write : Write)
      (hlistener : n.listener = .writeRecord res pc)
      (hwrite : WriteMove n.db res.jobId.val
        (ResponePayload.codec.encode (res.respone n.procesorKey)) pc db write) :
      NodeMove chain n .listener { n with db, listener := .afterRecord res write } []
  | skip (jobId : Vec) (hlistener : n.listener = .readList jobId)
      (hget : n.db.get wasmstoreResultList = none) :
      NodeMove chain n .listener { n with
        listener := .recv
        history := { n.history with finished := n.history.finished ++ [jobId.val] } } []
  | read (jobId : Vec) (value : Bytes) (hlistener : n.listener = .readList jobId)
      (hget : n.db.get wasmstoreResultList = some value) :
      NodeMove chain n .listener
        { n with listener := .writeList jobId (value ++ jobId.val) .get } []
  | appending (jobId : Vec) (result : Bytes) (pc pc' : WriteDb) (db : Db)
      (hlistener : n.listener = .writeList jobId result pc)
      (hwrite : WriteMove n.db wasmstoreResultList result pc db (.running pc')) :
      NodeMove chain n .listener { n with db, listener := .writeList jobId result pc' } []
  | append (jobId : Vec) (result : Bytes) (pc : WriteDb) (db : Db)
      (res : Except StorageError Unit) (hlistener : n.listener = .writeList jobId result pc)
      (hwrite : WriteMove n.db wasmstoreResultList result pc db (.returned res)) :
      NodeMove chain n .listener { n with
        db
        listener := .recv
        history := { n.history with finished := n.history.finished ++ [jobId.val] } } []

section Moves

variable {chain : State T} {n : Node T}

theorem WorkerPc.handleResult_cases (resultKey : Bytes) :
    WorkerPc.handleResult resultKey = .ended ∨
      ∃ resultKeys, WorkerPc.handleResult resultKey = .submitting resultKeys := by
  unfold WorkerPc.handleResult
  split
  · exact .inr ⟨_, rfl⟩
  · exact .inl rfl

theorem ocwDoSubmitResult_calls {submit : Call → Bool} {blockNumber : Nat} {key value : Bytes}
    {processorPub : Public} {extTime : UInt32} {res : Except String Unit} {calls : List Call}
    (h : ocwDoSubmitResult submit blockNumber key value processorPub extTime = (res, calls)) :
    ∀ c ∈ calls, ∃ blockNumber key value processorPub extTime,
      c = .submitResultUnsiged blockNumber key value processorPub extTime := by
  intro c hc
  unfold ocwDoSubmitResult at h
  simp only at h
  split at h
  · obtain ⟨-, rfl⟩ := Prod.mk.inj h
    exact ⟨_, _, _, _, _, List.mem_singleton.mp hc⟩
  · obtain ⟨-, rfl⟩ := Prod.mk.inj h
    simp at hc

/-- A run's handling of the jobs offers a pending one, with the default payload when the pool
refuses its state change, or goes on to the results, or ends. -/
theorem offchainWorker_handling {w : Worker T} {jobKey resultKey : Bytes} (accepted : Bool)
    (db : Db) (hpc : w.pc = .handling jobKey resultKey) :
    (∃ key job payload calls, ComesTo w.jobs ⟨key, job⟩ ∧ job.state = .pending ∧
      (payload = requestOf key job ∧ calls = [.changeJobState w.blockNumber key] ∨
        payload = default ∧ calls = []) ∧
      offchainWorker (fun _ => accepted) db w =
        (db, .compareAndSet jobKey resultKey (jobKey ++ key.val)
          (RequestPayload.codec.encode payload) payload, calls)) ∨
    ∃ pc, (pc = .ended ∨ ∃ resultKeys, pc = .submitting resultKeys) ∧
      offchainWorker (fun _ => accepted) db w = (db, pc, []) := by
  rcases ocwDoHandlingJob_cases (fun _ => accepted) w.blockNumber jobKey w.jobs with
    ⟨before, entry, after, hjobs, hstate, hbefore, hr⟩ | ⟨before, entry, after, hjobs, -, -, hr⟩ |
    ⟨-, hr⟩
  · left
    have hfirst : ComesTo w.jobs entry := ⟨before, after, hjobs, hbefore⟩
    cases accepted with
    | true =>
      exact ⟨entry.1, entry.2, _, _, hfirst, hstate, .inl ⟨rfl, rfl⟩, by
        simp [offchainWorker, hpc, hr, offerOf]⟩
    | false =>
      exact ⟨entry.1, entry.2, _, _, hfirst, hstate, .inr ⟨rfl, rfl⟩, by
        simp [offchainWorker, hpc, hr, offerOf]⟩
  · exact .inr ⟨_, WorkerPc.handleResult_cases resultKey, by simp [offchainWorker, hpc, hr]⟩
  · exact .inr ⟨.ended, .inl rfl, by simp [offchainWorker, hpc, hr]⟩

theorem worker_move {run : Nat} {w : Worker T} (hw : n.workers[run]? = some w) (accepted : Bool)
    {db : Db} {pc : WorkerPc} {calls : List Call}
    (h : offchainWorker (fun _ => accepted) n.db w = (db, pc, calls)) :
    NodeMove chain n (.worker run accepted) { n with
      db
      workers := n.workers.set run { w with pc }
      history := n.history.afterWorker w.pc } calls := by
  cases hpc : w.pc with
  | getKeyList =>
    cases hget : n.db.get wasmstoreKeyList with
    | none =>
      obtain ⟨rfl, rfl, rfl⟩ : n.db = db ∧ .ended = pc ∧ [] = calls := by
        simpa [offchainWorker, hpc, hget] using h
      exact .results run accepted w _ _ hw (.inl rfl) (by simp)
    | some jobKey =>
      obtain ⟨rfl, rfl, rfl⟩ : n.db = db ∧ .getResultList jobKey = pc ∧ [] = calls := by
        simpa [offchainWorker, hpc, hget] using h
      exact .readKeyList run accepted w jobKey hw hget
  | getResultList jobKey =>
    cases hget : n.db.get wasmstoreResultList with
    | none =>
      obtain ⟨rfl, rfl, rfl⟩ : n.db = db ∧ .ended = pc ∧ [] = calls := by
        simpa [offchainWorker, hpc, hget] using h
      exact .results run accepted w _ _ hw (.inl rfl) (by simp)
    | some resultKey =>
      obtain ⟨rfl, rfl, rfl⟩ : n.db = db ∧ .handling jobKey resultKey = pc ∧ [] = calls := by
        simpa [offchainWorker, hpc, hget] using h
      exact .readResultList run accepted w jobKey resultKey hw hpc
  | handling jobKey resultKey =>
    rcases offchainWorker_handling accepted n.db hpc with
      ⟨key, job, payload, calls', hmem, hstate, hpayload, hr⟩ | ⟨pc', hpc', hr⟩
    · obtain ⟨rfl, rfl, rfl⟩ := by simpa only [Prod.mk.injEq] using hr.symm.trans h
      exact .offer run accepted w jobKey resultKey key job payload _ hw hpc hmem hstate hpayload
    · obtain ⟨rfl, rfl, rfl⟩ := by simpa only [Prod.mk.injEq] using hr.symm.trans h
      exact .results run accepted w _ _ hw hpc' (by simp)
  | compareAndSet jobKey resultKey keyList encodedPayload payload =>
    obtain ⟨rfl, rfl, rfl⟩ := by
      simpa only [offchainWorker, hpc, Prod.mk.injEq] using h
    exact .publish run accepted w jobKey resultKey keyList encodedPayload payload hw hpc
  | set resultKey encodedPayload payload =>
    obtain ⟨rfl, rfl, rfl⟩ := by
      simpa only [offchainWorker, hpc, Prod.mk.injEq] using h
    exact .store run accepted w resultKey encodedPayload payload hw hpc
  | submitting resultKeys =>
    cases resultKeys with
    | nil =>
      obtain ⟨rfl, rfl, rfl⟩ := by
        simpa only [offchainWorker, hpc, Prod.mk.injEq] using h
      exact .results run accepted w _ _ hw (.inl rfl) (by simp)
    | cons resultKey resultKeys =>
      cases hres : (n.db.get resultKey).bind ResponePayload.decode with
      | none =>
        obtain ⟨rfl, rfl, rfl⟩ := by
          simpa only [offchainWorker, hpc, hres, Prod.mk.injEq] using h
        exact .results run accepted w _ _ hw (.inr ⟨_, rfl⟩) (by simp)
      | some res =>
        cases hsubmit : ocwDoSubmitResult (fun _ => accepted) w.blockNumber res.jobId.val
            res.jobResult.val res.address res.exeTime with
        | mk ok calls' =>
          have hcalls := ocwDoSubmitResult_calls hsubmit
          cases ok with
          | ok _ =>
            obtain ⟨rfl, rfl, rfl⟩ := by
              simpa only [offchainWorker, hpc, hres, hsubmit, Prod.mk.injEq] using h
            exact .results run accepted w _ _ hw (.inr ⟨_, rfl⟩) hcalls
          | error _ =>
            obtain ⟨rfl, rfl, rfl⟩ := by
              simpa only [offchainWorker, hpc, hres, hsubmit, Prod.mk.injEq] using h
            exact .results run accepted w _ _ hw (.inl rfl) hcalls
  | ended =>
    obtain ⟨rfl, rfl, rfl⟩ := by
      simpa only [offchainWorker, hpc, Prod.mk.injEq] using h
    exact .results run accepted w _ _ hw (.inl rfl) (by simp)

theorem executor_move {db : Db} {executor : Executor} {spawned : List Task}
    (h : offChainMonitor n.db n.executor = (db, executor, spawned)) :
    NodeMove chain n .executor { n with
      db
      executor
      tasks := n.tasks ++ spawned
      history := n.history.afterExecutor n.db n.executor } [] := by
  cases hexec : n.executor with
  | poll =>
    cases hget : n.db.get wasmstoreKeyList with
    | none =>
      obtain ⟨rfl, rfl, rfl⟩ : n.db = db ∧ .poll = executor ∧ [] = spawned := by
        simpa [offChainMonitor, hexec, hget] using h
      simpa [History.afterExecutor, ← hexec] using NodeMove.idle
    | some keyLists =>
      cases hparse : sliceFrom 4 keyLists with
      | none =>
        obtain ⟨rfl, rfl, rfl⟩ : n.db = db ∧ .panicked = executor ∧ [] = spawned := by
          simpa [offChainMonitor, hexec, hget, keyListParser, hparse] using h
        simpa [History.afterExecutor] using
          NodeMove.halt keyLists hexec hget (by simp [keyListParser, hparse])
      | some rest =>
        obtain ⟨rfl, rfl, rfl⟩ :
            n.db = db ∧ .resetting keyLists (chunks 32 rest) .get = executor ∧ [] = spawned := by
          simpa [offChainMonitor, hexec, hget, keyListParser, hparse] using h
        simpa [History.afterExecutor] using
          NodeMove.parse keyLists _ hexec hget (by simp [keyListParser, hparse])
  | resetting keyLists keyList pc =>
    obtain ⟨rfl, rfl, rfl⟩ : (writeToOffchainDb n.db wasmstoreKeyList initList pc).1 = db ∧
        .afterReset keyLists keyList (writeToOffchainDb n.db wasmstoreKeyList initList pc).2 =
          executor ∧ [] = spawned := by
      simpa [offChainMonitor, hexec] using h
    simpa [History.afterExecutor] using
      NodeMove.reset keyLists keyList pc _ _ hexec (writeToOffchainDb_move ..)
  | spawning keyList =>
    cases keyList with
    | nil =>
      obtain ⟨rfl, rfl, rfl⟩ : n.db = db ∧ .poll = executor ∧ [] = spawned := by
        simpa [offChainMonitor, hexec] using h
      simpa [History.afterExecutor] using NodeMove.rest hexec
    | cons i keyList =>
      obtain ⟨rfl, rfl, rfl⟩ :
          n.db = db ∧ .spawning keyList = executor ∧ [.spawned (n.db.get i)] = spawned := by
        simpa [offChainMonitor, hexec] using h
      exact .give i keyList hexec
  | panicked =>
    obtain ⟨rfl, rfl, rfl⟩ : n.db = db ∧ .panicked = executor ∧ [] = spawned := by
      simpa [offChainMonitor, hexec] using h
    simpa [History.afterExecutor, ← hexec] using NodeMove.idle

theorem task_move {i : Nat} {task : Task} (htask : n.tasks[i]? = some task)
    (hsending : ∀ res, task ≠ .sending res) (outcome : Option (Vec × UInt32)) :
    NodeMove chain n (.task i outcome) { n with
      tasks := n.tasks.set i (processTask outcome task)
      history := n.history.afterTask (processTask outcome task) } [] := by
  cases task with
  | spawned encodedPayload =>
    cases encodedPayload with
    | none => exact .drop i _
    | some res =>
      cases hdecode : RequestPayload.decode res with
      | none => simpa [processTask, hdecode, History.afterTask] using NodeMove.drop i outcome
      | some payload =>
        by_cases hutf8 : (ByteArray.mk payload.contentAbi.val.toArray).validateUTF8
        · simpa [processTask, hdecode, hutf8, History.afterTask] using
            NodeMove.process i outcome res payload htask hdecode
        · simpa [processTask, hdecode, hutf8, History.afterTask] using NodeMove.drop i outcome
  | processing payload =>
    cases outcome with
    | none => exact .drop i _
    | some outcome => exact .produce i _ payload _ htask rfl
  | sending res => exact absurd rfl (hsending res)
  | ended => exact .drop i _

theorem listener_move {db : Db} {channel : List JobResult} {listener : Listener}
    (h : resultListener n.procesorKey n.db n.channel n.listener = some (db, channel, listener)) :
    NodeMove chain n .listener { n with
      db
      channel
      listener
      history := n.history.afterListener n.listener listener } [] := by
  cases hlistener : n.listener with
  | recv =>
    cases hchannel : n.channel with
    | nil => simp [resultListener, hlistener, hchannel] at h
    | cons res rest =>
      obtain ⟨rfl, rfl, rfl⟩ : n.db = db ∧ rest = channel ∧ .writeRecord res .get = listener := by
        simpa [resultListener, hlistener, hchannel] using h
      exact .receive res rest hlistener hchannel
  | writeRecord res pc =>
    have hmove := writeToOffchainDb_move n.db res.jobId.val
      (ResponePayload.codec.encode (res.respone n.procesorKey)) pc
    obtain ⟨rfl, rfl, rfl⟩ := by
      simpa only [resultListener, hlistener, Option.some.injEq, Prod.mk.injEq] using h
    simpa [History.afterListener] using NodeMove.record res pc _ _ hlistener hmove
  | readList jobId =>
    cases hget : n.db.get wasmstoreResultList with
    | none =>
      obtain ⟨rfl, rfl, rfl⟩ : n.db = db ∧ n.channel = channel ∧ .recv = listener := by
        simpa [resultListener, hlistener, hget] using h
      exact .skip jobId hlistener hget
    | some value =>
      obtain ⟨rfl, rfl, rfl⟩ : n.db = db ∧ n.channel = channel ∧
          .writeList jobId (value ++ jobId.val) .get = listener := by
        simpa [resultListener, hlistener, hget] using h
      exact .read jobId value hlistener hget
  | writeList jobId result pc =>
    have hmove := writeToOffchainDb_move n.db wasmstoreResultList result pc
    obtain ⟨rfl, rfl, rfl⟩ := by
      simpa only [resultListener, hlistener, Option.some.injEq, Prod.mk.injEq] using h
    cases hwrite : (writeToOffchainDb n.db wasmstoreResultList result pc).2 with
    | running pc' => exact .appending jobId result pc pc' _ hlistener (hwrite ▸ hmove)
    | returned res => exact .append jobId result pc _ res hlistener (hwrite ▸ hmove)

/-- Whatever a step of a node does, it is one of the moves. -/
theorem node_move {n' : Node T} {l : NodeLabel T} {calls : List Call}
    (h : n.step chain l = some (n', calls)) : NodeMove chain n l n' calls := by
  cases l with
  | start jobs =>
    simp only [Node.step] at h
    split at h
    · rename_i hstart
      obtain ⟨rfl, rfl⟩ := Prod.mk.inj (Option.some.inj h)
      exact .start jobs hstart.1 hstart.2
    · contradiction
  | worker run accepted =>
    cases hw : n.workers[run]? with
    | none => simp [Node.step, hw] at h
    | some w =>
      obtain ⟨rfl, rfl⟩ := by
        simpa only [Node.step, hw, Option.some.injEq, Prod.mk.injEq] using h
      exact worker_move hw accepted rfl
  | executor =>
    obtain ⟨rfl, rfl⟩ := by
      simpa only [Node.step, Option.some.injEq, Prod.mk.injEq] using h
    exact executor_move rfl
  | task i outcome =>
    cases htask : n.tasks[i]? with
    | none => simp [Node.step, htask] at h
    | some task =>
      by_cases hsending : ∃ res, task = .sending res
      · obtain ⟨res, rfl⟩ := hsending
        simp only [Node.step, htask] at h
        split at h
        · rename_i hroom
          obtain ⟨rfl, rfl⟩ := Prod.mk.inj (Option.some.inj h)
          exact .send i outcome res htask hroom
        · contradiction
      · have hne : ∀ res, task ≠ .sending res := fun res hres => hsending ⟨res, hres⟩
        have hmove : NodeMove chain n _ _ [] := task_move htask hne outcome
        cases task with
        | sending res => exact absurd rfl (hne res)
        | _ =>
          obtain ⟨rfl, rfl⟩ := by
            simpa only [Node.step, htask, Option.some.injEq, Prod.mk.injEq] using h
          exact hmove
  | listener =>
    cases hstep : resultListener n.procesorKey n.db n.channel n.listener with
    | none => simp [Node.step, hstep] at h
    | some next =>
      obtain ⟨db, channel, listener⟩ := next
      obtain ⟨rfl, rfl⟩ := by
        simpa only [Node.step, hstep, Option.some.injEq, Prod.mk.injEq] using h
      exact listener_move hstep

end Moves

/-! ### The system -/

structure System (T : Config) (ι : Type) where
  chain : State T
  pool : List Call
  nodes : ι → Node T
  /-- The keys of the state changes that blocks have included.  No step reads it. -/
  changed : List Hash

/-- What moves the system: a new block, a call that does not come from the pool, the inclusion of
a pooled call, or a step of a node. -/
inductive Label (T : Config) (ι : Type)
  | block (invulnerables : List T.AccountId)
  | extrinsic (origin : Origin T) (c : Call)
  | inclusion (k : Nat)
  | node (i : ι) (l : NodeLabel T)

/-- A block takes an unsigned call only when its validation accepts it. -/
def admissible (s : State T) : Origin T → Call → Bool
  | .none, c => (validateUnsigned s c).accepts
  | _, _ => true

def Call.changes : Call → List Hash
  | changeJobState _ key => [key]
  | _ => []

def System.step (s : System T ι) : Label T ι → Option (System T ι)
  | .block invulnerables =>
    (chainStep s.chain (.block invulnerables)).map fun chain => { s with chain }
  | .extrinsic origin c =>
    if admissible s.chain origin c then some { s with chain := s.chain.call origin c } else none
  | .inclusion k =>
    match s.pool[k]? with
    | none => none
    | some c =>
      if admissible s.chain .none c then
        some { s with
          chain := s.chain.call .none c
          pool := s.pool.eraseIdx k
          changed := s.changed ++ c.changes }
      else none
  | .node i l =>
    match (s.nodes i).step s.chain l with
    | none => none
    | some (n, calls) =>
      some { s with pool := s.pool ++ calls, nodes := Function.update s.nodes i n }

/-- All that a step of the system can do. -/
inductive SystemMove (s : System T ι) : Label T ι → System T ι → Prop
  | block (invulnerables : List T.AccountId) :
      SystemMove s (.block invulnerables) { s with
        chain := { s.chain with
          blockNumber := s.chain.blockNumber + 1, invulnerables, events := [] } }
  | extrinsic (origin : Origin T) (c : Call) (hadmissible : admissible s.chain origin c = true) :
      SystemMove s (.extrinsic origin c) { s with chain := s.chain.call origin c }
  | inclusion (k : Nat) (c : Call) (hpool : s.pool[k]? = some c)
      (hadmissible : admissible s.chain .none c = true) :
      SystemMove s (.inclusion k) { s with
        chain := s.chain.call .none c
        pool := s.pool.eraseIdx k
        changed := s.changed ++ c.changes }
  | node (i : ι) (l : NodeLabel T) (n : Node T) (calls : List Call)
      (hmove : NodeMove s.chain (s.nodes i) l n calls) :
      SystemMove s (.node i l)
        { s with pool := s.pool ++ calls, nodes := Function.update s.nodes i n }

theorem system_move {s s' : System T ι} {l : Label T ι} (h : s.step l = some s') :
    SystemMove s l s' := by
  cases l with
  | block invulnerables =>
    obtain rfl := Option.some.inj h
    exact .block invulnerables
  | extrinsic origin c =>
    simp only [System.step] at h
    split at h
    · rename_i hadmissible
      obtain rfl := Option.some.inj h
      exact .extrinsic origin c hadmissible
    · contradiction
  | inclusion k =>
    cases hpool : s.pool[k]? with
    | none => simp [System.step, hpool] at h
    | some c =>
      simp only [System.step, hpool] at h
      split at h
      · rename_i hadmissible
        obtain rfl := Option.some.inj h
        exact .inclusion k c hpool hadmissible
      · contradiction
  | node i l =>
    cases hstep : (s.nodes i).step s.chain l with
    | none => simp [System.step, hstep] at h
    | some next =>
      obtain ⟨n, calls⟩ := next
      obtain rfl := by simpa only [System.step, hstep, Option.some.injEq] using h
      exact .node i l n calls (node_move hstep)

theorem System.step_node {s s' : System T ι} {i : ι} {l : NodeLabel T}
    (h : s.step (.node i l) = some s') :
    ∃ n calls, (s.nodes i).step s.chain l = some (n, calls) ∧
      s' = { s with pool := s.pool ++ calls, nodes := Function.update s.nodes i n } := by
  cases hnode : (s.nodes i).step s.chain l with
  | none => simp [System.step, hnode] at h
  | some next =>
    obtain ⟨n, calls⟩ := next
    exact ⟨n, calls, rfl, by simpa [System.step, hnode, eq_comm] using h⟩

/-- A step of the system does nothing to the chain, or is a step of the chain. -/
theorem SystemMove.chain_reaches {s s' : System T ι} {l : Label T ι} (h : SystemMove s l s') :
    ChainReaches s.chain s'.chain := by
  cases h with
  | block invulnerables => exact (ChainReaches.refl _).block invulnerables
  | extrinsic origin c => exact (ChainReaches.refl _).call origin c
  | inclusion k c => exact (ChainReaches.refl _).call .none c
  | node => exact ChainReaches.refl _

/-- The condition `C` on the steps of node `i`, and none on any other step. -/
def OnNode (C : Node T → NodeLabel T → Prop) (i : ι) (s : System T ι) : Label T ι → Prop
  | .node j l => j = i → C (s.nodes i) l
  | _ => True

instance (C : Node T → NodeLabel T → Prop) [∀ n l, Decidable (C n l)] (i : ι)
    (s : System T ι) : ∀ l, Decidable (OnNode C i s l)
  | .node j l => inferInstanceAs (Decidable (j = i → C (s.nodes i) l))
  | .block _ => .isTrue trivial
  | .extrinsic _ _ => .isTrue trivial
  | .inclusion _ => .isTrue trivial

/-- What the growth of the chain's queue and the moves of node `i` keep holds of that node in every
state of a run of the whole system. -/
theorem node_invariant {C : Node T → NodeLabel T → Prop} {s₀ s : System T ι}
    {I : State T → Node T → Prop} {i : ι} (h : Lts.ReachesBy System.step (OnNode C i) s₀ s)
    (h₀ : I s₀.chain (s₀.nodes i))
    (hgrow : ∀ chain chain' n, I chain n → ChainReaches chain chain' → I chain' n)
    (hmove : ∀ chain n l n' calls, C n l → I chain n → NodeMove chain n l n' calls →
      I chain n') :
    I s.chain (s.nodes i) := by
  refine h.invariant (I := fun s => I s.chain (s.nodes i)) h₀ fun s l s' hI hC hs => ?_
  have hsystem := system_move hs
  have hchain := hsystem.chain_reaches
  cases hsystem with
  | node j l n calls hnode =>
    by_cases hj : j = i
    · subst hj
      simpa using hmove _ _ l n calls (hC rfl) hI hnode
    · simpa [Function.update_of_ne (Ne.symm hj)] using hI
  | _ => exact hgrow _ _ _ hI hchain

end PolkadotOracle
