import PolkadotOracle.Offchain.Records

/-! The invariant of a node, and with it the integrity of the two lists that the worker, the
executor and the listener share. -/

namespace PolkadotOracle

open Scale Sequence

variable {T : Config} {ι : Type}

/-- A payload that a run stores: a job's request, or the default one. -/
def Storable (chain : State T) (p : RequestPayload) : Prop :=
  p = default ∨ Requests chain p

theorem Storable.length {chain : State T} {p : RequestPayload} (h : Storable chain p) :
    p.jobId.val.length = 32 ∨ p.jobId.val = [] := by
  rcases h with rfl | hp
  · exact .inr rfl
  · exact .inl hp.length

/-- The default payload has no job id. -/
theorem Storable.requests {chain : State T} {p : RequestPayload} (h : Storable chain p)
    (hid : p.jobId.val.length = 32) : Requests chain p := by
  rcases h with rfl | hp
  · simp [show (default : RequestPayload).jobId.val = [] from rfl] at hid
  · exact hp

def WorkerPc.Ok (chain : State T) : WorkerPc → Prop
  | .getResultList jobKey => ∃ ids, IdList jobKey ids
  | .handling jobKey _ => ∃ ids, IdList jobKey ids
  | .compareAndSet jobKey _ keyList encodedPayload payload =>
    ∃ ids id, IdList jobKey ids ∧ id.length = 32 ∧ keyList = jobKey ++ id ∧
      encodedPayload = RequestPayload.codec.encode payload ∧
      (payload = default ∨ Requests chain payload ∧ payload.jobId.val = id)
  | .set _ encodedPayload payload =>
    encodedPayload = RequestPayload.codec.encode payload ∧ Storable chain payload
  | _ => True

/-- A run iterates jobs that the queue still has. -/
structure Worker.Ok (chain : State T) (w : Worker T) : Prop where
  jobs : ∀ key job, ⟨key, job⟩ ∈ w.jobs →
    ∃ job', chain.jobQueue.lookup key = some job' ∧ job'.asPending = job.asPending
  pc : w.pc.Ok chain

def Executor.Ok : Executor → Prop
  | .resetting keyLists keyList pc => IdList keyLists keyList ∧ pc ≠ .set
  | .spawning keyList => ∀ id ∈ keyList, id.length = 32
  | .panicked => False
  | .poll => True

def Task.Ok (chain : State T) : Task → Prop
  | .spawned (some record) => ∃ id, id.length = 32 ∧ RecordOk chain id record
  | .processing payload => Requests chain payload
  | .sending res => res.jobId.val.length = 32
  | _ => True

/-- While the listener appends an id, nobody else writes the result list. -/
def Listener.Ok (db : Db) (finished : List Bytes) : Listener → Prop
  | .recv => True
  | .writeRecord res _ => res.jobId.val.length = 32
  | .readList jobId => jobId.val.length = 32
  | .writeList jobId result pc => jobId.val.length = 32 ∧ IdList result (finished ++ [jobId.val]) ∧
    (pc = .get ∨ ∃ val, pc = .compareAndSet val ∧ db.get wasmstoreResultList = some val)

/-- The id of the result that the listener is working on. -/
def Listener.current : Listener → List Bytes
  | .recv => []
  | .writeRecord res _ => [res.jobId.val]
  | .readList jobId => [jobId.val]
  | .writeList jobId _ _ => [jobId.val]

structure NodeInv (chain : State T) (n : Node T) : Prop where
  db : DbOk chain n.history.finished n.db
  workers : ∀ w ∈ n.workers, w.Ok chain
  executor : n.executor.Ok
  tasks : ∀ t ∈ n.tasks, t.Ok chain
  channel : ∀ r ∈ n.channel, r.jobId.val.length = 32
  listener : n.listener.Ok n.db n.history.finished
  received : n.history.received = n.history.finished ++ n.listener.current

section Parts

variable {chain : State T} {n : Node T}

theorem NodeInv.worker (h : NodeInv chain n) {run : Nat} {w : Worker T}
    (hw : n.workers[run]? = some w) : w.Ok chain :=
  h.workers w (List.mem_of_getElem? hw)

theorem NodeInv.workerPc (h : NodeInv chain n) {run : Nat} {w : Worker T} {pc : WorkerPc}
    (hw : n.workers[run]? = some w) (hpc : w.pc = pc) : pc.Ok chain :=
  hpc ▸ (h.worker hw).pc

theorem NodeInv.executorAt (h : NodeInv chain n) {executor : Executor}
    (hexec : n.executor = executor) : executor.Ok :=
  hexec ▸ h.executor

theorem NodeInv.listenerAt (h : NodeInv chain n) {listener : Listener}
    (hlistener : n.listener = listener) : listener.Ok n.db n.history.finished :=
  hlistener ▸ h.listener

theorem NodeInv.receivedAt (h : NodeInv chain n) {listener : Listener}
    (hlistener : n.listener = listener) :
    n.history.received = n.history.finished ++ listener.current :=
  hlistener ▸ h.received

end Parts

section Grow

variable {chain chain' : State T}

theorem WorkerPc.Ok.grow {pc : WorkerPc} (h : pc.Ok chain) (hchain : ChainReaches chain chain') :
    pc.Ok chain' := by
  cases pc with
  | compareAndSet jobKey resultKey keyList encodedPayload payload =>
    obtain ⟨ids, id, hlist, hid, hkey, henc, hpayload⟩ := h
    exact ⟨ids, id, hlist, hid, hkey, henc, hpayload.imp_right (And.imp_left (·.grow hchain))⟩
  | set resultKey encodedPayload payload => exact ⟨h.1, h.2.imp_right (·.grow hchain)⟩
  | _ => exact h

theorem Worker.Ok.grow {w : Worker T} (h : w.Ok chain) (hchain : ChainReaches chain chain') :
    w.Ok chain' := by
  refine ⟨fun key job hjob => ?_, h.pc.grow hchain⟩
  obtain ⟨job', hjob', hsame⟩ := h.jobs key job hjob
  obtain ⟨job'', hjob'', hsame', -⟩ := hchain.queueGrows key job' hjob'
  exact ⟨job'', hjob'', hsame'.trans hsame⟩

theorem Task.Ok.grow {t : Task} (h : t.Ok chain) (hchain : ChainReaches chain chain') :
    t.Ok chain' := by
  cases t with
  | spawned encodedPayload =>
    cases encodedPayload with
    | none => trivial
    | some record =>
      obtain ⟨id, hid, hrecord⟩ := h
      exact ⟨id, hid, hrecord.grow hchain⟩
  | processing payload => exact Requests.grow h hchain
  | _ => exact h

theorem NodeInv.grow {n : Node T} (h : NodeInv chain n) (hchain : ChainReaches chain chain') :
    NodeInv chain' n where
  db := h.db.grow hchain
  workers w hw := (h.workers w hw).grow hchain
  executor := h.executor
  tasks t ht := (h.tasks t ht).grow hchain
  channel := h.channel
  listener := h.listener
  received := h.received

end Grow

/-! ### Boot -/

/-- The records that an earlier run of the node has left under job ids. -/
def Leftover (chain : State T) (db : Db) : Prop :=
  ∀ id record, id.length = 32 → db.get id = some record → RecordOk chain id record

theorem runExecutor_get (db : Db) (procesorKey : Option Public) {key : Bytes}
    (hkey : key ≠ identity) : (runExecutor db procesorKey).get key =
      ((db.set wasmstoreKeyList initList).set wasmstoreResultList initList).get key := by
  cases procesorKey with
  | none => rfl
  | some val => exact Store.get_set_ne _ _ hkey

theorem runExecutor_keyList (db : Db) (procesorKey : Option Public) :
    (runExecutor db procesorKey).get wasmstoreKeyList = some initList := by
  rw [runExecutor_get db procesorKey (by decide),
    Store.get_set_ne _ _ wasmstoreKeyList_ne_resultList, Store.get_set_same]

theorem DbOk.boot {chain : State T} {db : Db} (hdb : Leftover chain db)
    (procesorKey : Option Public) : DbOk chain [] (runExecutor db procesorKey) := by
  refine ⟨⟨initList, [], runExecutor_keyList db procesorKey, idList_init⟩,
    ⟨initList, ?_, idList_init⟩, fun id record hid hget => hdb id record hid ?_⟩
  · rw [runExecutor_get db procesorKey (by decide), Store.get_set_same]
  · have hidentity : id ≠ identity := by
      rintro rfl
      revert hid
      decide
    rwa [runExecutor_get db procesorKey hidentity,
      Store.get_set_ne _ _ (ne_wasmstoreResultList (.inl hid)),
      Store.get_set_ne _ _ (ne_wasmstoreKeyList (.inl hid))] at hget

theorem NodeInv.boot {chain : State T} {db : Db} (hdb : Leftover chain db)
    (procesorKey : Option Public) (ranAt : Nat) :
    NodeInv chain (Node.boot db procesorKey ranAt) where
  db := DbOk.boot hdb procesorKey
  workers := by simp [Node.boot]
  executor := trivial
  tasks := by simp [Node.boot]
  channel := by simp [Node.boot]
  listener := trivial
  received := rfl

/-! ### Moves -/

section Moves

variable {chain : State T} {n n' : Node T}

theorem Worker.Ok.setPc {w : Worker T} (h : w.Ok chain) {pc : WorkerPc} (hpc : pc.Ok chain) :
    Worker.Ok chain { w with pc } :=
  ⟨h.jobs, hpc⟩

/-- A move that changes one run and nothing else that the invariant reads. -/
theorem NodeInv.setWorker (h : NodeInv chain n) (run : Nat) {w : Worker T} (hw : w.Ok chain) :
    NodeInv chain { n with workers := n.workers.set run w } :=
  { h with
    workers := fun w' hw' => (List.mem_or_eq_of_mem_set hw').elim (h.workers w') (· ▸ hw) }

theorem NodeInv.setTask (h : NodeInv chain n) (i : Nat) {t : Task} (ht : t.Ok chain) :
    NodeInv chain { n with tasks := n.tasks.set i t } :=
  { h with
    tasks := fun t' ht' => (List.mem_or_eq_of_mem_set ht').elim (h.tasks t') (· ▸ ht) }

theorem WorkerPc.ok_results {pc : WorkerPc}
    (h : pc = .ended ∨ ∃ resultKeys, pc = .submitting resultKeys) : pc.Ok chain := by
  rcases h with rfl | ⟨resultKeys, rfl⟩
  · trivial
  · trivial

/-- A pending job that a run comes to has a request that may be stored. -/
theorem Worker.Ok.offer {w : Worker T} (h : w.Ok chain) {key : Hash} {job : OcwJob T}
    (hjob : ⟨key, job⟩ ∈ w.jobs) (hstate : job.state = .pending) :
    Requests chain (requestOf key job) := by
  obtain ⟨job', hjob', hsame⟩ := h.jobs key job hjob
  exact ⟨key, job', hjob', by rw [hsame, OcwJob.asPending_of_pending hstate]⟩

/-- A write of the key list: the result list and the listener's copy of it stay. -/
theorem Listener.Ok.setOther {db : Db} {finished : List Bytes} {listener : Listener}
    (h : listener.Ok db finished) {key val : Bytes} (hkey : key ≠ wasmstoreResultList) :
    listener.Ok (db.set key val) finished := by
  cases listener with
  | writeList jobId result pc =>
    obtain ⟨hid, hresult, hpc⟩ := h
    refine ⟨hid, hresult, hpc.imp_right ?_⟩
    rintro ⟨val', rfl, hget⟩
    exact ⟨val', rfl, by rwa [Store.get_set_ne _ _ hkey.symm]⟩
  | _ => exact h

/-- A run's compare-and-set of the key list leaves a list of ids, whether it writes or not. -/
theorem NodeInv.publish (h : NodeInv chain n) {jobKey keyList id : Bytes} {ids : List Bytes}
    (hlist : IdList jobKey ids) (hid : id.length = 32) (hkey : keyList = jobKey ++ id) :
    NodeInv chain
      { n with db := (n.db.compareAndSet wasmstoreKeyList (some jobKey) keyList).1 } := by
  by_cases hget : n.db.get wasmstoreKeyList = some jobKey
  · rw [Store.compareAndSet_hit _ hget]
    exact { h with
      db := h.db.setKeyList (hkey ▸ hlist.append hid)
      listener := h.listener.setOther wasmstoreKeyList_ne_resultList }
  · rw [Store.compareAndSet_miss _ hget]
    exact h

theorem NodeInv.setRecord (h : NodeInv chain n) {id record : Bytes}
    (hid : id.length = 32 ∧ RecordOk chain id record ∨ id = []) :
    NodeInv chain { n with db := n.db.set id record } :=
  { h with
    db := h.db.setRecord hid
    listener := h.listener.setOther (ne_wasmstoreResultList (hid.imp_left And.left)) }

/-- The executor's reset writes the empty list, or nothing. -/
theorem NodeInv.reset (h : NodeInv chain n) {keyLists : Bytes} {keyList : List Bytes}
    {pc : WriteDb} {db : Db} {write : Write}
    (hexec : n.executor = .resetting keyLists keyList pc)
    (hwrite : WriteMove n.db wasmstoreKeyList initList pc db write) :
    NodeInv chain { n with db, executor := .afterReset keyLists keyList write } := by
  obtain ⟨hlist, hpc⟩ := h.executorAt hexec
  cases hwrite with
  | found val hget => exact { h with executor := ⟨hlist, by simp⟩ }
  | absent hget =>
    obtain ⟨list, ids, hsome, -⟩ := h.db.keyList
    simp [hget] at hsome
  | swapped val hget =>
    exact { h with
      db := h.db.setKeyList idList_init
      executor := hlist.length
      listener := h.listener.setOther wasmstoreKeyList_ne_resultList }
  | missed val hget => exact { h with executor := hlist.length }
  | created => exact absurd rfl hpc

/-- The listener's write of a response, with any of its steps. -/
theorem NodeInv.record (h : NodeInv chain n) {res : JobResult} {pc : WriteDb} {db : Db}
    {write : Write} (hlistener : n.listener = .writeRecord res pc)
    (hwrite : WriteMove n.db res.jobId.val
      (ResponePayload.codec.encode (res.respone n.procesorKey)) pc db write) :
    NodeInv chain { n with db, listener := .afterRecord res write } := by
  have hres := h.listenerAt hlistener
  have hok : RecordOk chain res.jobId.val
      (ResponePayload.codec.encode (res.respone n.procesorKey)) := .respone _ rfl rfl
  have hset := h.setRecord (.inl ⟨hres, hok⟩)
  have hreceived := h.receivedAt hlistener
  cases hwrite with
  | found val hget => exact { h with listener := hres, received := hreceived }
  | absent hget => exact { h with listener := hres, received := hreceived }
  | swapped val hget => exact { hset with listener := hres, received := hreceived }
  | missed val hget => exact { h with listener := hres, received := hreceived }
  | created => exact { hset with listener := hres, received := hreceived }

/-- The listener's append to the result list always writes what it has computed. -/
theorem NodeInv.append (h : NodeInv chain n) {jobId : Vec} {result : Bytes} {pc : WriteDb}
    {db : Db} {res : Except StorageError Unit} (hlistener : n.listener = .writeList jobId result pc)
    (hwrite : WriteMove n.db wasmstoreResultList result pc db (.returned res)) :
    DbOk chain (n.history.finished ++ [jobId.val]) db := by
  obtain ⟨-, hresult, hpc⟩ := h.listenerAt hlistener
  cases hwrite with
  | swapped val hget => exact h.db.setResultList hresult
  | missed val hget =>
    rcases hpc with hpc | ⟨val', hpc, hget'⟩
    · simp at hpc
    · obtain rfl : val = val' := by simpa using hpc
      exact absurd hget' hget
  | created => rcases hpc with hpc | ⟨_, hpc, _⟩ <;> simp at hpc

theorem NodeInv.move (h : NodeInv chain n) {l : NodeLabel T} {calls : List Call}
    (hmove : NodeMove chain n l n' calls) : NodeInv chain n' := by
  obtain ⟨list, ids, hkeyList, hids⟩ := h.db.keyList
  cases hmove with
  | idle => exact h
  | start jobs hjobs hblock =>
    refine { h with workers := fun w hw => ?_ }
    rcases List.mem_append.mp hw with hw | hw
    · exact h.workers w hw
    · obtain rfl := List.mem_singleton.mp hw
      refine ⟨fun key job hjob => ⟨job, ?_, rfl⟩, trivial⟩
      exact (mem_entries_iff hjobs key job).mpr hjob
  | readKeyList run accepted w jobKey hw hget =>
    obtain rfl := Option.some.inj (hkeyList.symm.trans hget)
    exact h.setWorker run ((h.worker hw).setPc ⟨ids, hids⟩)
  | readResultList run accepted w jobKey resultKey hw hpc =>
    have hok := h.workerPc hw hpc
    exact h.setWorker run ((h.worker hw).setPc hok)
  | offer run accepted w jobKey resultKey key job payload calls hw hpc hjob hstate hpayload =>
    obtain ⟨ids', hjobKey⟩ := h.workerPc hw hpc
    refine h.setWorker run ((h.worker hw).setPc
      ⟨ids', key.val, hjobKey, key.property, rfl, rfl, ?_⟩)
    rcases hpayload with ⟨rfl, -⟩ | ⟨rfl, -⟩
    · exact .inr ⟨(h.worker hw).offer hjob.mem hstate, rfl⟩
    · exact .inl rfl
  | results run accepted w pc calls hw hpc hcalls =>
    exact h.setWorker run ((h.worker hw).setPc (WorkerPc.ok_results hpc))
  | publish run accepted w jobKey resultKey keyList encodedPayload payload hw hpc =>
    obtain ⟨ids', id, hjobKey, hid, hkey, henc, hpayload⟩ := h.workerPc hw hpc
    exact (h.publish hjobKey hid hkey).setWorker run
      ((h.worker hw).setPc ⟨henc, hpayload.imp_right And.left⟩)
  | store run accepted w resultKey encodedPayload payload hw hpc =>
    obtain ⟨rfl, hpayload⟩ := h.workerPc hw hpc
    have hrecord : payload.jobId.val.length = 32 ∧ RecordOk chain payload.jobId.val
        (RequestPayload.codec.encode payload) ∨ payload.jobId.val = [] := by
      rcases hpayload with rfl | hp
      · exact .inr rfl
      · exact .inl ⟨hp.length, .request payload hp rfl⟩
    have hpc' : (WorkerPc.handleResult resultKey).Ok chain :=
      WorkerPc.ok_results (WorkerPc.handleResult_cases resultKey)
    have hset := (h.setRecord hrecord).setWorker run ((h.worker hw).setPc hpc')
    exact { hset with }
  | halt keyLists hexec hget hparse =>
    obtain rfl := Option.some.inj (hkeyList.symm.trans hget)
    simp [hids.keyListParser] at hparse
  | parse keyLists keyList hexec hget hparse =>
    obtain rfl := Option.some.inj (hkeyList.symm.trans hget)
    obtain rfl : ids = keyList := by simpa using hids.keyListParser.symm.trans hparse
    exact { h with executor := ⟨hids, by simp⟩ }
  | reset keyLists keyList pc db write hexec hwrite => exact h.reset hexec hwrite
  | give i keyList hexec =>
    have hok := h.executorAt hexec
    refine { h with
      executor := fun id hid => hok id (List.mem_cons_of_mem _ hid)
      tasks := fun t ht => ?_ }
    rcases List.mem_append.mp ht with ht | ht
    · exact h.tasks t ht
    · obtain rfl := List.mem_singleton.mp ht
      cases hget : n.db.get i with
      | none => trivial
      | some record =>
        have hi := hok i List.mem_cons_self
        exact ⟨i, hi, h.db.records i record hi hget⟩
  | rest => exact { h with executor := trivial }
  | drop i outcome => exact h.setTask i trivial
  | process i outcome record payload htask hdecode =>
    obtain ⟨id, -, hrecord⟩ := h.tasks _ (List.mem_of_getElem? htask)
    have hset := h.setTask i (t := .processing payload) (hrecord.decode hdecode).1
    exact { hset with }
  | produce i outcome payload res htask hres =>
    have hok : Requests chain payload := h.tasks _ (List.mem_of_getElem? htask)
    have hid : res.jobId.val.length = 32 := hres ▸ hok.length
    have hset := h.setTask i (t := .sending res) hid
    exact { hset with }
  | send i outcome res htask hroom =>
    have hok : res.jobId.val.length = 32 := h.tasks _ (List.mem_of_getElem? htask)
    refine { h.setTask i (t := .ended) trivial with channel := fun r hr => ?_ }
    rcases List.mem_append.mp hr with hr | hr
    · exact h.channel r hr
    · exact List.mem_singleton.mp hr ▸ hok
  | receive res channel hlistener hchannel =>
    have hall := h.channel
    rw [hchannel] at hall
    have hreceived := h.receivedAt hlistener
    exact { h with
      channel := fun r hr => hall r (List.mem_cons_of_mem _ hr)
      listener := hall res List.mem_cons_self
      received := by simpa [Listener.current] using hreceived }
  | record res pc db write hlistener hwrite => exact h.record hlistener hwrite
  | skip jobId hlistener hget =>
    obtain ⟨results, hsome, -⟩ := h.db.resultList
    simp [hget] at hsome
  | read jobId value hlistener hget =>
    have hid : jobId.val.length = 32 := h.listenerAt hlistener
    obtain ⟨results, hresults, hfinished⟩ := h.db.resultList
    obtain rfl := Option.some.inj (hresults.symm.trans hget)
    have hreceived := h.receivedAt hlistener
    exact { h with listener := ⟨hid, hfinished.append hid, .inl rfl⟩, received := hreceived }
  | appending jobId result pc pc' db hlistener hwrite =>
    have hok := h.listenerAt hlistener
    have hreceived := h.receivedAt hlistener
    cases hwrite with
    | found val hget =>
      exact { h with
        listener := ⟨hok.1, hok.2.1, .inr ⟨val, rfl, hget⟩⟩
        received := hreceived }
    | absent hget =>
      obtain ⟨results, hsome, -⟩ := h.db.resultList
      simp [hget] at hsome
  | append jobId result pc db res hlistener hwrite =>
    have hreceived := h.receivedAt hlistener
    exact { h with
      db := h.append hlistener hwrite
      listener := trivial
      received := by simpa [Listener.current] using hreceived }

end Moves

/-! ### Runs -/

/-- The nodes have just started, on a chain in any state. -/
def Booted (s : System T ι) : Prop :=
  ∀ i, ∃ db procesorKey ranAt, s.nodes i = Node.boot db procesorKey ranAt ∧ Leftover s.chain db

theorem Booted.nodeInv {s : System T ι} (h : Booted s) (i : ι) : NodeInv s.chain (s.nodes i) := by
  obtain ⟨db, procesorKey, ranAt, hboot, hdb⟩ := h i
  rw [hboot]
  exact NodeInv.boot hdb procesorKey ranAt

/-- What holds of every node that has just started. -/
theorem Booted.boot {s : System T ι} (h : Booted s) {P : Node T → Prop} (i : ι)
    (hboot : ∀ db procesorKey ranAt, P (Node.boot db procesorKey ranAt)) : P (s.nodes i) := by
  obtain ⟨db, procesorKey, ranAt, hnode, -⟩ := h i
  rw [hnode]
  exact hboot db procesorKey ranAt

variable [DecidableEq ι]

theorem NodeInv.reaches {C : System T ι → Label T ι → Prop} {s s' : System T ι} {i : ι}
    (h : NodeInv s.chain (s.nodes i)) (hreach : Lts.ReachesBy System.step C s s') :
    NodeInv s'.chain (s'.nodes i) :=
  node_invariant (C := fun _ _ => True) (hreach.mono fun _ l _ => by cases l <;> simp [OnNode])
    h (fun _ _ _ hn hchain => hn.grow hchain) fun _ _ _ _ _ _ hn hmove => hn.move hmove

theorem nodeInv {C : System T ι → Label T ι → Prop} {s₀ s : System T ι} (h₀ : Booted s₀)
    (h : Lts.ReachesBy System.step C s₀ s) (i : ι) : NodeInv s.chain (s.nodes i) :=
  (h₀.nodeInv i).reaches h

/-- The two lists of a node are whole, and `handled` is what the worker's result handler returns
for the result list. -/
structure ListsHold (n : Node T) (handled : Except WasmStoreErr (List Bytes)) : Prop where
  keyList : ∃ list ids, n.db.get wasmstoreKeyList = some list ∧ IdList list ids ∧
    keyListParser list = some (.ok ids)
  resultList : ∃ list, n.db.get wasmstoreResultList = some list ∧
    IdList list n.history.finished ∧ ocwDoHandlingResult list = some handled
  received : n.history.received = n.history.finished ++ n.listener.current
  executor : n.executor ≠ .panicked

/-- In every state of every run the lists are whole.  Both parsers return exactly their ids, but for
the result handler, which refuses a list without any. -/
theorem lists_hold {s₀ s : System T ι} (h₀ : Booted s₀) (h : Lts.Reaches System.step s₀ s)
    (i : ι) : ListsHold (s.nodes i)
      (if (s.nodes i).history.finished = [] then .error .isStillRunning
        else .ok (s.nodes i).history.finished) := by
  have hn := nodeInv h₀ h i
  obtain ⟨keys, ids, hkeyList, hkeys⟩ := hn.db.keyList
  obtain ⟨results, hresultList, hresults⟩ := hn.db.resultList
  refine ⟨⟨keys, ids, hkeyList, hkeys, hkeys.keyListParser⟩,
    ⟨results, hresultList, hresults, hresults.handlingResult⟩, hn.received, fun hpanicked => ?_⟩
  exact hn.executorAt hpanicked

/-! ### A sample run -/

/-- One node, started on an empty local storage, on a chain with one pending job. -/
def sampleSystem : System sampleRuntime Unit where
  chain := sampleQueue
  pool := []
  nodes _ := Node.boot Store.empty none 0
  changed := []

theorem sampleSystem_booted : Booted sampleSystem := by
  refine fun _ => ⟨Store.empty, none, 0, rfl, fun id record _ hget => ?_⟩
  simp [Store.empty, Store.get] at hget

/-- The steps of one component of the node, `count` of them. -/
def steps (l : NodeLabel sampleRuntime) (count : Nat) : List (Label sampleRuntime Unit) :=
  List.replicate count (.node () l)

/-- A block with a run of the worker that enqueues the pending job. -/
def sampleEnqueue (run : Nat) : List (Label sampleRuntime Unit) :=
  [.block [], .node () (.start (AList.insert sampleJob.key sampleJob ∅))] ++
    steps (.worker run true) 5

/-- The executor empties the list and gives its only id to a task. -/
def sampleExecute : List (Label sampleRuntime Unit) := steps .executor 5

/-- The `i`-th task executes its script and sends the result, which the listener stores. -/
def sampleFinish (i : Nat) : List (Label sampleRuntime Unit) :=
  steps (.task i (some (default, 7))) 3 ++ steps .listener 6

theorem lists_hold_sample : ∃ s, Lts.Reaches System.step sampleSystem s ∧
    ListsHold (s.nodes ()) (.ok [sampleJob.key.val]) := by
  have hrun : (Lts.run System.step sampleSystem
      (sampleEnqueue 0 ++ sampleExecute ++ sampleFinish 0)).any
        (fun s => (s.nodes ()).history.finished = [sampleJob.key.val]) = true := by
    decide +kernel
  obtain ⟨s, hs, hfinished⟩ := Lts.reaches_of_run hrun
  have hlists := lists_hold sampleSystem_booted hs ()
  rw [of_decide_eq_true hfinished] at hlists
  exact ⟨s, hs, by simpa using hlists⟩

/-- Before the first result the handler returns an error, not the empty list of ids. -/
theorem handlingResult_refuses : Booted sampleSystem ∧
    (sampleSystem.nodes ()).history.finished = [] ∧
    (sampleSystem.nodes ()).db.get wasmstoreResultList = some initList ∧
    ocwDoHandlingResult initList = some (.error .isStillRunning) ∧
    ¬ListsHold (sampleSystem.nodes ()) (.ok (sampleSystem.nodes ()).history.finished) := by
  have hget : (sampleSystem.nodes ()).db.get wasmstoreResultList = some initList := by decide
  refine ⟨sampleSystem_booted, rfl, hget, rfl, fun h => ?_⟩
  obtain ⟨list, hlist, -, hhandled⟩ := h.resultList
  obtain rfl := Option.some.inj (hget.symm.trans hlist)
  exact absurd hhandled (by decide)

end PolkadotOracle
