import PolkadotOracle.Offchain.Given

/-! The way of a job from a worker's run to a task: published in the key list, parsed by the
executor, given to a task with its request.  No job is lost on it in a run whose workers and
executor keep out of each other's way. -/

namespace PolkadotOracle

open Scale Sequence

variable {T : Config} {ι : Type}

/-- The ids of the key list, as the executor would parse them. -/
def Node.keyIds (n : Node T) : List Bytes :=
  match (n.db.get wasmstoreKeyList).bind keyListParser with
  | some (.ok ids) => ids
  | _ => []

/-- The ids that the executor has parsed and not yet given to tasks. -/
def Executor.batch : Executor → List Bytes
  | .resetting _ keyList _ => keyList
  | .spawning keyList => keyList
  | _ => []

/-- The request that lies under an id, if there is one. -/
def Node.recorded (n : Node T) (id : Bytes) : Option RequestPayload :=
  (n.db.get id).bind RequestPayload.decode

/-- The payload that a run is about to store, after its compare-and-set of the key list. -/
def WorkerPc.storing : WorkerPc → Option RequestPayload
  | .set _ _ payload => some payload
  | _ => none

def Node.storing (n : Node T) : List RequestPayload :=
  n.workers.filterMap fun w => w.pc.storing

/-- The job of `p` is still in the key list with its request stored, or a task has been given the
request. -/
def NotLost (n : Node T) (p : RequestPayload) : Prop :=
  p.jobId.val ∈ n.keyIds ∧ n.recorded p.jobId.val = some p ∨ GivenTo n.history p

/-- The id of `p` is in the key list, or the executor has it in hands. -/
def Waiting (n : Node T) (p : RequestPayload) : Prop :=
  p.jobId.val ∈ n.keyIds ∨ p.jobId.val ∈ n.executor.batch

instance (n : Node T) (p : RequestPayload) : Decidable (Waiting n p) :=
  inferInstanceAs (Decidable (_ ∨ _))

/-- The steps on which no job gets lost.  A run that has submitted its job finds the key list as it
has read it, or the job announced already; the executor empties the list that it has parsed and no
longer one; and it reads no record that a run which has published the id has yet to store. -/
def delivers (n : Node T) : NodeLabel T → Bool
  | .worker run _ =>
    match (n.workers[run]?).map Worker.pc with
    | some (.compareAndSet jobKey _ _ _ payload) =>
      payload = default ∨ n.db.get wasmstoreKeyList = some jobKey ∨ Waiting n payload ∨
        GivenTo n.history payload
    | _ => true
  | .executor =>
    match n.executor with
    | .resetting keyLists _ (.compareAndSet val) =>
      n.db.get wasmstoreKeyList = some val → val = keyLists
    | .spawning (i :: _) => ∀ p ∈ n.storing, p.jobId.val = i → n.recorded i = some p
    | _ => true
  | _ => true

section Reading

variable {n n' : Node T}

theorem Node.keyIds_eq {list : Bytes} {ids : List Bytes}
    (hget : n.db.get wasmstoreKeyList = some list) (hlist : IdList list ids) : n.keyIds = ids := by
  simp [Node.keyIds, hget, hlist.keyListParser]

theorem Node.keyIds_congr (h : n'.db.get wasmstoreKeyList = n.db.get wasmstoreKeyList) :
    n'.keyIds = n.keyIds := by
  simp [Node.keyIds, h]

theorem Node.recorded_congr {id : Bytes} (h : n'.db.get id = n.db.get id) :
    n'.recorded id = n.recorded id := by
  simp [Node.recorded, h]

theorem Node.mem_storing {p : RequestPayload} {w : Worker T} (hw : w ∈ n.workers)
    (hpc : w.pc.storing = some p) : p ∈ n.storing :=
  List.mem_filterMap.mpr ⟨w, hw, hpc⟩

theorem Node.mem_storing_set {p : RequestPayload} {run : Nat} {w : Worker T}
    (h : p ∈ Node.storing { n with workers := n.workers.set run w }) :
    p ∈ n.storing ∨ w.pc.storing = some p := by
  obtain ⟨w', hw', hpc⟩ := List.mem_filterMap.mp h
  rcases List.mem_or_eq_of_mem_set hw' with hw' | rfl
  · exact .inl (Node.mem_storing hw' hpc)
  · exact .inr hpc

end Reading

/-- Every request that a run has stored, and every one that it is about to store, is on its way to a
task or has got there. -/
structure DeliveryInv (chain : State T) (n : Node T) : Prop where
  storable : ∀ p ∈ n.history.stored, Storable chain p
  stored : ∀ p ∈ n.history.stored, p ≠ default →
    GivenTo n.history p ∨ Waiting n p ∧ n.recorded p.jobId.val = some p
  storing : ∀ p ∈ n.storing, p ≠ default → GivenTo n.history p ∨ Waiting n p

section DeliveryInv

variable {chain chain' : State T} {n n' : Node T}

theorem DeliveryInv.grow (h : DeliveryInv chain n) (hchain : ChainReaches chain chain') :
    DeliveryInv chain' n :=
  { h with storable := fun p hp => (h.storable p hp).imp_right (·.grow hchain) }

theorem DeliveryInv.boot (db : Db) (procesorKey : Option Public) (ranAt : Nat) :
    DeliveryInv chain (Node.boot db procesorKey ranAt : Node T) := by
  refine ⟨?_, ?_, ?_⟩ <;> simp [Node.boot, Node.storing]

/-- A move that announces no less than before and takes no request from under its id, unless a task
has been given it. -/
theorem DeliveryInv.keep (h : DeliveryInv chain n)
    (hwaiting : ∀ p, Waiting n p → Waiting n' p)
    (hrecorded : ∀ p, Requests chain p → n.recorded p.jobId.val = some p →
      GivenTo n'.history p ∨ n'.recorded p.jobId.val = some p)
    (hgiven : n.history.given ⊆ n'.history.given) (hstored : n'.history.stored = n.history.stored)
    (hstoring : n'.storing ⊆ n.storing) : DeliveryInv chain n' := by
  refine ⟨hstored ▸ h.storable, fun p hp hd => ?_, fun p hp hd => ?_⟩
  · rw [hstored] at hp
    have hrequest := (h.storable p hp).resolve_left hd
    rcases h.stored p hp hd with hp | ⟨hwait, hrecord⟩
    · exact .inl (hp.mono hgiven)
    · exact (hrecorded p hrequest hrecord).imp_right fun hr => ⟨hwaiting p hwait, hr⟩
  · exact (h.storing p (hstoring hp) hd).imp (·.mono hgiven) (hwaiting p)

theorem DeliveryInv.setResultList (h : DeliveryInv chain n) (list : Bytes) :
    DeliveryInv chain { n with db := n.db.set wasmstoreResultList list } := by
  refine h.keep (fun p hp => hp.imp_left fun hp => ?_) (fun p hp hr => .inr ?_) (fun _ hp => hp)
    rfl fun _ hp => hp
  · rwa [Node.keyIds_congr (Store.get_set_ne _ list wasmstoreKeyList_ne_resultList)]
  · rwa [Node.recorded_congr (Store.get_set_ne _ _ (ne_wasmstoreResultList (.inl hp.length)))]

/-- A move of the executor's loop that gives up nothing that it has in hands. -/
theorem DeliveryInv.setExecutor (h : DeliveryInv chain n) {executor : Executor}
    (hbatch : n.executor.batch ⊆ executor.batch) :
    DeliveryInv chain { n with executor } :=
  h.keep (fun _ hp => hp.imp_right (hbatch ·)) (fun _ _ hr => .inr hr) (fun _ hp => hp) rfl
    fun _ hp => hp

/-- A move of a run that touches neither the lists nor the records. -/
theorem DeliveryInv.setWorker (h : DeliveryInv chain n) (run : Nat) {w : Worker T}
    (hw : w.pc.storing = none) :
    DeliveryInv chain { n with workers := n.workers.set run w } := by
  refine h.keep (fun _ hp => hp) (fun _ _ hr => .inr hr) (fun _ hp => hp) rfl fun p hp => ?_
  rcases Node.mem_storing_set hp with hp | hp
  · exact hp
  · simp [hw] at hp

theorem WorkerPc.storing_results {pc : WorkerPc}
    (h : pc = .ended ∨ ∃ resultKeys, pc = .submitting resultKeys) : pc.storing = none := by
  rcases h with rfl | ⟨resultKeys, rfl⟩ <;> rfl

/-- A run publishes its job: the list that it has read grows by the id, or the job is announced
already. -/
theorem DeliveryInv.publish (h : DeliveryInv chain n) (hn : NodeInv chain n) {run : Nat}
    {w : Worker T} {jobKey resultKey keyList encodedPayload : Bytes} {payload : RequestPayload}
    (hw : n.workers[run]? = some w)
    (hpc : w.pc = .compareAndSet jobKey resultKey keyList encodedPayload payload)
    (hC : payload = default ∨ n.db.get wasmstoreKeyList = some jobKey ∨ Waiting n payload ∨
      GivenTo n.history payload) :
    DeliveryInv chain { n with
      db := (n.db.compareAndSet wasmstoreKeyList (some jobKey) keyList).1
      workers := n.workers.set run { w with pc := .set resultKey encodedPayload payload } } := by
  obtain ⟨ids, id, hjobKey, hid, rfl, -, hpayload⟩ := hn.workerPc hw hpc
  by_cases hget : n.db.get wasmstoreKeyList = some jobKey
  · rw [Store.compareAndSet_hit _ hget]
    have hids := Node.keyIds_eq hget hjobKey
    have hids' : Node.keyIds { n with db := n.db.set wasmstoreKeyList (jobKey ++ id) } =
        ids ++ [id] := Node.keyIds_eq (by simp) (hjobKey.append hid)
    have hkeep : DeliveryInv chain { n with db := n.db.set wasmstoreKeyList (jobKey ++ id) } := by
      refine h.keep (fun p hp => hp.imp_left fun hp => ?_) (fun p hp hr => .inr ?_)
        (fun _ hp => hp) rfl fun _ hp => hp
      · rw [hids']
        rw [hids] at hp
        exact List.mem_append_left _ hp
      · rwa [Node.recorded_congr (Store.get_set_ne _ _ (ne_wasmstoreKeyList (.inl hp.length)))]
    refine { hkeep with storing := fun p hp hd => ?_ }
    rcases Node.mem_storing_set hp with hp | hp
    · exact hkeep.storing p hp hd
    · obtain rfl := Option.some.inj hp
      have hpid := (hpayload.resolve_left hd).2
      exact .inr (.inl (by rw [hpid]; exact hids' ▸ by simp))
  · rw [Store.compareAndSet_miss _ hget]
    refine { h with storing := fun p hp hd => ?_ }
    rcases Node.mem_storing_set hp with hp | hp
    · exact h.storing p hp hd
    · obtain rfl := Option.some.inj hp
      rcases hC with hC | hC | hC | hC
      · exact absurd hC hd
      · exact absurd hC hget
      · exact .inr hC
      · exact .inl hC

/-- A run stores its request, the only one there is for the job. -/
theorem DeliveryInv.store (h : DeliveryInv chain n) (hn : NodeInv chain n) {run : Nat}
    {w : Worker T} {resultKey encodedPayload : Bytes} {payload : RequestPayload}
    (hw : n.workers[run]? = some w) (hpc : w.pc = .set resultKey encodedPayload payload) :
    DeliveryInv chain { n with
      db := n.db.set payload.jobId.val encodedPayload
      workers := n.workers.set run { w with pc := .handleResult resultKey }
      history := { n.history with stored := n.history.stored ++ [payload] } } := by
  obtain ⟨rfl, hpayload⟩ := hn.workerPc hw hpc
  have hself : Node.recorded { n with
      db := n.db.set payload.jobId.val (RequestPayload.codec.encode payload) }
      payload.jobId.val = some payload := by
    simp [Node.recorded]
  have hkeep : DeliveryInv chain
      { n with db := n.db.set payload.jobId.val (RequestPayload.codec.encode payload) } := by
    refine h.keep (fun p hp => hp.imp_left fun hp => ?_) (fun p hp hr => .inr ?_)
      (fun _ hp => hp) rfl fun _ hp => hp
    · have hne := ne_wasmstoreKeyList hpayload.length
      rwa [Node.keyIds_congr (Store.get_set_ne _ _ hne.symm)]
    · by_cases hsame : p.jobId.val = payload.jobId.val
      · have hrequest := hpayload.requests (hsame ▸ hp.length)
        obtain rfl := hp.unique hrequest hsame
        exact hself
      · rwa [Node.recorded_congr (Store.get_set_ne _ _ hsame)]
  have hworker := hkeep.setWorker run (w := { w with pc := .handleResult resultKey })
    (WorkerPc.storing_results (WorkerPc.handleResult_cases resultKey))
  refine { hworker with storable := fun p hp => ?_, stored := fun p hp hd => ?_ }
  · rcases List.mem_append.mp hp with hp | hp
    · exact h.storable p hp
    · exact List.mem_singleton.mp hp ▸ hpayload
  · rcases List.mem_append.mp hp with hp | hp
    · exact hworker.stored p hp hd
    · obtain rfl := List.mem_singleton.mp hp
      have hmem : p ∈ n.storing :=
        Node.mem_storing (List.mem_of_getElem? hw) (by rw [hpc]; rfl)
      have hstoring := hkeep.storing p hmem hd
      exact hstoring.imp_right fun hwait => ⟨hwait, hself⟩

/-- The executor's reset empties the list whose ids it has in hands. -/
theorem DeliveryInv.reset (h : DeliveryInv chain n) (hn : NodeInv chain n) {keyLists : Bytes}
    {keyList : List Bytes} {pc : WriteDb} {db : Db} {write : Write}
    (hexec : n.executor = .resetting keyLists keyList pc)
    (hwrite : WriteMove n.db wasmstoreKeyList initList pc db write)
    (hC : ∀ val, pc = .compareAndSet val → n.db.get wasmstoreKeyList = some val →
      val = keyLists) :
    DeliveryInv chain { n with db, executor := .afterReset keyLists keyList write } := by
  obtain ⟨hlist, hpc⟩ := hn.executorAt hexec
  have hbatch : (Executor.afterReset keyLists keyList write).batch = n.executor.batch := by
    rw [hexec]
    cases write <;> rfl
  cases hwrite with
  | swapped val hget =>
    obtain rfl := hC val rfl hget
    have hids : n.keyIds = n.executor.batch := by
      rw [Node.keyIds_eq hget hlist, hexec]
      rfl
    refine h.keep (fun p hp => .inr ?_) (fun p hp hr => .inr ?_) (fun _ hp => hp) rfl
      fun _ hp => hp
    · rw [Waiting, hids, or_self] at hp
      exact hbatch ▸ hp
    · rwa [Node.recorded_congr (Store.get_set_ne _ _ (ne_wasmstoreKeyList (.inl hp.length)))]
  | created => exact absurd rfl hpc
  | _ => exact h.setExecutor fun _ hid => hbatch ▸ hid

/-- The executor gives the first id that it has in hands to a task, with the request under it. -/
theorem DeliveryInv.give (h : DeliveryInv chain n) {i : Bytes} {keyList : List Bytes}
    (hexec : n.executor = .spawning (i :: keyList))
    (hC : ∀ p ∈ n.storing, p.jobId.val = i → n.recorded i = some p) :
    DeliveryInv chain { n with
      executor := .spawning keyList
      tasks := n.tasks ++ [.spawned (n.db.get i)]
      history := { n.history with given := n.history.given ++ [(i, n.db.get i)] } } := by
  have hsub : n.history.given ⊆ n.history.given ++ [(i, n.db.get i)] :=
    List.subset_append_left _ _
  have hnew : ∀ p : RequestPayload, p.jobId.val = i → n.recorded i = some p →
      GivenTo { n.history with given := n.history.given ++ [(i, n.db.get i)] } p :=
    fun p hid hr => ⟨(i, n.db.get i), by simp, hid.symm, hr⟩
  have hwait : ∀ p : RequestPayload, Waiting n p → p.jobId.val = i ∨ p.jobId.val ∈ n.keyIds ∨
      p.jobId.val ∈ keyList := by
    rintro p (hp | hp)
    · exact .inr (.inl hp)
    · rw [hexec] at hp
      exact (List.mem_cons.mp hp).imp_right .inr
  refine ⟨h.storable, fun p hp hd => ?_, fun p hp hd => ?_⟩
  · rcases h.stored p hp hd with hp | ⟨hw, hr⟩
    · exact .inl (hp.mono hsub)
    · rcases hwait p hw with hid | hw
      · exact .inl (hnew p hid (hid ▸ hr))
      · exact .inr ⟨hw, hr⟩
  · rcases h.storing p hp hd with hp' | hw
    · exact .inl (hp'.mono hsub)
    · rcases hwait p hw with hid | hw
      · exact .inl (hnew p hid (hC p hp hid))
      · exact .inr hw

/-- The listener overwrites the request of a job only when a task has been given it. -/
theorem DeliveryInv.record (h : DeliveryInv chain n) (hn : NodeInv chain n)
    (hg : GivenInv chain n) {res : JobResult} {pc : WriteDb} {db : Db} {write : Write}
    {newValue : Bytes} (hlistener : n.listener = .writeRecord res pc)
    (hwrite : WriteMove n.db res.jobId.val newValue pc db write) :
    DeliveryInv chain { n with db, listener := .afterRecord res write } := by
  have hid : res.jobId.val.length = 32 := hn.listenerAt hlistener
  obtain ⟨payload, hgiven, hpayload⟩ := hg.listener res pc hlistener
  have hset : DeliveryInv chain { n with db := n.db.set res.jobId.val newValue } := by
    refine h.keep (fun p hp => hp.imp_left fun hp => ?_) (fun p hp hr => ?_) (fun _ hp => hp) rfl
      fun _ hp => hp
    · rwa [Node.keyIds_congr (Store.get_set_ne _ _ (ne_wasmstoreKeyList (.inl hid)).symm)]
    · by_cases hsame : p.jobId.val = res.jobId.val
      · obtain rfl := hp.unique (hg.requests hgiven) (hsame.trans (congrArg _ hpayload))
        exact .inl hgiven
      · exact .inr (by rwa [Node.recorded_congr (Store.get_set_ne _ _ hsame)])
  rcases hwrite.db_cases with rfl | rfl
  · exact { h with }
  · exact { hset with }

/-- What a node's runs, executor and listener keep together on the steps that deliver. -/
structure Delivering (chain : State T) (n : Node T) : Prop where
  node : NodeInv chain n
  given : GivenInv chain n
  delivery : DeliveryInv chain n

theorem Delivering.move (h : Delivering chain n) {l : NodeLabel T} {calls : List Call}
    (hC : delivers n l = true) (hmove : NodeMove chain n l n' calls) : Delivering chain n' := by
  refine ⟨h.node.move hmove, h.given.move h.node hmove, ?_⟩
  have hd := h.delivery
  cases hmove with
  | start jobs hjobs hblock =>
    refine hd.keep (fun _ hp => hp) (fun _ _ hr => .inr hr) (fun _ hp => hp) rfl fun p hp => ?_
    simpa [Node.storing, WorkerPc.storing] using hp
  | readKeyList run accepted w jobKey hw hget => exact hd.setWorker run rfl
  | readResultList run accepted w jobKey resultKey hw hpc => exact hd.setWorker run rfl
  | offer run => exact hd.setWorker run rfl
  | results run accepted w pc calls hw hpc =>
    exact hd.setWorker run (WorkerPc.storing_results hpc)
  | publish run accepted w jobKey resultKey keyList encodedPayload payload hw hpc =>
    simp only [delivers, hw, Option.map_some, hpc, decide_eq_true_eq] at hC
    exact hd.publish h.node hw hpc hC
  | store run accepted w resultKey encodedPayload payload hw hpc => exact hd.store h.node hw hpc
  | parse keyLists keyList hexec hget hparse =>
    exact hd.setExecutor (by simp [hexec, Executor.batch])
  | reset keyLists keyList pc db write hexec hwrite =>
    refine hd.reset h.node hexec hwrite fun val hpc hget => ?_
    subst hpc
    simpa [delivers, hexec, hget] using hC
  | give i keyList hexec =>
    apply hd.give hexec
    simpa [delivers, hexec] using hC
  | rest hexec => exact hd.setExecutor (by simp [hexec, Executor.batch])
  | halt keyLists hexec => exact hd.setExecutor (by simp [hexec, Executor.batch])
  | record res pc db write hlistener hwrite => exact hd.record h.node h.given hlistener hwrite
  | appending jobId result pc pc' db hlistener hwrite =>
    have hset := hd.setResultList result
    rcases hwrite.db_cases with rfl | rfl
    · exact { hd with }
    · exact { hset with }
  | append jobId result pc db res hlistener hwrite =>
    have hset := hd.setResultList result
    rcases hwrite.db_cases with rfl | rfl
    · exact { hd with }
    · exact { hset with }
  | _ => exact { hd with }

end DeliveryInv

/-- Job delivery, in every state that a run reaches whose steps on the node all deliver: a request
that a run has stored is a queued job's, and it is not lost.  While the executor has the id in hands
it is neither in the list nor given yet, and its record is in place. -/
theorem stored_delivered [DecidableEq ι] {s₀ s : System T ι} (h₀ : Booted s₀) {i : ι}
    (h : Lts.ReachesBy System.step (OnNode (fun n l => delivers n l = true) i) s₀ s)
    {p : RequestPayload} (hp : p ∈ (s.nodes i).history.stored) (hd : p ≠ default) :
    Requests s.chain p ∧
    (NotLost (s.nodes i) p ∨ p.jobId.val ∈ (s.nodes i).executor.batch ∧
      (s.nodes i).recorded p.jobId.val = some p) ∧
    ((s.nodes i).executor.batch = [] → NotLost (s.nodes i) p) := by
  have hinv : Delivering s.chain (s.nodes i) := by
    refine node_invariant (I := Delivering) h ?_ (fun _ _ _ hn hchain => ?_)
      fun _ _ _ _ _ hC hn hmove => hn.move hC hmove
    · exact ⟨h₀.nodeInv i, h₀.boot i GivenInv.boot, h₀.boot i DeliveryInv.boot⟩
    · exact ⟨hn.node.grow hchain, hn.given.grow hchain, hn.delivery.grow hchain⟩
  have hheld : NotLost (s.nodes i) p ∨ p.jobId.val ∈ (s.nodes i).executor.batch ∧
      (s.nodes i).recorded p.jobId.val = some p := by
    rcases hinv.delivery.stored p hp hd with hp | ⟨hw | hw, hr⟩
    · exact .inl (.inr hp)
    · exact .inl (.inl ⟨hw, hr⟩)
    · exact .inr ⟨hw, hr⟩
  refine ⟨(hinv.delivery.storable p hp).resolve_left hd, hheld, fun hbatch => ?_⟩
  rcases hheld with hp | ⟨hw, -⟩
  · exact hp
  · simp [hbatch] at hw

def sampleRequest : RequestPayload := requestOf sampleJob.key sampleJob

/-- A job that the worker publishes and stores, and that the executor takes up after that. -/
theorem stored_delivered_sample : ∃ s : System sampleRuntime Unit,
    Lts.Reaches System.step sampleSystem s ∧ sampleRequest ∈ (s.nodes ()).history.stored ∧
    NotLost (s.nodes ()) sampleRequest := by
  have hrun : (Lts.runBy System.step (OnNode (fun n l => delivers n l = true) ()) sampleSystem
      (sampleEnqueue 0 ++ sampleExecute)).any (fun s =>
        sampleRequest ∈ (s.nodes ()).history.stored ∧ (s.nodes ()).executor.batch = []) = true := by
    decide +kernel
  obtain ⟨s, hs, hend⟩ := Lts.reachesBy_of_runBy hrun
  obtain ⟨hstored, hbatch⟩ := of_decide_eq_true hend
  have hdelivered := stored_delivered sampleSystem_booted hs hstored (by decide)
  exact ⟨s, hs.reaches, hstored, hdelivered.2.2 hbatch⟩

/-- The run between the executor's parse and its reset: the worker's handling of the job is done
before the parse, its two writes after it. -/
def sampleLoss : List (Label sampleRuntime Unit) :=
  [.block [], .node () (.start (AList.insert sampleJob.key sampleJob ∅))] ++
    steps (.worker 0 true) 3 ++ steps .executor 1 ++ steps (.worker 0 true) 2 ++ steps .executor 3

/-- The reset reads the list again and empties it, although it has parsed it without the job: the
worker has done all its steps, and the job is in no list and with no task. -/
theorem job_lost : Booted sampleSystem ∧ ∃ s : System sampleRuntime Unit,
    Lts.Reaches System.step sampleSystem s ∧ sampleRequest ∈ (s.nodes ()).history.stored ∧
    sampleRequest ≠ default ∧ (s.nodes ()).executor = .poll ∧ (s.nodes ()).keyIds = [] ∧
    (s.nodes ()).history.given = [] ∧ ¬NotLost (s.nodes ()) sampleRequest := by
  have hrun : (Lts.run System.step sampleSystem sampleLoss).any (fun s =>
      sampleRequest ∈ (s.nodes ()).history.stored ∧ (s.nodes ()).executor = .poll ∧
        (s.nodes ()).keyIds = [] ∧ (s.nodes ()).history.given = []) = true := by
    decide +kernel
  obtain ⟨s, hs, hend⟩ := Lts.reaches_of_run hrun
  obtain ⟨hstored, hpoll, hids, hgiven⟩ := of_decide_eq_true hend
  refine ⟨sampleSystem_booted, s, hs, hstored, by decide, hpoll, hids, hgiven, ?_⟩
  rintro (⟨hmem, -⟩ | ⟨e, he, -⟩)
  · simp [hids] at hmem
  · simp [hgiven] at he

end PolkadotOracle
