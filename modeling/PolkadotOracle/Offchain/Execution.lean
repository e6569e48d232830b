import PolkadotOracle.Offchain.Delivery

/-! How often a job is executed on one node: at most once in a run that enqueues no job again and
whose executor empties every list that it has parsed. -/

namespace PolkadotOracle

open Scale Sequence

variable {T : Config} {ι : Type}

/-- How often a task has been given a request under `id`. -/
def History.givenCount (h : History) (id : Bytes) : Nat :=
  h.given.countP fun e => e.1 = id ∧ (e.2.bind RequestPayload.decode).isSome

/-- The task has been given the request for `id` and has not read it yet. -/
def Task.waitsFor (id : Bytes) : Task → Bool
  | .spawned encodedPayload =>
    ((encodedPayload.bind RequestPayload.decode).map fun p => p.jobId.val) = some id
  | _ => false

/-- The steps on which no job is enqueued or taken again.  A run puts an id in the list only when it
is not there, the executor does not have it in hands and no task has been given its request; and the
executor empties the list that it has parsed, unless it was empty anyway. -/
def executesOnce (n : Node T) : NodeLabel T → Bool
  | .worker run _ =>
    match (n.workers[run]?).map Worker.pc with
    | some (.compareAndSet jobKey _ keyList _ _) =>
      let id := keyList.drop jobKey.length
      n.db.get wasmstoreKeyList = some jobKey →
        n.keyIds.count id = 0 ∧ n.executor.batch.count id = 0 ∧ n.history.givenCount id = 0
    | _ => true
  | .executor =>
    match n.executor with
    | .resetting _ keyList (.compareAndSet val) =>
      n.db.get wasmstoreKeyList = some val ∨ keyList = []
    | _ => true
  | _ => true

/-- With an id `l` times in the list, `b` times in the executor's hands and `g` times given, it is
given at most once from here on.  Between parse and reset the list and the executor's copy of it
count once. -/
def Executor.Once (l b g : Nat) : Executor → Prop
  | .spawning _ => l + b + g ≤ 1
  | _ => l + g ≤ 1 ∧ b + g ≤ 1

structure ExecutionInv (n : Node T) : Prop where
  once : ∀ id, n.executor.Once (n.keyIds.count id) (n.executor.batch.count id)
    (n.history.givenCount id)
  processed : ∀ id, n.history.processed.count id + n.tasks.countP (Task.waitsFor id) ≤
    n.history.givenCount id

section ExecutionInv

variable {chain : State T} {n n' : Node T}

theorem ExecutionInv.given_le (h : ExecutionInv n) (id : Bytes) :
    n.history.givenCount id ≤ 1 := by
  have hid := h.once id
  cases hexec : n.executor <;> rw [hexec] at hid <;> simp only [Executor.Once] at hid <;> omega

theorem ExecutionInv.boot (db : Db) (procesorKey : Option Public) (ranAt : Nat) :
    ExecutionInv (Node.boot db procesorKey ranAt : Node T) := by
  have hids : Node.keyIds (Node.boot db procesorKey ranAt : Node T) = [] :=
    Node.keyIds_eq (runExecutor_keyList db procesorKey) idList_init
  refine ⟨fun id => ?_, fun id => ?_⟩
  · rw [hids]
    simp [Node.boot, Executor.Once, Executor.batch, History.givenCount]
  · simp [Node.boot, History.givenCount]

/-- A write under another key than the key list's. -/
theorem ExecutionInv.setOther (h : ExecutionInv n) {key : Bytes} (val : Bytes)
    (hkey : key ≠ wasmstoreKeyList) : ExecutionInv { n with db := n.db.set key val } := by
  have hids : Node.keyIds { n with db := n.db.set key val } = n.keyIds :=
    Node.keyIds_congr (Store.get_set_ne _ val hkey.symm)
  refine ⟨fun id => ?_, h.processed⟩
  rw [hids]
  exact h.once id

/-- A move of the executor's loop that changes only what it has in hands. -/
theorem ExecutionInv.setExecutor (h : ExecutionInv n) {executor executor' : Executor}
    (hexec : n.executor = executor)
    (honce : ∀ l g id, executor.Once l (executor.batch.count id) g →
      executor'.Once l (executor'.batch.count id) g) :
    ExecutionInv { n with executor := executor' } :=
  ⟨fun id => honce _ _ id (hexec ▸ h.once id), h.processed⟩

/-- A task's move that does not read its request. -/
theorem ExecutionInv.setTask (h : ExecutionInv n) (i : Nat) {t : Task}
    (ht : ∀ id, t.waitsFor id = false) :
    ExecutionInv { n with tasks := n.tasks.set i t } := by
  refine ⟨h.once, fun id => ?_⟩
  have hle : (n.tasks.set i t).countP (Task.waitsFor id) ≤ _ := countP_set_le (ht id)
  have hid := h.processed id
  simp only
  omega

/-- A task reads its request. -/
theorem ExecutionInv.process (h : ExecutionInv n) {i : Nat} {record : Bytes}
    {payload : RequestPayload} (htask : n.tasks[i]? = some (.spawned (some record)))
    (hdecode : RequestPayload.decode record = some payload) :
    ExecutionInv { n with
      tasks := n.tasks.set i (.processing payload)
      history := { n.history with
        processed := n.history.processed ++ [payload.jobId.val] } } := by
  refine ⟨h.once, fun id => ?_⟩
  have hid := h.processed id
  show (n.history.processed ++ [payload.jobId.val]).count id + _ ≤ n.history.givenCount id
  rw [List.count_append, List.count_singleton]
  by_cases hsame : payload.jobId.val = id
  · have hwaits : Task.waitsFor id (.spawned (some record)) = true := by
      simp [Task.waitsFor, hdecode, hsame]
    have hcount := countP_set_hit htask hwaits
      (show Task.waitsFor id (.processing payload) = false from rfl)
    simp only [hsame, beq_self_eq_true, if_true]
    omega
  · have hle : (n.tasks.set i (.processing payload)).countP (Task.waitsFor id) ≤ _ :=
      countP_set_le rfl
    simp only [beq_iff_eq, hsame, if_false]
    omega

/-- A run puts an id in the list: one that was nowhere before. -/
theorem ExecutionInv.publish (h : ExecutionInv n) {jobKey id : Bytes} {ids : List Bytes}
    (hlist : IdList jobKey ids) (hid : id.length = 32)
    (hget : n.db.get wasmstoreKeyList = some jobKey) (hkeyIds : n.keyIds.count id = 0)
    (hbatch : n.executor.batch.count id = 0) (hgiven : n.history.givenCount id = 0) :
    ExecutionInv { n with db := n.db.set wasmstoreKeyList (jobKey ++ id) } := by
  have hids := Node.keyIds_eq hget hlist
  have hids' : Node.keyIds { n with db := n.db.set wasmstoreKeyList (jobKey ++ id) } =
      ids ++ [id] := Node.keyIds_eq (by simp) (hlist.append hid)
  refine ⟨fun id' => ?_, h.processed⟩
  have hid' := h.once id'
  rw [hids] at hid'
  rw [hids', List.count_append, List.count_singleton]
  by_cases hsame : id = id'
  · subst hsame
    rw [hids] at hkeyIds
    rw [hkeyIds, hbatch, hgiven, beq_self_eq_true, if_pos rfl]
    cases n.executor <;> simp [Executor.Once]
  · simpa [hsame] using hid'

/-- The executor takes the ids of the list in hands. -/
theorem ExecutionInv.parse (h : ExecutionInv n) {keyLists : Bytes} {keyList : List Bytes}
    (hexec : n.executor = .poll) (hids : n.keyIds = keyList) :
    ExecutionInv { n with executor := .resetting keyLists keyList .get } := by
  refine ⟨fun id => ?_, h.processed⟩
  have hid := h.once id
  rw [hexec] at hid
  obtain ⟨hl, -⟩ := hid
  exact ⟨hl, hids ▸ hl⟩

/-- A step of the executor's reset, which empties the list or has nothing in hands. -/
theorem ExecutionInv.reset (h : ExecutionInv n) {keyLists : Bytes} {keyList : List Bytes}
    {pc : WriteDb} {db : Db} {write : Write}
    (hexec : n.executor = .resetting keyLists keyList pc)
    (hwrite : WriteMove n.db wasmstoreKeyList initList pc db write)
    (hC : ∀ val, pc = .compareAndSet val →
      n.db.get wasmstoreKeyList = some val ∨ keyList = []) :
    ExecutionInv { n with db, executor := .afterReset keyLists keyList write } := by
  have hinit : Node.keyIds { n with db := n.db.set wasmstoreKeyList initList } = [] :=
    Node.keyIds_eq (by simp) idList_init
  have hempty : ExecutionInv { n with
      db := n.db.set wasmstoreKeyList initList
      executor := .spawning keyList } := by
    refine ⟨fun id => ?_, h.processed⟩
    have hid := h.once id
    rw [hexec] at hid
    obtain ⟨-, hb⟩ := hid
    show (Node.keyIds { n with db := n.db.set wasmstoreKeyList initList }).count id + _ + _ ≤ 1
    rw [hinit, List.count_nil, Nat.zero_add]
    exact hb
  cases hwrite with
  | found val hget => exact h.setExecutor hexec fun _ _ _ hid => hid
  | absent hget => exact h.setExecutor hexec fun _ _ _ hid => hid
  | swapped val hget => exact hempty
  | created => exact hempty
  | missed val hget =>
    obtain rfl := (hC val rfl).resolve_left hget
    exact h.setExecutor hexec fun _ _ _ hid => hid.1

theorem ExecutionInv.give (h : ExecutionInv n) (hn : NodeInv chain n) {i : Bytes}
    {keyList : List Bytes} (hexec : n.executor = .spawning (i :: keyList)) :
    ExecutionInv { n with
      executor := .spawning keyList
      tasks := n.tasks ++ [.spawned (n.db.get i)]
      history := { n.history with given := n.history.given ++ [(i, n.db.get i)] } } := by
  have hi := hn.executorAt hexec i List.mem_cons_self
  -- The task waits for `i` exactly when it has been given a request.
  have hwaits : ∀ id, Task.waitsFor id (.spawned (n.db.get i)) =
      decide (i = id ∧ ((n.db.get i).bind RequestPayload.decode).isSome) := by
    intro id
    cases hdecode : (n.db.get i).bind RequestPayload.decode with
    | none => simp [Task.waitsFor, hdecode]
    | some p =>
      obtain ⟨record, hget, hrecord⟩ := Option.bind_eq_some_iff.mp hdecode
      have hp := ((hn.db.records i record hi hget).decode hrecord).2
      simp [Task.waitsFor, hdecode, hp]
  have hgiven : ∀ id, History.givenCount
      { n.history with given := n.history.given ++ [(i, n.db.get i)] } id =
      n.history.givenCount id + if Task.waitsFor id (.spawned (n.db.get i)) then 1 else 0 := by
    intro id
    rw [hwaits id]
    simp [History.givenCount, List.countP_append, List.countP_cons]
  refine ⟨fun id => ?_, fun id => ?_⟩
  · have hid := h.once id
    rw [hexec] at hid
    show n.keyIds.count id + keyList.count id + History.givenCount _ id ≤ 1
    rw [hgiven id]
    simp only [Executor.Once, Executor.batch, List.count_cons] at hid
    by_cases hsame : i = id
    · simp only [hsame, beq_self_eq_true, if_true] at hid
      split <;> omega
    · rw [hwaits id]
      simp only [hsame, false_and, decide_false, Bool.false_eq_true, if_false]
      omega
  · have hid := h.processed id
    show n.history.processed.count id + (n.tasks ++ [_]).countP _ ≤ History.givenCount _ id
    rw [hgiven id, List.countP_append, List.countP_singleton]
    omega

/-- What a node's runs and executor keep together on the steps that execute once. -/
structure Executing (chain : State T) (n : Node T) : Prop where
  node : NodeInv chain n
  execution : ExecutionInv n

theorem Executing.move (h : Executing chain n) {l : NodeLabel T} {calls : List Call}
    (hC : executesOnce n l = true) (hmove : NodeMove chain n l n' calls) :
    Executing chain n' := by
  refine ⟨h.node.move hmove, ?_⟩
  have he := h.execution
  cases hmove with
  | publish run accepted w jobKey resultKey keyList encodedPayload payload hw hpc =>
    obtain ⟨ids, id, hjobKey, hid, rfl, -, -⟩ := h.node.workerPc hw hpc
    by_cases hget : n.db.get wasmstoreKeyList = some jobKey
    · obtain ⟨hkeyIds, hbatch, hgiven⟩ : n.keyIds.count id = 0 ∧
          n.executor.batch.count id = 0 ∧ n.history.givenCount id = 0 := by
        simpa [executesOnce, hw, hpc, hget] using hC
      rw [Store.compareAndSet_hit _ hget]
      exact { he.publish hjobKey hid hget hkeyIds hbatch hgiven with }
    · rw [Store.compareAndSet_miss _ hget]
      exact { he with }
  | store run accepted w resultKey encodedPayload payload hw hpc =>
    obtain ⟨-, hpayload⟩ := h.node.workerPc hw hpc
    exact { he.setOther encodedPayload (ne_wasmstoreKeyList hpayload.length) with }
  | halt keyLists hexec => exact he.setExecutor hexec fun _ _ _ hid => hid
  | parse keyLists keyList hexec hget hparse =>
    apply he.parse hexec
    simp [Node.keyIds, hget, hparse]
  | reset keyLists keyList pc db write hexec hwrite =>
    refine he.reset hexec hwrite fun val hpc => ?_
    subst hpc
    simpa [executesOnce, hexec] using hC
  | give i keyList hexec => exact he.give h.node hexec
  | rest hexec =>
    refine he.setExecutor hexec fun l g id hid => ?_
    simp only [Executor.Once, Executor.batch, List.count_nil] at hid ⊢
    omega
  | drop i outcome => exact he.setTask i fun _ => rfl
  | process i outcome record payload htask hdecode => exact he.process htask hdecode
  | produce i outcome payload res htask hres =>
    exact { he.setTask i (t := .sending res) (fun _ => rfl) with }
  | send i outcome res htask hroom =>
    exact { he.setTask i (t := .ended) (fun _ => rfl) with }
  | record res pc db write hlistener hwrite =>
    have hid : res.jobId.val.length = 32 := h.node.listenerAt hlistener
    have hset := he.setOther (ResponePayload.codec.encode (res.respone n.procesorKey))
      (ne_wasmstoreKeyList (.inl hid))
    rcases hwrite.db_cases with rfl | rfl
    · exact { he with }
    · exact { hset with }
  | appending jobId result pc pc' db hlistener hwrite =>
    have hset := he.setOther result wasmstoreKeyList_ne_resultList.symm
    rcases hwrite.db_cases with rfl | rfl
    · exact { he with }
    · exact { hset with }
  | append jobId result pc db res hlistener hwrite =>
    have hset := he.setOther result wasmstoreKeyList_ne_resultList.symm
    rcases hwrite.db_cases with rfl | rfl
    · exact { he with }
    · exact { hset with }
  | _ => exact { he with }

end ExecutionInv

/-- In every state that a run reaches whose steps on the node enqueue and take no job again, each
job id has been handed to `process_wasm` at most once on it. -/
theorem processed_once [DecidableEq ι] {s₀ s : System T ι} (h₀ : Booted s₀) {i : ι}
    (h : Lts.ReachesBy System.step (OnNode (fun n l => executesOnce n l = true) i) s₀ s)
    (id : Bytes) : (s.nodes i).history.processed.count id ≤ 1 := by
  have hinv : Executing s.chain (s.nodes i) := by
    have hstart : Executing s₀.chain (s₀.nodes i) := ⟨h₀.nodeInv i, h₀.boot i ExecutionInv.boot⟩
    exact node_invariant (I := Executing) h hstart
      (fun _ _ _ hn hchain => ⟨hn.node.grow hchain, hn.execution⟩)
      fun _ _ _ _ _ hC hn hmove => hn.move hC hmove
  have hprocessed := hinv.execution.processed id
  have hgiven := hinv.execution.given_le id
  omega

/-- A job that is enqueued, taken and executed, while its state change waits in the pool. -/
theorem processed_once_sample : ∃ s : System sampleRuntime Unit,
    Lts.Reaches System.step sampleSystem s ∧
    (s.nodes ()).history.processed = [sampleJob.key.val] ∧
    (s.nodes ()).history.processed.count sampleJob.key.val ≤ 1 := by
  have hrun : (Lts.runBy System.step (OnNode (fun n l => executesOnce n l = true) ())
      sampleSystem (sampleEnqueue 0 ++ sampleExecute ++ sampleFinish 0)).any (fun s =>
        (s.nodes ()).history.processed = [sampleJob.key.val]) = true := by
    decide +kernel
  obtain ⟨s, hs, hend⟩ := Lts.reachesBy_of_runBy hrun
  exact ⟨s, hs.reaches, of_decide_eq_true hend, processed_once sampleSystem_booted hs _⟩

/-- The job is still pending on the next block, since its state change has not been included: the
worker enqueues it again and the executor executes it again. -/
theorem processed_twice : Booted sampleSystem ∧ ∃ s : System sampleRuntime Unit,
    Lts.Reaches System.step sampleSystem s ∧ s.chain.blockNumber = 2 ∧
    (s.nodes ()).history.processed = [sampleJob.key.val, sampleJob.key.val] ∧
    ¬(s.nodes ()).history.processed.count sampleJob.key.val ≤ 1 := by
  have hrun : (Lts.run System.step sampleSystem
      (sampleEnqueue 0 ++ sampleExecute ++ sampleFinish 0 ++ sampleEnqueue 1 ++ sampleExecute ++
        steps (.task 1 none) 1)).any (fun s => s.chain.blockNumber = 2 ∧
          (s.nodes ()).history.processed = [sampleJob.key.val, sampleJob.key.val]) = true := by
    decide +kernel
  obtain ⟨s, hs, hend⟩ := Lts.reaches_of_run hrun
  obtain ⟨hblock, hprocessed⟩ := of_decide_eq_true hend
  refine ⟨sampleSystem_booted, s, hs, hblock, hprocessed, ?_⟩
  rw [hprocessed]
  decide

end PolkadotOracle
