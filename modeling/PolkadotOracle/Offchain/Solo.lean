import PolkadotOracle.Offchain.Order
import PolkadotOracle.Offchain.Recorded

/-! One node on its own: the steps that it takes on a chain that stays as it is, and how it comes to
rest.  Its executor and its listener always get to the end of what they have begun. -/

namespace PolkadotOracle

open Exec Iteration Scale Sequence

variable {T : Config} {ι : Type} {blake2 : Bytes → FixedBytes 16}

/-! ### Runs of one node -/

/-- A step of a node on a chain that stays as it is, with all that has entered the pool. -/
def nodeStep (chain : State T) (x : Node T × List Call) (l : NodeLabel T) :
    Option (Node T × List Call) :=
  (x.1.step chain l).map fun next => (next.1, x.2 ++ next.2)

/-- A run that starts goes through the queue in the order of the storage. -/
def NodeLabel.Iterates (blake2 : Bytes → FixedBytes 16) : NodeLabel T → Prop
  | .start jobs => Ascending (storageKey blake2) jobs.entries
  | _ => True

/-- The conditions on the steps of a node: what its tasks return is what their scripts may return,
and its runs go through the queue in the order of the storage. -/
def Takes (blake2 : Bytes → FixedBytes 16) (Runs : Execution) (n : Node T) (l : NodeLabel T) :
    Prop :=
  Executes Runs n l ∧ l.Iterates blake2

/-- Steps of a node, on a chain that stays as it is, that end in `n'` and submit `calls`. -/
def NodeReaches (blake2 : Bytes → FixedBytes 16) (Runs : Execution) (chain : State T) (n : Node T)
    (calls : List Call) (n' : Node T) : Prop :=
  ∀ before, Lts.ReachesBy (nodeStep chain) (fun x l => Takes blake2 Runs x.1 l) (n, before)
    (n', before ++ calls)

namespace NodeReaches

variable {Runs : Execution} {chain : State T} {n n' n'' : Node T} {calls calls' : List Call}

theorem refl (n : Node T) : NodeReaches blake2 Runs chain n [] n := fun before => by
  rw [List.append_nil]
  exact Lts.ReachesBy.refl _

theorem trans (h : NodeReaches blake2 Runs chain n calls n')
    (h' : NodeReaches blake2 Runs chain n' calls' n'') :
    NodeReaches blake2 Runs chain n (calls ++ calls') n'' := fun before => by
  rw [← List.append_assoc]
  exact (h before).trans (h' _)

theorem of_step {l : NodeLabel T} (hC : Takes blake2 Runs n l)
    (h : n.step chain l = some (n', calls)) : NodeReaches blake2 Runs chain n calls n' :=
  fun _ => (Lts.ReachesBy.refl _).tail hC (by simp [nodeStep, h])

theorem invariant {I : Node T → Prop} (h : NodeReaches blake2 Runs chain n calls n') (h₀ : I n)
    (hmove : ∀ n l n' calls, I n → NodeMove chain n l n' calls → I n') : I n' := by
  refine (h []).invariant (I := fun x : Node T × List Call => I x.1) h₀ ?_
  intro x l x' hx _ hstep
  obtain ⟨next, hnode, rfl⟩ := Option.map_eq_some_iff.mp hstep
  exact hmove _ _ _ _ hx (node_move hnode)

theorem nodeInv (h : NodeReaches blake2 Runs chain n calls n') (hn : NodeInv chain n) :
    NodeInv chain n' :=
  h.invariant hn fun _ _ _ _ hn hmove => hn.move hmove

theorem procesorKey_eq (h : NodeReaches blake2 Runs chain n calls n') :
    n'.procesorKey = n.procesorKey :=
  h.invariant (I := fun m => m.procesorKey = n.procesorKey) rfl
    fun _ _ _ _ hn hmove => hmove.procesorKey_eq.trans hn

/-- A node that can take a step of a smaller rank as long as it is not done gets done. -/
theorem settle (blake2 : Bytes → FixedBytes 16) (Runs : Execution) (I done : Node T → Prop)
    (rank : Node T → Nat)
    (hstep : ∀ n, I n → ¬done n → ∃ l n', Takes blake2 Runs n l ∧ n.step chain l = some (n', []) ∧
      I n' ∧ rank n' < rank n) (h : I n) :
    ∃ n', NodeReaches blake2 Runs chain n [] n' ∧ I n' ∧ done n' := by
  induction hrank : rank n using Nat.strong_induction_on generalizing n with
  | h r ih =>
    by_cases hdone : done n
    · exact ⟨n, .refl n, h, hdone⟩
    · obtain ⟨l, m, hC, hm, hI, hless⟩ := hstep n h hdone
      obtain ⟨n', hreach, hn', hend⟩ := ih _ (hrank ▸ hless) hI rfl
      exact ⟨n', (NodeReaches.of_step hC hm).trans hreach, hn', hend⟩

end NodeReaches

/-! ### Coming to rest -/

/-- The ids of the results that are listed or will be, in their order. -/
def Node.results (n : Node T) : List Bytes :=
  n.history.finished ++ n.listener.current ++ n.channel.map fun res => res.jobId.val

/-- How many steps the listener takes until it waits again. -/
def Listener.rank : Listener → Nat
  | .recv => 0
  | .writeRecord _ .get => 5
  | .writeRecord _ _ => 4
  | .readList _ => 3
  | .writeList _ _ .get => 2
  | .writeList _ _ _ => 1

/-- How many steps the executor takes until it polls again. -/
def Executor.rank : Executor → Nat
  | .poll => 0
  | .panicked => 0
  | .spawning keyList => keyList.length + 1
  | .resetting _ keyList .get => keyList.length + 3
  | .resetting _ keyList _ => keyList.length + 2

section Rest

variable {Runs : Execution} {chain : State T} {n n' : Node T}

/-- A step of the listener takes it closer to the end of its work, and changes neither which results
are listed or will be nor their order. -/
theorem NodeMove.listener_rank {calls : List Call} (h : NodeMove chain n .listener n' calls) :
    n'.listener.rank + 6 * n'.channel.length < n.listener.rank + 6 * n.channel.length ∧
      n'.results = n.results := by
  cases h with
  | receive res channel hlistener hchannel =>
    simp [Node.results, hlistener, hchannel, Listener.rank, Listener.current]
    omega
  | record res pc db write hlistener hwrite =>
    cases hwrite <;> simp [Node.results, hlistener, Listener.afterRecord, Listener.rank,
      Listener.current]
  | skip jobId hlistener hget =>
    simp [Node.results, hlistener, Listener.rank, Listener.current]
  | read jobId value hlistener hget =>
    simp [Node.results, hlistener, Listener.rank, Listener.current]
  | appending jobId result pc pc' db hlistener hwrite =>
    cases hwrite <;> simp [Node.results, hlistener, Listener.rank, Listener.current]
  | append jobId result pc db res hlistener hwrite =>
    cases hwrite <;> simp [Node.results, hlistener, Listener.rank, Listener.current]

theorem listener_enabled (chain : State T) (h : ¬(n.listener = .recv ∧ n.channel = [])) :
    ∃ n', n.step chain .listener = some (n', []) := by
  cases hlistener : n.listener with
  | recv =>
    cases hchannel : n.channel with
    | nil => exact absurd ⟨hlistener, hchannel⟩ h
    | cons res channel => simp [Node.step, resultListener, hlistener, hchannel]
  | readList jobId =>
    cases hget : n.db.get wasmstoreResultList <;>
      simp [Node.step, resultListener, hlistener, hget]
  | _ => simp [Node.step, resultListener, hlistener]

theorem History.afterExecutor_finished (h : History) (db : Db) (executor : Executor) :
    (h.afterExecutor db executor).finished = h.finished := by
  unfold History.afterExecutor
  split
  · rfl
  · rfl

theorem offChainMonitor_rank (db : Db) {executor : Executor} (hpoll : executor ≠ .poll)
    (hpanicked : executor ≠ .panicked) :
    (offChainMonitor db executor).2.1.rank < executor.rank := by
  cases executor with
  | poll => contradiction
  | panicked => contradiction
  | spawning keyList =>
    cases keyList with
    | nil => simp [offChainMonitor, Executor.rank]
    | cons id keyList => simp [offChainMonitor, Executor.rank]
  | resetting keyLists keyList pc =>
    have hwrite := writeToOffchainDb_move db wasmstoreKeyList initList pc
    simp only [offChainMonitor]
    generalize writeToOffchainDb db wasmstoreKeyList initList pc = next at hwrite
    obtain ⟨db', write⟩ := next
    cases hwrite <;> simp [Executor.afterReset, Executor.rank]

theorem executor_enabled (chain : State T) (n : Node T) :
    ∃ n', n.step chain .executor = some (n', []) ∧
      n'.executor = (offChainMonitor n.db n.executor).2.1 ∧ n'.listener = n.listener ∧
      n'.channel = n.channel ∧ n'.history.finished = n.history.finished :=
  ⟨_, rfl, rfl, rfl, rfl, n.history.afterExecutor_finished _ _⟩

/-- The listener can write and list every result that is on its way to it. -/
theorem exists_listened (blake2 : Bytes → FixedBytes 16) (Runs : Execution) (chain : State T)
    (n : Node T) :
    ∃ n', NodeReaches blake2 Runs chain n [] n' ∧ n'.listener = .recv ∧ n'.channel = [] ∧
      n'.history.finished = n.results := by
  obtain ⟨n', hreach, hresults, hrecv, hempty⟩ := NodeReaches.settle blake2 Runs
    (fun m => m.results = n.results) (fun m => m.listener = .recv ∧ m.channel = [])
    (fun m => m.listener.rank + 6 * m.channel.length)
    (fun m hI hbusy => by
      obtain ⟨m', hstep⟩ := listener_enabled chain hbusy
      obtain ⟨hrank, hsame⟩ := (node_move hstep).listener_rank
      exact ⟨.listener, m', ⟨trivial, trivial⟩, hstep, hsame.trans hI, hrank⟩)
    rfl
  refine ⟨n', hreach, hrecv, hempty, ?_⟩
  simpa [Node.results, hrecv, hempty, Listener.current] using hresults

/-- The executor can finish a reset and give what it has read to tasks. -/
theorem NodeInv.polled (blake2 : Bytes → FixedBytes 16) (Runs : Execution) (h : NodeInv chain n) :
    ∃ n', NodeReaches blake2 Runs chain n [] n' ∧ n'.executor = .poll ∧ n'.listener = n.listener ∧
      n'.channel = n.channel ∧ n'.history.finished = n.history.finished := by
  obtain ⟨n', hreach, ⟨-, hframe⟩, hpoll⟩ := NodeReaches.settle blake2 Runs
    (fun m => NodeInv chain m ∧ m.listener = n.listener ∧ m.channel = n.channel ∧
      m.history.finished = n.history.finished)
    (fun m => m.executor = .poll) (fun m => m.executor.rank)
    (fun m hI hbusy => by
      obtain ⟨hinv, hlistener, hchannel, hfinished⟩ := hI
      have hpanicked : m.executor ≠ .panicked := fun hexec => hinv.executorAt hexec
      obtain ⟨m', hstep, hexec, hlistener', hchannel', hfinished'⟩ := executor_enabled chain m
      refine ⟨.executor, m', ⟨trivial, trivial⟩, hstep, ⟨hinv.move (node_move hstep),
        hlistener'.trans hlistener, hchannel'.trans hchannel, hfinished'.trans hfinished⟩, ?_⟩
      rw [hexec]
      exact offChainMonitor_rank m.db hbusy hpanicked)
    ⟨h, rfl, rfl, rfl⟩
  exact ⟨n', hreach, hpoll, hframe⟩

/-- A node at rest, on two lists: its executor polls and its listener waits. -/
structure AtRest (n : Node T) (keyList resultList : Bytes) : Prop where
  keyList : n.db.get wasmstoreKeyList = some keyList
  resultList : n.db.get wasmstoreResultList = some resultList
  executor : n.executor = .poll
  channel : n.channel = []
  listener : n.listener = .recv

/-- A node can come to rest, and all its results are then on the result list. -/
theorem NodeInv.rests (blake2 : Bytes → FixedBytes 16) (Runs : Execution) (h : NodeInv chain n) :
    ∃ n' keyList ids resultList, NodeReaches blake2 Runs chain n [] n' ∧
      AtRest n' keyList resultList ∧ IdList keyList ids ∧ IdList resultList n.results := by
  obtain ⟨m, hlistened, hrecv, hempty, hfinished⟩ := exists_listened blake2 Runs chain n
  obtain ⟨n', hpolled, hpoll, hrecv', hempty', hfinished'⟩ :=
    (hlistened.nodeInv h).polled blake2 Runs
  have hreach := hlistened.trans hpolled
  obtain ⟨⟨keyList, ids, hkey, hids⟩, ⟨resultList, hresult, hlist⟩, -⟩ := (hreach.nodeInv h).db
  rw [hfinished', hfinished] at hlist
  exact ⟨n', keyList, ids, resultList, hreach,
    ⟨hkey, hresult, hpoll, hempty'.trans hempty, hrecv'.trans hrecv⟩, hids, hlist⟩

end Rest

end PolkadotOracle
