import PolkadotOracle.Offchain.Lists

/-! Whether a result stays where the worker's result loop finds it: in a run in which nobody writes
over a response, and no response fails to be written. -/

namespace PolkadotOracle

open Scale Sequence

variable {T : Config} {ι : Type}

/-- A response for `id` lies under it. -/
def Answered (db : Db) (id : Bytes) : Prop :=
  ∃ q, (db.get id).bind ResponePayload.decode = some q ∧ q.jobId.val = id

/-- The id whose response the listener has written and has yet to list. -/
def Listener.answering : Listener → List Bytes
  | .readList jobId => [jobId.val]
  | .writeList jobId _ _ => [jobId.val]
  | _ => []

/-- The ids whose responses the listener has written. -/
def Node.answered (n : Node T) : List Bytes :=
  n.history.finished ++ n.listener.answering

/-- The steps on which no result gets lost: no run stores a request over a response that the
listener has written, and the listener's compare-and-set of a response writes it. -/
def keepsResults (n : Node T) : NodeLabel T → Bool
  | .worker run _ =>
    match (n.workers[run]?).map Worker.pc with
    | some (.set _ _ payload) => payload.jobId.val ∉ n.answered
    | _ => true
  | .listener =>
    match n.listener with
    | .writeRecord res (.compareAndSet val) => n.db.get res.jobId.val = some val
    | _ => true
  | _ => true

structure ResultsInv (chain : State T) (n : Node T) : Prop where
  node : NodeInv chain n
  answered : ∀ id ∈ n.answered, Answered n.db id

section ResultsInv

variable {chain : State T} {n n' : Node T}

theorem ResultsInv.length (h : ResultsInv chain n) {id : Bytes} (hid : id ∈ n.answered) :
    id.length = 32 := by
  rcases List.mem_append.mp hid with hid | hid
  · obtain ⟨list, -, hlist⟩ := h.node.db.resultList
    exact hlist.length id hid
  · cases hlistener : n.listener with
    | readList jobId =>
      obtain rfl : id = jobId.val := by simpa [hlistener, Listener.answering] using hid
      exact h.node.listenerAt hlistener
    | writeList jobId result pc =>
      obtain rfl : id = jobId.val := by simpa [hlistener, Listener.answering] using hid
      exact (h.node.listenerAt hlistener).1
    | _ => simp [hlistener, Listener.answering] at hid

/-- What a write leaves of the responses: all of them, when it is under no id of theirs. -/
theorem Answered.set {db : Db} {id key : Bytes} (h : Answered db id) (val : Bytes)
    (hkey : id ≠ key) : Answered (db.set key val) id := by
  obtain ⟨q, hq, hid⟩ := h
  exact ⟨q, by rwa [Store.get_set_ne _ _ hkey], hid⟩

theorem answered_respone (db : Db) (procesorKey : Public) (res : JobResult) :
    Answered (db.set res.jobId.val (ResponePayload.codec.encode (res.respone procesorKey)))
      res.jobId.val :=
  ⟨res.respone procesorKey, by simp, rfl⟩

theorem ResultsInv.move (h : ResultsInv chain n) {l : NodeLabel T} {calls : List Call}
    (hC : keepsResults n l = true) (hmove : NodeMove chain n l n' calls) :
    ResultsInv chain n' := by
  refine ⟨h.node.move hmove, ?_⟩
  have hanswered := h.answered
  have hold : ∀ {listener : Listener}, n.listener = listener →
      ∀ id ∈ n.history.finished ++ listener.answering, Answered n.db id := by
    rintro listener rfl
    exact hanswered
  cases hmove with
  | publish run accepted w jobKey resultKey keyList encodedPayload payload hw hpc =>
    by_cases hget : n.db.get wasmstoreKeyList = some jobKey
    · rw [Store.compareAndSet_hit _ hget]
      exact fun id hid => (hanswered id hid).set _ (ne_wasmstoreKeyList (.inl (h.length hid)))
    · rw [Store.compareAndSet_miss _ hget]
      exact hanswered
  | store run accepted w resultKey encodedPayload payload hw hpc =>
    have hfree : payload.jobId.val ∉ n.answered := by
      simpa [keepsResults, hw, hpc] using hC
    exact fun id hid => (hanswered id hid).set _ fun hsame => hfree (hsame ▸ hid)
  | reset keyLists keyList pc db write hexec hwrite =>
    have hset : ∀ id ∈ n.answered, Answered (n.db.set wasmstoreKeyList initList) id :=
      fun id hid => (hanswered id hid).set _ (ne_wasmstoreKeyList (.inl (h.length hid)))
    rcases hwrite.db_cases with rfl | rfl
    · exact hanswered
    · exact hset
  | receive res channel hlistener hchannel =>
    have hsame := hold hlistener
    exact hsame
  | record res pc db write hlistener hwrite =>
    have hset : ∀ id ∈ n.history.finished ++ [res.jobId.val],
        Answered (n.db.set res.jobId.val
          (ResponePayload.codec.encode (res.respone n.procesorKey))) id := by
      intro id hid
      by_cases hsame : id = res.jobId.val
      · subst hsame
        exact answered_respone _ _ res
      · have hmem : id ∈ n.history.finished := by simpa [hsame] using hid
        exact (hanswered id (List.mem_append_left _ hmem)).set _ hsame
    have hsame := hold hlistener
    cases hwrite with
    | found val hget => exact hsame
    | absent hget => exact hsame
    | swapped val hget => exact hset
    | created => exact hset
    | missed val hget =>
      have hwritten : n.db.get res.jobId.val = some val := by
        simpa [keepsResults, hlistener] using hC
      exact absurd hwritten hget
  | skip jobId hlistener hget =>
    obtain ⟨results, hsome, -⟩ := h.node.db.resultList
    simp [hget] at hsome
  | read jobId value hlistener hget =>
    have hsame := hold hlistener
    exact hsame
  | appending jobId result pc pc' db hlistener hwrite =>
    have hsame := hold hlistener
    cases hwrite with
    | _ => exact hsame
  | append jobId result pc db res hlistener hwrite =>
    have hall := hold hlistener
    have hset : ∀ id ∈ n.history.finished ++ [jobId.val],
        Answered (n.db.set wasmstoreResultList result) id := fun id hid => by
      have hlength : id.length = 32 := h.length (by
        rw [Node.answered, hlistener]
        exact hid)
      exact (hall id hid).set _ (ne_wasmstoreResultList (.inl hlength))
    show ∀ id ∈ (n.history.finished ++ [jobId.val]) ++ [], Answered db id
    rw [List.append_nil]
    rcases hwrite.db_cases with rfl | rfl
    · exact hall
    · exact hset
  | _ => exact hanswered

end ResultsInv

/-- In every state that a run reaches whose steps on the node keep the results, every id that the
listener is done with is in the result list, and a response for it lies under it: the worker's
result loop finds it. -/
theorem finished_available [DecidableEq ι] {s₀ s : System T ι} (h₀ : Booted s₀) {i : ι}
    (h : Lts.ReachesBy System.step (OnNode (fun n l => keepsResults n l = true) i) s₀ s)
    {id : Bytes} (hid : id ∈ (s.nodes i).history.finished) :
    (∃ list ids, (s.nodes i).db.get wasmstoreResultList = some list ∧
      ocwDoHandlingResult list = some (.ok ids) ∧ id ∈ ids) ∧
    ∃ record q, (s.nodes i).db.get id = some record ∧ ResponePayload.decode record = some q ∧
      q.jobId.val = id := by
  have hinv : ResultsInv s.chain (s.nodes i) := by
    have hstart : (s₀.nodes i).answered = [] :=
      h₀.boot i (P := fun n => n.answered = []) fun _ _ _ => rfl
    exact node_invariant (I := ResultsInv) h ⟨h₀.nodeInv i, by simp [hstart]⟩
      (fun _ _ _ hn hchain => ⟨hn.node.grow hchain, hn.answered⟩)
      fun _ _ _ _ _ hC hn hmove => hn.move hC hmove
  obtain ⟨list, hget, hlist⟩ := hinv.node.db.resultList
  have hne : (s.nodes i).history.finished ≠ [] := List.ne_nil_of_mem hid
  refine ⟨⟨list, _, hget, by rw [hlist.handlingResult, if_neg hne], hid⟩, ?_⟩
  obtain ⟨q, hq, hqid⟩ := hinv.answered id (List.mem_append_left _ hid)
  obtain ⟨record, hrecord, hdecode⟩ := Option.bind_eq_some_iff.mp hq
  exact ⟨record, q, hrecord, hdecode, hqid⟩

/-- A job that is executed once, and whose response stays. -/
theorem finished_available_sample : ∃ s : System sampleRuntime Unit,
    Lts.Reaches System.step sampleSystem s ∧
    sampleJob.key.val ∈ (s.nodes ()).history.finished ∧
    ∃ record q, (s.nodes ()).db.get sampleJob.key.val = some record ∧
      ResponePayload.decode record = some q ∧ q.jobId.val = sampleJob.key.val := by
  have hrun : (Lts.runBy System.step (OnNode (fun n l => keepsResults n l = true) ())
      sampleSystem (sampleEnqueue 0 ++ sampleExecute ++ sampleFinish 0)).any (fun s =>
        sampleJob.key.val ∈ (s.nodes ()).history.finished) = true := by
    decide +kernel
  obtain ⟨s, hs, hend⟩ := Lts.reachesBy_of_runBy hrun
  have hfinished := of_decide_eq_true hend
  exact ⟨s, hs.reaches, hfinished, (finished_available sampleSystem_booted hs hfinished).2⟩

/-- The job still looks pending on the next block, and the worker stores its request over the
response: nothing under the id reads as a response any more. -/
theorem result_overwritten : Booted sampleSystem ∧ ∃ s : System sampleRuntime Unit,
    Lts.Reaches System.step sampleSystem s ∧
    sampleJob.key.val ∈ (s.nodes ()).history.finished ∧
    ((s.nodes ()).db.get sampleJob.key.val).bind ResponePayload.decode = none ∧
    ¬∃ record q, (s.nodes ()).db.get sampleJob.key.val = some record ∧
      ResponePayload.decode record = some q ∧ q.jobId.val = sampleJob.key.val := by
  have hrun : (Lts.run System.step sampleSystem
      (sampleEnqueue 0 ++ sampleExecute ++ sampleFinish 0 ++ sampleEnqueue 1)).any (fun s =>
        sampleJob.key.val ∈ (s.nodes ()).history.finished ∧
        ((s.nodes ()).db.get sampleJob.key.val).bind ResponePayload.decode = none) = true := by
    decide +kernel
  obtain ⟨s, hs, hend⟩ := Lts.reaches_of_run hrun
  obtain ⟨hfinished, hnone⟩ := of_decide_eq_true hend
  refine ⟨sampleSystem_booted, s, hs, hfinished, hnone, ?_⟩
  rintro ⟨record, q, hrecord, hdecode, -⟩
  simp [hrecord, hdecode] at hnone

end PolkadotOracle
