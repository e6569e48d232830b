import PolkadotOracle.Offchain.Handled
import PolkadotOracle.Offchain.Progress

/-! What a restart of the nodes leaves of a job.  They find a pending job again on the chain, unless
a job before it keeps the handler for good.  A job that was on its way is lost, and so is a result
that was not yet submitted. -/

namespace PolkadotOracle

open Exec Scale Sequence

variable {T : Config} {ι : Type} {blake2 : Bytes → FixedBytes 16}

/-- The job that a call submits a result for. -/
def Call.resultKey : Call → Option Hash
  | .submitResultUnsiged _ key _ _ _ => ((fixedBytes 32).decode key).map Prod.fst
  | _ => none

/-- The runs of the workers go through the queue in the order of the storage. -/
def Label.Iterates (blake2 : Bytes → FixedBytes 16) : Label T ι → Prop
  | .node _ l => l.Iterates blake2
  | _ => True

/-- No run that starts offers the job: it is not pending, or a job before it keeps the handler for
good. -/
def Unoffered (blake2 : Bytes → FixedBytes 16) (s : State T) (key : Hash) : Prop :=
  (∃ job, s.jobQueue.lookup key = some job ∧ job.state ≠ .pending) ∨
    ∃ key' job, s.jobQueue.lookup key' = some job ∧ Precedes blake2 key' key ∧ Stops key' job

/-- No run that starts offers the job, no submission for it is on its way, and no node has its id in
hands. -/
structure Lost (blake2 : Bytes → FixedBytes 16) (key : Hash) (s : System T ι) : Prop where
  inv : ∀ i, NodeInv s.chain (s.nodes i)
  nodes : ∀ i, (s.nodes i).Handles (· ≠ key.val)
  queue : Unoffered blake2 s.chain key
  pool : ∀ c ∈ s.pool, c.resultKey ≠ some key

section Lost

variable {key : Hash} {s s' : System T ι} {l : Label T ι}

theorem submitCall_resultKey {q : ResponePayload} (hlength : q.jobId.val.length = 32)
    (hne : q.jobId.val ≠ key.val) (blockNumber : Nat) :
    (submitCall blockNumber q).resultKey ≠ some key := by
  have hself := (fixedBytes 32).decode_encode_self ⟨q.jobId.val, hlength⟩
  have hdecode : (fixedBytes 32).decode q.jobId.val = some (⟨q.jobId.val, hlength⟩, []) := hself
  intro hkey
  simp only [submitCall, Call.resultKey, hdecode, Option.map_some] at hkey
  exact hne (congrArg Subtype.val (Option.some.inj hkey))

/-- A node submits results of ids that it handles. -/
theorem Node.Handles.calls {P : Bytes → Prop} {chain : State T} {n n' : Node T}
    {l : NodeLabel T} {calls : List Call} (h : n.Handles P) (hn : NodeInv chain n)
    (hstep : n.step chain l = some (n', calls)) {c : Call} (hc : c ∈ calls)
    (hsubmits : c.submits = true) : ∃ blockNumber q, q.jobId.val.length = 32 ∧ P q.jobId.val ∧
      c = submitCall blockNumber q := by
  have hmove := node_move hstep
  cases l with
  | worker run accepted =>
    obtain ⟨w, hw, -, rfl⟩ := Node.step_worker hstep
    rcases offchainWorker_calls hc with ⟨key, rfl⟩ | ⟨resultKey, resultKeys, q, hpc, hq, rfl⟩
    · simp [Call.submits] at hsubmits
    have hlisted := h.listed w (List.mem_of_getElem? hw)
    rw [hpc] at hlisted
    obtain ⟨hlength, hP⟩ := hlisted resultKey List.mem_cons_self
    obtain ⟨record, hget, hdecode⟩ := Option.bind_eq_some_iff.mp hq
    have hid := (hn.db.records resultKey record hlength hget).respone_id hdecode
    exact ⟨w.blockNumber, q, hid ▸ hlength, hid ▸ hP, rfl⟩
  | _ => cases hmove <;> simp at hc

/-- A call that submits no result for the job records none. -/
theorem Effect.scriptResult_other {chain chain' : State T} {origin : Origin T} {c : Call}
    (h : Effect chain origin c chain') (hc : c.resultKey ≠ some key) (pub : Public) :
    chain'.scriptResult.lookup (key, pub) = chain.scriptResult.lookup (key, pub) := by
  rcases h.scriptResult with hsame |
    ⟨_, _, _, _, processorPub, _, onchainKey, _, rfl, hkey, -, hins⟩
  · rw [hsame]
  · have hne : (key, pub) ≠ (onchainKey, processorPub) := by
      intro hplace
      obtain ⟨rfl, -⟩ := Prod.mk.inj hplace
      simp [Call.resultKey, hkey] at hc
    rw [hins, Finmap.lookup_insert_of_ne _ hne]

theorem Call.resultKey_of_not_submits {c : Call} (h : c.submits = false) : c.resultKey = none := by
  cases c with
  | submitResultUnsiged => contradiction
  | _ => rfl

/-- A job does not become pending again. -/
theorem ChainReaches.not_pending {chain chain' : State T} (h : ChainReaches chain chain')
    (hjob : ∃ job, chain.jobQueue.lookup key = some job ∧ job.state ≠ .pending) :
    ∃ job, chain'.jobQueue.lookup key = some job ∧ job.state ≠ .pending := by
  apply h.invariant (I := fun chain : State T =>
    ∃ job, chain.jobQueue.lookup key = some job ∧ job.state ≠ .pending) hjob
  rintro chain l chain' ⟨job, hjob, hstate⟩ - hstep
  cases chainStep_queueStep hstep with
  | same hqueue => exact ⟨job, hqueue ▸ hjob, hstate⟩
  | queued job' _ hfresh hqueue =>
    have hne : key ≠ job'.key := by
      rintro rfl
      rw [hfresh] at hjob
      contradiction
    exact ⟨job, by rw [hqueue, Finmap.lookup_insert_of_ne _ hne, hjob], hstate⟩
  | advanced key' job' hjob' hqueue =>
    by_cases hkey : key = key'
    · subst hkey
      obtain rfl := Option.some.inj (hjob.symm.trans hjob')
      refine ⟨job.advance, by rw [hqueue, Finmap.lookup_insert], ?_⟩
      revert hstate
      simp only [OcwJob.advance]
      cases job.state <;> decide
    · exact ⟨job, by rw [hqueue, Finmap.lookup_insert_of_ne _ hkey, hjob], hstate⟩

/-- A job that keeps the handler for good goes on to do so. -/
theorem Stops.call {chain : State T} {origin : Origin T} {c : Call} {job : OcwJob T}
    (h : Stops key job) (hjob : chain.jobQueue.lookup key = some job)
    (hadmissible : admissible chain origin c = true) :
    ∃ job', (chain.call origin c).jobQueue.lookup key = some job' ∧ Stops key job' := by
  have heffect := call_effect chain origin c
  generalize chain.call origin c = chain' at heffect
  cases heffect with
  | @request _ _ _ _ _ job₁ _ _ _ _ _ _ _ _ hfresh =>
    have hne : key ≠ job₁.key := by
      rintro rfl
      rw [hfresh] at hjob
      contradiction
    exact ⟨job, (Finmap.lookup_insert_of_ne _ hne).trans hjob, h⟩
  | @advance blockNumber key₁ job₁ hjob₁ =>
    by_cases hne : key = key₁
    case neg => exact ⟨job, (Finmap.lookup_insert_of_ne _ hne).trans hjob, h⟩
    subst hne
    obtain rfl := Option.some.inj (hjob.symm.trans hjob₁)
    refine ⟨job.advance, Finmap.lookup_insert _, ?_⟩
    rcases h with hfinish | ⟨-, hclear⟩
    · exact .inl (by simp [OcwJob.advance, JobState.advance, hfinish])
    · -- The validation refuses the state change of this id.
      simp only [admissible, validateUnsigned, validateUnsigedTransaction, hclear] at hadmissible
      split at hadmissible <;> simp [Validity.accepts] at hadmissible
  | _ => exact ⟨job, hjob, h⟩

/-- Calls and blocks do not bring a run to the job. -/
theorem Unoffered.call {chain : State T} {origin : Origin T} {c : Call}
    (h : Unoffered blake2 chain key) (hadmissible : admissible chain origin c = true) :
    Unoffered blake2 (chain.call origin c) key := by
  rcases h with hjob | ⟨key', job, hjob, hprecedes, hstops⟩
  · exact .inl (((ChainReaches.refl chain).call origin c).not_pending hjob)
  · obtain ⟨job', hjob', hstops'⟩ := hstops.call hjob hadmissible
    exact .inr ⟨key', job', hjob', hprecedes, hstops'⟩

/-- A run that starts comes to another job. -/
theorem Unoffered.start {chain : State T} {jobs : AList fun _ : Hash => OcwJob T} {key' : Hash}
    {job : OcwJob T} (h : Unoffered blake2 chain key) (hjobs : jobs.toFinmap = chain.jobQueue)
    (horder : Iteration.Ascending (storageKey blake2) jobs.entries)
    (hcomes : ComesTo jobs.entries ⟨key', job⟩) (hstate : job.state = .pending) :
    key'.val ≠ key.val := by
  intro hsame
  obtain rfl : key' = key := Subtype.ext hsame
  have hjob := (mem_entries_iff hjobs key' job).mpr hcomes.mem
  rcases h with ⟨job', hjob', hne⟩ | ⟨key₁, job₁, hjob₁, hprecedes, hstops⟩
  · obtain rfl := Option.some.inj (hjob.symm.trans hjob')
    exact hne hstate
  · obtain ⟨hpending, hfinish⟩ := hcomes.passes hjobs horder key₁ job₁ hjob₁ hprecedes
    rcases hstops with hstop | ⟨hstop, -⟩
    · exact hfinish hstop
    · exact hpending hstop

/-- Nodes that have just started have nothing in hands. -/
theorem Booted.lost (h : Booted s) (hqueue : Unoffered blake2 s.chain key)
    (hpool : ∀ c ∈ s.pool, c.resultKey ≠ some key) : Lost blake2 key s :=
  ⟨h.nodeInv, fun i => h.boot i fun db procesorKey ranAt =>
    Node.Handles.boot db procesorKey ranAt, hqueue, hpool⟩

variable [DecidableEq ι]

/-- A step of the system does not bring the job back. -/
theorem Lost.step (h : Lost blake2 key s) (hworkers : ResultsFromWorkers l)
    (hiterates : l.Iterates blake2) (hstep : s.step l = some s') :
    Lost blake2 key s' ∧ ∀ pub, s'.chain.scriptResult.lookup (key, pub) =
      s.chain.scriptResult.lookup (key, pub) := by
  have hmove := system_move hstep
  have hchain := hmove.chain_reaches
  cases l with
  | node i l =>
    obtain ⟨n, calls, hn, rfl⟩ := System.step_node hstep
    have hstart : ∀ jobs, l = .start jobs → ∀ key' job, ComesTo jobs.entries ⟨key', job⟩ →
        job.state = .pending → key'.val ≠ key.val := by
      rintro jobs rfl key' job hcomes hstate
      cases node_move hn with
      | start _ hjobs hblock => exact h.queue.start hjobs hiterates hcomes hstate
    refine ⟨⟨forall_nodes_update ((h.inv i).move (node_move hn)) h.inv,
      forall_nodes_update ((h.nodes i).step (h.inv i) hstart hn) h.nodes, h.queue,
      fun c hc => ?_⟩, fun _ => rfl⟩
    rcases List.mem_append.mp hc with hc | hc
    · exact h.pool c hc
    cases hsubmits : c.submits with
    | false => simp [Call.resultKey_of_not_submits hsubmits]
    | true =>
      obtain ⟨blockNumber, q, hlength, hne, rfl⟩ := (h.nodes i).calls (h.inv i) hn hc hsubmits
      exact submitCall_resultKey hlength hne blockNumber
  | block invulnerables =>
    cases hmove
    exact ⟨⟨fun i => (h.inv i).grow hchain, h.nodes, h.queue, h.pool⟩, fun _ => rfl⟩
  | extrinsic origin c =>
    cases hmove with
    | extrinsic _ _ hadmissible =>
      have hkey : c.resultKey ≠ some key := by
        simp [Call.resultKey_of_not_submits hworkers]
      exact ⟨⟨fun i => (h.inv i).grow hchain, h.nodes, h.queue.call hadmissible, h.pool⟩,
        (call_effect s.chain origin c).scriptResult_other hkey⟩
  | inclusion k =>
    cases hmove with
    | inclusion _ c hpool hadmissible =>
      have hkey := h.pool c (List.mem_of_getElem? hpool)
      exact ⟨⟨fun i => (h.inv i).grow hchain, h.nodes, h.queue.call hadmissible,
          fun c hc => h.pool c (List.eraseIdx_subset hc)⟩,
        (call_effect s.chain .none c).scriptResult_other hkey⟩

/-- Neither does the start of a node. -/
theorem Lost.restart (h : Lost blake2 key s) (i : ι) (procesorKey : Option Public) (ranAt : Nat) :
    Lost blake2 key (s.restart i procesorKey ranAt) :=
  ⟨forall_nodes_update (NodeInv.boot (h.inv i).db.records procesorKey ranAt) h.inv,
    forall_nodes_update (Node.Handles.boot (s.nodes i).db procesorKey ranAt) h.nodes, h.queue,
    h.pool⟩

theorem Lost.unrecorded {C : System T ι → Label T ι → Prop} {d₀ d : Deployment T ι}
    (h : Lost blake2 key d₀.system) (hC : ∀ s l, C s l → ResultsFromWorkers l)
    (hiterates : ∀ s l, C s l → l.Iterates blake2)
    (hreach : Lts.ReachesBy Deployment.step (Meets C) d₀ d) (pub : Public) :
    d.system.chain.scriptResult.lookup (key, pub) =
      d₀.system.chain.scriptResult.lookup (key, pub) := by
  refine (hreach.invariant (I := fun d => Lost blake2 key d.system ∧
    d.system.chain.scriptResult.lookup (key, pub) =
      d₀.system.chain.scriptResult.lookup (key, pub)) ⟨h, rfl⟩ ?_).2
  rintro d e d' ⟨hlost, hsame⟩ hmeets hstep
  cases deployment_move hstep with
  | step l system hl =>
    obtain ⟨hlost', hkeeps⟩ := hlost.step (hC _ _ hmeets) (hiterates _ _ hmeets) hl
    exact ⟨hlost', (hkeeps pub).trans hsame⟩
  | restart i procesorKey ranAt => exact ⟨hlost.restart i procesorKey ranAt, hsame⟩

end Lost

/-- A run of the system is one of a deployment. -/
theorem deployment_of_reaches [DecidableEq ι] {C C' : System T ι → Label T ι → Prop}
    {s s' : System T ι} (h : Lts.ReachesBy System.step C s s') (hsub : ∀ s l, C s l → C' s l)
    (answers : List (ι × ResponePayload)) :
    ∃ answers', Lts.ReachesBy Deployment.step (Meets C') ⟨s, answers⟩ ⟨s', answers'⟩ := by
  induction h with
  | refl => exact ⟨answers, Lts.ReachesBy.refl _⟩
  | @tail t t' _ hnext ih =>
    obtain ⟨l, hC, hstep⟩ := hnext
    obtain ⟨answers', hreach⟩ := ih
    refine ⟨answers' ++ t.answers l, hreach.tail (l := .step l) (hsub t l hC) ?_⟩
    simp [Deployment.step, hstep]

/-- Results are submitted by the workers only, tasks return what their scripts may return, and the
runs of the workers go through the queue in the order of the storage. -/
def Regularly [DecidableEq ι] (blake2 : Bytes → FixedBytes 16) (Runs : Execution)
    (s : System T ι) (l : Label T ι) : Prop :=
  Honestly Runs s l ∧ l.Iterates blake2

theorem Alone.regularly [DecidableEq ι] {Runs : Execution} {i : ι} {s : System T ι}
    {l : Label T ι} (h : Alone blake2 Runs i s l) : Regularly blake2 Runs s l := by
  cases l with
  | extrinsic => exact h.elim
  | node j l =>
    obtain ⟨rfl, hC, -⟩ := h
    exact ⟨⟨trivial, hC.1⟩, hC.2⟩
  | _ => exact ⟨⟨trivial, trivial⟩, trivial⟩

/-- A result of the job that is not on the chain can still come to it. -/
def Recoverable [DecidableEq ι] (blake2 : Bytes → FixedBytes 16) (Runs : Execution)
    (s : System T ι) (key : Hash) : Prop :=
  ∃ d pub, Lts.ReachesBy Deployment.step (Meets (Regularly blake2 Runs)) ⟨s, []⟩ d ∧
    d.system.chain.scriptResult.lookup (key, pub) ≠ s.chain.scriptResult.lookup (key, pub)

/-- After a restart of all nodes, on whatever their earlier lives have left in storage and on the
chain, a result of a job can still come to the chain exactly when the job is pending and no job
before it, in the storage's order, keeps the handler for good.  No submission for the job is in the
pool, and the job has a result that fits. -/
theorem recoverable_iff [DecidableEq ι] {Env : Executor.Host → Prop} {s : System T ι}
    (hchain : ChainReaches (State.genesis T) s.chain) (hboot : Booted s) (i : ι) {key : Hash}
    {job : OcwJob T} (hjob : s.chain.jobQueue.lookup key = some job)
    (hpool : ∀ c ∈ s.pool, c.resultKey ≠ some key) (hkey : key.isClear = false)
    {result : Vec} {extTime : UInt32}
    (hruns : RunsIn Env (requestOf key job.asPending) result extTime)
    (hsize : result.val.length ≤ T.maxResultSize.toNat) :
    Recoverable blake2 (RunsIn Env) s key ↔
      job.state = .pending ∧ Unblocked blake2 s.chain key := by
  constructor
  · rintro ⟨d, pub, hreach, hnew⟩
    by_contra hnot
    have hqueue : Unoffered blake2 s.chain key := by
      by_cases hstate : job.state = .pending
      case neg => exact .inl ⟨job, hjob, hstate⟩
      simp only [hstate, true_and, Unblocked, not_forall, not_not] at hnot
      obtain ⟨key', job', hjob', hprecedes, hstops⟩ := hnot
      exact .inr ⟨key', job', hjob', hprecedes, hstops⟩
    have hlost : Lost blake2 key (Deployment.mk s []).system := hboot.lost hqueue hpool
    exact hnew (hlost.unrecorded (fun _ _ hC => hC.1.1) (fun _ _ hC => hC.2) hreach pub)
  · rintro ⟨hstate, hunblocked⟩
    have hnone : ∀ pub, s.chain.scriptResult.lookup (key, pub) = none := by
      intro pub
      by_contra hsome
      obtain ⟨result', hresult'⟩ := Option.ne_none_iff_exists'.mp hsome
      obtain ⟨job', hjob', hfinish⟩ := hchain.resultInv key pub result' hresult'
      obtain rfl := Option.some.inj (hjob'.symm.trans hjob)
      simp [hstate] at hfinish
    have hresults : (s.nodes i).results.Nodup :=
      hboot.boot (P := fun n => n.results.Nodup) i fun db procesorKey ranAt => by
        simp [Node.results, Node.boot, Listener.current]
    rw [OcwJob.asPending_of_pending hstate] at hruns
    obtain ⟨s', hreach, hresult⟩ :=
      (hboot.nodeInv i).recordable hresults hjob hstate hunblocked hkey hruns hsize
    obtain ⟨answers, hdeployed⟩ := deployment_of_reaches hreach
      (fun _ _ hC => Alone.regularly hC) []
    refine ⟨⟨s', answers⟩, (s.nodes i).procesorKey, hdeployed, ?_⟩
    rw [hnone, hresult]
    simp

/-- The node starts with the job of account 1 before the one of account 2, both pending. -/
def sampleFollowing : System sampleRuntime Unit := { sampleSystem with chain := sampleBehind }

theorem sampleFollowing_booted : Booted sampleFollowing := by
  refine fun _ => ⟨Store.empty, none, 0, rfl, fun id record _ hget => ?_⟩
  simp [Store.empty, Store.get] at hget

theorem sampleBehind_reached : ChainReaches (State.genesis sampleRuntime) sampleBehind :=
  sampleQueue_reached.call _ _

/-- The job of account 1 has finished, its result is in the node's storage when the node starts, and
the job of account 2 is behind it. -/
def sampleStranded : System sampleRuntime Unit where
  chain := sampleWaiting
  pool := []
  nodes _ := Node.boot (Store.empty.set sampleJob.key.val (ResponePayload.codec.encode
    (JobResult.respone (FixedBytes.zero 32) ⟨sampleJob.key.toVec, sampleOutcome.1, 7⟩))) none 0
  changed := []

theorem sampleStranded_booted : Booted sampleStranded := by
  refine fun _ => ⟨_, none, 0, rfl, fun id record _ hget => ?_⟩
  by_cases hid : id = sampleJob.key.val
  · subst hid
    rw [Store.get_set_same] at hget
    obtain rfl := Option.some.inj hget
    exact .respone _ rfl rfl
  · rw [Store.get_set_ne _ _ hid] at hget
    simp [Store.empty, Store.get] at hget

theorem recoverable_iff_sample :
    Recoverable sampleBlake (RunsIn (· = answeringHost)) sampleFollowing sampleWaitingJob.key ∧
    ¬Recoverable sampleBlake (RunsIn (· = answeringHost)) sampleStranded sampleJob.key ∧
    ¬Recoverable sampleBlake (RunsIn (· = answeringHost)) sampleStranded sampleWaitingJob.key := by
  have hfinished : sampleWaiting.jobQueue.lookup sampleJob.key =
      some { sampleJob with state := .finish } := by decide +kernel
  have hwaiting : sampleWaiting.jobQueue.lookup sampleWaitingJob.key = some sampleWaitingJob := by
    decide +kernel
  refine ⟨?_, ?_, ?_⟩
  · have hbehind : sampleFollowing.chain.jobQueue.lookup sampleWaitingJob.key =
        some sampleWaitingJob := by decide +kernel
    exact (recoverable_iff sampleBehind_reached sampleFollowing_booted () hbehind
      (by simp [sampleFollowing, sampleSystem]) (by decide) sampleWaiting_runsIn (by decide)).mpr
      ⟨rfl, sampleBehind_unblocked rfl _⟩
  · refine (recoverable_iff sampleWaiting_reached sampleStranded_booted () hfinished
      (by simp [sampleStranded]) (by decide) (sampleRuns_runsIn ⟨rfl, rfl⟩)
      (by decide)).not.mpr ?_
    rintro ⟨hstate, -⟩
    contradiction
  · refine (recoverable_iff sampleWaiting_reached sampleStranded_booted () hwaiting
      (by simp [sampleStranded]) (by decide) sampleWaiting_runsIn (by decide)).not.mpr ?_
    rintro ⟨-, hunblocked⟩
    exact hunblocked sampleJob.key _ hfinished (by decide) (.inl rfl)

end PolkadotOracle
