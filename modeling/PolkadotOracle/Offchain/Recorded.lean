import PolkadotOracle.Executor.Task
import PolkadotOracle.Offchain.Completion
import PolkadotOracle.Offchain.Delivery
import PolkadotOracle.Offchain.Provenance
import PolkadotOracle.Pallet.Unsigned

/-! Where a result on the chain comes from.  In a run whose results come from the workers, each one
is what the script of its own job has returned on a node with the key that it is recorded under, or
the code of that job, from a request that has been read as a response. -/

namespace PolkadotOracle

open Exec Scale Sequence

variable {T : Config} {ι : Type}

/-! ### The system -/

/-- What a submission may carry: an answer, or a request that reads as a response. -/
def Attested (Answer : ResponePayload → Prop) (chain : State T) (q : ResponePayload) : Prop :=
  Answer q ∨ ∃ p, Requests chain p ∧ ResponePayload.decode (RequestPayload.codec.encode p) = some q

def Call.submits : Call → Bool
  | submitResultUnsiged .. => true
  | _ => false

/-- Results come from the workers, through the pool, only. -/
def ResultsFromWorkers : Label T ι → Prop
  | .extrinsic _ c => c.submits = false
  | _ => True

/-- The tasks of every node return what their scripts may return. -/
def ExecutesAll (Runs : Execution) (s : System T ι) : Label T ι → Prop
  | .node i l => Executes Runs (s.nodes i) l
  | _ => True

instance : ∀ l : Label T ι, Decidable (ResultsFromWorkers l)
  | .extrinsic _ c => inferInstanceAs (Decidable (c.submits = false))
  | .block _ => .isTrue trivial
  | .inclusion _ => .isTrue trivial
  | .node _ _ => .isTrue trivial

instance (Runs : Execution) [∀ p result extTime, Decidable (Runs p result extTime)]
    (s : System T ι) : ∀ l, Decidable (ExecutesAll Runs s l)
  | .node i l => inferInstanceAs (Decidable (Executes Runs (s.nodes i) l))
  | .block _ => .isTrue trivial
  | .extrinsic _ _ => .isTrue trivial
  | .inclusion _ => .isTrue trivial

/-- Results come from the workers, which submit what the tasks return. -/
def Honestly (Runs : Execution) (s : System T ι) (l : Label T ι) : Prop :=
  ResultsFromWorkers l ∧ ExecutesAll Runs s l

instance (Runs : Execution) [∀ p result extTime, Decidable (Runs p result extTime)]
    (s : System T ι) (l : Label T ι) : Decidable (Honestly Runs s l) :=
  inferInstanceAs (Decidable (_ ∧ _))

/-- Every result on the chain or on its way there is attested. -/
structure ResultTrace (Answer : ResponePayload → Prop) (s : System T ι) : Prop where
  nodes : ∀ i, TraceInv Answer s.chain (s.nodes i)
  pool : ∀ c ∈ s.pool, c.submits = true → ∃ blockNumber q, Attested Answer s.chain q ∧
    c = submitCall blockNumber q
  results : ∀ key pub result, s.chain.scriptResult.lookup (key, pub) = some result →
    ∃ q, Attested Answer s.chain q ∧ q.jobId.val = key.val ∧ q.address = pub ∧
      q.jobResult.val = result.resultData.val ∧ q.exeTime = result.extTime

section ResultTrace

variable {Runs : Execution} {Answer Answer' : ResponePayload → Prop} {s s' : System T ι}
  {l : Label T ι} {q : ResponePayload} {chain chain' : State T}

/-- A request that reads as a response has its job's code for the result. -/
theorem ResponePayload.decode_request_some {p : RequestPayload}
    (h : ResponePayload.decode (RequestPayload.codec.encode p) = some q) :
    q.jobId = p.jobId ∧ q.jobResult = p.jobContent ∧ ¬p.Apart := by
  have hapart : ¬p.Apart := fun hapart => by
    rw [(ResponePayload.decode_request_iff p).mpr hapart] at h
    contradiction
  have hencode : RequestPayload.codec.encode p = vec.encode p.jobId ++ (vec.encode p.jobContent ++
      (vec.encode p.contentAbi ++ JobState.codec.encode p.jobState)) := rfl
  simp only [ResponePayload.decode, hencode, ResponePayload.codec, Codec.map,
    Codec.prod_decode_append, Option.map_map, Option.map_eq_some_iff] at h
  obtain ⟨_, -, rfl⟩ := h
  exact ⟨rfl, rfl, hapart⟩

/-- What reads as a response under an id names that id. -/
theorem RecordOk.respone_id {chain : State T} {id record : Bytes} {q : ResponePayload}
    (h : RecordOk chain id record) (hdecode : ResponePayload.decode record = some q) :
    q.jobId.val = id := by
  cases h with
  | request p hp hid => rw [(ResponePayload.decode_request_some hdecode).1, hid]
  | respone q' hfinish hid =>
    rw [ResponePayload.decode_encode] at hdecode
    obtain rfl := Option.some.inj hdecode
    exact hid

/-- An answer reads as itself, and a request that reads as a response is attested too. -/
theorem TraceInv.attested {n : Node T} (h : TraceInv Answer chain n) {id : Bytes}
    (hid : id.length = 32) (hget : (n.db.get id).bind ResponePayload.decode = some q) :
    Attested Answer chain q := by
  obtain ⟨record, hrecord, hdecode⟩ := Option.bind_eq_some_iff.mp hget
  cases h.records id record hid hrecord with
  | request p hp _ => exact .inr ⟨p, hp, hdecode⟩
  | respone q' hq' _ =>
    rw [ResponePayload.decode_encode] at hdecode
    obtain rfl := Option.some.inj hdecode
    exact .inl hq'

theorem Attested.grow (h : Attested Answer chain q) (hchain : ChainReaches chain chain') :
    Attested Answer chain' q :=
  h.imp_right fun ⟨p, hp, hdecode⟩ => ⟨p, hp.grow hchain, hdecode⟩

theorem Attested.jobId_length (h : Attested Answer chain q)
    (hanswers : ∀ q, Answer q → Executed Runs chain q) : q.jobId.val.length = 32 := by
  rcases h with hq | ⟨p, hp, hdecode⟩
  · obtain ⟨p, hp, hid, -⟩ := hanswers q hq
    exact (congrArg (fun v => v.val.length) hid).trans hp.length
  · rw [(ResponePayload.decode_request_some hdecode).1]
    exact hp.length

/-- What enters the pool from a node. -/
theorem TraceInv.calls_step {n n' : Node T} {l : NodeLabel T} {calls : List Call}
    (h : TraceInv Answer chain n) (hstep : n.step chain l = some (n', calls))
    {c : Call} (hc : c ∈ calls) (hsubmits : c.submits = true) :
    ∃ blockNumber q, Attested Answer chain q ∧ c = submitCall blockNumber q := by
  have hmove := node_move hstep
  cases l with
  | worker run accepted =>
    obtain ⟨w, hw, -, rfl⟩ := Node.step_worker hstep
    rcases offchainWorker_calls hc with ⟨key, rfl⟩ | ⟨resultKey, resultKeys, q, hpc, hq, rfl⟩
    · simp [Call.submits] at hsubmits
    · have hlisted := h.workers w (List.mem_of_getElem? hw)
      rw [hpc] at hlisted
      exact ⟨w.blockNumber, q, h.attested (hlisted resultKey List.mem_cons_self).1 hq, rfl⟩
  | _ => cases hmove <;> simp at hc

/-- A call that records a result submits it. -/
theorem Effect.scriptResult {origin : Origin T} {c : Call} (h : Effect chain origin c chain') :
    chain'.scriptResult = chain.scriptResult ∨
      ∃ blockNumber key value rest processorPub extTime onchainKey, ∃ resultData,
        c = .submitResultUnsiged blockNumber key value processorPub extTime ∧
        (fixedBytes 32).decode key = some (onchainKey, rest) ∧ resultData.val = value ∧
        chain'.scriptResult =
          chain.scriptResult.insert (onchainKey, processorPub) ⟨resultData, extTime⟩ := by
  cases h with
  | record hkey hjob hfinish hdata =>
    exact .inr ⟨_, _, _, _, _, _, _, _, rfl, hkey, hdata, rfl⟩
  | _ => exact .inl rfl

theorem ResultTrace.mono (h : ResultTrace Answer s) (hsub : ∀ q, Answer q → Answer' q) :
    ResultTrace Answer' s where
  nodes i := (h.nodes i).mono hsub
  pool c hc hsubmits := by
    obtain ⟨blockNumber, q, hq, rfl⟩ := h.pool c hc hsubmits
    exact ⟨blockNumber, q, hq.imp_left (hsub q), rfl⟩
  results key pub result hresult := by
    obtain ⟨q, hq, hresult⟩ := h.results key pub result hresult
    exact ⟨q, hq.imp_left (hsub q), hresult⟩

/-- A step after which the results are the same. -/
theorem ResultTrace.keep (h : ResultTrace Answer s) (hchain : ChainReaches s.chain s'.chain)
    (hnodes : ∀ i, TraceInv Answer s'.chain (s'.nodes i))
    (hpool : ∀ c ∈ s'.pool, c.submits = true → c ∈ s.pool ∨
      ∃ blockNumber q, Attested Answer s.chain q ∧ c = submitCall blockNumber q)
    (hresults : s'.chain.scriptResult = s.chain.scriptResult) : ResultTrace Answer s' := by
  refine ⟨hnodes, fun c hc hsubmits => ?_, fun key pub result hresult => ?_⟩
  · have hold : ∃ blockNumber q, Attested Answer s.chain q ∧ c = submitCall blockNumber q :=
      (hpool c hc hsubmits).elim (fun hc => h.pool c hc hsubmits) id
    obtain ⟨blockNumber, q, hq, rfl⟩ := hold
    exact ⟨blockNumber, q, hq.grow hchain, rfl⟩
  · obtain ⟨q, hq, hresult⟩ := h.results key pub result (hresults ▸ hresult)
    exact ⟨q, hq.grow hchain, hresult⟩

/-- A block includes a submission of the pool. -/
theorem ResultTrace.inclusion (h : ResultTrace Answer s)
    (hanswers : ∀ q, Answer q → Executed Runs s.chain q) {k : Nat} {c : Call}
    (hpool : s.pool[k]? = some c) (hreach : ChainReaches s.chain s'.chain)
    (hnodes : ∀ i, TraceInv Answer s'.chain (s'.nodes i)) (hsub : s'.pool ⊆ s.pool)
    (hchain : s'.chain = s.chain.call .none c) : ResultTrace Answer s' := by
  have heffect := hchain ▸ call_effect s.chain .none c
  rcases heffect.scriptResult with hsame |
    ⟨blockNumber, key, value, rest, pub, extTime, onchainKey, resultData, rfl, hkey, hdata, hins⟩
  · exact h.keep hreach hnodes (fun c hc _ => .inl (hsub hc)) hsame
  obtain ⟨blockNumber', q, hq, hcall⟩ := h.pool _ (List.mem_of_getElem? hpool) rfl
  obtain ⟨-, rfl, rfl, rfl, rfl⟩ := Call.submitResultUnsiged.inj hcall
  have honchain : q.jobId.val = onchainKey.val := by
    have hlength := hq.jobId_length hanswers
    have hself := (fixedBytes 32).decode_encode_self ⟨q.jobId.val, hlength⟩
    have hsome : (fixedBytes 32).decode q.jobId.val = some (⟨q.jobId.val, hlength⟩, []) := hself
    obtain ⟨rfl, -⟩ := Prod.mk.inj (Option.some.inj (hsome.symm.trans hkey))
    rfl
  refine ⟨hnodes, fun c hc hsubmits => ?_, fun key pub result hresult => ?_⟩
  · obtain ⟨blockNumber, q, hq, rfl⟩ := h.pool c (hsub hc) hsubmits
    exact ⟨blockNumber, q, hq.grow hreach, rfl⟩
  · rw [hins] at hresult
    rcases Finmap.lookup_insert_iff.mp hresult with ⟨hsame, rfl⟩ | ⟨-, hresult⟩
    · obtain ⟨rfl, rfl⟩ := Prod.mk.inj hsame
      exact ⟨q, hq.grow hreach, honchain, rfl, hdata.symm, rfl⟩
    · obtain ⟨q', hq', hresult⟩ := h.results key pub result hresult
      exact ⟨q', hq'.grow hreach, hresult⟩

/-- A step of the system keeps the invariant when what it produces is among the answers. -/
theorem ResultTrace.step [DecidableEq ι] (h : ResultTrace Answer s)
    (hanswers : ∀ q, Answer q → Executed Runs s.chain q)
    (hnew : ∀ i q, (i, q) ∈ s.answers l → Answer q) (hworkers : ResultsFromWorkers l)
    (hstep : s.step l = some s') : ResultTrace Answer s' := by
  have hmove := system_move hstep
  have hchain := hmove.chain_reaches
  cases l with
  | node i l =>
    obtain ⟨n, calls, hn, rfl⟩ := System.step_node hstep
    have hproduces : ∀ res ∈ (s.nodes i).produces l,
        Answer (res.respone (s.nodes i).procesorKey) := fun res hres =>
      hnew i _ (List.mem_map.mpr ⟨res, Option.mem_toList.mpr hres, rfl⟩)
    refine h.keep hchain (forall_nodes_update ((h.nodes i).step hproduces hn) h.nodes)
      (fun c hc hsubmits => ?_) rfl
    rcases List.mem_append.mp hc with hc | hc
    · exact .inl hc
    · exact .inr ((h.nodes i).calls_step hn hc hsubmits)
  | block invulnerables =>
    cases hmove
    exact h.keep hchain (fun i => (h.nodes i).grow hchain) (fun c hc _ => .inl hc) rfl
  | extrinsic origin c =>
    cases hmove
    refine h.keep hchain (fun i => (h.nodes i).grow hchain) (fun c hc _ => .inl hc) ?_
    rcases (call_effect s.chain origin c).scriptResult with hsame |
      ⟨_, _, _, _, _, _, _, _, rfl, -⟩
    · exact hsame
    · simp [ResultsFromWorkers, Call.submits] at hworkers
  | inclusion k =>
    cases hmove with
    | inclusion _ c hpool hadmissible =>
      exact h.inclusion hanswers hpool hchain (fun i => (h.nodes i).grow hchain)
        List.eraseIdx_subset rfl

/-- The start of a node brings nothing new. -/
theorem ResultTrace.restart [DecidableEq ι] (h : ResultTrace Answer s) (i : ι)
    (procesorKey : Option Public) (ranAt : Nat) :
    ResultTrace Answer (s.restart i procesorKey ranAt) := by
  have hn := h.nodes i
  have hboot := TraceInv.boot hn.node.db.records hn.records procesorKey ranAt
  exact h.keep (ChainReaches.refl _) (forall_nodes_update hboot h.nodes) (fun c hc _ => .inl hc) rfl

end ResultTrace

/-! ### Results on the chain -/

/-- A script may return what it does in an environment of the nodes. -/
def RunsIn (Env : Executor.Host → Prop) : Execution := fun p result extTime =>
  ∃ host, Env host ∧ Executor.outcomeOf host extTime p = some (result, extTime)

/-- The task for `p` ends with a result in an environment of the nodes. -/
def ReturnsIn (Env : Executor.Host → Prop) (p : RequestPayload) (result : Bytes)
    (extTime : UInt32) : Prop :=
  ∃ host, Env host ∧ Returns (Executor.runTask host extTime p)
    (.sent ⟨p.jobId, result, extTime⟩)

theorem RunsIn.returns {Env : Executor.Host → Prop} {p : RequestPayload} {result : Vec}
    {extTime : UInt32} (h : RunsIn Env p result extTime) : ReturnsIn Env p result.val extTime := by
  obtain ⟨host, henv, houtcome⟩ := h
  obtain ⟨abi, habi, hreturns, -⟩ := Executor.outcomeOf_eq_some.mp houtcome
  exact ⟨host, henv, Executor.returns_runTask.mpr ⟨abi, _, habi, hreturns, rfl⟩⟩

/-- A node starts with no records. -/
def Fresh (s : System T ι) : Prop :=
  ∀ i id, id.length = 32 → (s.nodes i).db.get id = none

theorem Launched.resultTrace {s : System T ι} (h : Launched s) (hfresh : Fresh s) :
    ResultTrace (fun _ => False) s := by
  refine ⟨fun i => ?_, by simp [h.pool], fun key pub result hresult => ?_⟩
  · obtain ⟨db, procesorKey, ranAt, hboot, hleftover⟩ := h.booted i
    have hdb : ∀ id, id.length = 32 → db.get id = none := fun id hid => by
      rw [← runExecutor_get_id db procesorKey hid, ← hfresh i id hid, hboot]
      rfl
    rw [hboot]
    refine TraceInv.boot hleftover (fun id record hid hget => ?_) procesorKey ranAt
    rw [hdb id hid] at hget
    contradiction
  · simp [h.chain, State.genesis] at hresult

/-- The answers that the nodes have given in all their lives. -/
def Deployment.Answered (d : Deployment T ι) (q : ResponePayload) : Prop :=
  ∃ i, (i, q) ∈ d.answers

/-- All answers are of scripts of queued jobs, and all results are attested by them. -/
structure DeploymentTrace (Runs : Execution) (d : Deployment T ι) : Prop where
  trace : ResultTrace d.Answered d.system
  executed : ∀ q, d.Answered q → Executed Runs d.system.chain q

/-- What a step produces is what the script of a queued job may return. -/
theorem System.answers_executed {Runs : Execution} {s : System T ι} {l : Label T ι}
    (h : ∀ i, NodeInv s.chain (s.nodes i)) (hC : ExecutesAll Runs s l) {i : ι}
    {q : ResponePayload} (hq : (i, q) ∈ s.answers l) : Executed Runs s.chain q := by
  cases l with
  | node j l =>
    obtain ⟨res, hres, hsame⟩ := List.mem_map.mp hq
    obtain ⟨rfl, rfl⟩ := Prod.mk.inj hsame
    exact (h j).executed hC (Option.mem_toList.mp hres) _
  | _ => simp [System.answers] at hq

section Deployment

variable [DecidableEq ι] {Runs : Execution} {d d' : Deployment T ι}

theorem DeploymentTrace.step (h : DeploymentTrace Runs d) {e : Incident T ι}
    (hC : Meets (Honestly Runs) d e) (hstep : d.step e = some d') : DeploymentTrace Runs d' := by
  cases deployment_move hstep with
  | step l system hl =>
    obtain ⟨hworkers, hexecutes⟩ := hC
    have hchain := (system_move hl).chain_reaches
    have hanswered : ∀ q, (Deployment.mk system (d.answers ++ d.system.answers l)).Answered q →
        Executed Runs d.system.chain q := by
      rintro q ⟨i, hq⟩
      rcases List.mem_append.mp hq with hq | hq
      · exact h.executed q ⟨i, hq⟩
      · exact System.answers_executed (fun i => (h.trace.nodes i).node) hexecutes hq
    have hwider : ResultTrace (Deployment.mk system (d.answers ++ d.system.answers l)).Answered
        d.system := h.trace.mono fun q ⟨i, hq⟩ => ⟨i, List.mem_append_left _ hq⟩
    exact ⟨hwider.step hanswered (fun i q hq => ⟨i, List.mem_append_right _ hq⟩) hworkers hl,
      fun q hq => (hanswered q hq).grow hchain⟩
  | restart i procesorKey ranAt => exact ⟨h.trace.restart i procesorKey ranAt, h.executed⟩

theorem Launched.deploymentTrace {s₀ : System T ι} (h₀ : Launched s₀) (hfresh : Fresh s₀)
    (h : Lts.ReachesBy Deployment.step (Meets (Honestly Runs)) ⟨s₀, []⟩ d) :
    DeploymentTrace Runs d := by
  apply h.invariant
  · refine ⟨(h₀.resultTrace hfresh).mono fun q hq => hq.elim, ?_⟩
    rintro q ⟨i, hq⟩
    simp at hq
  · intro d e d' hd hC hstep
    exact hd.step hC hstep

end Deployment

/-- The source of a result of a queued job. -/
theorem DeploymentTrace.source {Runs : Execution} {d : Deployment T ι}
    (h : DeploymentTrace Runs d) {key : Hash} {pub : Public} {result : SignedScriptResult T}
    {job : OcwJob T} (hjob : d.system.chain.jobQueue.lookup key = some job)
    (hresult : d.system.chain.scriptResult.lookup (key, pub) = some result) :
    (∃ i, (i, JobResult.respone pub ⟨key.toVec, toVec result.resultData, result.extTime⟩) ∈
        d.answers ∧
      Runs (requestOf key job.asPending) (toVec result.resultData) result.extTime) ∨
    result.resultData.val = job.wasmCode.val ∧ ¬(requestOf key job.asPending).Apart := by
  have hrequest : Requests d.system.chain (requestOf key job.asPending) := ⟨key, job, hjob, rfl⟩
  obtain ⟨q, hq, hid, hpub, hdata, htime⟩ := h.trace.results key pub result hresult
  rcases hq with ⟨i, hq⟩ | ⟨p, hp, hdecode⟩
  · obtain ⟨p, hp, hjobId, hstate, hruns⟩ := h.executed q ⟨i, hq⟩
    obtain rfl := hp.unique hrequest ((congrArg Subtype.val hjobId).symm.trans hid)
    obtain ⟨jobId, jobResult, jobState, address, exeTime⟩ := q
    obtain rfl : jobId = key.toVec := Subtype.ext hid
    obtain rfl : jobResult = toVec result.resultData := Subtype.ext hdata
    obtain rfl : jobState = .finish := hstate
    obtain rfl : address = pub := hpub
    obtain rfl : exeTime = result.extTime := htime
    exact .inl ⟨i, hq, hruns⟩
  · obtain ⟨hjobId, hcontent, hmisread⟩ := ResponePayload.decode_request_some hdecode
    obtain rfl := hp.unique hrequest ((congrArg Subtype.val hjobId).symm.trans hid)
    refine .inr ⟨?_, hmisread⟩
    rw [← hdata, hcontent]
    rfl

/-- In every state of every run, in which nodes start again at any time, whose results come from the
workers, and whose tasks return what their scripts do in some environment, a result on the chain is
of a finished job.  It is what the job's script has returned on a node with the key that it is
recorded under, or else it is the job's code, from a request that has been read as a response. -/
theorem recorded_executed [DecidableEq ι] {Env : Executor.Host → Prop} {s₀ : System T ι}
    {d : Deployment T ι} (h₀ : Launched s₀) (hfresh : Fresh s₀)
    (h : Lts.ReachesBy Deployment.step (Meets (Honestly (RunsIn Env))) ⟨s₀, []⟩ d)
    {key : Hash} {pub : Public} {result : SignedScriptResult T}
    (hresult : d.system.chain.scriptResult.lookup (key, pub) = some result) :
    ∃ job, d.system.chain.jobQueue.lookup key = some job ∧ job.state = .finish ∧
      ((∃ i, (i, JobResult.respone pub ⟨key.toVec, toVec result.resultData, result.extTime⟩) ∈
            d.answers ∧
          ReturnsIn Env (requestOf key job.asPending) result.resultData.val result.extTime) ∨
        result.resultData.val = job.wasmCode.val ∧ ¬(requestOf key job.asPending).Apart) := by
  have htrace := h₀.deploymentTrace hfresh h
  have hchain : ChainReaches (State.genesis T) d.system.chain := by
    rw [← h₀.chain]
    exact chainReaches_of_deployment h
  obtain ⟨job, hjob, hfinish⟩ := hchain.resultInv key pub result hresult
  refine ⟨job, hjob, hfinish, (htrace.source hjob hresult).imp_left ?_⟩
  rintro ⟨i, hanswer, hruns⟩
  exact ⟨i, hanswer, hruns.returns⟩

/-- An environment in which every ABI has one integer for the output, and every script returns the
third word of its API's answer. -/
def answeringHost : Executor.Host where
  fromStr _ := .ok ⟨[⟨Executor.outputClass, [⟨['v'], ['i', '3', '2']⟩]⟩]⟩
  fromBinary _ := .ok ⟨[], fun _ => some (.ok ⟨some (List.replicate Executor.confirmLen 0),
    .ok fun memory _ _ => some (.ok (memory, 8)), some (.i32 0)⟩)⟩
  newTable _ := .ok ()
  fetchWithQuery _ := .ok [0, 0, 0, 0, 0, 0, 0, 0, 42, 0, 0, 0]

def sampleOutcome : Vec × UInt32 := (⟨[42, 0, 0, 0], by decide⟩, 7)

/-- The sample request returns the sample outcome, and no other request returns anything. -/
def sampleRuns : Execution := fun p result extTime =>
  p = sampleRequest ∧ (result, extTime) = sampleOutcome

instance (p : RequestPayload) (result : Vec) (extTime : UInt32) :
    Decidable (sampleRuns p result extTime) :=
  inferInstanceAs (Decidable (_ ∧ _))

theorem sampleRuns_runsIn {p : RequestPayload} {result : Vec} {extTime : UInt32}
    (h : sampleRuns p result extTime) : RunsIn (· = answeringHost) p result extTime := by
  obtain ⟨rfl, houtcome⟩ := h
  obtain ⟨rfl, rfl⟩ := Prod.mk.inj houtcome
  exact ⟨answeringHost, rfl, by decide +kernel⟩

theorem Honestly.mono {Runs Runs' : Execution} {s : System T ι} {l : Label T ι}
    (h : Honestly Runs s l)
    (hruns : ∀ p result extTime, Runs p result extTime → Runs' p result extTime) :
    Honestly Runs' s l := by
  refine ⟨h.1, ?_⟩
  cases l with
  | node i l =>
    cases l with
    | task j outcome => exact fun payload hp r hr => hruns _ _ _ (h.2 payload hp r hr)
    | _ => trivial
  | _ => trivial

/-- A run with the sample's script is one with the environment in which it runs. -/
theorem sampleRuns_answering {d : Deployment sampleRuntime ι} {e : Incident sampleRuntime ι}
    (h : Meets (Honestly sampleRuns) d e) : Meets (Honestly (RunsIn (· = answeringHost))) d e := by
  cases e with
  | step l => exact Honestly.mono h fun _ _ _ => sampleRuns_runsIn
  | restart => trivial

theorem sampleLaunch_fresh : Fresh sampleLaunch :=
  fun _ _ hid => runExecutor_get_id Store.empty none hid

/-- A run of the worker offers the job, a task executes it, two state changes are included, and a
second run submits the result. -/
def sampleRecording : List (Label sampleRuntime Unit) :=
  sampleEnqueue 0 ++ sampleExecute ++ steps (.task 0 (some sampleOutcome)) 3 ++ steps .listener 6 ++
    [.inclusion 0, .inclusion 0, .block [], .node () (.start
      (AList.insert sampleJob.key { sampleJob with state := .finish } ∅))] ++
    steps (.worker 1 true) 4 ++ [.inclusion 0]

/-- The node starts again after it has offered the job a first time. -/
def sampleRestarted : List (Incident sampleRuntime Unit) :=
  (sampleRequested ++ sampleEnqueue 0).map .step ++ [.restart () none 0] ++
    sampleRecording.map .step

theorem recorded_executed_sample : ∃ d : Deployment sampleRuntime Unit,
    Lts.Reaches Deployment.step ⟨sampleLaunch, []⟩ d ∧
    d.system.chain.scriptResult.lookup (sampleJob.key, FixedBytes.zero 32) =
      some ⟨⟨[42, 0, 0, 0], by decide⟩, 7⟩ ∧
    ∃ job, d.system.chain.jobQueue.lookup sampleJob.key = some job ∧ job.state = .finish := by
  have hrun : (Lts.runBy Deployment.step (Meets (Honestly sampleRuns)) ⟨sampleLaunch, []⟩
      sampleRestarted).any (fun d =>
        d.system.chain.scriptResult.lookup (sampleJob.key, FixedBytes.zero 32) =
          some ⟨⟨[42, 0, 0, 0], by decide⟩, 7⟩) = true := by
    decide +kernel
  obtain ⟨d, hd, hend⟩ := Lts.reachesBy_of_runBy hrun
  have hresult := of_decide_eq_true hend
  have hby : Lts.ReachesBy Deployment.step (Meets (Honestly (RunsIn (· = answeringHost))))
      ⟨sampleLaunch, []⟩ d := hd.mono fun _ _ hC => sampleRuns_answering hC
  obtain ⟨job, hjob, hfinish, -⟩ :=
    recorded_executed sampleLaunch_launched sampleLaunch_fresh hby hresult
  exact ⟨d, hd.reaches, hresult, job, hjob, hfinish⟩

/-- The job of a script with an ABI of 64 spaces. -/
def sampleMistakenJob : OcwJob sampleRuntime :=
  { sampleJob with wasmCode := ⟨[7], by decide⟩, wasmAbi := ⟨List.replicate 64 32, by decide⟩ }

/-- A block with a run of the worker that stores the request of the job. -/
def sampleMistakenEnqueue (run : Nat) : List (Label sampleRuntime Unit) :=
  [.block [], .node () (.start (AList.insert sampleMistakenJob.key sampleMistakenJob ∅))] ++
    steps (.worker run true) 5

/-- The listener has listed the id of the result when a second run of the worker stores the request
over it.  The third run submits the request, and the chain records the code of the job, under the
bytes of its ABI. -/
def sampleMistakenRecording : List (Label sampleRuntime Unit) :=
  [.extrinsic (.signed (1 : UInt32)) (.uploadWasm ['a'] .executable [7] (List.replicate 64 32)),
    .extrinsic (.signed (1 : UInt32)) (.requestScriptExecution sampleName none)] ++
    sampleMistakenEnqueue 0 ++ sampleExecute ++ steps (.task 0 (some sampleOutcome)) 3 ++
    steps .listener 6 ++ sampleMistakenEnqueue 1 ++ [.inclusion 0, .inclusion 0] ++
    [.block [], .node () (.start (AList.insert sampleMistakenJob.key
      { sampleMistakenJob with state := .finish } ∅))] ++
    steps (.worker 2 true) 4 ++ [.inclusion 0]

example : (Lts.runBy System.step (fun _ l => ResultsFromWorkers l) sampleLaunch
    sampleMistakenRecording).any (fun s =>
      s.chain.scriptResult.lookup (sampleMistakenJob.key, ⟨1 :: List.replicate 31 32, rfl⟩) =
        some ⟨⟨sampleMistakenJob.wasmCode.val, by decide⟩, 0x20202020⟩) = true := by
  decide +kernel

/-! ### Agreement -/

/-- A script returns one result, whatever the environment in which it runs and the time it takes. -/
def Deterministic (Env : Executor.Host → Prop) : Prop :=
  ∀ p result result' extTime extTime', RunsIn Env p result extTime →
    RunsIn Env p result' extTime' → result = result'

/-- Nodes whose environments agree on what a script returns agree on the chain: all results of a job
are the same, whatever the keys under which they are recorded, the order of all steps and the times
at which nodes start again, when the job's request does not read as a response. -/
theorem recorded_agree [DecidableEq ι] {Env : Executor.Host → Prop} {s₀ : System T ι}
    {d : Deployment T ι} (hdet : Deterministic Env) (h₀ : Launched s₀) (hfresh : Fresh s₀)
    (h : Lts.ReachesBy Deployment.step (Meets (Honestly (RunsIn Env))) ⟨s₀, []⟩ d)
    {key : Hash} {job : OcwJob T} {pub pub' : Public} {result result' : SignedScriptResult T}
    (hjob : d.system.chain.jobQueue.lookup key = some job)
    (hapart : (requestOf key job.asPending).Apart)
    (hresult : d.system.chain.scriptResult.lookup (key, pub) = some result)
    (hresult' : d.system.chain.scriptResult.lookup (key, pub') = some result') :
    result.resultData = result'.resultData := by
  have htrace := h₀.deploymentTrace hfresh h
  rcases htrace.source hjob hresult with ⟨i, -, hruns⟩ | ⟨-, hmisread⟩
  case inr => exact absurd hapart hmisread
  rcases htrace.source hjob hresult' with ⟨i', -, hruns'⟩ | ⟨-, hmisread⟩
  case inr => exact absurd hapart hmisread
  have hsame := congrArg Subtype.val (hdet _ _ _ _ _ hruns hruns')
  exact Subtype.ext hsame

/-- The key of the second of two nodes. -/
def sampleProcessor : Public := ⟨List.replicate 32 1, rfl⟩

/-- Two nodes on a new chain. -/
def samplePair : System sampleRuntime Bool where
  chain := State.genesis sampleRuntime
  pool := []
  nodes i := Node.boot Store.empty (if i then some sampleProcessor else none) 0
  changed := []

theorem samplePair_launched : Launched samplePair := by
  refine ⟨rfl, rfl, rfl, fun i => ⟨Store.empty, _, 0, rfl, fun id record _ hget => ?_⟩⟩
  simp [Store.empty, Store.get] at hget

/-- `count` steps of both nodes. -/
def bothSteps (l : NodeLabel sampleRuntime) (count : Nat) : List (Label sampleRuntime Bool) :=
  List.replicate count (.node false l) ++ List.replicate count (.node true l)

/-- Both nodes offer the job and execute it, and both submit their results. -/
def samplePairRun : List (Label sampleRuntime Bool) :=
  [.extrinsic (.signed (1 : UInt32)) (.uploadWasm ['a'] .executable [1, 2] [3]),
    .extrinsic (.signed (1 : UInt32)) (.requestScriptExecution sampleName none), .block []] ++
    bothSteps (.start (AList.insert sampleJob.key sampleJob ∅)) 1 ++
    bothSteps (.worker 0 true) 5 ++ bothSteps .executor 4 ++
    bothSteps (.task 0 (some sampleOutcome)) 3 ++ bothSteps .listener 6 ++
    [.inclusion 0, .inclusion 0, .block []] ++
    bothSteps (.start (AList.insert sampleJob.key { sampleJob with state := .finish } ∅)) 1 ++
    bothSteps (.worker 1 true) 4 ++ [.inclusion 0, .inclusion 0]

theorem answeringHost_deterministic : Deterministic (· = answeringHost) := by
  rintro p result result' extTime extTime' ⟨_, rfl, houtcome⟩ ⟨_, rfl, houtcome'⟩
  obtain ⟨abi, habi, hreturns, -⟩ := Executor.outcomeOf_eq_some.mp houtcome
  obtain ⟨abi', habi', hreturns', -⟩ := Executor.outcomeOf_eq_some.mp houtcome'
  obtain rfl : abi = abi' := Option.some.inj (habi.symm.trans habi')
  exact Subtype.ext (Returns.unique hreturns hreturns')

theorem recorded_agree_sample : ∃ (d : Deployment sampleRuntime Bool)
    (result result' : SignedScriptResult sampleRuntime),
    Lts.Reaches Deployment.step ⟨samplePair, []⟩ d ∧
    d.system.chain.scriptResult.lookup (sampleJob.key, FixedBytes.zero 32) = some result ∧
    d.system.chain.scriptResult.lookup (sampleJob.key, sampleProcessor) = some result' ∧
    result.resultData = result'.resultData := by
  have hrun : (Lts.runBy Deployment.step (Meets (Honestly sampleRuns)) ⟨samplePair, []⟩
      (samplePairRun.map .step)).any (fun d =>
        d.system.chain.jobQueue.lookup sampleJob.key = some { sampleJob with state := .finish } ∧
        d.system.chain.scriptResult.lookup (sampleJob.key, FixedBytes.zero 32) =
          some ⟨⟨[42, 0, 0, 0], by decide⟩, 7⟩ ∧
        d.system.chain.scriptResult.lookup (sampleJob.key, sampleProcessor) =
          some ⟨⟨[42, 0, 0, 0], by decide⟩, 7⟩) = true := by
    decide +kernel
  obtain ⟨d, hd, hend⟩ := Lts.reachesBy_of_runBy hrun
  obtain ⟨hjob, hresult, hresult'⟩ := of_decide_eq_true hend
  have hfresh : Fresh samplePair := fun _ id hid => runExecutor_get_id Store.empty _ hid
  have hby : Lts.ReachesBy Deployment.step (Meets (Honestly (RunsIn (· = answeringHost))))
      ⟨samplePair, []⟩ d := hd.mono fun _ _ hC => sampleRuns_answering hC
  exact ⟨d, _, _, hd.reaches, hresult, hresult', recorded_agree answeringHost_deterministic
    samplePair_launched hfresh hby hjob (.inr (by decide)) hresult hresult'⟩

end PolkadotOracle
