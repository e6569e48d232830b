import PolkadotOracle.Offchain.Recorded

/-! What the system is for: an oracle that takes scripts and requests and gives honest answers.  The
chain, the pool and the nodes refine it, whatever the order of their steps and whenever a node
starts again. -/

namespace PolkadotOracle

open Exec Scale Sequence

variable {T : Config} {ι : Type}

/-! ### The oracle -/

/-- What a client sees: the scripts, the jobs, and the answers to each of them by each processor. -/
structure Oracle (T : Config) where
  scripts : Finmap fun _ : BoundedVec T.maxScriptKeyLen.toNat => ScriptDetail T
  jobs : Finmap fun _ : Hash => OcwJob T
  answers : Finmap fun _ : Hash × Public => SignedScriptResult T

def Oracle.empty (T : Config) : Oracle T := ⟨∅, ∅, ∅⟩

inductive Action (T : Config)
  | publish (key : BoundedVec T.maxScriptKeyLen.toNat) (script : ScriptDetail T)
  | request (key : BoundedVec T.maxScriptKeyLen.toNat) (job : OcwJob T)
  | advance (key : Hash)
  | answer (key : Hash) (pub : Public) (result : SignedScriptResult T)

/-- A request is for a published script and starts a job that was not there, a job goes from one
state to the next, and only a finished job is answered. -/
def Oracle.step (x : Oracle T) : Action T → Option (Oracle T)
  | .publish key script => some { x with scripts := x.scripts.insert key script }
  | .request key job =>
    match x.scripts.lookup key with
    | none => none
    | some script =>
      if job.wasmCode = script.wasmCode ∧ job.wasmAbi = script.wasmAbi ∧ job.state = .pending ∧
          x.jobs.lookup job.key = none then
        some { x with jobs := x.jobs.insert job.key job }
      else none
  | .advance key =>
    match x.jobs.lookup key with
    | none => none
    | some job => some { x with jobs := x.jobs.insert key job.advance }
  | .answer key pub result =>
    match x.jobs.lookup key with
    | none => none
    | some job =>
      if job.state = .finish then some { x with answers := x.answers.insert (key, pub) result }
      else none

/-- An answer is one that the job's request may have. -/
def Honest (Answers : Execution) (x : Oracle T) : Action T → Prop
  | .answer key _ result => ∀ job ∈ x.jobs.lookup key,
    Answers (requestOf key job.asPending) (toVec result.resultData) result.extTime
  | _ => True

/-- All that an action can do. -/
inductive OracleMove (x : Oracle T) : Action T → Oracle T → Prop
  | publish (key : BoundedVec T.maxScriptKeyLen.toNat) (script : ScriptDetail T) :
      OracleMove x (.publish key script) { x with scripts := x.scripts.insert key script }
  | request (key : BoundedVec T.maxScriptKeyLen.toNat) (job : OcwJob T)
      (hfresh : x.jobs.lookup job.key = none) :
      OracleMove x (.request key job) { x with jobs := x.jobs.insert job.key job }
  | advance (key : Hash) (job : OcwJob T) (hjob : x.jobs.lookup key = some job) :
      OracleMove x (.advance key) { x with jobs := x.jobs.insert key job.advance }
  | answer (key : Hash) (pub : Public) (result : SignedScriptResult T) (job : OcwJob T)
      (hjob : x.jobs.lookup key = some job) (hfinish : job.state = .finish) :
      OracleMove x (.answer key pub result)
        { x with answers := x.answers.insert (key, pub) result }

section Oracle

variable {Answers : Execution} {x x' : Oracle T} {a : Action T}

theorem oracle_move (h : x.step a = some x') : OracleMove x a x' := by
  cases a with
  | publish key script =>
    obtain rfl := Option.some.inj h
    exact .publish key script
  | request key job =>
    simp only [Oracle.step] at h
    split at h
    · contradiction
    · split at h
      · rename_i hjob
        obtain rfl := Option.some.inj h
        exact .request key job hjob.2.2.2
      · contradiction
  | advance key =>
    simp only [Oracle.step] at h
    split at h
    · contradiction
    · rename_i job hjob
      obtain rfl := Option.some.inj h
      exact .advance key job hjob
  | answer key pub result =>
    simp only [Oracle.step] at h
    split at h
    · contradiction
    · rename_i job hjob
      split at h
      · rename_i hfinish
        obtain rfl := Option.some.inj h
        exact .answer key pub result job hjob hfinish
      · contradiction

/-- The request of a job stays, and the job stays finished. -/
theorem OracleMove.jobs (h : OracleMove x a x') {key : Hash} {job : OcwJob T}
    (hjob : x.jobs.lookup key = some job) :
    ∃ job', x'.jobs.lookup key = some job' ∧ job'.asPending = job.asPending ∧
      (job.state = .finish → job'.state = .finish) := by
  cases h with
  | request _ job' hfresh =>
    have hne : key ≠ job'.key := by
      rintro rfl
      rw [hfresh] at hjob
      contradiction
    exact ⟨job, (Finmap.lookup_insert_of_ne _ hne).trans hjob, rfl, id⟩
  | advance key' job' hjob' =>
    by_cases hkey : key = key'
    · subst hkey
      obtain rfl := Option.some.inj (hjob'.symm.trans hjob)
      refine ⟨job'.advance, Finmap.lookup_insert _, rfl, fun hfinish => ?_⟩
      exact congrArg JobState.advance hfinish
    · exact ⟨job, (Finmap.lookup_insert_of_ne _ hkey).trans hjob, rfl, id⟩
  | _ => exact ⟨job, hjob, rfl, id⟩

/-- The answers are to finished jobs and are those that their requests may have. -/
def Oracle.Sound (Answers : Execution) (x : Oracle T) : Prop :=
  ∀ key pub result, x.answers.lookup (key, pub) = some result →
    ∃ job, x.jobs.lookup key = some job ∧ job.state = .finish ∧
      Answers (requestOf key job.asPending) (toVec result.resultData) result.extTime

theorem Oracle.Sound.move (h : x.Sound Answers) (hhonest : Honest Answers x a)
    (hmove : OracleMove x a x') : x'.Sound Answers := by
  have hkept : ∀ key pub result, x.answers.lookup (key, pub) = some result →
      ∃ job, x'.jobs.lookup key = some job ∧ job.state = .finish ∧
        Answers (requestOf key job.asPending) (toVec result.resultData) result.extTime := by
    intro key pub result hresult
    obtain ⟨job, hjob, hfinish, hanswer⟩ := h key pub result hresult
    obtain ⟨job', hjob', hsame, hfinish'⟩ := hmove.jobs hjob
    exact ⟨job', hjob', hfinish' hfinish, hsame ▸ hanswer⟩
  cases hmove with
  | answer key pub result job hjob hfinish =>
    intro key' pub' result' hresult'
    rcases Finmap.lookup_insert_iff.mp hresult' with ⟨hplace, rfl⟩ | ⟨-, hresult'⟩
    · obtain ⟨rfl, rfl⟩ := Prod.mk.inj hplace
      exact ⟨job, hjob, hfinish, hhonest job hjob⟩
    · exact hkept key' pub' result' hresult'
  | _ => exact hkept

theorem Oracle.sound (h : Lts.ReachesBy Oracle.step (Honest Answers) (Oracle.empty T) x) :
    x.Sound Answers := by
  apply h.invariant
  · intro key pub result hresult
    simp [Oracle.empty] at hresult
  · intro x a x' hx hhonest hstep
    exact hx.move hhonest (oracle_move hstep)

/-- A run keeps the requests of the jobs, and no answer is withdrawn. -/
structure Oracle.Keeps (x x' : Oracle T) : Prop where
  jobs : ∀ key job, x.jobs.lookup key = some job →
    ∃ job', x'.jobs.lookup key = some job' ∧ job'.asPending = job.asPending
  answers : ∀ place, (x.answers.lookup place).isSome → (x'.answers.lookup place).isSome

theorem Oracle.keeps (h : Lts.ReachesBy Oracle.step (Honest Answers) x x') : x.Keeps x' := by
  apply h.relates
  · intro x
    exact ⟨fun key job hjob => ⟨job, hjob, rfl⟩, fun _ => id⟩
  · intro x y z hxy hyz
    refine ⟨fun key job hjob => ?_, fun place => hyz.answers place ∘ hxy.answers place⟩
    obtain ⟨job', hjob', hsame⟩ := hxy.jobs key job hjob
    obtain ⟨job'', hjob'', hsame'⟩ := hyz.jobs key job' hjob'
    exact ⟨job'', hjob'', hsame'.trans hsame⟩
  · intro x a x' hstep
    have hmove := oracle_move hstep
    refine ⟨fun key job hjob => ?_, fun place hsome => ?_⟩
    · obtain ⟨job', hjob', hsame, -⟩ := hmove.jobs hjob
      exact ⟨job', hjob', hsame⟩
    · cases hmove with
      | answer key pub result =>
        by_cases hplace : place = (key, pub)
        · rw [hplace, Finmap.lookup_insert]
          rfl
        · rwa [Finmap.lookup_insert_of_ne _ hplace]
      | _ => exact hsome

/-- Where a request may have one answer only, an answer to it is never replaced by another. -/
theorem Oracle.final (hx : Lts.ReachesBy Oracle.step (Honest Answers) (Oracle.empty T) x)
    (h : Lts.ReachesBy Oracle.step (Honest Answers) x x') {key : Hash} {pub : Public}
    {job : OcwJob T} {result : SignedScriptResult T} (hjob : x.jobs.lookup key = some job)
    (hone : ∀ data data' extTime extTime', Answers (requestOf key job.asPending) data extTime →
      Answers (requestOf key job.asPending) data' extTime' → data = data')
    (hresult : x.answers.lookup (key, pub) = some result) :
    ∃ result', x'.answers.lookup (key, pub) = some result' ∧
      result'.resultData = result.resultData := by
  have hkeeps := Oracle.keeps h
  obtain ⟨result', hresult'⟩ := Option.isSome_iff_exists.mp
    (hkeeps.answers (key, pub) (by rw [hresult]; rfl))
  obtain ⟨job₁, hjob₁, -, hanswer⟩ := Oracle.sound hx key pub result hresult
  obtain rfl := Option.some.inj (hjob₁.symm.trans hjob)
  obtain ⟨job₂, hjob₂, -, hanswer'⟩ := Oracle.sound (hx.trans h) key pub result' hresult'
  obtain ⟨job₃, hjob₃, hsame⟩ := hkeeps.jobs key job₁ hjob
  obtain rfl := Option.some.inj (hjob₃.symm.trans hjob₂)
  rw [hsame] at hanswer'
  have hval := congrArg Subtype.val (hone _ _ _ _ hanswer' hanswer)
  exact ⟨result', hresult', Subtype.ext hval⟩

end Oracle

/-! ### The refinement -/

/-- What the chain shows of the oracle. -/
def State.oracle (chain : State T) : Oracle T :=
  ⟨chain.scriptStorage, chain.jobQueue, chain.scriptResult⟩

/-- What a call does to the oracle: nothing, or an action, which is an answer for a submission
only. -/
theorem Effect.action {chain chain' : State T} {origin : Origin T} {c : Call}
    (h : Effect chain origin c chain') :
    chain'.oracle = chain.oracle ∨ ∃ a, chain.oracle.step a = some chain'.oracle ∧
      ∀ key pub result, a = .answer key pub result →
        chain'.scriptResult.lookup (key, pub) = some result ∧ chain'.jobQueue = chain.jobQueue := by
  cases h with
  | @upload _ _ _ _ _ key detail => exact .inr ⟨.publish key detail, rfl, by simp⟩
  | @request _ _ _ key detail job _ hkey hscript hcaller hname hcode habi hstate hfresh =>
    refine .inr ⟨.request key job, ?_, by simp⟩
    simp [Oracle.step, State.oracle, hscript, hcode, habi, hstate, hfresh]
  | @advance _ key job hjob =>
    refine .inr ⟨.advance key, ?_, by simp⟩
    simp [Oracle.step, State.oracle, hjob]
  | @record _ _ _ _ processorPub extTime onchainKey job resultData hkey hjob hfinish hdata =>
    refine .inr ⟨.answer onchainKey processorPub ⟨resultData, extTime⟩, ?_, ?_⟩
    · simp [Oracle.step, State.oracle, hjob, hfinish]
    · intro key pub result hsame
      obtain ⟨rfl, rfl, rfl⟩ := Action.answer.inj hsame
      exact ⟨Finmap.lookup_insert _, rfl⟩
  | _ => exact .inl rfl

/-- What a request may be answered: what its script returns in an environment of the nodes, or its
own code when it reads as a response. -/
def AnswersIn (Env : Executor.Host → Prop) : Execution := fun p result extTime =>
  RunsIn Env p result extTime ∨ result = p.jobContent ∧ ¬p.Apart

theorem DeploymentTrace.honest {Env : Executor.Host → Prop} {d : Deployment T ι}
    (h : DeploymentTrace (RunsIn Env) d) {key : Hash} {pub : Public} {result : SignedScriptResult T}
    (hresult : d.system.chain.scriptResult.lookup (key, pub) = some result) {job : OcwJob T}
    (hjob : d.system.chain.jobQueue.lookup key = some job) :
    AnswersIn Env (requestOf key job.asPending) (toVec result.resultData) result.extTime := by
  rcases h.source hjob hresult with ⟨i, -, hruns⟩ | ⟨hcode, hmisread⟩
  · exact .inl hruns
  · exact .inr ⟨Subtype.ext hcode, hmisread⟩

section Refinement

variable [DecidableEq ι] {Env : Executor.Host → Prop} {s₀ : System T ι} {d d' : Deployment T ι}

/-- Every step of the system is an honest action of the oracle, or does not show. -/
theorem oracle_step {e : Incident T ι} (h' : DeploymentTrace (RunsIn Env) d')
    (hstep : d.step e = some d') :
    d'.system.chain.oracle = d.system.chain.oracle ∨
      ∃ a, Honest (AnswersIn Env) d.system.chain.oracle a ∧
        d.system.chain.oracle.step a = some d'.system.chain.oracle := by
  have hcall : ∀ origin c, d'.system.chain = d.system.chain.call origin c →
      d'.system.chain.oracle = d.system.chain.oracle ∨
      ∃ a, Honest (AnswersIn Env) d.system.chain.oracle a ∧
        d.system.chain.oracle.step a = some d'.system.chain.oracle := by
    intro origin c hchain
    rcases (hchain ▸ call_effect d.system.chain origin c).action with hsame | ⟨a, ha, hanswer⟩
    · exact .inl hsame
    refine .inr ⟨a, ?_, ha⟩
    cases a with
    | answer key pub result =>
      obtain ⟨hresult, hqueue⟩ := hanswer key pub result rfl
      intro job hjob
      exact h'.honest hresult (hqueue ▸ hjob)
    | _ => trivial
  cases deployment_move hstep with
  | step l system hl =>
    cases system_move hl with
    | block invulnerables => exact .inl rfl
    | extrinsic origin c => exact hcall origin c rfl
    | inclusion k c => exact hcall .none c rfl
    | node => exact .inl rfl
  | restart => exact .inl rfl

theorem DeploymentTrace.refines (hd : DeploymentTrace (RunsIn Env) d)
    (h : Lts.ReachesBy Deployment.step (Meets (Honestly (RunsIn Env))) d d') :
    Lts.ReachesBy Oracle.step (Honest (AnswersIn Env)) d.system.chain.oracle
      d'.system.chain.oracle := by
  apply h.simulates (fun d : Deployment T ι => d.system.chain.oracle) hd
  · intro d e d' hI hC hstep
    exact hI.step hC hstep
  · intro d e d' _ hI' hstep
    exact oracle_step hI' hstep

theorem Launched.refines (h₀ : Launched s₀) (hfresh : Fresh s₀)
    (h : Lts.ReachesBy Deployment.step (Meets (Honestly (RunsIn Env))) ⟨s₀, []⟩ d) :
    Lts.ReachesBy Oracle.step (Honest (AnswersIn Env)) (Oracle.empty T) d.system.chain.oracle := by
  have hempty : s₀.chain.oracle = Oracle.empty T := by
    rw [h₀.chain]
    rfl
  have htrace : DeploymentTrace (RunsIn Env) ⟨s₀, []⟩ :=
    h₀.deploymentTrace hfresh (Lts.ReachesBy.refl _)
  exact hempty ▸ htrace.refines h

/-- The system refines the oracle: a run of the chain, the pool and the nodes from their launch, in
which nodes start again at any time, is a run of the oracle from the empty one, and what follows the
run follows it there. -/
theorem refines_oracle (h₀ : Launched s₀) (hfresh : Fresh s₀)
    (h : Lts.ReachesBy Deployment.step (Meets (Honestly (RunsIn Env))) ⟨s₀, []⟩ d)
    (h' : Lts.ReachesBy Deployment.step (Meets (Honestly (RunsIn Env))) d d') :
    Lts.ReachesBy Oracle.step (Honest (AnswersIn Env)) (Oracle.empty T) d.system.chain.oracle ∧
      Lts.ReachesBy Oracle.step (Honest (AnswersIn Env)) d.system.chain.oracle
        d'.system.chain.oracle :=
  ⟨h₀.refines hfresh h, (h₀.deploymentTrace hfresh h).refines h'⟩

/-- The node offers the recorded result once more, and the chain records it again. -/
def sampleResubmission : List (Label sampleRuntime Unit) :=
  [.block [], .node () (.start
    (AList.insert sampleJob.key { sampleJob with state := .finish } ∅))] ++
    steps (.worker 2 true) 4 ++ [.inclusion 0]

/-- A run to the recorded result, and the one that records it again. -/
theorem sampleResubmission_runs : ∃ d d' : Deployment sampleRuntime Unit,
    Lts.ReachesBy Deployment.step (Meets (Honestly (RunsIn (· = answeringHost))))
      ⟨sampleLaunch, []⟩ d ∧
    Lts.ReachesBy Deployment.step (Meets (Honestly (RunsIn (· = answeringHost)))) d d' ∧
    d.system.chain.jobQueue.lookup sampleJob.key = some { sampleJob with state := .finish } ∧
    d.system.chain.scriptResult.lookup (sampleJob.key, FixedBytes.zero 32) =
      some ⟨⟨[42, 0, 0, 0], by decide⟩, 7⟩ := by
  have hrun : (Lts.runBy Deployment.step (Meets (Honestly sampleRuns)) ⟨sampleLaunch, []⟩
      sampleRestarted).any (fun d =>
        d.system.chain.jobQueue.lookup sampleJob.key = some { sampleJob with state := .finish } ∧
        d.system.chain.scriptResult.lookup (sampleJob.key, FixedBytes.zero 32) =
          some ⟨⟨[42, 0, 0, 0], by decide⟩, 7⟩ ∧
        (Lts.runBy Deployment.step (Meets (Honestly sampleRuns)) d
          (sampleResubmission.map .step)).isSome) = true := by
    decide +kernel
  obtain ⟨d, hd, hend⟩ := Lts.reachesBy_of_runBy hrun
  obtain ⟨hjob, hresult, hagain⟩ := of_decide_eq_true hend
  obtain ⟨d', hd'⟩ := Option.isSome_iff_exists.mp hagain
  exact ⟨d, d', hd.mono fun _ _ hC => sampleRuns_answering hC,
    (Lts.reachesBy_runBy hd').mono fun _ _ hC => sampleRuns_answering hC, hjob, hresult⟩

theorem refines_oracle_sample : ∃ x x' : Oracle sampleRuntime,
    Lts.ReachesBy Oracle.step (Honest (AnswersIn (· = answeringHost)))
      (Oracle.empty sampleRuntime) x ∧
    Lts.ReachesBy Oracle.step (Honest (AnswersIn (· = answeringHost))) x x' ∧
    x.answers.lookup (sampleJob.key, FixedBytes.zero 32) =
      some ⟨⟨[42, 0, 0, 0], by decide⟩, 7⟩ := by
  obtain ⟨d, d', hd, hd', -, hresult⟩ := sampleResubmission_runs
  obtain ⟨hx, hx'⟩ := refines_oracle sampleLaunch_launched sampleLaunch_fresh hd hd'
  exact ⟨d.system.chain.oracle, d'.system.chain.oracle, hx, hx', hresult⟩

/-- Where a script returns one result only, an answer is final: whatever happens after it has been
recorded, no node replaces it by another, when the job's request does not read as a response. -/
theorem answers_final (hdet : Deterministic Env) (h₀ : Launched s₀) (hfresh : Fresh s₀)
    (h : Lts.ReachesBy Deployment.step (Meets (Honestly (RunsIn Env))) ⟨s₀, []⟩ d)
    (h' : Lts.ReachesBy Deployment.step (Meets (Honestly (RunsIn Env))) d d')
    {key : Hash} {job : OcwJob T} {pub : Public} {result : SignedScriptResult T}
    (hjob : d.system.chain.jobQueue.lookup key = some job)
    (hapart : (requestOf key job.asPending).Apart)
    (hresult : d.system.chain.scriptResult.lookup (key, pub) = some result) :
    ∃ result', d'.system.chain.scriptResult.lookup (key, pub) = some result' ∧
      result'.resultData = result.resultData := by
  have hlater := (h₀.deploymentTrace hfresh h).refines h'
  apply Oracle.final (h₀.refines hfresh h) hlater hjob _ hresult
  intro data data' extTime extTime' hanswer hanswer'
  rcases hanswer with hruns | ⟨-, hmisread⟩
  case inr => exact absurd hapart hmisread
  rcases hanswer' with hruns' | ⟨-, hmisread⟩
  case inr => exact absurd hapart hmisread
  exact hdet _ _ _ _ _ hruns hruns'

theorem answers_final_sample : ∃ (d d' : Deployment sampleRuntime Unit)
    (result result' : SignedScriptResult sampleRuntime),
    Lts.Reaches Deployment.step ⟨sampleLaunch, []⟩ d ∧ Lts.Reaches Deployment.step d d' ∧
    d.system.chain.scriptResult.lookup (sampleJob.key, FixedBytes.zero 32) = some result ∧
    d'.system.chain.scriptResult.lookup (sampleJob.key, FixedBytes.zero 32) = some result' ∧
    result'.resultData = result.resultData := by
  obtain ⟨d, d', hd, hd', hjob, hresult⟩ := sampleResubmission_runs
  obtain ⟨result', hresult', hsame⟩ := answers_final answeringHost_deterministic
    sampleLaunch_launched sampleLaunch_fresh hd hd' hjob (.inr (by decide)) hresult
  exact ⟨d, d', _, result', hd.reaches, hd'.reaches, hresult, hresult', hsame⟩

end Refinement

end PolkadotOracle
