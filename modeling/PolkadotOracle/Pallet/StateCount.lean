import Mathlib.Logic.Function.Iterate
import PolkadotOracle.Pallet.Unsigned

/-! How far a job has come: its state counts the state changes that the chain has dispatched for its
key, and nothing else moves it. -/

namespace PolkadotOracle

open Exec Scale Text

variable {T : Config}

/-- The step dispatches a state change of the job under `key`. -/
def ChainLabel.changes (key : Hash) : ChainLabel T → Bool
  | .call .none (.changeJobState _ key') => decide (key' = key)
  | _ => false

/-- The job after some of its state changes. -/
def OcwJob.advanced (job : OcwJob T) (count : Nat) : OcwJob T :=
  { job with state := JobState.advance^[count] job.state }

section Advanced

variable {job : OcwJob T}

theorem OcwJob.advanced_advance (count : Nat) :
    (job.advanced count).advance = job.advanced (count + 1) := by
  simp [advanced, advance, Function.iterate_succ_apply']

/-- A pending job is processed after one state change and finished after two or more. -/
theorem JobState.advance_iterate (count : Nat) :
    JobState.advance^[count] .pending =
      if count = 0 then .pending else if count = 1 then .processing else .finish := by
  match count with
  | 0 => rfl
  | 1 => rfl
  | count + 2 =>
    have hfix : JobState.advance^[count] .finish = .finish :=
      Function.iterate_fixed rfl count
    simpa [Function.iterate_add_apply, JobState.advance] using hfix

end Advanced

section Steps

variable {s s' : State T} {key : Hash} {job : OcwJob T}

theorem changeJobState_call (blockNumber : Nat) (hjob : s.jobQueue.lookup key = some job) :
    s.call .none (.changeJobState blockNumber key) =
      { s with jobQueue := s.jobQueue.insert key job.advance } := by
  simp [State.call, Call.dispatch, changeJobState, hjob]

/-- A call that is no state change of the job leaves it as it is. -/
theorem Effect.lookup_of_not_changes {origin : Origin T} {c : Call} (h : Effect s origin c s')
    (hc : (ChainLabel.call origin c).changes key = false)
    (hjob : s.jobQueue.lookup key = some job) : s'.jobQueue.lookup key = some job := by
  cases h with
  | @request _ _ _ _ _ job' _ _ _ _ _ _ _ _ hfresh =>
    have hne : key ≠ job'.key := by
      rintro rfl
      rw [hfresh] at hjob
      contradiction
    exact (Finmap.lookup_insert_of_ne _ hne).trans hjob
  | @advance _ key' _ _ =>
    have hne : key ≠ key' := fun hsame => by simp [ChainLabel.changes, hsame] at hc
    exact (Finmap.lookup_insert_of_ne _ hne).trans hjob
  | _ => exact hjob

theorem chainStep_lookup {l : ChainLabel T} (h : chainStep s l = some s')
    (hjob : s.jobQueue.lookup key = some job) :
    s'.jobQueue.lookup key = some (if l.changes key then job.advance else job) := by
  cases hl : l.changes key with
  | true =>
    match l, hl with
    | .call .none (.changeJobState blockNumber key'), hl =>
      obtain rfl := of_decide_eq_true hl
      obtain rfl := Option.some.inj h
      rw [changeJobState_call blockNumber hjob]
      exact Finmap.lookup_insert _
  | false =>
    cases l with
    | block invulnerables =>
      obtain rfl := Option.some.inj h
      exact hjob
    | call origin c =>
      obtain rfl := Option.some.inj h
      exact (call_effect s origin c).lookup_of_not_changes hl hjob

end Steps

/-- The step is a request of the account `caller` for the script of that name. -/
def ChainLabel.Requests (caller : T.AccountId) (name : Bytes) : ChainLabel T → Prop
  | .call (.signed who) (.requestScriptExecution scriptName _) =>
    who = caller ∧ utf8 scriptName = name
  | _ => False

/-- The step `request` of a run, after the steps `before`, is a request of the job's caller that the
chain takes: the key is free before it, and has the pending job after it. -/
def Queues (before : List (ChainLabel T)) (request : ChainLabel T) (key : Hash)
    (job : OcwJob T) : Prop :=
  request.Requests job.caller job.scriptName.val ∧
  ∃ s s', Lts.run chainStep (State.genesis T) before = some s ∧ chainStep s request = some s' ∧
    s.jobQueue.lookup key = none ∧ s'.jobQueue.lookup key = some job.asPending

/-- What a run has done for a job of the queue: a request has queued it, and since then it has been
advanced once for each of its state changes. -/
def Counted (ls : List (ChainLabel T)) (key : Hash) (job : OcwJob T) : Prop :=
  ∃ before request after, ls = before ++ request :: after ∧ Queues before request key job ∧
    job = job.asPending.advanced (after.countP (·.changes key))

section Runs

variable {s s' : State T} {key : Hash} {job : OcwJob T} {ls : List (ChainLabel T)}

theorem Counted.step {l : ChainLabel T} (h : Counted ls key job) :
    Counted (ls ++ [l]) key (if l.changes key then job.advance else job) := by
  obtain ⟨before, request, after, rfl, hrequest, hjob⟩ := h
  refine ⟨before, request, after ++ [l], by simp, ?_, ?_⟩
  · split <;> exact hrequest
  · rw [List.countP_append, List.countP_singleton]
    split
    · rw [← OcwJob.advanced_advance]
      exact congrArg OcwJob.advance hjob
    · exact hjob

/-- A step that queues a job requests it. -/
theorem chainStep_queues {l : ChainLabel T} (h : chainStep s l = some s')
    (hfresh : s.jobQueue.lookup key = none) (hjob : s'.jobQueue.lookup key = some job) :
    l.Requests job.caller job.scriptName.val ∧ job.state = .pending := by
  cases l with
  | block invulnerables =>
    obtain rfl := Option.some.inj h
    rw [hfresh] at hjob
    contradiction
  | call origin c =>
    obtain rfl := Option.some.inj h
    have heffect := call_effect s origin c
    generalize s.call origin c = s' at heffect hjob
    cases heffect with
    | request hkey hscript hcaller hname hcode habi hstate =>
      rcases Finmap.lookup_insert_iff.mp hjob with ⟨-, rfl⟩ | ⟨-, hjob⟩
      · exact ⟨⟨hcaller.symm, hname.symm⟩, hstate⟩
      · rw [hfresh] at hjob
        contradiction
    | advance hold =>
      rcases Finmap.lookup_insert_iff.mp hjob with ⟨rfl, rfl⟩ | ⟨-, hjob⟩
      · rw [hfresh] at hold
        contradiction
      · rw [hfresh] at hjob
        contradiction
    | _ =>
      rw [hfresh] at hjob
      contradiction

theorem run_counted (h : Lts.run chainStep (State.genesis T) ls = some s)
    (hjob : s.jobQueue.lookup key = some job) : Counted ls key job := by
  induction ls using List.reverseRecOn generalizing s job with
  | nil =>
    obtain rfl := Option.some.inj h
    simp [State.genesis] at hjob
  | append_singleton ls l ih =>
    obtain ⟨s₁, hrun, hstep⟩ := Lts.run_concat h
    cases hold : s₁.jobQueue.lookup key with
    | some job₁ =>
      have hnext := chainStep_lookup hstep hold
      obtain rfl := Option.some.inj (hnext.symm.trans hjob)
      exact (ih hrun hold).step
    | none =>
      obtain ⟨hrequest, hstate⟩ := chainStep_queues hstep hold hjob
      have hpending := OcwJob.asPending_of_pending hstate
      exact ⟨ls, l, [], rfl, ⟨hrequest, s₁, s, hrun, hstep, hold, hpending.symm ▸ hjob⟩,
        hpending.symm⟩

/-- The state of a job tells how often it has been advanced. -/
theorem Counted.state (h : Counted ls key job) : ∃ before request after,
    ls = before ++ request :: after ∧ Queues before request key job ∧
    job.state =
      if after.countP (·.changes key) = 0 then .pending
      else if after.countP (·.changes key) = 1 then .processing
      else .finish := by
  obtain ⟨before, request, after, hls, hrequest, hadvanced⟩ := h
  refine ⟨before, request, after, hls, hrequest, ?_⟩
  rw [← JobState.advance_iterate]
  exact congrArg OcwJob.state hadvanced

/-- In every state that a run from a new chain reaches, a job of the queue has been queued by a
request of its caller, and its state is what the number of its state changes since that request
makes it, whatever else the run contains.  A result is there only after two of them. -/
theorem jobState_counts (h : Lts.run chainStep (State.genesis T) ls = some s) :
    (∀ key job, s.jobQueue.lookup key = some job → ∃ before request after,
      ls = before ++ request :: after ∧ Queues before request key job ∧
      job.state =
        if after.countP (·.changes key) = 0 then .pending
        else if after.countP (·.changes key) = 1 then .processing
        else .finish) ∧
    ∀ key pub result, s.scriptResult.lookup (key, pub) = some result →
      ∃ job before request after, s.jobQueue.lookup key = some job ∧
        ls = before ++ request :: after ∧ Queues before request key job ∧
        2 ≤ after.countP (·.changes key) := by
  refine ⟨fun key job hjob => (run_counted h hjob).state, fun key pub result hresult => ?_⟩
  have hchain : ChainReaches (State.genesis T) s := Lts.reaches_run h
  obtain ⟨job, hjob, hfinish⟩ := hchain.resultInv key pub result hresult
  obtain ⟨before, request, after, hls, hrequest, hcount⟩ := (run_counted h hjob).state
  refine ⟨job, before, request, after, hjob, hls, hrequest, ?_⟩
  rw [hfinish] at hcount
  split at hcount
  · contradiction
  · split at hcount
    · contradiction
    · omega

end Runs

/-- A state change of the job before its request does not count, and one of another key does not
either; the result is submitted after the two that do. -/
def sampleCounting : List (ChainLabel sampleRuntime) :=
  [.call .none (.changeJobState 0 sampleJob.key),
    .call (.signed (1 : UInt32)) (.uploadWasm ['a'] .executable [1, 2] [3]),
    .call (.signed (1 : UInt32)) (.requestScriptExecution ['E', 'X', 'E', 'a'] none),
    .call .none (.changeJobState 0 sampleJob.key),
    .call .none (.changeJobState 0 (FixedBytes.zero 32)),
    .call .none (.changeJobState 0 sampleJob.key),
    .call .none (.submitResultUnsiged 0 sampleJob.key.val [7] (FixedBytes.zero 32) 5)]

theorem jobState_counts_sample : ∃ s, Lts.run chainStep (State.genesis sampleRuntime)
      sampleCounting = some s ∧
    (s.scriptResult.lookup (sampleJob.key, FixedBytes.zero 32)).isSome = true ∧
    ∃ job before request after, s.jobQueue.lookup sampleJob.key = some job ∧
      sampleCounting = before ++ request :: after ∧
      Queues before request sampleJob.key job ∧
      2 ≤ after.countP (·.changes sampleJob.key) := by
  have hrun : (Lts.run chainStep (State.genesis sampleRuntime) sampleCounting).any
      (fun s => (s.scriptResult.lookup (sampleJob.key, FixedBytes.zero 32)).isSome) = true := by
    decide +kernel
  obtain ⟨s, hs, hsome⟩ := (Option.any_eq_true _ _).mp hrun
  obtain ⟨result, hresult⟩ := Option.isSome_iff_exists.mp hsome
  exact ⟨s, hs, hsome, (jobState_counts hs).2 _ _ result hresult⟩

end PolkadotOracle
