import Mathlib.Data.Fintype.Basic
import PolkadotOracle.Offchain.Lists

/-! Whether a finished job has been executed: exactly when no block includes a second state change
of a job for which no executor has produced a result. -/

namespace PolkadotOracle

open Scale Sequence

variable {T : Config} {ι : Type}

/-- Some executor has produced a result for the job. -/
def Produced (s : System T ι) (key : Hash) : Prop :=
  ∃ i, ∃ res ∈ (s.nodes i).history.produced, res.jobId.val = key.val

instance [Fintype ι] (s : System T ι) (key : Hash) : Decidable (Produced s key) :=
  inferInstanceAs (Decidable (∃ i, ∃ res ∈ (s.nodes i).history.produced, _))

/-- Every finished job has been executed. -/
def FinishedExecuted (s : System T ι) : Prop :=
  ∀ key job, s.chain.jobQueue.lookup key = some job → job.state = .finish → Produced s key

/-- State changes come from the workers, through the pool, only. -/
def WorkersOnly : Label T ι → Prop
  | .extrinsic _ c => c.changes = []
  | _ => True

instance : ∀ l : Label T ι, Decidable (WorkersOnly l)
  | .extrinsic _ c => inferInstanceAs (Decidable (c.changes = []))
  | .block _ => .isTrue trivial
  | .inclusion _ => .isTrue trivial
  | .node _ _ => .isTrue trivial

/-- A block includes a second state change of a job only after a result for the job. -/
def InOrder (s : System T ι) : Label T ι → Prop
  | .inclusion k => ∀ c ∈ s.pool[k]?, ∀ key ∈ c.changes, key ∈ s.changed → Produced s key
  | _ => True

instance [Fintype ι] (s : System T ι) : ∀ l, Decidable (InOrder s l)
  | .inclusion k => inferInstanceAs (Decidable (∀ c ∈ s.pool[k]?, ∀ key ∈ c.changes, _))
  | .block _ => .isTrue trivial
  | .extrinsic _ _ => .isTrue trivial
  | .node _ _ => .isTrue trivial

/-! ### What the steps do to the queue, the pool and the results -/

section Steps

variable {chain : State T} {n n' : Node T}

/-- A call that is no state change leaves the queue, or queues a new pending job. -/
theorem call_no_change {origin : Origin T} {c : Call} (hc : c.changes = []) :
    (chain.call origin c).jobQueue = chain.jobQueue ∨
      ∃ job : OcwJob T, job.state = .pending ∧ chain.jobQueue.lookup job.key = none ∧
        (chain.call origin c).jobQueue = chain.jobQueue.insert job.key job := by
  generalize hnext : chain.call origin c = next
  have heffect : Effect chain origin c next := hnext ▸ call_effect chain origin c
  cases heffect with
  | @request _ _ _ _ _ job _ _ _ _ _ _ _ hstate hfresh => exact .inr ⟨job, hstate, hfresh, rfl⟩
  | advance => simp [Call.changes] at hc
  | _ => exact .inl rfl

/-- What enters the pool from a node changes the state of queued jobs only. -/
theorem NodeMove.calls_queued (hn : NodeInv chain n) {l : NodeLabel T} {calls : List Call}
    (hmove : NodeMove chain n l n' calls) :
    ∀ c ∈ calls, ∀ key ∈ c.changes, ∃ job, chain.jobQueue.lookup key = some job := by
  intro c hc key hkey
  cases hmove with
  | offer run accepted w jobKey resultKey key' job payload _ hw hpc hjob hstate hpayload =>
    rcases hpayload with ⟨-, rfl⟩ | ⟨-, rfl⟩
    · obtain rfl := List.mem_singleton.mp hc
      obtain rfl := List.mem_singleton.mp hkey
      obtain ⟨job', hjob', -⟩ := (hn.workers w (List.mem_of_getElem? hw)).jobs _ _ hjob.mem
      exact ⟨job', hjob'⟩
    · simp at hc
  | results run accepted w pc _ hw hpc hcalls =>
    obtain ⟨_, _, _, _, _, rfl⟩ := hcalls c hc
    simp [Call.changes] at hkey
  | _ => simp at hc

/-- What has been produced stays so. -/
theorem NodeMove.produced_subset {l : NodeLabel T} {calls : List Call}
    (hmove : NodeMove chain n l n' calls) : n.history.produced ⊆ n'.history.produced := by
  cases hmove with
  | produce => exact List.subset_append_left _ _
  | _ => exact fun _ h => h

theorem Produced.move [DecidableEq ι] {s s' : System T ι} {l : Label T ι} {key : Hash}
    (h : Produced s key) (hmove : SystemMove s l s') : Produced s' key := by
  obtain ⟨i, res, hres, hid⟩ := h
  cases hmove with
  | node j l n calls hnode =>
    by_cases hi : i = j
    · subst hi
      exact ⟨i, res, by simpa using hnode.produced_subset hres, hid⟩
    · exact ⟨i, res, by simpa [Function.update_of_ne hi] using hres, hid⟩
  | _ => exact ⟨i, res, hres, hid⟩

end Steps

/-! ### Runs -/

/-- A job whose state no block has changed is pending, a changed one is not, and a finished one has
been executed. -/
structure FinishInv (s : System T ι) : Prop where
  nodes : ∀ i, NodeInv s.chain (s.nodes i)
  pool : ∀ c ∈ s.pool, ∀ key ∈ c.changes, ∃ job, s.chain.jobQueue.lookup key = some job
  fresh : ∀ key job, s.chain.jobQueue.lookup key = some job → key ∉ s.changed →
    job.state = .pending
  changed : ∀ key ∈ s.changed, ∃ job, s.chain.jobQueue.lookup key = some job ∧
    (job.state = .processing ∨ job.state = .finish)
  executed : FinishedExecuted s

section FinishInv

variable {s : System T ι}

/-- A step that leaves the state changes alone, after which the queue is the same or has a new
pending job. -/
theorem FinishInv.keep (h : FinishInv s) {s' : System T ι}
    (hnodes : ∀ i, NodeInv s'.chain (s'.nodes i))
    (hpool : ∀ c ∈ s'.pool, ∀ key ∈ c.changes, ∃ job, s'.chain.jobQueue.lookup key = some job)
    (hchanged : s'.changed = s.changed) (hproduced : ∀ key, Produced s key → Produced s' key)
    (hqueue : s'.chain.jobQueue = s.chain.jobQueue ∨
      ∃ job : OcwJob T, job.state = .pending ∧ s.chain.jobQueue.lookup job.key = none ∧
        s'.chain.jobQueue = s.chain.jobQueue.insert job.key job) :
    FinishInv s' := by
  have hold : ∀ key job, s'.chain.jobQueue.lookup key = some job →
      s.chain.jobQueue.lookup key = some job ∨ job.state = .pending := by
    intro key job hjob
    rcases hqueue with hsame | ⟨new, hstate, -, hinsert⟩
    · exact .inl (hsame ▸ hjob)
    · rw [hinsert] at hjob
      rcases Finmap.lookup_insert_iff.mp hjob with ⟨-, rfl⟩ | ⟨-, hjob⟩
      · exact .inr hstate
      · exact .inl hjob
  have hstay : ∀ key job, s.chain.jobQueue.lookup key = some job →
      s'.chain.jobQueue.lookup key = some job := by
    intro key job hjob
    rcases hqueue with hsame | ⟨new, -, hfresh, hinsert⟩
    · rwa [hsame]
    · have hkey : key ≠ new.key := by
        rintro rfl
        simp [hfresh] at hjob
      rwa [hinsert, Finmap.lookup_insert_of_ne _ hkey]
  refine ⟨hnodes, hpool, fun key job hjob hkey => ?_, fun key hkey => ?_,
    fun key job hjob hfinish => ?_⟩
  · rcases hold key job hjob with hjob | hstate
    · exact h.fresh key job hjob (hchanged ▸ hkey)
    · exact hstate
  · obtain ⟨job, hjob, hstate⟩ := h.changed key (hchanged ▸ hkey)
    exact ⟨job, hstay key job hjob, hstate⟩
  · rcases hold key job hjob with hjob | hstate
    · exact hproduced key (h.executed key job hjob hfinish)
    · simp [hstate] at hfinish

/-- A block includes a state change: the first one starts the job, a second one finds a result. -/
theorem FinishInv.change (h : FinishInv s) {k blockNumber : Nat} {key : Hash}
    (hpool : s.pool[k]? = some (.changeJobState blockNumber key))
    (horder : key ∈ s.changed → Produced s key) :
    FinishInv { s with
      chain := s.chain.call .none (.changeJobState blockNumber key)
      pool := s.pool.eraseIdx k
      changed := s.changed ++ [key] } := by
  have hchain := (ChainReaches.refl s.chain).call .none (.changeJobState blockNumber key)
  obtain ⟨job, hjob⟩ := h.pool _ (List.mem_of_getElem? hpool) key List.mem_cons_self
  have hqueue : (s.chain.call .none (.changeJobState blockNumber key)).jobQueue =
      s.chain.jobQueue.insert key job.advance := by
    simp [State.call, Call.dispatch, changeJobState, hjob]
  have hother : ∀ {key'}, key' ≠ key →
      (s.chain.call .none (.changeJobState blockNumber key)).jobQueue.lookup key' =
        s.chain.jobQueue.lookup key' := fun hne => by
    rw [hqueue, Finmap.lookup_insert_of_ne _ hne]
  have hself : (s.chain.call .none (.changeJobState blockNumber key)).jobQueue.lookup key =
      some job.advance := by
    rw [hqueue, Finmap.lookup_insert]
  -- The first state change starts a pending job, a second one finishes the job.
  have hstate : key ∉ s.changed ∧ job.advance.state = .processing ∨
      key ∈ s.changed ∧ job.advance.state = .finish := by
    by_cases hchanged : key ∈ s.changed
    · obtain ⟨job', hjob', hstate⟩ := h.changed key hchanged
      obtain rfl := Option.some.inj (hjob.symm.trans hjob')
      rcases hstate with hstate | hstate <;>
        exact .inr ⟨hchanged, by simp [OcwJob.advance, JobState.advance, hstate]⟩
    · have hpending := h.fresh key job hjob hchanged
      exact .inl ⟨hchanged, by simp [OcwJob.advance, JobState.advance, hpending]⟩
  refine ⟨fun i => (h.nodes i).grow hchain, fun c hc key' hkey' => ?_,
    fun key' job' hjob' hkey' => ?_, fun key' hkey' => ?_, fun key' job' hjob' hfinish => ?_⟩
  · obtain ⟨job', hjob'⟩ := h.pool c (List.mem_of_mem_eraseIdx hc) key' hkey'
    exact hchain.queueGrows.queued hjob'
  · have hne : key' ≠ key := by
      rintro rfl
      simp at hkey'
    rw [hother hne] at hjob'
    exact h.fresh key' job' hjob' fun hmem => hkey' (List.mem_append_left _ hmem)
  · by_cases hsame : key' = key
    · subst hsame
      exact ⟨job.advance, hself, hstate.imp And.right And.right⟩
    · have hmem : key' ∈ s.changed := by simpa [hsame] using hkey'
      obtain ⟨job', hjob', hstate'⟩ := h.changed key' hmem
      exact ⟨job', (hother hsame).trans hjob', hstate'⟩
  · by_cases hsame : key' = key
    · subst hsame
      obtain rfl := Option.some.inj (hself.symm.trans hjob')
      rcases hstate with ⟨-, hprocessing⟩ | ⟨hchanged, -⟩
      · simp [hprocessing] at hfinish
      · exact horder hchanged
    · rw [hother hsame] at hjob'
      exact h.executed key' job' hjob' hfinish

theorem FinishInv.move [DecidableEq ι] (h : FinishInv s) {s' : System T ι} {l : Label T ι}
    (hworkers : WorkersOnly l) (horder : InOrder s l) (hmove : SystemMove s l s') :
    FinishInv s' := by
  have hchain := hmove.chain_reaches
  have hproduced : ∀ key, Produced s key → Produced s' key := fun _ hp => hp.move hmove
  have hgrow : ∀ c ∈ s.pool, ∀ key ∈ c.changes,
      ∃ job, s'.chain.jobQueue.lookup key = some job := fun c hc key hkey => by
    obtain ⟨job, hjob⟩ := h.pool c hc key hkey
    exact hchain.queueGrows.queued hjob
  cases hmove with
  | block invulnerables =>
    exact h.keep (fun i => (h.nodes i).grow hchain) hgrow rfl hproduced (.inl rfl)
  | extrinsic origin c hadmissible =>
    exact h.keep (fun i => (h.nodes i).grow hchain) hgrow rfl hproduced
      (call_no_change hworkers)
  | inclusion k c hpool hadmissible =>
    by_cases hc : c.changes = []
    · refine h.keep (fun i => (h.nodes i).grow hchain)
        (fun c' hc' => hgrow c' (List.mem_of_mem_eraseIdx hc')) (by simp [hc]) hproduced
        (call_no_change hc)
    · cases c with
      | changeJobState blockNumber key =>
        exact h.change hpool (horder _ hpool key List.mem_cons_self)
      | _ => exact absurd rfl hc
  | node i l n calls hnode =>
    refine h.keep (fun j => ?_) (fun c hc => ?_) rfl hproduced (.inl rfl)
    · by_cases hj : j = i
      · subst hj
        simpa using (h.nodes j).move hnode
      · simpa [Function.update_of_ne hj] using h.nodes j
    · rcases List.mem_append.mp hc with hc | hc
      · exact h.pool c hc
      · exact hnode.calls_queued (h.nodes i) c hc

/-- A second state change that is included without a result finishes a job that has none. -/
theorem FinishInv.inOrder [DecidableEq ι] (h : FinishInv s) {s' : System T ι} {l : Label T ι}
    (hmove : SystemMove s l s') (hexecuted : FinishedExecuted s') : InOrder s l := by
  cases hmove with
  | inclusion k c hpool hadmissible =>
    intro c' hc' key hkey hchanged
    obtain rfl := Option.some.inj (hpool.symm.trans hc')
    cases c with
    | changeJobState blockNumber key' =>
      obtain rfl := List.mem_singleton.mp hkey
      obtain ⟨job, hjob, hstate⟩ := h.changed key hchanged
      apply hexecuted key job.advance
      · simp [State.call, Call.dispatch, changeJobState, hjob]
      · rcases hstate with hstate | hstate <;> simp [OcwJob.advance, JobState.advance, hstate]
    | _ => simp [Call.changes] at hkey
  | _ => trivial

end FinishInv

/-- A new chain with nodes that have just started. -/
structure Launched (s : System T ι) : Prop where
  chain : s.chain = State.genesis T
  pool : s.pool = []
  changed : s.changed = []
  booted : Booted s

theorem Launched.finishInv {s : System T ι} (h : Launched s) : FinishInv s := by
  have hqueue : s.chain.jobQueue = ∅ := by rw [h.chain]; rfl
  refine ⟨h.booted.nodeInv, ?_, ?_, ?_, fun key job hjob => ?_⟩
  · simp [h.pool]
  · simp [hqueue]
  · simp [h.changed]
  · simp [hqueue] at hjob

/-- In every state that a run reaches whose state changes come from the workers and are included in
order, every finished job has been executed.  And order is what it takes: the next step keeps this
exactly when it is in order too. -/
theorem finishedExecuted_iff [DecidableEq ι] {s₀ s : System T ι} (h₀ : Launched s₀)
    (h : Lts.ReachesBy System.step (fun s l => WorkersOnly l ∧ InOrder s l) s₀ s) :
    FinishedExecuted s ∧ ∀ l s', WorkersOnly l → s.step l = some s' →
      (FinishedExecuted s' ↔ InOrder s l) := by
  have hinv : FinishInv s := h.invariant h₀.finishInv fun _ _ _ hI hC hs =>
    hI.move hC.1 hC.2 (system_move hs)
  refine ⟨hinv.executed, fun l s' hworkers hs => ⟨hinv.inOrder (system_move hs), fun horder => ?_⟩⟩
  exact (hinv.move hworkers horder (system_move hs)).executed

/-- The sample node on a new chain. -/
def sampleLaunch : System sampleRuntime Unit :=
  { sampleSystem with chain := State.genesis sampleRuntime }

theorem sampleLaunch_launched : Launched sampleLaunch := by
  refine ⟨rfl, rfl, rfl, fun _ => ⟨Store.empty, none, 0, rfl, fun id record _ hget => ?_⟩⟩
  simp [Store.empty, Store.get] at hget

/-- Account 1 uploads a script and requests it. -/
def sampleRequested : List (Label sampleRuntime Unit) :=
  [.extrinsic (.signed (1 : UInt32)) (.uploadWasm ['a'] .executable [1, 2] [3]),
    .extrinsic (.signed (1 : UInt32)) (.requestScriptExecution sampleName none)]

/-- Two runs of the worker change the state of the job, and the second change is included after the
executor has produced a result. -/
theorem finishedExecuted_iff_sample : ∃ s : System sampleRuntime Unit,
    Lts.Reaches System.step sampleLaunch s ∧
    (∃ job, s.chain.jobQueue.lookup sampleJob.key = some job ∧ job.state = .finish) ∧
    FinishedExecuted s := by
  have hrun : (Lts.runBy System.step (fun s l => WorkersOnly l ∧ InOrder s l) sampleLaunch
      (sampleRequested ++ sampleEnqueue 0 ++ sampleExecute ++
        steps (.task 0 (some (default, 7))) 2 ++ sampleEnqueue 1 ++
        [.inclusion 0, .inclusion 0])).any (fun s =>
          (s.chain.jobQueue.lookup sampleJob.key).map OcwJob.state = some .finish) = true := by
    decide +kernel
  obtain ⟨s, hs, hend⟩ := Lts.reachesBy_of_runBy hrun
  obtain ⟨job, hjob, hfinish⟩ := Option.map_eq_some_iff.mp (of_decide_eq_true hend)
  exact ⟨s, hs.reaches, ⟨job, hjob, hfinish⟩,
    (finishedExecuted_iff sampleLaunch_launched hs).1⟩

/-- The worker runs on two blocks before its first state change is included.  Both are included in
the end, and the job is finished with no result by any executor. -/
theorem finished_not_executed : Launched sampleLaunch ∧ ∃ s : System sampleRuntime Unit,
    Lts.ReachesBy System.step (fun _ l => WorkersOnly l) sampleLaunch s ∧
    (∃ job, s.chain.jobQueue.lookup sampleJob.key = some job ∧ job.state = .finish) ∧
    (s.nodes ()).history.produced = [] ∧ ¬FinishedExecuted s := by
  have hrun : (Lts.runBy System.step (fun _ l => WorkersOnly l) sampleLaunch
      (sampleRequested ++ sampleEnqueue 0 ++ sampleEnqueue 1 ++
        [.inclusion 0, .inclusion 0])).any (fun s =>
          (s.chain.jobQueue.lookup sampleJob.key).map OcwJob.state = some .finish ∧
          (s.nodes ()).history.produced = []) = true := by
    decide +kernel
  obtain ⟨s, hs, hend⟩ := Lts.reachesBy_of_runBy hrun
  obtain ⟨hqueue, hproduced⟩ := of_decide_eq_true hend
  obtain ⟨job, hjob, hfinish⟩ := Option.map_eq_some_iff.mp hqueue
  refine ⟨sampleLaunch_launched, s, hs, ⟨job, hjob, hfinish⟩, hproduced, fun h => ?_⟩
  obtain ⟨_, res, hres, -⟩ := h _ job hjob hfinish
  simp [hproduced] at hres

end PolkadotOracle
