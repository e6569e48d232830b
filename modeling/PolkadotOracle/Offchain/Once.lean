import PolkadotOracle.Offchain.Completion
import PolkadotOracle.Offchain.Lists
import PolkadotOracle.Pallet.Unsigned

/-! What becomes of a job that the workers offer once.  The one state change that a run of a worker
submits with its job makes the job a processed one, which no run looks at again: no job is ever
finished, and no result is ever recorded. -/

namespace PolkadotOracle

open Scale Sequence

variable {T : Config} {ι : Type}

/-- The keys of the state changes that have been included or wait in the pool. -/
def System.offered (s : System T ι) : List Hash :=
  s.changed ++ s.pool.flatMap Call.changes

/-- No run of a worker offers a job that has been offered already. -/
def OffersOnce [DecidableEq ι] (s : System T ι) : Label T ι → Prop
  | .node i l => ∀ next ∈ (s.nodes i).step s.chain l, ∀ key ∈ next.2.flatMap Call.changes,
    key ∉ s.offered
  | _ => True

instance [DecidableEq ι] (s : System T ι) : ∀ l, Decidable (OffersOnce s l)
  | .node i l => inferInstanceAs (Decidable (∀ next ∈ (s.nodes i).step s.chain l, _))
  | .block _ => .isTrue trivial
  | .extrinsic _ _ => .isTrue trivial
  | .inclusion _ => .isTrue trivial

/-- A job is pending until its state change is included, and processed from then on. -/
structure OnceInv (s : System T ι) : Prop where
  nodes : ∀ i, NodeInv s.chain (s.nodes i)
  once : s.offered.Nodup
  queued : ∀ key ∈ s.offered, ∃ job, s.chain.jobQueue.lookup key = some job
  fresh : ∀ key job, s.chain.jobQueue.lookup key = some job → key ∉ s.changed →
    job.state = .pending
  changed : ∀ key job, s.chain.jobQueue.lookup key = some job → key ∈ s.changed →
    job.state = .processing

section OnceInv

variable {s s' : System T ι}

/-- A step that leaves the offers alone, after which the queue is the same or has a new pending
job. -/
theorem OnceInv.keep (h : OnceInv s) (hnodes : ∀ i, NodeInv s'.chain (s'.nodes i))
    (hchanged : s'.changed = s.changed) (honce : s'.offered.Nodup)
    (hqueued : ∀ key ∈ s'.offered, ∃ job, s'.chain.jobQueue.lookup key = some job)
    (hqueue : s'.chain.jobQueue = s.chain.jobQueue ∨
      ∃ job : OcwJob T, job.state = .pending ∧ s.chain.jobQueue.lookup job.key = none ∧
        s'.chain.jobQueue = s.chain.jobQueue.insert job.key job) :
    OnceInv s' := by
  have hold : ∀ key job, s'.chain.jobQueue.lookup key = some job →
      s.chain.jobQueue.lookup key = some job ∨
        job.state = .pending ∧ s.chain.jobQueue.lookup key = none := by
    intro key job hjob
    rcases hqueue with hsame | ⟨new, hstate, hfresh, hinsert⟩
    · exact .inl (hsame ▸ hjob)
    · rw [hinsert] at hjob
      rcases Finmap.lookup_insert_iff.mp hjob with ⟨rfl, rfl⟩ | ⟨-, hjob⟩
      · exact .inr ⟨hstate, hfresh⟩
      · exact .inl hjob
  refine ⟨hnodes, honce, hqueued, fun key job hjob hkey => ?_, fun key job hjob hkey => ?_⟩
  · rcases hold key job hjob with hjob | ⟨hstate, -⟩
    · exact h.fresh key job hjob (hchanged ▸ hkey)
    · exact hstate
  · rw [hchanged] at hkey
    rcases hold key job hjob with hjob | ⟨-, hnone⟩
    · exact h.changed key job hjob hkey
    · obtain ⟨job', hjob'⟩ := h.queued key (List.mem_append_left _ hkey)
      rw [hnone] at hjob'
      contradiction

/-- What has been offered is the same when a block includes a pooled call. -/
theorem System.offered_inclusion {k : Nat} {c : Call} (hpool : s.pool[k]? = some c) :
    List.Perm ((s.changed ++ c.changes) ++ (s.pool.eraseIdx k).flatMap Call.changes)
      s.offered := by
  obtain ⟨hk, rfl⟩ := List.getElem?_eq_some_iff.mp hpool
  have hperm : List.Perm (s.pool[k] :: s.pool.eraseIdx k) s.pool :=
    List.getElem_cons_eraseIdx_perm hk
  rw [List.append_assoc]
  exact (hperm.flatMap_right Call.changes).append_left s.changed

/-- A block includes the one state change of a job. -/
theorem OnceInv.change (h : OnceInv s) {k blockNumber : Nat} {key : Hash}
    (hpool : s.pool[k]? = some (.changeJobState blockNumber key)) :
    OnceInv { s with
      chain := s.chain.call .none (.changeJobState blockNumber key)
      pool := s.pool.eraseIdx k
      changed := s.changed ++ [key] } := by
  have hchain := (ChainReaches.refl s.chain).call .none (.changeJobState blockNumber key)
  have hperm := System.offered_inclusion hpool
  have hmem : key ∈ s.offered := hperm.subset (by simp [Call.changes])
  obtain ⟨job, hjob⟩ := h.queued key hmem
  have hnew : key ∉ s.changed := by
    have hnodup := (hperm.nodup_iff.mpr h.once).of_append_left
    exact fun hchanged => (List.disjoint_of_nodup_append hnodup) hchanged (by simp [Call.changes])
  have hqueue : (s.chain.call .none (.changeJobState blockNumber key)).jobQueue =
      s.chain.jobQueue.insert key job.advance := by
    simp [State.call, Call.dispatch, changeJobState, hjob]
  have hprocessing : job.advance.state = .processing := by
    simp [OcwJob.advance, JobState.advance, h.fresh key job hjob hnew]
  refine ⟨fun i => (h.nodes i).grow hchain, hperm.nodup_iff.mpr h.once, fun key' hkey' => ?_,
    fun key' job' hjob' hkey' => ?_, fun key' job' hjob' hkey' => ?_⟩
  · obtain ⟨job', hjob'⟩ := h.queued key' (hperm.subset hkey')
    exact hchain.queueGrows.queued hjob'
  · rw [hqueue] at hjob'
    rcases Finmap.lookup_insert_iff.mp hjob' with ⟨rfl, -⟩ | ⟨-, hjob'⟩
    · simp at hkey'
    · exact h.fresh key' job' hjob' fun hchanged => hkey' (List.mem_append_left _ hchanged)
  · rw [hqueue] at hjob'
    rcases Finmap.lookup_insert_iff.mp hjob' with ⟨-, rfl⟩ | ⟨hne, hjob'⟩
    · exact hprocessing
    · exact h.changed key' job' hjob' (by simpa [hne] using hkey')

theorem NodeMove.changes_nodup {chain : State T} {n n' : Node T} {l : NodeLabel T}
    {calls : List Call} (hmove : NodeMove chain n l n' calls) :
    (calls.flatMap Call.changes).Nodup := by
  cases hmove with
  | offer run accepted w jobKey resultKey key job payload _ hw hpc hjob hstate hpayload =>
    rcases hpayload with ⟨-, rfl⟩ | ⟨-, rfl⟩
    · exact List.nodup_singleton key
    · exact List.nodup_nil
  | results run accepted w pc _ hw hpc hcalls =>
    have hnone : calls.flatMap Call.changes = [] := by
      rw [List.flatMap_eq_nil_iff]
      intro c hc
      obtain ⟨_, _, _, _, _, rfl⟩ := hcalls c hc
      rfl
    exact hnone ▸ List.nodup_nil
  | _ => exact List.nodup_nil

theorem OnceInv.move [DecidableEq ι] (h : OnceInv s) {l : Label T ι} (hworkers : WorkersOnly l)
    (honce : OffersOnce s l) (hstep : s.step l = some s') : OnceInv s' := by
  have hmove := system_move hstep
  have hchain := hmove.chain_reaches
  have hgrow : ∀ key ∈ s.offered, ∃ job, s'.chain.jobQueue.lookup key = some job :=
    fun key hkey => by
      obtain ⟨job, hjob⟩ := h.queued key hkey
      exact hchain.queueGrows.queued hjob
  cases l with
  | block invulnerables =>
    cases hmove
    exact h.keep (fun i => (h.nodes i).grow hchain) rfl h.once hgrow (.inl rfl)
  | extrinsic origin c =>
    cases hmove
    exact h.keep (fun i => (h.nodes i).grow hchain) rfl h.once hgrow (call_no_change hworkers)
  | inclusion k =>
    cases hmove with
    | inclusion _ c hpool hadmissible =>
      by_cases hc : c.changes = []
      · have hperm := System.offered_inclusion hpool
        exact h.keep (fun i => (h.nodes i).grow hchain) (by simp [hc])
          (hperm.nodup_iff.mpr h.once) (fun key hkey => hgrow key (hperm.subset hkey))
          (call_no_change hc)
      · cases c with
        | changeJobState blockNumber key => exact h.change hpool
        | _ => exact absurd rfl hc
  | node i l =>
    obtain ⟨n, calls, hn, rfl⟩ := System.step_node hstep
    have hnode := node_move hn
    have hoffered : System.offered { s with
        pool := s.pool ++ calls, nodes := Function.update s.nodes i n } =
          s.offered ++ calls.flatMap Call.changes := by
      simp [System.offered]
    refine h.keep (fun j => ?_) rfl ?_ (fun key hkey => ?_) (.inl rfl)
    · by_cases hj : j = i
      · subst hj
        simpa using (h.nodes j).move hnode
      · simpa [Function.update_of_ne hj] using h.nodes j
    · rw [hoffered]
      exact h.once.append hnode.changes_nodup fun key hkey hnew =>
        honce (n, calls) hn key hnew hkey
    · rw [hoffered] at hkey
      rcases List.mem_append.mp hkey with hkey | hkey
      · exact h.queued key hkey
      · obtain ⟨c, hc, hkey⟩ := List.mem_flatMap.mp hkey
        exact hnode.calls_queued (h.nodes i) c hc key hkey

end OnceInv

end PolkadotOracle
