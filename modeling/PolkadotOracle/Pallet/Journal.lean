import PolkadotOracle.Lib.Journal
import PolkadotOracle.Pallet.Request

/-! The events of the pallet announce every script and every job: an observer rebuilds from the
events of all blocks who has published and who has requested what, and no job is announced twice. -/

namespace PolkadotOracle

open Exec Scale Text

variable {T : Config} {s s' : State T} {j : List (Event T)}

/-! ### The index of an observer -/

/-- What an observer knows of a state: the publisher and the hash of the code of each script, and
the caller, the script and the hash of the code of each job. -/
@[ext]
structure Index (T : Config) where
  scripts : Bytes → Option (T.AccountId × Hash)
  jobs : Hash → Option (T.AccountId × Bytes × Hash)

def Index.empty (T : Config) : Index T := ⟨fun _ => none, fun _ => none⟩

def ScriptDetail.summary (detail : ScriptDetail T) : T.AccountId × Hash :=
  (detail.publisher, T.hashing detail.wasmCode.val)

def OcwJob.summary (job : OcwJob T) : T.AccountId × Bytes × Hash :=
  (job.caller, job.scriptName.val, T.hashing job.wasmCode.val)

def State.index (s : State T) : Index T where
  scripts key := (BoundedVec.tryFrom T.maxScriptKeyLen.toNat key).bind fun key =>
    (s.scriptStorage.lookup key).map ScriptDetail.summary
  jobs key := (s.jobQueue.lookup key).map OcwJob.summary

/-- What an event tells.  A job has the code that its script has at the time. -/
def Index.apply (x : Index T) : Event T → Index T
  | .scriptUpload who _ _ scriptName hashId =>
    { x with scripts := Function.update x.scripts (scriptKeyOf T scriptName) (some (who, hashId)) }
  | .requestExecution jobId who _ scriptName =>
    { x with jobs := Function.update x.jobs jobId ((x.scripts (scriptKeyOf T scriptName)).map
        fun script => (who, utf8 scriptName, script.2)) }
  | .test _ => x

/-- The job that an event announces. -/
def Event.jobId : Event T → Option Hash
  | .requestExecution jobId _ _ _ => some jobId
  | _ => none

def jobIds (j : List (Event T)) : List Hash := j.filterMap Event.jobId

theorem jobIds_concat_none {event : Event T} (h : event.jobId = none) :
    jobIds (j ++ [event]) = jobIds j := by
  simp [jobIds, h]

theorem jobIds_concat_some {event : Event T} {jobId : Hash} (h : event.jobId = some jobId) :
    jobIds (j ++ [event]) = jobIds j ++ [jobId] := by
  simp [jobIds, h]

def ChainLabel.isBlock : ChainLabel T → Bool
  | .block _ => true
  | .call _ _ => false

/-- The steps of the chain, with an observer of the events. -/
def observe : Journal.Observed (State T) (Event T) → ChainLabel T →
    Option (Journal.Observed (State T) (Event T)) :=
  Journal.observe chainStep State.events ChainLabel.isBlock

/-- The journal has announced the jobs of the queue, each once, and rebuilds the index. -/
structure Announced (j : List (Event T)) (s : State T) : Prop where
  scripts : ScriptInv s
  index : s.index = j.foldl Index.apply (Index.empty T)
  once : (jobIds j).Nodup
  queued : ∀ key, key ∈ jobIds j ↔ key ∈ s.jobQueue

/-! ### What a call announces -/

theorem index_upload {scriptName : Str} {wasmCode scriptAbi : Bytes}
    (h : Fits T scriptName wasmCode scriptAbi) (s : State T) (who : T.AccountId)
    (typ : ScriptType) : (h.store s who typ).index.scripts =
      Function.update s.index.scripts (scriptKeyOf T scriptName)
        (some (who, T.hashing wasmCode)) := by
  funext key
  by_cases hkey : key = scriptKeyOf T scriptName
  · rw [hkey, Function.update_self]
    show (BoundedVec.tryFrom _ _).bind _ = _
    rw [BoundedVec.tryFrom_of_le h.key]
    show ((s.scriptStorage.insert h.key.key (h.detail s who typ)).lookup h.key.key).map _ = _
    rw [Finmap.lookup_insert]
    rfl
  · rw [Function.update_of_ne hkey]
    show (BoundedVec.tryFrom _ key).bind _ = (BoundedVec.tryFrom _ key).bind _
    cases hbounded : BoundedVec.tryFrom T.maxScriptKeyLen.toNat key with
    | none => rfl
    | some bounded =>
      have hne : bounded ≠ h.key.key := by
        rintro rfl
        exact hkey (BoundedVec.tryFrom_eq_some.mp hbounded).symm
      show ((s.scriptStorage.insert h.key.key _).lookup bounded).map _ = _
      rw [Finmap.lookup_insert_of_ne _ hne]
      rfl

theorem index_jobs_insert (s : State T) (key : Hash) (job : OcwJob T) :
    ({ s with jobQueue := s.jobQueue.insert key job } : State T).index.jobs =
      Function.update s.index.jobs key (some job.summary) := by
  funext key'
  by_cases hkey : key' = key
  · subst hkey
    rw [Function.update_self]
    show ((s.jobQueue.insert key' job).lookup key').map _ = _
    rw [Finmap.lookup_insert]
    rfl
  · rw [Function.update_of_ne hkey]
    show ((s.jobQueue.insert key job).lookup key').map _ = _
    rw [Finmap.lookup_insert_of_ne _ hkey]
    rfl

/-- The index has a stored script under the key of its name. -/
theorem index_scripts {key : BoundedVec T.maxScriptKeyLen.toNat} {detail : ScriptDetail T}
    {scriptName : Str} (hkey : key.val = scriptKeyOf T scriptName)
    (hscript : s.scriptStorage.lookup key = some detail) :
    s.index.scripts (scriptKeyOf T scriptName) = some detail.summary := by
  show (BoundedVec.tryFrom _ _).bind _ = _
  rw [BoundedVec.tryFrom_eq_some.mpr hkey]
  show (s.scriptStorage.lookup key).map _ = _
  rw [hscript]
  rfl

/-! ### Runs -/

/-- A step that leaves the scripts and the jobs of the index alone, and announces no job. -/
theorem Announced.frame (h : Announced j s) (hscripts : ScriptInv s') (hindex : s'.index = s.index)
    (hqueue : ∀ key, key ∈ s'.jobQueue ↔ key ∈ s.jobQueue) : Announced j s' where
  scripts := hscripts
  index := hindex.trans h.index
  once := h.once
  queued key := (h.queued key).trans (hqueue key).symm

/-- A step that adds an event which announces no job, and leaves the jobs alone. -/
theorem Announced.event {event : Event T} (h : Announced j s) (hevent : event.jobId = none)
    (hscripts : ScriptInv s') (hindex : s'.index = s.index.apply event)
    (hqueue : s'.jobQueue = s.jobQueue) : Announced (j ++ [event]) s' where
  scripts := hscripts
  index := by
    rw [List.foldl_append, ← h.index]
    exact hindex
  once := by
    rw [jobIds_concat_none hevent]
    exact h.once
  queued := by
    rw [jobIds_concat_none hevent, hqueue]
    exact h.queued

theorem Announced.request {key : BoundedVec T.maxScriptKeyLen.toNat} {detail : ScriptDetail T}
    {scriptName : Str} {who : T.AccountId} (h : Announced j s)
    (hkey : key.val = scriptKeyOf T scriptName)
    (hscript : s.scriptStorage.lookup key = some detail)
    (hfresh : s.jobQueue.lookup (requestedJob who detail).key = none) :
    Announced (j ++ [.requestExecution (requestedJob who detail).key who s.blockNumber scriptName])
      { s with
        jobQueue := s.jobQueue.insert (requestedJob who detail).key (requestedJob who detail)
        events := s.events ++
          [.requestExecution (requestedJob who detail).key who s.blockNumber scriptName] } := by
  have hnew : (requestedJob who detail).key ∉ jobIds j := by
    rw [h.queued]
    exact Finmap.lookup_eq_none.mp hfresh
  constructor
  case scripts => exact h.scripts
  case index =>
    rw [List.foldl_append, ← h.index]
    apply Index.ext
    · rfl
    · show _ = Function.update s.index.jobs _ _
      rw [index_scripts hkey hscript, ← h.scripts.name hkey hscript]
      exact index_jobs_insert s _ _
  case once =>
    rw [jobIds_concat_some rfl, ← List.concat_eq_append]
    exact h.once.concat hnew
  case queued =>
    intro key'
    rw [jobIds_concat_some rfl, List.mem_append, List.mem_singleton, h.queued,
      Finmap.mem_insert, or_comm]

theorem Announced.advance {key : Hash} {job : OcwJob T} (h : Announced j s)
    (hjob : s.jobQueue.lookup key = some job) :
    Announced j { s with jobQueue := s.jobQueue.insert key job.advance } := by
  apply h.frame
  · exact h.scripts
  · apply Index.ext
    · rfl
    · have hsame : s.index.jobs key = some job.advance.summary := by
        show (s.jobQueue.lookup key).map OcwJob.summary = _
        rw [hjob]
        rfl
      rw [index_jobs_insert, ← hsame, Function.update_eq_self]
  · intro key'
    rw [Finmap.mem_insert]
    constructor
    · rintro (rfl | hmem)
      · exact Finmap.mem_of_lookup_eq_some hjob
      · exact hmem
    · exact .inr

/-- A step adds events that announce what it does. -/
def Announces (j : List (Event T)) (s s' : State T) : Prop :=
  ∃ new, s'.events = s.events ++ new ∧ Announced (j ++ new) s'

theorem Announced.nothing (h : Announced j s') (hevents : s'.events = s.events) :
    Announces j s s' := by
  refine ⟨[], ?_, ?_⟩
  · rw [hevents, List.append_nil]
  · rwa [List.append_nil]

theorem uploadWasm_announces (h : Announced j s) (origin : Origin T) (name : Str)
    (typ : ScriptType) (wasmCode scriptAbi : Bytes) :
    Announces j s (s.call origin (.uploadWasm name typ wasmCode scriptAbi)) := by
  have hscripts := h.scripts.effect (uploadWasm_effect s origin name typ wasmCode scriptAbi)
  rcases uploadWasm_cases s origin name typ wasmCode scriptAbi with
    ⟨e, hrefused⟩ | ⟨who, hfits, rfl, -, hstored⟩
  · rw [State.call, Call.dispatch, hrefused]
    exact h.nothing rfl
  · rw [State.call, Call.dispatch, hstored] at hscripts ⊢
    refine ⟨_, rfl, h.event rfl hscripts ?_ rfl⟩
    apply Index.ext
    · exact index_upload hfits s who typ
    · rfl

theorem requestScriptExecution_announces (h : Announced j s) (who : T.AccountId)
    (scriptName : Str) (params : Option Str) :
    Announces j s (s.call (.signed who) (.requestScriptExecution scriptName params)) := by
  rw [State.call, Call.dispatch]
  by_cases hfits : KeyFits T scriptName
  case neg =>
    rw [requestScriptExecution_tooLong who params hfits]
    exact h.nothing rfl
  cases hscript : s.scriptStorage.lookup hfits.key with
  | none =>
    rw [requestScriptExecution_missing who params hfits hscript]
    exact h.nothing rfl
  | some detail =>
    have hname : detail.name.val = utf8 scriptName := h.scripts.name rfl hscript
    have hrequest := requestScriptExecution_stored who params rfl hscript hname
    cases hjob : s.jobQueue.lookup (requestedJob who detail).key with
    | some job =>
      rw [hjob] at hrequest
      rw [hrequest]
      exact h.nothing rfl
    | none =>
      rw [hjob] at hrequest
      rw [hrequest]
      exact ⟨_, rfl, h.request rfl hscript hjob⟩

/-- Every call deposits events that announce what it does. -/
theorem call_announces (h : Announced j s) (origin : Origin T) (c : Call) :
    Announces j s (s.call origin c) := by
  cases c with
  | uploadWasm name typ wasmCode scriptAbi =>
    exact uploadWasm_announces h origin name typ wasmCode scriptAbi
  | requestScriptExecution scriptName params =>
    cases origin with
    | root => exact h.nothing rfl
    | none => exact h.nothing rfl
    | signed who => exact requestScriptExecution_announces h who scriptName params
  | changeJobState blockNumber key =>
    have heffect := changeJobState_effect s origin blockNumber key
    generalize s.call origin (.changeJobState blockNumber key) = s' at heffect ⊢
    cases heffect with
    | idle => exact h.nothing rfl
    | advance hjob => exact (h.advance hjob).nothing rfl
  | submitResultUnsiged blockNumber key value processorPub extTime =>
    have heffect := submitResultUnsiged_effect s origin blockNumber key value processorPub extTime
    generalize s.call origin (.submitResultUnsiged blockNumber key value processorPub extTime) = s'
      at heffect ⊢
    cases heffect with
    | idle => exact h.nothing rfl
    | record => exact Announced.nothing (h.frame h.scripts rfl fun _ => Iff.rfl) rfl
  | getCollatorsLts =>
    cases origin with
    | root => exact h.nothing rfl
    | none => exact h.nothing rfl
    | signed who =>
      exact ⟨[.test s.invulnerables], rfl, h.event rfl h.scripts rfl rfl⟩

theorem announced_genesis (T : Config) : Announced [] (State.genesis T) where
  scripts := scriptInv_genesis
  index := by
    apply Index.ext
    · funext key
      show (BoundedVec.tryFrom _ key).bind _ = none
      cases BoundedVec.tryFrom T.maxScriptKeyLen.toNat key <;> rfl
    · rfl
  once := List.nodup_nil
  queued key := by simpa [jobIds, State.genesis] using Finmap.notMem_empty

/-- On every run from a new chain the events of all blocks announce each job of the queue exactly
once and nothing else as a job, and rebuild who has published each script, who has requested each
job under which name, and the hashes of the codes of both. -/
theorem events_announce {x : Journal.Observed (State T) (Event T)}
    (h : Lts.Reaches observe ⟨State.genesis T, []⟩ x) :
    (∀ key, (jobIds (x.journal State.events)).count key =
      if key ∈ x.state.jobQueue then 1 else 0) ∧
    x.state.index = (x.journal State.events).foldl Index.apply (Index.empty T) := by
  have hannounced : Announced (x.journal State.events) x.state := by
    apply Journal.invariant (P := Announced) rfl (announced_genesis T) _ h
    intro s l s' j hj hs
    cases l with
    | block invulnerables =>
      obtain rfl := Option.some.inj hs
      refine ⟨[], rfl, ?_⟩
      rw [List.append_nil]
      exact hj.frame hj.scripts rfl fun _ => Iff.rfl
    | call origin c =>
      obtain rfl := Option.some.inj hs
      exact call_announces hj origin c
  refine ⟨fun key => ?_, hannounced.index⟩
  rw [List.Nodup.count hannounced.once]
  simp only [hannounced.queued]

/-- Account 1 uploads a script, and account 2 requests it in the block after. -/
def sampleAnnounced : List (ChainLabel sampleRuntime) :=
  [.call (.signed (1 : UInt32)) (.uploadWasm ['a'] .executable [1, 2] [3]), .block [],
    .call (.signed (2 : UInt32)) (.requestScriptExecution sampleName none), .block []]

theorem events_announce_sample :
    ∃ x, Lts.Reaches observe ⟨State.genesis sampleRuntime, []⟩ x ∧
      x.archive.length = 2 ∧ x.state.events = [] ∧
      (jobIds (x.journal State.events)).count { sampleJob with caller := (2 : UInt32) }.key = 1 ∧
      x.state.index = (x.journal State.events).foldl Index.apply (Index.empty sampleRuntime) := by
  have hrun : (Lts.run observe ⟨State.genesis sampleRuntime, []⟩ sampleAnnounced).any
      (fun x => x.archive.length = 2 ∧ x.state.events.isEmpty ∧
        { sampleJob with caller := (2 : UInt32) }.key ∈ x.state.jobQueue) = true := by
    decide
  obtain ⟨x, hx, hend⟩ := Lts.reaches_of_run hrun
  obtain ⟨harchive, hevents, hqueued⟩ := of_decide_eq_true hend
  obtain ⟨hcount, hindex⟩ := events_announce hx
  refine ⟨x, hx, harchive, List.isEmpty_iff.mp hevents, ?_, hindex⟩
  rw [hcount, if_pos hqueued]

end PolkadotOracle
