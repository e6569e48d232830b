import PolkadotOracle.Pallet.JobQueue
import PolkadotOracle.Pallet.ScriptKey

/-! When a request for a stored script is refused: exactly when the caller already has a job, in any
state, made from the code and ABI that are stored now. -/

namespace PolkadotOracle

open Exec Frame Scale Text

variable {T : Config}

/-- Every script is stored under the key of its own name. -/
def ScriptInv (s : State T) : Prop :=
  ∀ key detail, s.scriptStorage.lookup key = some detail →
    ∃ name, key.val = scriptKeyOf T name ∧ detail.name.val = utf8 name

theorem scriptInv_genesis : ScriptInv (State.genesis T) := by
  intro key detail h
  simp [State.genesis] at h

theorem ScriptInv.effect {s s' : State T} {origin : Origin T} {c : Call} (hinv : ScriptInv s)
    (h : Effect s origin c s') : ScriptInv s' := by
  cases h with
  | @upload _ _ _ _ _ key detail _ hkey _ hname _ _ _ =>
    intro k d hd
    rcases Finmap.lookup_insert_iff.mp hd with ⟨rfl, rfl⟩ | ⟨-, hd⟩
    · exact ⟨_, hkey, hname⟩
    · exact hinv k d hd
  | _ => exact hinv

theorem ChainReaches.scriptInv {s : State T} (h : ChainReaches (State.genesis T) s) :
    ScriptInv s := by
  refine h.invariant scriptInv_genesis fun s l s' hinv _ hs => ?_
  rcases chainStep_effect hs with ⟨_, rfl⟩ | ⟨_, _, heffect⟩
  · exact hinv
  · exact hinv.effect heffect

/-- A script that is found under the key of a name has that name. -/
theorem ScriptInv.name {s : State T} (hinv : ScriptInv s)
    {key : BoundedVec T.maxScriptKeyLen.toNat} {detail : ScriptDetail T} {name : Str}
    (hkey : key.val = scriptKeyOf T name) (hscript : s.scriptStorage.lookup key = some detail) :
    detail.name.val = utf8 name := by
  obtain ⟨name', hkey', hname'⟩ := hinv key detail hscript
  obtain rfl := scriptKeyOf_injective T (hkey'.symm.trans hkey)
  exact hname'

theorem requestScriptExecution_tooLong {s : State T} {name : Str} (who : T.AccountId)
    (params : Option Str) (h : ¬KeyFits T name) :
    requestScriptExecution (.signed who) name params s = .error (.module .sizeTooBig) s := by
  simp only [requestScriptExecution, bind_apply, ensureSigned_signed,
    BoundedVec.tryFrom_of_not_le h, orFault_none]

theorem requestScriptExecution_missing {s : State T} {name : Str} (who : T.AccountId)
    (params : Option Str) (h : KeyFits T name) (hnone : s.scriptStorage.lookup h.key = none) :
    requestScriptExecution (.signed who) name params s = .error (.module .noValExist) s := by
  rw [KeyFits.key] at hnone
  simp only [requestScriptExecution, bind_apply, ensureSigned_signed,
    BoundedVec.tryFrom_of_le h, orFault_some, get_apply, hnone, throw_apply]

/-- The job that a request by `who` for a stored script queues. -/
def requestedJob (who : T.AccountId) (detail : ScriptDetail T) : OcwJob T :=
  ⟨who, detail.name, detail.wasmCode, detail.wasmAbi, .pending⟩

theorem requestScriptExecution_stored {s : State T} {key : BoundedVec T.maxScriptKeyLen.toNat}
    {detail : ScriptDetail T} {name : Str} (who : T.AccountId) (params : Option Str)
    (hkey : key.val = scriptKeyOf T name) (hscript : s.scriptStorage.lookup key = some detail)
    (hname : detail.name.val = utf8 name) :
    requestScriptExecution (.signed who) name params s =
      match s.jobQueue.lookup (requestedJob who detail).key with
      | none => .ok () { s with
          jobQueue := s.jobQueue.insert (requestedJob who detail).key (requestedJob who detail)
          events := s.events ++
            [.requestExecution (requestedJob who detail).key who s.blockNumber name] }
      | some _ => .error (.module .valAlreadyExist) s := by
  have hk := BoundedVec.tryFrom_eq_some.mpr hkey
  have hn := BoundedVec.tryFrom_eq_some.mpr hname
  simp only [requestScriptExecution, bind_apply, ensureSigned_signed, hk, orFault_some, get_apply,
    hscript, hn]
  cases hjob : s.jobQueue.lookup (requestedJob who detail).key with
  | none =>
    rw [requestedJob] at hjob
    simp [hjob, depositEvent, requestedJob]
  | some _ =>
    rw [requestedJob] at hjob
    simp [hjob]

/-- A job of `who` for the script `name`. -/
def JobFor (who : T.AccountId) (name : Str) (job : OcwJob T) : Prop :=
  job.caller = who ∧ job.scriptName.val = utf8 name

/-- `who` has a job for `name` that is waiting or being processed. -/
def Unfinished (s : State T) (who : T.AccountId) (name : Str) : Prop :=
  ∃ key job, s.jobQueue.lookup key = some job ∧ JobFor who name job ∧
    (job.state = .pending ∨ job.state = .processing)

/-- `who` has a job for `name`, in whatever state, made from the given code and ABI. -/
def MadeFrom (s : State T) (who : T.AccountId) (name : Str) (detail : ScriptDetail T) : Prop :=
  ∃ key job, s.jobQueue.lookup key = some job ∧ JobFor who name job ∧
    job.wasmCode = detail.wasmCode ∧ job.wasmAbi = detail.wasmAbi

/-- One running job per caller and script, and none blocked for ever: a request is refused as a
duplicate exactly when the caller has an unfinished job for the script, and succeeds otherwise. -/
def OneRunningJob (s : State T) (who : T.AccountId) (name : Str) (params : Option Str) : Prop :=
  (requestScriptExecution (.signed who) name params s = .error (.module .valAlreadyExist) s ↔
    Unfinished s who name) ∧
  ((∀ key job, s.jobQueue.lookup key = some job → JobFor who name job → job.state = .finish) →
    ∃ s', requestScriptExecution (.signed who) name params s = .ok () s')

/-- The hash does not give a queued job the key of the requested one. -/
def NoCollision (s : State T) (job : OcwJob T) : Prop :=
  ∀ key job', s.jobQueue.lookup key = some job' → job'.asPending.key = job.key →
    (OcwJob.codec T).encode job'.asPending = (OcwJob.codec T).encode job

theorem lookup_requestedJob {s : State T} (hqueue : QueueInv s) {who : T.AccountId} {name : Str}
    {detail : ScriptDetail T} (hname : detail.name.val = utf8 name)
    (hcollision : NoCollision s (requestedJob who detail)) :
    (∃ job, s.jobQueue.lookup (requestedJob who detail).key = some job) ↔
      MadeFrom s who name detail := by
  constructor
  · rintro ⟨job, hjob⟩
    have hkey := (hqueue _ _ hjob).key_eq
    have hsame : job.asPending = (requestedJob who detail).asPending :=
      (OcwJob.codec T).encode_injective (hcollision _ _ hjob hkey.symm)
    obtain ⟨hcaller, hscript, hcode, habi⟩ := OcwJob.asPending_eq_iff.mp hsame
    exact ⟨_, job, hjob, ⟨hcaller, hscript ▸ hname⟩, hcode, habi⟩
  · rintro ⟨key, job, hjob, ⟨hcaller, hscript⟩, hcode, habi⟩
    have hsame : job.asPending = (requestedJob who detail).asPending :=
      OcwJob.asPending_eq_iff.mpr
        ⟨hcaller, Subtype.ext (hscript.trans hname.symm), hcode, habi⟩
    have hkey : key = (requestedJob who detail).key := by
      rw [(hqueue _ _ hjob).key_eq, hsame]
      rfl
    exact ⟨job, hkey ▸ hjob⟩

theorem not_unfinished_of_all_finish {s : State T} {who : T.AccountId} {name : Str}
    (h : ∀ key job, s.jobQueue.lookup key = some job → JobFor who name job →
      job.state = .finish) : ¬Unfinished s who name := by
  rintro ⟨key, job, hjob, hfor, hstate⟩
  rw [h key job hjob hfor] at hstate
  simp at hstate

/-- In every state that any calls reach, a request for a stored script obeys the rule exactly when
the caller has both an unfinished job for it and one made from the script as it is stored now, or
neither. -/
theorem oneRunningJob_iff {s : State T} (h : ChainReaches (State.genesis T) s)
    {key : BoundedVec T.maxScriptKeyLen.toNat} {detail : ScriptDetail T} (who : T.AccountId)
    (name : Str) (params : Option Str) (hkey : key.val = scriptKeyOf T name)
    (hscript : s.scriptStorage.lookup key = some detail)
    (hcollision : NoCollision s (requestedJob who detail)) :
    OneRunningJob s who name params ↔
      (Unfinished s who name ∧ MadeFrom s who name detail) ∨
      (¬Unfinished s who name ∧ ¬MadeFrom s who name detail) := by
  have hname := h.scriptInv.name hkey hscript
  have hstored := requestScriptExecution_stored who params hkey hscript hname
  have hmade := lookup_requestedJob h.queueInv hname hcollision
  have hrefused : requestScriptExecution (.signed who) name params s =
      .error (.module .valAlreadyExist) s ↔ MadeFrom s who name detail := by
    rw [hstored, ← hmade]
    cases s.jobQueue.lookup (requestedJob who detail).key <;> simp
  constructor
  · rintro ⟨hrule, -⟩
    rw [hrefused] at hrule
    by_cases hun : Unfinished s who name
    · exact .inl ⟨hun, hrule.mpr hun⟩
    · exact .inr ⟨hun, fun hm => hun (hrule.mp hm)⟩
  · intro hcond
    have hrule : MadeFrom s who name detail ↔ Unfinished s who name := by
      rcases hcond with ⟨hun, hfrom⟩ | ⟨hun, hfrom⟩
      · exact iff_of_true hfrom hun
      · exact iff_of_false hfrom hun
    refine ⟨hrefused.trans hrule, fun hfinish => ?_⟩
    have hnot : ¬MadeFrom s who name detail :=
      hrule.not.mpr (not_unfinished_of_all_finish hfinish)
    rw [hstored]
    cases hjob : s.jobQueue.lookup (requestedJob who detail).key with
    | none => exact ⟨_, rfl⟩
    | some job => exact absurd (hmade.mp ⟨job, hjob⟩) hnot

/-! ### Samples -/

def sampleName : Str := ['E', 'X', 'E', 'a']

def sampleKey : BoundedVec sampleRuntime.maxScriptKeyLen.toNat :=
  ⟨scriptKeyOf sampleRuntime sampleName, by decide⟩

/-- The sample job, processed and finished. -/
def sampleFinished : State sampleRuntime :=
  (sampleQueue.call .none (.changeJobState 0 sampleJob.key)).call .none
    (.changeJobState 0 sampleJob.key)

/-- The sample job, pending, after its script was uploaded with other code. -/
def sampleReuploaded : State sampleRuntime :=
  sampleQueue.call (.signed (1 : UInt32)) (.uploadWasm ['a'] .executable [9] [3])

theorem sampleQueue_jobs {key : Hash} {job : OcwJob sampleRuntime}
    (h : sampleQueue.jobQueue.lookup key = some job) : job = sampleJob := by
  have hqueue : sampleQueue.jobQueue = Finmap.insert sampleJob.key sampleJob ∅ := by decide
  rw [hqueue] at h
  rcases Finmap.lookup_insert_iff.mp h with ⟨-, rfl⟩ | ⟨-, h⟩
  · rfl
  · simp at h

theorem sampleFinished_jobs {key : Hash} {job : OcwJob sampleRuntime}
    (h : sampleFinished.jobQueue.lookup key = some job) : job.state = .finish := by
  have hqueue : sampleFinished.jobQueue =
      Finmap.insert sampleJob.key { sampleJob with state := .finish } ∅ := by decide
  rw [hqueue] at h
  rcases Finmap.lookup_insert_iff.mp h with ⟨-, rfl⟩ | ⟨-, h⟩
  · rfl
  · simp at h

/-- Account 1, whose job is pending and made from the stored script, is refused a second one. -/
theorem oneRunningJob_iff_sample : OneRunningJob sampleQueue (1 : UInt32) sampleName none := by
  have hscript : sampleQueue.scriptStorage.lookup sampleKey = some
      ⟨(1 : UInt32), 0, ⟨[1, 2], by decide⟩, ⟨[3], by decide⟩, sampleRuntime.hashing [1, 2],
        ⟨utf8 sampleName, by decide⟩, .executable, 0⟩ := by decide
  refine (oneRunningJob_iff sampleQueue_reached (1 : UInt32) sampleName none rfl hscript ?_).mpr
    (.inl ⟨⟨_, _, sampleQueue_lookup, ⟨rfl, rfl⟩, by decide⟩,
      ⟨_, _, sampleQueue_lookup, ⟨rfl, rfl⟩, rfl, rfl⟩⟩)
  intro key job hjob _
  rw [sampleQueue_jobs hjob]
  decide

/-- The rule fails both ways: a finished job blocks its caller for as long as the script stays the
same, and a new upload lets the caller start a second job beside a pending one. -/
theorem oneRunningJob_fails :
    (ChainReaches (State.genesis _) sampleFinished ∧
      (sampleFinished.scriptStorage.lookup sampleKey).isSome = true ∧
      error (requestScriptExecution (.signed (1 : UInt32)) sampleName none sampleFinished) =
        some (.module .valAlreadyExist) ∧
      ¬Unfinished sampleFinished (1 : UInt32) sampleName ∧
      ¬OneRunningJob sampleFinished (1 : UInt32) sampleName none) ∧
    ChainReaches (State.genesis _) sampleReuploaded ∧
      (sampleReuploaded.scriptStorage.lookup sampleKey).isSome = true ∧
      error (requestScriptExecution (.signed (1 : UInt32)) sampleName none sampleReuploaded) =
        none ∧
      Unfinished sampleReuploaded (1 : UInt32) sampleName ∧
      ¬OneRunningJob sampleReuploaded (1 : UInt32) sampleName none := by
  have hfinish : ∀ key job, sampleFinished.jobQueue.lookup key = some job →
      JobFor (1 : UInt32) sampleName job → job.state = .finish := fun _ _ hjob _ =>
    sampleFinished_jobs hjob
  have hrefused : error (requestScriptExecution (.signed (1 : UInt32)) sampleName none
      sampleFinished) = some (.module .valAlreadyExist) := by decide
  have haccepted : error (requestScriptExecution (.signed (1 : UInt32)) sampleName none
      sampleReuploaded) = none := by decide
  have hpending : Unfinished sampleReuploaded (1 : UInt32) sampleName :=
    ⟨sampleJob.key, sampleJob, by decide, ⟨rfl, rfl⟩, by decide⟩
  refine ⟨⟨(sampleQueue_reached.call _ _).call _ _, by decide, hrefused,
    not_unfinished_of_all_finish hfinish, ?_⟩, sampleQueue_reached.call _ _, by decide, haccepted,
    hpending, ?_⟩
  · rintro ⟨-, hsucceeds⟩
    obtain ⟨s', hs'⟩ := hsucceeds hfinish
    rw [hs'] at hrefused
    simp [error] at hrefused
  · rintro ⟨hrule, -⟩
    rw [hrule.mpr hpending] at haccepted
    simp [error] at haccepted

end PolkadotOracle
