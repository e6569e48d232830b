import PolkadotOracle.ChainExtension
import PolkadotOracle.Pallet.Request

/-! Every reader of the script store sees the last upload: the runs of the chain with the uploads
that succeeded, and what the store holds under each name after them. -/

namespace PolkadotOracle

open Exec Frame Scale Text

variable {T : Config}

/-- An upload that succeeded, under its prefixed name. -/
structure Upload where
  name : Str
  wasmCode : Bytes
  wasmAbi : Bytes
deriving DecidableEq

/-- The last of the uploads under a name. -/
def lastUpload (scriptName : Str) (uploads : List Upload) : Option Upload :=
  (uploads.filter fun u => u.name = scriptName).getLast?

theorem lastUpload_append_same {u : Upload} (uploads : List Upload) :
    lastUpload u.name (uploads ++ [u]) = some u := by
  simp [lastUpload]

theorem lastUpload_append_other {scriptName : Str} {u : Upload} (uploads : List Upload)
    (h : u.name ≠ scriptName) :
    lastUpload scriptName (uploads ++ [u]) = lastUpload scriptName uploads := by
  simp [lastUpload, h]

/-- The upload that a call asks for. -/
def Call.upload : Call → Option Upload
  | uploadWasm name typ wasmCode scriptAbi => some ⟨typ.tag ++ name, wasmCode, scriptAbi⟩
  | _ => none

/-- The upload that a step makes: the one that its call asks for, if the call succeeds. -/
def State.uploads (s : State T) : ChainLabel T → List Upload
  | .block _ => []
  | .call origin c =>
    match c.dispatch origin s with
    | .ok _ _ => c.upload.toList
    | .error _ _ => []

/-- A state of the chain with the uploads that succeeded so far, the last one at the end. -/
structure Chronicle (T : Config) where
  state : State T
  uploads : List Upload

def chronicleStep (x : Chronicle T) (l : ChainLabel T) : Option (Chronicle T) :=
  (chainStep x.state l).map fun s => ⟨s, x.uploads ++ x.state.uploads l⟩

def Chronicle.genesis (T : Config) : Chronicle T := ⟨State.genesis T, []⟩

theorem Effect.scriptStorage_same {s s' : State T} {origin : Origin T} {c : Call}
    (h : Effect s origin c s') (hc : c.upload = none) : s'.scriptStorage = s.scriptStorage := by
  cases h with
  | upload => simp [Call.upload] at hc
  | _ => rfl

/-- All that a call can do to the stored scripts: nothing, or it uploads a script that fits. -/
theorem call_scripts (s : State T) (origin : Origin T) (c : Call) :
    ((s.call origin c).scriptStorage = s.scriptStorage ∧ s.uploads (.call origin c) = []) ∨
    ∃ who name typ wasmCode scriptAbi, ∃ h : Fits T (typ.tag ++ name) wasmCode scriptAbi,
      origin = .signed who ∧ c = .uploadWasm name typ wasmCode scriptAbi ∧
      (∀ d, s.scriptStorage.lookup h.key.key = some d →
        ¬(d.name.val = utf8 (typ.tag ++ name) ∧ d.wasmCode.val = wasmCode)) ∧
      s.call origin c = h.store s who typ ∧
      s.uploads (.call origin c) = [⟨typ.tag ++ name, wasmCode, scriptAbi⟩] := by
  cases c with
  | uploadWasm name typ wasmCode scriptAbi =>
    rcases uploadWasm_cases s origin name typ wasmCode scriptAbi with
      ⟨e, hrefused⟩ | ⟨who, h, rfl, hnew, hstored⟩
    · refine .inl ⟨?_, ?_⟩
      · rw [State.call, Call.dispatch, hrefused, final_error]
      · simp only [State.uploads, Call.dispatch, hrefused]
    · refine .inr ⟨who, name, typ, wasmCode, scriptAbi, h, rfl, rfl, hnew, ?_, ?_⟩
      · rw [State.call, Call.dispatch, hstored, final_ok]
      · simp [State.uploads, Call.dispatch, hstored, Call.upload]
  | _ =>
    refine .inl ⟨(call_effect s origin _).scriptStorage_same rfl, ?_⟩
    simp only [State.uploads]
    split <;> rfl

/-- What the store has under a name, when `last` was the last upload under it. -/
def StoresLast (s : State T) (scriptName : Str) : Option Upload → Prop
  | none => ∀ h : KeyFits T scriptName, s.scriptStorage.lookup h.key = none
  | some u => ∃ h : KeyFits T scriptName, ∃ detail : ScriptDetail T,
      s.scriptStorage.lookup h.key = some detail ∧ detail.name.val = utf8 scriptName ∧
      detail.wasmCode.val = u.wasmCode ∧ detail.wasmAbi.val = u.wasmAbi

/-- Only the store matters. -/
theorem StoresLast.frame {s s' : State T} {scriptName : Str} {last : Option Upload}
    (h : StoresLast s scriptName last)
    (hsame : ∀ hfits : KeyFits T scriptName,
      s'.scriptStorage.lookup hfits.key = s.scriptStorage.lookup hfits.key) :
    StoresLast s' scriptName last := by
  cases last with
  | none => exact fun hfits => (hsame hfits).trans (h hfits)
  | some u =>
    obtain ⟨hfits, detail, hlookup, hrest⟩ := h
    exact ⟨hfits, detail, (hsame hfits).trans hlookup, hrest⟩

theorem Fits.store_lookup_same {scriptName : Str} {wasmCode scriptAbi : Bytes}
    (h : Fits T scriptName wasmCode scriptAbi) (s : State T) (who : T.AccountId)
    (typ : ScriptType) :
    (h.store s who typ).scriptStorage.lookup h.key.key = some (h.detail s who typ) :=
  Finmap.lookup_insert _

/-- A script under another name keeps its entry: the names have different keys. -/
theorem Fits.store_lookup_other {scriptName other : Str} {wasmCode scriptAbi : Bytes}
    (h : Fits T scriptName wasmCode scriptAbi) (s : State T) (who : T.AccountId)
    (typ : ScriptType) (hother : KeyFits T other) (hne : scriptName ≠ other) :
    (h.store s who typ).scriptStorage.lookup hother.key =
      s.scriptStorage.lookup hother.key := by
  have hkey : hother.key ≠ h.key.key := by
    intro hsame
    exact hne (scriptKeyOf_injective T (congrArg Subtype.val hsame)).symm
  exact Finmap.lookup_insert_of_ne _ hkey

/-- The store has the last upload under every name. -/
def ChronicleInv (x : Chronicle T) : Prop :=
  ∀ scriptName, StoresLast x.state scriptName (lastUpload scriptName x.uploads)

theorem chronicleInv_genesis : ChronicleInv (Chronicle.genesis T) := by
  intro scriptName h
  rfl

theorem ChronicleInv.step {x x' : Chronicle T} {l : ChainLabel T} (hinv : ChronicleInv x)
    (h : chronicleStep x l = some x') : ChronicleInv x' := by
  intro scriptName
  cases l with
  | block invulnerables =>
    obtain rfl := Option.some.inj h
    simp only [State.uploads, List.append_nil]
    exact (hinv scriptName).frame fun _ => rfl
  | call origin c =>
    obtain rfl := Option.some.inj h
    rcases call_scripts x.state origin c with
      ⟨hsame, huploads⟩ | ⟨who, name, typ, wasmCode, scriptAbi, hfits, -, -, -, hcall, huploads⟩
    · simp only [huploads, List.append_nil]
      exact (hinv scriptName).frame fun _ => by rw [hsame]
    · simp only [hcall, huploads]
      by_cases hname : typ.tag ++ name = scriptName
      · subst hname
        have hlast : lastUpload (typ.tag ++ name)
            (x.uploads ++ [⟨typ.tag ++ name, wasmCode, scriptAbi⟩]) = some _ :=
          @lastUpload_append_same ⟨typ.tag ++ name, wasmCode, scriptAbi⟩ x.uploads
        rw [hlast]
        exact ⟨hfits.key, _, hfits.store_lookup_same x.state who typ, rfl, rfl, rfl⟩
      · rw [lastUpload_append_other x.uploads hname]
        exact (hinv scriptName).frame fun hother =>
          hfits.store_lookup_other x.state who typ hother hname

theorem ChronicleInv.reached {x : Chronicle T}
    (h : Lts.Reaches chronicleStep (Chronicle.genesis T) x) : ChronicleInv x :=
  h.invariant chronicleInv_genesis fun _ _ _ hinv _ hstep => hinv.step hstep

/-! ### The readers -/

/-- A request for a name reads what the store has under it. -/
theorem requestScriptExecution_last {s : State T} {scriptName : Str} {last : Option Upload}
    (h : StoresLast s scriptName last) (who : T.AccountId) (params : Option Str) :
    match last with
    | none => requestScriptExecution (.signed who) scriptName params s =
        .error (.module (if KeyFits T scriptName then .noValExist else .sizeTooBig)) s
    | some u => ∃ detail : ScriptDetail T, detail.name.val = utf8 scriptName ∧
        detail.wasmCode.val = u.wasmCode ∧ detail.wasmAbi.val = u.wasmAbi ∧
        requestScriptExecution (.signed who) scriptName params s =
          match s.jobQueue.lookup (requestedJob who detail).key with
          | none => .ok () { s with
              jobQueue := s.jobQueue.insert (requestedJob who detail).key
                (requestedJob who detail)
              events := s.events ++ [.requestExecution (requestedJob who detail).key who
                s.blockNumber scriptName] }
          | some _ => .error (.module .valAlreadyExist) s := by
  cases last with
  | none =>
    by_cases hfits : KeyFits T scriptName
    · rw [if_pos hfits]
      exact requestScriptExecution_missing who params hfits (h hfits)
    · rw [if_neg hfits]
      exact requestScriptExecution_tooLong who params hfits
  | some u =>
    obtain ⟨hfits, detail, hlookup, hname, hcode, habi⟩ := h
    exact ⟨detail, hname, hcode, habi,
      requestScriptExecution_stored who params rfl hlookup hname⟩

/-- An upload under another type or name than the ones that make the prefixed name. -/
def UploadsOther (scriptName : Str) (_ : State T) : ChainLabel T → Prop
  | .call _ (.uploadWasm name typ _ _) => typ.tag ++ name ≠ scriptName
  | _ => False

/-- Uploads under other names change neither what the store has under a name nor the jobs. -/
theorem uploadsOther_frame {scriptName : Str} {s s' : State T}
    (h : Lts.ReachesBy chainStep (UploadsOther scriptName) s s') :
    (∀ hfits : KeyFits T scriptName,
      s'.scriptStorage.lookup hfits.key = s.scriptStorage.lookup hfits.key) ∧
    s'.jobQueue = s.jobQueue := by
  refine Lts.ReachesBy.invariant (I := fun s₁ => (∀ hfits : KeyFits T scriptName,
    s₁.scriptStorage.lookup hfits.key = s.scriptStorage.lookup hfits.key) ∧
    s₁.jobQueue = s.jobQueue) h ⟨fun _ => rfl, rfl⟩ ?_
  rintro s₁ l s₂ ⟨hlookup, hqueue⟩ hother hstep
  cases l with
  | block invulnerables => exact hother.elim
  | call origin c =>
    obtain rfl := Option.some.inj hstep
    cases c with
    | uploadWasm name typ wasmCode scriptAbi =>
      rcases uploadWasm_cases s₁ origin name typ wasmCode scriptAbi with
        ⟨e, hrefused⟩ | ⟨who, hfits, rfl, -, hstored⟩
      · rw [State.call, Call.dispatch, hrefused]
        exact ⟨hlookup, hqueue⟩
      · rw [State.call, Call.dispatch, hstored]
        refine ⟨fun hname => ?_, hqueue⟩
        exact (hfits.store_lookup_other s₁ who typ hname hother).trans (hlookup hname)
    | _ => exact hother.elim

/-- The answer to a request depends on the script under its name and on the queue only. -/
theorem requestScriptExecution_congr {s s' : State T} {scriptName : Str} (origin : Origin T)
    (params : Option Str)
    (hlookup : ∀ hfits : KeyFits T scriptName,
      s'.scriptStorage.lookup hfits.key = s.scriptStorage.lookup hfits.key)
    (hqueue : s'.jobQueue = s.jobQueue) :
    error (requestScriptExecution origin scriptName params s') =
      error (requestScriptExecution origin scriptName params s) ∧
    (final (requestScriptExecution origin scriptName params s')).jobQueue =
      (final (requestScriptExecution origin scriptName params s)).jobQueue := by
  cases origin with
  | root => exact ⟨rfl, hqueue⟩
  | none => exact ⟨rfl, hqueue⟩
  | signed who =>
    by_cases hfits : KeyFits T scriptName
    case neg =>
      rw [requestScriptExecution_tooLong who params hfits,
        requestScriptExecution_tooLong who params hfits]
      exact ⟨rfl, hqueue⟩
    have hsame := hlookup hfits
    rw [KeyFits.key] at hsame
    simp only [requestScriptExecution, bind_apply, ensureSigned_signed,
      BoundedVec.tryFrom_of_le hfits, orFault_some, get_apply, hsame, hqueue]
    cases s.scriptStorage.lookup (BoundedVec.ofLe (scriptKeyOf T scriptName) hfits) with
    | none => exact ⟨rfl, hqueue⟩
    | some val =>
    cases BoundedVec.tryFrom T.maxStringSize.toNat (utf8 scriptName) with
    | none => exact ⟨rfl, hqueue⟩
    | some name =>
    cases hjob : s.jobQueue.lookup
        (OcwJob.key ⟨who, name, val.wasmCode, val.wasmAbi, .pending⟩) with
    | none => simp [hjob, depositEvent, error, hqueue]
    | some _ => simp [hjob, error, hqueue]

/-- A request that succeeds queues a job made from the last upload. -/
theorem StoresLast.queued {s s' : State T} {scriptName : Str} {last : Option Upload}
    (h : StoresLast s scriptName last) {origin : Origin T} {params : Option Str}
    (hok : requestScriptExecution origin scriptName params s = .ok () s') :
    ∃ u, ∃ job : OcwJob T, last = some u ∧ job.scriptName.val = utf8 scriptName ∧
      job.wasmCode.val = u.wasmCode ∧ job.wasmAbi.val = u.wasmAbi ∧
      s.jobQueue.lookup job.key = none ∧ s'.jobQueue = s.jobQueue.insert job.key job := by
  cases origin with
  | root => contradiction
  | none => contradiction
  | signed who =>
    have hrequest := requestScriptExecution_last h who params
    cases last with
    | none =>
      rw [hrequest] at hok
      contradiction
    | some u =>
      obtain ⟨detail, hname, hcode, habi, hstored⟩ := hrequest
      rw [hstored] at hok
      cases hjob : s.jobQueue.lookup (requestedJob who detail).key with
      | some job =>
        rw [hjob] at hok
        contradiction
      | none =>
        rw [hjob] at hok
        obtain rfl := (EStateM.Result.ok.inj hok).2
        exact ⟨u, requestedJob who detail, rfl, hname, hcode, habi, hjob, rfl⟩

/-- A request does not find the script exactly when there was no upload and its key fits. -/
theorem StoresLast.noValExist_iff {s : State T} {scriptName : Str} {last : Option Upload}
    (h : StoresLast s scriptName last) (who : T.AccountId) (params : Option Str) :
    error (requestScriptExecution (.signed who) scriptName params s) =
      some (.module .noValExist) ↔ last = none ∧ KeyFits T scriptName := by
  have hrequest := requestScriptExecution_last h who params
  cases last with
  | none =>
    rw [hrequest]
    by_cases hfits : KeyFits T scriptName <;> simp [error, hfits]
  | some u =>
    obtain ⟨detail, -, -, -, hstored⟩ := hrequest
    rw [hstored]
    cases s.jobQueue.lookup (requestedJob who detail).key <;> simp [error]

theorem StoresLast.not_sizeTooBig {s : State T} {scriptName : Str} {u : Upload}
    (h : StoresLast s scriptName (some u)) (origin : Origin T) (params : Option Str) :
    error (requestScriptExecution origin scriptName params s) ≠ some (.module .sizeTooBig) := by
  cases origin with
  | root => simp [error, requestScriptExecution, ensureSigned]
  | none => simp [error, requestScriptExecution, ensureSigned]
  | signed who =>
    obtain ⟨detail, -, -, -, hstored⟩ := requestScriptExecution_last h who params
    rw [hstored]
    cases s.jobQueue.lookup (requestedJob who detail).key <;> simp [error]

/-- The environment of a contract that asks for the script under a name. -/
def AsksFor (T : Config) (env : Environment) (scriptName : Str) : Prop :=
  env.funcId = 0 ∧ ∃ h : KeyFits T scriptName, env.readAs (keyCodec T) = .ok h.key

/-- Every reader of the script store sees the last upload.  After any run of calls, for every name:
a request that succeeds queues a job with the code and ABI of the last upload under the name; it
returns `NoValExist` exactly when there was no such upload and the key fits; it never returns
`SizeTooBig` for a name that was uploaded; the chain extension writes the encoding of a script with
the same code and ABI; and uploads under other names change no answer. -/
theorem readers_see_last {x : Chronicle T}
    (h : Lts.Reaches chronicleStep (Chronicle.genesis T) x) (scriptName : Str)
    (encodeBlockNumber : Nat → Bytes) :
    (∀ origin params s', requestScriptExecution origin scriptName params x.state = .ok () s' →
      ∃ u, ∃ job : OcwJob T, lastUpload scriptName x.uploads = some u ∧
        job.scriptName.val = utf8 scriptName ∧
        job.wasmCode.val = u.wasmCode ∧ job.wasmAbi.val = u.wasmAbi ∧
        x.state.jobQueue.lookup job.key = none ∧
        s'.jobQueue = x.state.jobQueue.insert job.key job) ∧
    (∀ who params, error (requestScriptExecution (.signed who) scriptName params x.state) =
      some (.module .noValExist) ↔
        lastUpload scriptName x.uploads = none ∧ KeyFits T scriptName) ∧
    (∀ u, lastUpload scriptName x.uploads = some u →
      (∀ origin params, error (requestScriptExecution origin scriptName params x.state) ≠
        some (.module .sizeTooBig)) ∧
      ∃ detail : ScriptDetail T,
        detail.wasmCode.val = u.wasmCode ∧ detail.wasmAbi.val = u.wasmAbi ∧
        ∀ env, AsksFor T env scriptName →
          MyCustomExtension.call encodeBlockNumber env x.state =
            (env.write (detail.encode encodeBlockNumber) false none).map fun _ =>
              (.converging 0, detail.encode encodeBlockNumber)) ∧
    ∀ s', Lts.ReachesBy chainStep (UploadsOther scriptName) x.state s' →
      (∀ origin params,
        error (requestScriptExecution origin scriptName params s') =
          error (requestScriptExecution origin scriptName params x.state) ∧
        (final (requestScriptExecution origin scriptName params s')).jobQueue =
          (final (requestScriptExecution origin scriptName params x.state)).jobQueue) ∧
      ∀ env, AsksFor T env scriptName →
        MyCustomExtension.call encodeBlockNumber env s' =
          MyCustomExtension.call encodeBlockNumber env x.state := by
  have hlast := ChronicleInv.reached h scriptName
  refine ⟨fun origin params s' hok => hlast.queued hok,
    fun who params => hlast.noValExist_iff who params, fun u hu => ?_, fun s' hs' => ?_⟩
  · rw [hu] at hlast
    refine ⟨fun origin params => hlast.not_sizeTooBig origin params, ?_⟩
    obtain ⟨hfits, detail, hlookup, -, hcode, habi⟩ := hlast
    refine ⟨detail, hcode, habi, ?_⟩
    rintro env ⟨hfunc, hfits', hread⟩
    rw [MyCustomExtension.call_read hfunc hread, hlookup]
  · obtain ⟨hlookup, hqueue⟩ := uploadsOther_frame hs'
    refine ⟨fun origin params => ?_, ?_⟩
    · exact requestScriptExecution_congr origin params hlookup hqueue
    · rintro env ⟨hfunc, hfits, hread⟩
      rw [MyCustomExtension.call_read hfunc hread, MyCustomExtension.call_read hfunc hread,
        hlookup hfits]

/-! ### A sample -/

/-- A contract that passes `input` and has room for every script. -/
def sampleEnvironment (input : Bytes) : Environment where
  funcId := 0
  readAs c := match c.decode input with
    | some (a, _) => .ok a
    | none => .error (.contracts "DecodingFailed")
  write _ _ _ := .ok ()

theorem sampleEnvironment_asks {scriptName : Str} (h : KeyFits T scriptName) :
    AsksFor T (sampleEnvironment ((keyCodec T).encode h.key)) scriptName := by
  refine ⟨rfl, h, ?_⟩
  simp only [sampleEnvironment, Codec.decode_encode_self]

/-- Account 1 uploads a script and account 2 uploads it again with other code. -/
def sampleUploads : List (ChainLabel sampleRuntime) :=
  [.call (.signed (1 : UInt32)) (.uploadWasm ['a'] .executable [1, 2] [3]),
    .call (.signed (2 : UInt32)) (.uploadWasm ['a'] .executable [9] [4])]

/-- The contract reads the second script, also after an upload of the same name as a source. -/
theorem readers_see_last_sample :
    ∃ x, Lts.Reaches chronicleStep (Chronicle.genesis sampleRuntime) x ∧
    ∃ detail : ScriptDetail sampleRuntime,
      detail.wasmCode.val = [9] ∧ detail.wasmAbi.val = [4] ∧
      MyCustomExtension.call (leBytes 4)
        (sampleEnvironment ((keyCodec sampleRuntime).encode sampleKey))
        (x.state.call (.signed (1 : UInt32)) (.uploadWasm ['a'] .source [7] [8])) =
          .ok (.converging 0, detail.encode (leBytes 4)) := by
  have hfits : KeyFits sampleRuntime sampleName := by decide
  have hasks : AsksFor sampleRuntime
      (sampleEnvironment ((keyCodec sampleRuntime).encode sampleKey)) sampleName :=
    sampleEnvironment_asks hfits
  have hrun : ((Lts.run chronicleStep (Chronicle.genesis sampleRuntime) sampleUploads).any
      fun x => lastUpload sampleName x.uploads = some ⟨sampleName, [9], [4]⟩) = true := by decide
  obtain ⟨x, hx, hlast⟩ := Lts.reaches_of_run hrun
  obtain ⟨-, -, hupload, hother⟩ := readers_see_last hx sampleName (leBytes 4)
  obtain ⟨-, detail, hcode, habi, hread⟩ := hupload _ (of_decide_eq_true hlast)
  refine ⟨x, hx, detail, hcode, habi, ?_⟩
  have hsource : Lts.ReachesBy chainStep (UploadsOther sampleName) x.state
      (x.state.call (.signed (1 : UInt32)) (.uploadWasm ['a'] .source [7] [8])) := by
    refine Lts.ReachesBy.tail (Lts.ReachesBy.refl _)
      (l := .call (.signed (1 : UInt32)) (.uploadWasm ['a'] .source [7] [8])) ?_ rfl
    show ScriptType.source.tag ++ ['a'] ≠ ScriptType.executable.tag ++ ['a']
    rw [Ne, ScriptType.tag_append_inj]
    decide
  rw [(hother _ hsource).2 _ hasks, hread _ hasks]
  rfl

end PolkadotOracle
