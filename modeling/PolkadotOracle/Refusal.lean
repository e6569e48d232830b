import PolkadotOracle.Ocw.Effect
import PolkadotOracle.Pallet.Request
import PolkadotOracle.Pallet.Unsigned

/-! Which calls with bytes of any length are refused with an error, and which are trapped on: the
checks of a key, of a result and of a URL are errors on some branches and panics on others. -/

namespace PolkadotOracle

open Exec Frame Scale Text

variable {T : Config} {s : State T} {origin : Origin T}

/-- Bytes that a call has to refuse: a key that is no hash, or a result that is too long. -/
def Malformed (T : Config) : Call → Prop
  | .submitResultUnsiged _ key value _ _ =>
    (fixedBytes 32).decode key = none ∨ T.maxResultSize.toNat < value.length
  | _ => False

/-- Neither the validation nor the dispatch of a call panics, and a malformed call gives an error
and changes nothing. -/
structure Handles (s : State T) (origin : Origin T) (c : Call) : Prop where
  validates : ∀ message, validateUnsigned s c ≠ .panic message
  returns : ∀ message, error (c.dispatch origin s) ≠ some (.panic message)
  refuses : Malformed T c → (error (c.dispatch origin s)).isSome ∧ s.call origin c = s

/-- A submission whose key is a hash, and whose value fits unless the submission is signed, or its
job has not finished, or its job has finished and its processor has no result yet. -/
def Refusable (s : State T) (origin : Origin T) : Call → Prop
  | .submitResultUnsiged _ key value processorPub _ =>
    ∃ onchainKey rest, (fixedBytes 32).decode key = some (onchainKey, rest) ∧
      (origin = .none → T.maxResultSize.toNat < value.length →
        ∃ job, s.jobQueue.lookup onchainKey = some job ∧
          (job.state = .finish → s.scriptResult.lookup (onchainKey, processorPub) = none))
  | _ => True

theorem validateUnsigedTransaction_returns (s : State T) (blockNumber : Nat) (key : Hash)
    (message : String) : validateUnsigedTransaction s blockNumber key ≠ .panic message := by
  unfold validateUnsigedTransaction
  split_ifs <;> simp

/-! ### Calls that never panic -/

theorem uploadWasm_errors (origin : Origin T) (name : Str) (typ : ScriptType)
    (wasmCode scriptAbi : Bytes) :
    ErrorsIn Returned (uploadWasm origin name typ wasmCode scriptAbi) := by
  refine (ensureSigned_errors origin).bind fun who => ?_
  refine (ensure_errors _ _).bind fun _ => ?_
  refine (orFault_errors _ _).bind fun boundedWasmCode => ?_
  refine (orFault_errors _ _).bind fun boundedName => ?_
  refine (orFault_errors _ _).bind fun boundedWasmAbi => ?_
  refine (orFault_errors _ _).bind fun scriptKey => errorsIn_get.bind fun s => ?_
  have hstore (detail : ScriptDetail T) (event : Event T) : ErrorsIn Returned (do
      modify fun s : State T =>
        { s with scriptStorage := s.scriptStorage.insert scriptKey detail }
      depositEvent event) := (errorsIn_modify _).bind fun _ => errorsIn_modify _
  cases s.scriptStorage.lookup scriptKey with
  | none => exact hstore _ _
  | some scriptDetail => exact (ensure_errors _ _).bind fun _ => hstore _ _

theorem requestScriptExecution_errors (origin : Origin T) (scriptName : Str)
    (params : Option Str) :
    ErrorsIn Returned (requestScriptExecution origin scriptName params) := by
  refine (ensureSigned_errors origin).bind fun who => ?_
  refine (orFault_errors _ _).bind fun scriptKey => errorsIn_get.bind fun s => ?_
  cases s.scriptStorage.lookup scriptKey with
  | none => exact errorsIn_throw (returned_module _)
  | some val =>
    refine (orFault_errors _ _).bind fun name => ?_
    dsimp only
    split
    · exact (errorsIn_modify _).bind fun _ => errorsIn_modify _
    · exact errorsIn_throw (returned_module _)

theorem changeJobState_errors (origin : Origin T) (blockNumber : Nat) (key : Hash) :
    ErrorsIn Returned (changeJobState origin blockNumber key) :=
  (ensureNone_errors origin).bind fun _ => errorsIn_modify _

theorem getCollatorsLts_errors (origin : Origin T) :
    ErrorsIn Returned (getCollatorsLts origin) :=
  (ensureSigned_errors origin).bind fun _ => errorsIn_get.bind fun _ => errorsIn_modify _

/-- A call that stops with errors only, and has no bytes to refuse, is handled. -/
theorem Handles.of_errors {c : Call}
    (hvalidates : ∀ message, validateUnsigned s c ≠ .panic message)
    (herrors : ErrorsIn Returned (c.dispatch origin)) (hformed : ¬Malformed T c) :
    Handles s origin c where
  validates := hvalidates
  returns message := by
    cases hdispatch : c.dispatch origin s with
    | ok _ s' => simp [error]
    | error e s' => simpa [error] using herrors s e s' hdispatch message
  refuses hmalformed := absurd hmalformed hformed

/-! ### Submissions -/

/-- A call that was refused is handled when the reason is an error. -/
theorem handles_refused_iff {c : Call} {e : Fault}
    (hvalidates : ∀ message, validateUnsigned s c ≠ .panic message)
    (h : c.dispatch origin s = .error e s) : Handles s origin c ↔ Returned e := by
  constructor
  · intro hhandles message
    have hreturns := hhandles.returns message
    rw [h] at hreturns
    simpa [error] using hreturns
  · intro he
    refine ⟨hvalidates, fun message => ?_, fun _ => ?_⟩
    · rw [h]
      simpa [error] using he message
    · rw [State.call, h]
      exact ⟨rfl, rfl⟩

/-- A call that returned is handled when it had nothing to refuse. -/
theorem handles_returned_iff {c : Call} {s' : State T}
    (hvalidates : ∀ message, validateUnsigned s c ≠ .panic message)
    (h : c.dispatch origin s = .ok () s') : Handles s origin c ↔ ¬Malformed T c := by
  constructor
  · intro hhandles hmalformed
    have hrefused := (hhandles.refuses hmalformed).1
    rw [h] at hrefused
    simp [error] at hrefused
  · intro hformed
    refine ⟨hvalidates, fun message => ?_, fun hmalformed => absurd hmalformed hformed⟩
    rw [h]
    simp [error]

theorem submitResultUnsiged_handles_iff (s : State T) (origin : Origin T) (blockNumber : Nat)
    (key value : Bytes) (processorPub : Public) (extTime : UInt32) :
    Handles s origin (.submitResultUnsiged blockNumber key value processorPub extTime) ↔
      Refusable s origin (.submitResultUnsiged blockNumber key value processorPub extTime) := by
  cases hkey : (fixedBytes 32).decode key with
  | none =>
    refine iff_of_false (fun h => ?_) ?_
    · exact h.validates "DEcode hash work baby" (by simp [validateUnsigned, hkey])
    · rintro ⟨onchainKey, rest, hdecode, -⟩
      rw [hkey] at hdecode
      contradiction
  | some decoded =>
  obtain ⟨onchainKey, rest⟩ := decoded
  have hvalidates : ∀ message, validateUnsigned s
      (.submitResultUnsiged blockNumber key value processorPub extTime) ≠ .panic message := by
    intro message
    simpa [validateUnsigned, hkey] using
      validateUnsigedTransaction_returns s blockNumber onchainKey message
  have hformed : Malformed T (.submitResultUnsiged blockNumber key value processorPub extTime) ↔
      T.maxResultSize.toNat < value.length := by
    simp [Malformed, hkey]
  have hcondition : Refusable s origin
      (.submitResultUnsiged blockNumber key value processorPub extTime) ↔
      (origin = .none → T.maxResultSize.toNat < value.length →
        ∃ job, s.jobQueue.lookup onchainKey = some job ∧
          (job.state = .finish → s.scriptResult.lookup (onchainKey, processorPub) = none)) := by
    simp [Refusable, hkey]
  rw [hcondition]
  by_cases horigin : origin = .none
  case neg =>
    rw [handles_refused_iff hvalidates
      (submitResultUnsiged_badOrigin horigin blockNumber processorPub extTime)]
    exact iff_of_true returned_badOrigin fun h => absurd h horigin
  subst horigin
  cases hjob : s.jobQueue.lookup onchainKey with
  | none =>
    rw [handles_returned_iff hvalidates
      (submitResultUnsiged_noJob hkey hjob blockNumber processorPub extTime), hformed]
    simp
  | some job =>
  by_cases hfinish : job.state = .finish
  case neg =>
    rw [handles_refused_iff hvalidates
      (submitResultUnsiged_unfinished hkey hjob hfinish blockNumber processorPub extTime)]
    exact iff_of_true (returned_module _) fun _ _ => ⟨job, rfl, fun h => absurd h hfinish⟩
  by_cases hsize : value.length ≤ T.maxResultSize.toNat
  · rw [handles_returned_iff hvalidates
      (submitResultUnsiged_fits hkey hjob hfinish hsize blockNumber processorPub extTime), hformed]
    exact iff_of_true (by omega) fun _ hlong => absurd hlong (by omega)
  · have hlong : T.maxResultSize.toNat < value.length := by omega
    rw [handles_refused_iff hvalidates
      (submitResultUnsiged_tooLong hkey hjob hfinish hsize blockNumber processorPub extTime)]
    by_cases hfirst : s.scriptResult.lookup (onchainKey, processorPub) = none
    · rw [if_pos hfirst]
      exact iff_of_true (returned_module _) fun _ _ => ⟨job, rfl, fun _ => hfirst⟩
    · rw [if_neg hfirst]
      refine iff_of_false (fun h => h "Oversize" rfl) fun h => ?_
      obtain ⟨job', hjob', hnone⟩ := h rfl hlong
      obtain rfl := Option.some.inj hjob'
      exact hfirst (hnone hfinish)

theorem handles_iff (s : State T) (origin : Origin T) (c : Call) :
    Handles s origin c ↔ Refusable s origin c := by
  cases c with
  | submitResultUnsiged blockNumber key value processorPub extTime =>
    exact submitResultUnsiged_handles_iff s origin blockNumber key value processorPub extTime
  | uploadWasm name typ wasmCode scriptAbi =>
    refine iff_of_true (.of_errors (by simp [validateUnsigned]) ?_ id) trivial
    exact uploadWasm_errors origin name typ wasmCode scriptAbi
  | requestScriptExecution scriptName params =>
    refine iff_of_true (.of_errors (by simp [validateUnsigned]) ?_ id) trivial
    exact requestScriptExecution_errors origin scriptName params
  | changeJobState blockNumber key =>
    refine iff_of_true (.of_errors ?_ (changeJobState_errors origin blockNumber key) id) trivial
    exact validateUnsigedTransaction_returns s blockNumber key
  | getCollatorsLts =>
    exact iff_of_true (.of_errors (by simp [validateUnsigned]) (getCollatorsLts_errors origin) id)
      trivial

/-! ### URLs -/

namespace OcwPallet

variable {T : Config}

/-- The submission of a URL does not panic, and a URL that is too long gives an error and changes
nothing.  The validation refuses the call before it looks at its bytes. -/
structure HandlesUrl (s : State T) (origin : Origin T) (topicId : UInt32) (apiUrl : Str) :
    Prop where
  validates : validateUnsigned s (.submitApiUrl topicId apiUrl) = .invalid .call
  returns : ∀ message, error (submitApiUrl origin topicId apiUrl s) ≠ some (.panic message)
  refuses : 256 < (utf8 apiUrl).length →
    (error (submitApiUrl origin topicId apiUrl s)).isSome ∧
    s.call origin (.submitApiUrl topicId apiUrl) = some s

/-- A URL that fits, unless the submission is not signed. -/
def RefusableUrl (origin : Origin T) (apiUrl : Str) : Prop :=
  ∀ who, origin = .signed who → (utf8 apiUrl).length ≤ 256

theorem HandlesUrl.of_badOrigin {s : State T} {origin : Origin T} {topicId : UInt32} {apiUrl : Str}
    (h : submitApiUrl origin topicId apiUrl s = .error .badOrigin s) :
    HandlesUrl s origin topicId apiUrl := by
  have hcall : (Call.submitApiUrl topicId apiUrl).dispatch origin s = .error .badOrigin s := h
  refine ⟨rfl, fun message => ?_, fun _ => ?_⟩
  · rw [h]
    simp
  · rw [State.call, hcall, h]
    exact ⟨rfl, rfl⟩

theorem submitApiUrl_tooLong (s : State T) (who : T.AccountId) (topicId : UInt32) {apiUrl : Str}
    (h : ¬(utf8 apiUrl).length ≤ 256) :
    submitApiUrl (.signed who) topicId apiUrl s = .error (.panic "Good") s := by
  simp only [submitApiUrl, bind_apply, ensureSignedOrRoot_signed, BoundedVec.tryFrom_of_not_le h,
    orFault_none]

theorem submitApiUrl_fits (s : State T) (who : T.AccountId) (topicId : UInt32) {apiUrl : Str}
    (h : (utf8 apiUrl).length ≤ 256) :
    error (submitApiUrl (.signed who) topicId apiUrl s) = none := by
  simp only [submitApiUrl, bind_apply, ensureSignedOrRoot_signed, BoundedVec.tryFrom_of_le h,
    orFault_some, modify_apply, depositEvent_apply, error_ok]

theorem handlesUrl_iff (s : State T) (origin : Origin T) (topicId : UInt32) (apiUrl : Str) :
    HandlesUrl s origin topicId apiUrl ↔ RefusableUrl origin apiUrl := by
  cases origin with
  | root => exact iff_of_true (.of_badOrigin rfl) (by simp [RefusableUrl])
  | none => exact iff_of_true (.of_badOrigin rfl) (by simp [RefusableUrl])
  | signed who =>
    constructor
    · intro h who' _
      by_contra hlong
      apply h.returns "Good"
      rw [submitApiUrl_tooLong s who topicId hlong]
      rfl
    · intro h
      have hfits := h who rfl
      refine ⟨rfl, fun message => ?_, fun hlong => absurd hlong (by omega)⟩
      rw [submitApiUrl_fits s who topicId hfits]
      simp

end OcwPallet

/-- In every state, a call of either pallet refuses malformed bytes with an error and never traps on
them exactly when it is no submission of a result whose key is no hash, or whose value is too long
for a job that is missing or has a result already, and no signed submission of a URL that is too
long. -/
theorem userBytes_refused_iff (T : Config) (s : State T) (origin : Origin T) (c : Call)
    (T' : OcwPallet.Config) (s' : OcwPallet.State T') (origin' : OcwPallet.Origin T')
    (topicId : UInt32) (apiUrl : Str) :
    (Handles s origin c ↔ Refusable s origin c) ∧
      (OcwPallet.HandlesUrl s' origin' topicId apiUrl ↔
        OcwPallet.RefusableUrl origin' apiUrl) :=
  ⟨handles_iff s origin c, OcwPallet.handlesUrl_iff s' origin' topicId apiUrl⟩

theorem sampleResult_tooLong :
    error ((Call.submitResultUnsiged 0 sampleJob.key.val (List.replicate 1025 0)
      (FixedBytes.zero 32) 5).dispatch .none sampleResult) = some (.panic "Oversize") := by
  have hkey := (fixedBytes 32).decode_encode_self sampleJob.key
  have hjob : sampleResult.jobQueue.lookup sampleJob.key =
      some { sampleJob with state := .finish } := by decide
  have hlong : ¬(List.replicate 1025 (0 : UInt8)).length ≤ sampleRuntime.maxResultSize.toNat := by
    rw [List.length_replicate]
    decide
  have hresult : sampleResult.scriptResult.lookup (sampleJob.key, FixedBytes.zero 32) ≠ none := by
    decide
  have hdispatch := submitResultUnsiged_tooLong hkey hjob rfl hlong 0 (FixedBytes.zero 32) 5
  rw [if_neg hresult] at hdispatch
  exact congrArg error hdispatch

/-- In reachable states a key that is no hash is trapped on by the validation, a long value by the
submission of a second result, and a long URL by its submission. -/
theorem userBytes_trapped :
    (∃ (s : State sampleRuntime) (c : Call), ChainReaches (State.genesis _) s ∧
      validateUnsigned s c = .panic "DEcode hash work baby" ∧ ¬Handles s .none c) ∧
    (∃ (s : State sampleRuntime) (c : Call), ChainReaches (State.genesis _) s ∧
      (validateUnsigned s c).accepts = true ∧
      error (c.dispatch .none s) = some (.panic "Oversize") ∧ ¬Handles s .none c) ∧
    ∃ (s : OcwPallet.State OcwPallet.sampleRuntime) (apiUrl : Str),
      Lts.Reaches OcwPallet.step (OcwPallet.State.genesis _ Book.empty) s ∧
      error (OcwPallet.submitApiUrl (.signed (OcwPallet.sampleAccount 1)) 0 apiUrl s) =
        some (.panic "Good") ∧
      ¬OcwPallet.HandlesUrl s (.signed (OcwPallet.sampleAccount 1)) 0 apiUrl := by
  refine ⟨?_, ?_, ?_⟩
  · refine ⟨sampleQueue, .submitResultUnsiged 0 [] [7] (FixedBytes.zero 32) 5, sampleQueue_reached,
      rfl, fun h => h.validates _ rfl⟩
  · exact ⟨sampleResult, .submitResultUnsiged 0 sampleJob.key.val (List.replicate 1025 0)
      (FixedBytes.zero 32) 5, sampleResult_reached, by decide, sampleResult_tooLong,
      fun h => h.returns _ sampleResult_tooLong⟩
  · have hfault : error (OcwPallet.submitApiUrl (.signed (OcwPallet.sampleAccount 1)) 0
        (List.replicate 257 'a') (OcwPallet.State.genesis _ Book.empty)) =
          some (.panic "Good") := by
      rw [OcwPallet.submitApiUrl_tooLong _ _ _ (by decide +kernel)]
      rfl
    exact ⟨_, _, .refl _, hfault, fun h => h.returns _ hfault⟩

end PolkadotOracle
