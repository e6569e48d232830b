import PolkadotOracle.Lib.Lts
import PolkadotOracle.Pallet.Submit
import PolkadotOracle.Pallet.Upload

/-! What a call of the pallet can do to its storage, and the states that calls and blocks reach. -/

namespace PolkadotOracle

open Exec Frame Scale Text

variable {T : Config}

/-- The state after a call, whether it returned or stopped. -/
def State.call (s : State T) (origin : Origin T) (c : Call) : State T :=
  final (c.dispatch origin s)

/-- Everything that a call can do: it changes nothing, stores a script, queues a job, advances a
job, records a result, or deposits an event. -/
inductive Effect (s : State T) : Origin T → Call → State T → Prop
  | idle {origin : Origin T} {c : Call} : Effect s origin c s
  | upload {who : T.AccountId} {name : Str} {typ : ScriptType} {wasmCode scriptAbi : Bytes}
      {key : BoundedVec T.maxScriptKeyLen.toNat} {detail : ScriptDetail T} {event : Event T}
      (hkey : key.val = scriptKeyOf T (typ.tag ++ name))
      (hpublisher : detail.publisher = who)
      (hname : detail.name.val = utf8 (typ.tag ++ name))
      (hcode : detail.wasmCode.val = wasmCode) (habi : detail.wasmAbi.val = scriptAbi)
      (hnew : ∀ d, s.scriptStorage.lookup key = some d →
        detail.name ≠ d.name ∨ detail.wasmCode ≠ d.wasmCode) :
      Effect s (.signed who) (.uploadWasm name typ wasmCode scriptAbi)
        { s with
          scriptStorage := s.scriptStorage.insert key detail
          events := s.events ++ [event] }
  | request {who : T.AccountId} {scriptName : Str} {params : Option Str}
      {key : BoundedVec T.maxScriptKeyLen.toNat} {detail : ScriptDetail T} {job : OcwJob T}
      {event : Event T}
      (hkey : key.val = scriptKeyOf T scriptName)
      (hscript : s.scriptStorage.lookup key = some detail)
      (hcaller : job.caller = who) (hname : job.scriptName.val = utf8 scriptName)
      (hcode : job.wasmCode = detail.wasmCode) (habi : job.wasmAbi = detail.wasmAbi)
      (hstate : job.state = .pending)
      (hfresh : s.jobQueue.lookup job.key = none) :
      Effect s (.signed who) (.requestScriptExecution scriptName params)
        { s with
          jobQueue := s.jobQueue.insert job.key job
          events := s.events ++ [event] }
  | advance {blockNumber : Nat} {key : Hash} {job : OcwJob T}
      (hjob : s.jobQueue.lookup key = some job) :
      Effect s .none (.changeJobState blockNumber key)
        { s with jobQueue := s.jobQueue.insert key job.advance }
  | record {blockNumber : Nat} {key value rest : Bytes} {processorPub : Public}
      {extTime : UInt32} {onchainKey : Hash} {job : OcwJob T}
      {resultData : BoundedVec T.maxResultSize.toNat}
      (hkey : (fixedBytes 32).decode key = some (onchainKey, rest))
      (hjob : s.jobQueue.lookup onchainKey = some job) (hfinish : job.state = .finish)
      (hdata : resultData.val = value) :
      Effect s .none (.submitResultUnsiged blockNumber key value processorPub extTime)
        { s with scriptResult :=
            s.scriptResult.insert (onchainKey, processorPub) ⟨resultData, extTime⟩ }
  | collators {who : T.AccountId} {event : Event T} :
      Effect s (.signed who) .getCollatorsLts { s with events := s.events ++ [event] }

theorem uploadWasm_effect (s : State T) (origin : Origin T) (name : Str) (typ : ScriptType)
    (wasmCode scriptAbi : Bytes) :
    Effect s origin (.uploadWasm name typ wasmCode scriptAbi)
      (s.call origin (.uploadWasm name typ wasmCode scriptAbi)) := by
  rcases uploadWasm_cases s origin name typ wasmCode scriptAbi with
    ⟨e, hrefused⟩ | ⟨who, h, rfl, hnew, hstored⟩
  · rw [State.call, Call.dispatch, hrefused]
    exact .idle
  · rw [State.call, Call.dispatch, hstored]
    refine .upload rfl rfl rfl rfl rfl fun d hd => ?_
    by_contra hsame
    push Not at hsame
    exact hnew d hd ⟨congrArg Subtype.val hsame.1.symm, congrArg Subtype.val hsame.2.symm⟩

theorem requestScriptExecution_effect (s : State T) (origin : Origin T) (scriptName : Str)
    (params : Option Str) :
    Effect s origin (.requestScriptExecution scriptName params)
      (s.call origin (.requestScriptExecution scriptName params)) := by
  cases origin with
  | root => exact .idle
  | none => exact .idle
  | signed who =>
    simp only [State.call, Call.dispatch, requestScriptExecution, bind_apply, ensureSigned_signed]
    cases hkey : BoundedVec.tryFrom T.maxScriptKeyLen.toNat (scriptKeyOf T scriptName) with
    | none => exact .idle
    | some scriptKey =>
    cases hval : s.scriptStorage.lookup scriptKey with
    | none => simpa [hval] using Effect.idle
    | some val =>
    cases hname : BoundedVec.tryFrom T.maxStringSize.toNat (utf8 scriptName) with
    | none => simpa [hval] using Effect.idle
    | some name =>
    rw [BoundedVec.tryFrom_eq_some] at hkey hname
    cases hjob : s.jobQueue.lookup
        (OcwJob.key ⟨who, name, val.wasmCode, val.wasmAbi, .pending⟩) with
    | none =>
      simp only [orFault_some, get_apply, hval, hjob, bind_apply, modify_apply, depositEvent]
      exact .request hkey hval rfl hname rfl rfl rfl hjob
    | some _ => simpa [hval, hjob] using Effect.idle

theorem changeJobState_effect (s : State T) (origin : Origin T) (blockNumber : Nat) (key : Hash) :
    Effect s origin (.changeJobState blockNumber key)
      (s.call origin (.changeJobState blockNumber key)) := by
  cases origin with
  | root => exact .idle
  | signed who => exact .idle
  | none =>
    simp only [State.call, Call.dispatch, changeJobState, bind_apply, ensureNone_none,
      modify_apply]
    cases hjob : s.jobQueue.lookup key with
    | none => exact .idle
    | some job => exact .advance hjob

theorem submitResultUnsiged_effect (s : State T) (origin : Origin T) (blockNumber : Nat)
    (key value : Bytes) (processorPub : Public) (extTime : UInt32) :
    Effect s origin (.submitResultUnsiged blockNumber key value processorPub extTime)
      (s.call origin (.submitResultUnsiged blockNumber key value processorPub extTime)) := by
  by_cases horigin : origin = .none
  case neg =>
    rw [State.call, Call.dispatch, submitResultUnsiged_badOrigin horigin]
    exact .idle
  subst horigin
  rw [State.call, Call.dispatch]
  cases hkey : (fixedBytes 32).decode key with
  | none =>
    rw [submitResultUnsiged_badKey hkey]
    exact .idle
  | some decoded =>
  obtain ⟨onchainKey, rest⟩ := decoded
  cases hjob : s.jobQueue.lookup onchainKey with
  | none =>
    rw [submitResultUnsiged_noJob hkey hjob]
    exact .idle
  | some job =>
  by_cases hfinish : job.state = .finish
  case neg =>
    rw [submitResultUnsiged_unfinished hkey hjob hfinish]
    exact .idle
  by_cases hsize : value.length ≤ T.maxResultSize.toNat
  · rw [submitResultUnsiged_fits hkey hjob hfinish hsize]
    exact .record hkey hjob hfinish rfl
  · rw [submitResultUnsiged_tooLong hkey hjob hfinish hsize]
    exact .idle

/-- Whatever a call does, it is one of the effects. -/
theorem call_effect (s : State T) (origin : Origin T) (c : Call) :
    Effect s origin c (s.call origin c) := by
  cases c with
  | uploadWasm => exact uploadWasm_effect ..
  | requestScriptExecution => exact requestScriptExecution_effect ..
  | changeJobState => exact changeJobState_effect ..
  | submitResultUnsiged => exact submitResultUnsiged_effect ..
  | getCollatorsLts =>
    cases origin with
    | root => exact .idle
    | none => exact .idle
    | signed who => exact .collators

/-- What moves the chain: a new block, which finds the collators' pallet in any state, or a call. -/
inductive ChainLabel (T : Config)
  | block (invulnerables : List T.AccountId)
  | call (origin : Origin T) (c : Call)

def chainStep (s : State T) : ChainLabel T → Option (State T)
  | .block invulnerables =>
    some { s with blockNumber := s.blockNumber + 1, invulnerables, events := [] }
  | .call origin c => some (s.call origin c)

/-- `s'` follows `s` after any blocks and any calls, by any origins and with any arguments. -/
def ChainReaches (s s' : State T) : Prop := Lts.Reaches chainStep s s'

/-- A step of the chain starts a block or has the effect of a call. -/
theorem chainStep_effect {s s' : State T} {l : ChainLabel T} (h : chainStep s l = some s') :
    (∃ invulnerables, s' =
      { s with blockNumber := s.blockNumber + 1, invulnerables, events := [] }) ∨
    ∃ origin c, Effect s origin c s' := by
  cases l with
  | block invulnerables => exact .inl ⟨invulnerables, (Option.some.inj h).symm⟩
  | call origin c =>
    obtain rfl := Option.some.inj h
    exact .inr ⟨origin, c, call_effect s origin c⟩

theorem ChainReaches.refl (s : State T) : ChainReaches s s := Lts.ReachesBy.refl s

theorem ChainReaches.call {s₀ s : State T} (h : ChainReaches s₀ s) (origin : Origin T) (c : Call) :
    ChainReaches s₀ (s.call origin c) :=
  Lts.ReachesBy.tail h trivial (show chainStep s (.call origin c) = _ from rfl)

theorem ChainReaches.block {s₀ s : State T} (h : ChainReaches s₀ s)
    (invulnerables : List T.AccountId) :
    ChainReaches s₀
      { s with blockNumber := s.blockNumber + 1, invulnerables, events := [] } :=
  Lts.ReachesBy.tail h trivial (show chainStep s (.block invulnerables) = _ from rfl)

end PolkadotOracle
