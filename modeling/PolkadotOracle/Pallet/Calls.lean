import PolkadotOracle.Pallet.Types

/-! The calls of the wasmstore pallet and the validation of its unsigned calls. -/

namespace PolkadotOracle

open Frame Scale Text

/-- One character as Rust's `Debug` writes it inside a string. -/
def escapeDebug (escaped : Char → Bool) (c : Char) : Str :=
  if c = '\x00' then ['\\', '0']
  else if c = '\t' then ['\\', 't']
  else if c = '\r' then ['\\', 'r']
  else if c = '\n' then ['\\', 'n']
  else if c = '\"' then ['\\', '\"']
  else if c = '\\' then ['\\', '\\']
  else if escaped c then ['\\', 'u', '\x7b'] ++ Nat.toDigits 16 c.toNat ++ ['\x7d']
  else [c]

/-- `format!("{:?}", name)`. -/
def debugStr (escaped : Char → Bool) (name : Str) : Str :=
  ['\"'] ++ name.flatMap (escapeDebug escaped) ++ ['\"']

variable {T : Config}

/-- The storage key of a script name: the SCALE encoding of its `Debug` form. -/
def scriptKeyOf (T : Config) (name : Str) : Bytes :=
  encodeBytes (utf8 (debugStr T.escaped name))

def depositEvent (event : Event T) : Dispatch T Unit :=
  modify fun s => { s with events := s.events ++ [event] }

def uploadWasm (origin : Origin T) (name : Str) (typ : ScriptType) (wasmCode scriptAbi : Bytes) :
    Dispatch T Unit := do
  let who ← ensureSigned origin
  let name := typ.tag ++ name
  let codeHash := T.hashing wasmCode
  ensure (wasmCode.length ≤ T.maxScriptSize.toNat) .sizeTooBig
  let boundedWasmCode ← orFault (.module .sizeTooBig) (BoundedVec.tryFrom _ wasmCode)
  let boundedName ← orFault (.module .sizeTooBig) (BoundedVec.tryFrom _ (utf8 name))
  let boundedWasmCodeSize := boundedWasmCode.val.length
  let boundedWasmAbi ← orFault (.module .sizeTooBig) (BoundedVec.tryFrom _ scriptAbi)
  let scriptKey ← orFault (.module .sizeTooBig)
    (BoundedVec.tryFrom T.maxScriptKeyLen.toNat (scriptKeyOf T name))
  let s ← get
  match s.scriptStorage.lookup scriptKey with
  | none => pure ()
  | some scriptDetail =>
    ensure (boundedName ≠ scriptDetail.name ∨ boundedWasmCode ≠ scriptDetail.wasmCode)
      .valAlreadyExist
  let scriptDetail : ScriptDetail T := {
    publisher := who
    name := boundedName
    blockNumber := s.blockNumber
    typ
    refCount := 0
    hash := codeHash
    wasmCode := boundedWasmCode
    wasmAbi := boundedWasmAbi }
  modify fun s => { s with scriptStorage := s.scriptStorage.insert scriptKey scriptDetail }
  depositEvent (.scriptUpload who s.blockNumber boundedWasmCodeSize name codeHash)

/-- The job's key in the queue. -/
def OcwJob.key (job : OcwJob T) : Hash := T.hashing ((OcwJob.codec T).encode job)

/-- The source takes `params` and does not read it. -/
def requestScriptExecution (origin : Origin T) (scriptName : Str) (_params : Option Str) :
    Dispatch T Unit := do
  let who ← ensureSigned origin
  let scriptKey ← orFault (.module .sizeTooBig)
    (BoundedVec.tryFrom T.maxScriptKeyLen.toNat (scriptKeyOf T scriptName))
  let s ← get
  match s.scriptStorage.lookup scriptKey with
  | none => throw (.module .noValExist)
  | some val =>
    let name ← orFault (.module .sizeTooBig) (BoundedVec.tryFrom _ (utf8 scriptName))
    let job : OcwJob T := {
      caller := who
      scriptName := name
      wasmCode := val.wasmCode
      wasmAbi := val.wasmAbi
      state := .pending }
    match s.jobQueue.lookup job.key with
    | none =>
      modify fun s => { s with jobQueue := s.jobQueue.insert job.key job }
      depositEvent (.requestExecution job.key who s.blockNumber scriptName)
    | some _ => throw (.module .valAlreadyExist)

/-- The state that `change_job_state` moves a job to. -/
def JobState.advance : JobState → JobState
  | .pending => .processing
  | .processing => .finish
  | state => state

def OcwJob.advance (job : OcwJob T) : OcwJob T := { job with state := job.state.advance }

/-- The source takes `block_number` for validation only. -/
def changeJobState (origin : Origin T) (_blockNumber : Nat) (key : Hash) : Dispatch T Unit := do
  ensureNone origin
  modify fun s => match s.jobQueue.lookup key with
    | some existingJob => { s with jobQueue := s.jobQueue.insert key existingJob.advance }
    | none => s

def submitResultUnsiged (origin : Origin T) (_blockNumber : Nat) (key value : Bytes)
    (processorPub : Public) (extTime : UInt32) : Dispatch T Unit := do
  ensureNone origin
  let (onchainKey, _) ← orFault (.panic "DEcode hash work baby") ((fixedBytes 32).decode key)
  let s ← get
  match s.jobQueue.lookup onchainKey with
  | none => pure ()
  | some val =>
    ensure (val.state = .finish) .invalidOperation
    match s.scriptResult.lookup (onchainKey, processorPub) with
    | none =>
      let resultData ← orFault (.module .sizeTooBig) (BoundedVec.tryFrom _ value)
      modify fun s => { s with
        scriptResult := s.scriptResult.insert (onchainKey, processorPub) ⟨resultData, extTime⟩ }
    | some _ =>
      let resultData ← orFault (.panic "Oversize") (BoundedVec.tryFrom _ value)
      modify fun s => { s with
        scriptResult := s.scriptResult.insert (onchainKey, processorPub) ⟨resultData, extTime⟩ }

def getCollatorsLts (origin : Origin T) : Dispatch T Unit := do
  let _ ← ensureSigned origin
  let s ← get
  depositEvent (.test s.invulnerables)

inductive Call
  | uploadWasm (name : Str) (typ : ScriptType) (wasmCode scriptAbi : Bytes)
  | requestScriptExecution (scriptName : Str) (params : Option Str)
  | changeJobState (blockNumber : Nat) (key : Hash)
  | submitResultUnsiged (blockNumber : Nat) (key value : Bytes) (processorPub : Public)
      (extTime : UInt32)
  | getCollatorsLts
deriving DecidableEq

def Call.dispatch (origin : Origin T) : Call → Dispatch T Unit
  | uploadWasm name typ wasmCode scriptAbi =>
    PolkadotOracle.uploadWasm origin name typ wasmCode scriptAbi
  | requestScriptExecution scriptName params =>
    PolkadotOracle.requestScriptExecution origin scriptName params
  | changeJobState blockNumber key => PolkadotOracle.changeJobState origin blockNumber key
  | submitResultUnsiged blockNumber key value processorPub extTime =>
    PolkadotOracle.submitResultUnsiged origin blockNumber key value processorPub extTime
  | getCollatorsLts => PolkadotOracle.getCollatorsLts origin

/-! ### Validation of unsigned calls -/

inductive InvalidTransaction
  | call
  | future
  | badProof
deriving DecidableEq, Repr

structure ValidTransaction where
  priority : UInt64
  requires : List Bytes
  provides : List Bytes
  longevity : Nat
  propagate : Bool
deriving DecidableEq

/-- The verdict on a transaction.  A panic of the validation is a fault. -/
inductive Validity
  | valid (transaction : ValidTransaction)
  | invalid (reason : InvalidTransaction)
  | panic (message : String)
deriving DecidableEq

def validateUnsigedTransaction (s : State T) (blockNumber : Nat) (key : Hash) : Validity :=
  if s.blockNumber < blockNumber then .invalid .future
  else if key.isClear then .invalid .badProof
  else .valid {
    priority := T.unsignedPriority
    requires := []
    provides := []
    longevity := 5
    propagate := true }

def validateUnsigned (s : State T) : Call → Validity
  | .changeJobState blockNumber key => validateUnsigedTransaction s blockNumber key
  | .submitResultUnsiged blockNumber key _ _ _ =>
    match (fixedBytes 32).decode key with
    | none => .panic "DEcode hash work baby"
    | some (onchainKey, _) => validateUnsigedTransaction s blockNumber onchainKey
  | _ => .invalid .call

/-- Whether the validation accepts the call. -/
def Validity.accepts : Validity → Bool
  | .valid _ => true
  | _ => false

end PolkadotOracle
