import PolkadotOracle.Lib.Frame
import PolkadotOracle.Lib.Store
import PolkadotOracle.Lib.Text
import PolkadotOracle.Payload

/-! The storage of the wasmstore pallet, its configuration, and the monad in which its calls run:
a call either returns or stops with a fault, and in both cases leaves a state behind. -/

namespace PolkadotOracle

open Scale

/-- The runtime that the pallet is configured with.  `hashing` is the runtime's hash function, and
`escaped` the characters that Rust's `Debug` writes as code points. -/
structure Config where
  AccountId : Type
  accountDecidableEq : DecidableEq AccountId
  accountCodec : Codec AccountId
  hashing : Bytes → Hash
  escaped : Char → Bool
  maxScriptSize : UInt32
  maxScriptKeyLen : UInt32
  maxStringSize : UInt32
  maxResultSize : UInt32
  unsignedPriority : UInt64

instance (T : Config) : DecidableEq T.AccountId := T.accountDecidableEq

/-- A runtime to evaluate the model on: the constants of the parachain's runtime, four-byte
accounts, and a hash that keeps the first 32 bytes. -/
def sampleRuntime : Config where
  AccountId := UInt32
  accountDecidableEq := inferInstance
  accountCodec := u32
  hashing bs := ⟨(bs ++ List.replicate 32 0).take 32, by simp⟩
  escaped _ := false
  maxScriptSize := 524288
  maxScriptKeyLen := 512
  maxStringSize := 256
  maxResultSize := 1024
  unsignedPriority := 3

theorem bound_le_maxLen (bound : UInt32) : bound.toNat ≤ maxLen := by
  have := bound.toNat_lt
  simp only [maxLen]
  omega

/-- A bounded vector of the storage as a plain one. -/
def toVec {bound : UInt32} (v : BoundedVec bound.toNat) : Vec :=
  ⟨v.val, Nat.le_trans v.property (bound_le_maxLen bound)⟩

/-- A Rust string as its characters. -/
abbrev Str := List Char

inductive ScriptType
  | executable
  | source
deriving DecidableEq, Repr

def ScriptType.tag : ScriptType → Str
  | .executable => ['E', 'X', 'E']
  | .source => ['S', 'R', 'C']

structure ScriptDetail (T : Config) where
  publisher : T.AccountId
  blockNumber : Nat
  wasmCode : BoundedVec T.maxScriptSize.toNat
  wasmAbi : BoundedVec T.maxScriptSize.toNat
  hash : Hash
  name : BoundedVec T.maxStringSize.toNat
  typ : ScriptType
  refCount : Nat
deriving DecidableEq

structure OcwJob (T : Config) where
  caller : T.AccountId
  scriptName : BoundedVec T.maxStringSize.toNat
  wasmCode : BoundedVec T.maxScriptSize.toNat
  wasmAbi : BoundedVec T.maxScriptSize.toNat
  state : JobState
deriving DecidableEq

def OcwJob.codec (T : Config) : Codec (OcwJob T) :=
  (T.accountCodec.prod ((boundedVec T.maxStringSize.toNat (bound_le_maxLen _)).prod
    ((boundedVec T.maxScriptSize.toNat (bound_le_maxLen _)).prod
      ((boundedVec T.maxScriptSize.toNat (bound_le_maxLen _)).prod JobState.codec)))).map
    (fun (caller, scriptName, wasmCode, wasmAbi, state) =>
      ⟨caller, scriptName, wasmCode, wasmAbi, state⟩)
    (fun job => (job.caller, job.scriptName, job.wasmCode, job.wasmAbi, job.state)) fun _ => rfl

structure SignedScriptResult (T : Config) where
  resultData : BoundedVec T.maxResultSize.toNat
  extTime : UInt32
deriving DecidableEq

inductive Event (T : Config)
  | scriptUpload (who : T.AccountId) (blockNumber size : Nat) (scriptName : Str) (hashId : Hash)
  | requestExecution (jobId : Hash) (who : T.AccountId) (blockNumber : Nat) (scriptName : Str)
  | test (key : List T.AccountId)

/-- The storage that the pallet's calls read and write.  `invulnerables` belongs to the collator
selection pallet. -/
structure State (T : Config) where
  blockNumber : Nat
  scriptStorage : Finmap fun _ : BoundedVec T.maxScriptKeyLen.toNat => ScriptDetail T
  jobQueue : Finmap fun _ : Hash => OcwJob T
  scriptResult : Finmap fun _ : Hash × Public => SignedScriptResult T
  invulnerables : List T.AccountId
  events : List (Event T)

/-- The state of a new chain. -/
def State.genesis (T : Config) : State T := ⟨0, ∅, ∅, ∅, [], []⟩

abbrev Origin (T : Config) := Frame.Origin T.AccountId

inductive Error
  | sizeTooBig
  | hashCheckFail
  | invalidWasmFormat
  | notOwner
  | valAlreadyExist
  | noValExist
  | maxCapReach
  | invalidOperation
deriving DecidableEq, Repr

abbrev Fault := Frame.Fault Error

/-- A call of the pallet. -/
abbrev Dispatch (T : Config) := EStateM Fault (State T)

end PolkadotOracle
