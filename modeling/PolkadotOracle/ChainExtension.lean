import PolkadotOracle.Pallet.Calls

/-! The chain extension through which contracts read the stored scripts. -/

namespace PolkadotOracle

open Scale

variable {T : Config}

def ScriptType.index : ScriptType → UInt8
  | .executable => 0
  | .source => 1

/-- The SCALE encoding of a stored script, for a runtime that encodes its block numbers with
`encodeBlockNumber`. -/
def ScriptDetail.encode (encodeBlockNumber : Nat → Bytes) (detail : ScriptDetail T) : Bytes :=
  T.accountCodec.encode detail.publisher ++ encodeBlockNumber detail.blockNumber ++
    encodeBytes detail.wasmCode.val ++ encodeBytes detail.wasmAbi.val ++ detail.hash.val ++
    encodeBytes detail.name.val ++ [detail.typ.index] ++ leBytes 8 detail.refCount

/-- A text of the extension, or an error of the contracts pallet. -/
inductive DispatchError
  | other (message : String)
  | contracts (message : String)
deriving DecidableEq, Repr

inductive RetVal
  | converging (status : UInt32)
deriving DecidableEq, Repr

/-- What the contracts pallet gives to an extension: the function that the contract calls, what it
reads from the contract's memory, and how it writes to the contract's output buffer. -/
structure Environment where
  funcId : UInt16
  readAs : ∀ {α : Type}, Codec α → Except DispatchError α
  write : Bytes → (allowSkip : Bool) → (weightPerByte : Option Nat) → Except DispatchError Unit

/-- The codec of a storage key. -/
def keyCodec (T : Config) : Codec (BoundedVec T.maxScriptKeyLen.toNat) :=
  boundedVec T.maxScriptKeyLen.toNat (bound_le_maxLen _)

/-- The extension's return value, and the bytes that it has written for the contract. -/
def MyCustomExtension.call (encodeBlockNumber : Nat → Bytes) (env : Environment) (s : State T) :
    Except DispatchError (RetVal × Bytes) :=
  if env.funcId = 0 then do
    let key ← env.readAs (keyCodec T)
    let boundedKey ← match BoundedVec.tryFrom T.maxScriptKeyLen.toNat key.val with
      | some boundedKey => pure boundedKey
      | none => throw (.other "KeyTooLong")
    match s.scriptStorage.lookup boundedKey with
    | some script =>
      let encoded := script.encode encodeBlockNumber
      env.write encoded false none
      return (.converging 0, encoded)
    | none => throw (.other "ScriptNotFound")
  else throw (.other "Unimplemented")

section Call

variable {encodeBlockNumber : Nat → Bytes} {env : Environment} {s : State T}
  {key : BoundedVec T.maxScriptKeyLen.toNat}

theorem MyCustomExtension.call_read (hfunc : env.funcId = 0)
    (hread : env.readAs (keyCodec T) = .ok key) :
    call encodeBlockNumber env s = match s.scriptStorage.lookup key with
      | some script => (env.write (script.encode encodeBlockNumber) false none).map fun _ =>
          (.converging 0, script.encode encodeBlockNumber)
      | none => .error (.other "ScriptNotFound") := by
  have hkey : BoundedVec.tryFrom T.maxScriptKeyLen.toNat key.val = some key :=
    BoundedVec.tryFrom_eq_some.mpr rfl
  simp only [call, if_pos hfunc, hread, bind, Except.bind, hkey, pure, Except.pure]
  cases s.scriptStorage.lookup key with
  | none => rfl
  | some script => cases env.write (script.encode encodeBlockNumber) false none <;> rfl

end Call

end PolkadotOracle
