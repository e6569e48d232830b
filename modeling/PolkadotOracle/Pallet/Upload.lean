import PolkadotOracle.Pallet.Calls

/-! What an upload does: it is refused when a size is over its bound, or when the stored script
already has the same name and code; and stores the script otherwise. -/

namespace PolkadotOracle

open Exec Frame Scale Text

variable {T : Config} {s : State T} {who : T.AccountId} {name : Str} {typ : ScriptType}
  {wasmCode scriptAbi : Bytes}

/-- The storage key of a script's name is within its bound. -/
def KeyFits (T : Config) (scriptName : Str) : Prop :=
  (scriptKeyOf T scriptName).length ≤ T.maxScriptKeyLen.toNat

instance (T : Config) (scriptName : Str) : Decidable (KeyFits T scriptName) :=
  inferInstanceAs (Decidable (_ ≤ _))

def KeyFits.key {scriptName : Str} (h : KeyFits T scriptName) :
    BoundedVec T.maxScriptKeyLen.toNat := .ofLe (scriptKeyOf T scriptName) h

/-- Everything that an upload under a prefixed name would store is within its bound. -/
structure Fits (T : Config) (scriptName : Str) (wasmCode scriptAbi : Bytes) : Prop where
  code : wasmCode.length ≤ T.maxScriptSize.toNat
  name : (utf8 scriptName).length ≤ T.maxStringSize.toNat
  abi : scriptAbi.length ≤ T.maxScriptSize.toNat
  key : KeyFits T scriptName

/-- The script that an upload stores. -/
def Fits.detail {scriptName : Str} (h : Fits T scriptName wasmCode scriptAbi) (s : State T)
    (who : T.AccountId) (typ : ScriptType) : ScriptDetail T where
  publisher := who
  blockNumber := s.blockNumber
  wasmCode := .ofLe wasmCode h.code
  wasmAbi := .ofLe scriptAbi h.abi
  hash := T.hashing wasmCode
  name := .ofLe (utf8 scriptName) h.name
  typ
  refCount := 0

/-- The state after the upload of a script that fits. -/
def Fits.store {scriptName : Str} (h : Fits T scriptName wasmCode scriptAbi) (s : State T)
    (who : T.AccountId) (typ : ScriptType) : State T :=
  { s with
    scriptStorage := s.scriptStorage.insert h.key.key (h.detail s who typ)
    events := s.events ++
      [.scriptUpload who s.blockNumber wasmCode.length scriptName (T.hashing wasmCode)] }

theorem uploadWasm_tooBig (h : ¬Fits T (typ.tag ++ name) wasmCode scriptAbi) :
    uploadWasm (.signed who) name typ wasmCode scriptAbi s = .error (.module .sizeTooBig) s := by
  simp only [uploadWasm, bind_apply, ensureSigned_signed, ensure_apply]
  by_cases hcode : wasmCode.length ≤ T.maxScriptSize.toNat
  case neg => simp [hcode]
  by_cases hname : (utf8 (typ.tag ++ name)).length ≤ T.maxStringSize.toNat
  case neg => simp [hcode, BoundedVec.tryFrom_of_le hcode, BoundedVec.tryFrom_of_not_le hname]
  by_cases habi : scriptAbi.length ≤ T.maxScriptSize.toNat
  case neg =>
    simp [hcode, BoundedVec.tryFrom_of_le hcode, BoundedVec.tryFrom_of_le hname,
      BoundedVec.tryFrom_of_not_le habi]
  have hkey : ¬(scriptKeyOf T (typ.tag ++ name)).length ≤ T.maxScriptKeyLen.toNat :=
    fun hkey => h ⟨hcode, hname, habi, hkey⟩
  simp [hcode, BoundedVec.tryFrom_of_le hcode, BoundedVec.tryFrom_of_le hname,
    BoundedVec.tryFrom_of_le habi, BoundedVec.tryFrom_of_not_le hkey]

/-- What an upload that fits does when the name has no script yet. -/
theorem uploadWasm_fresh (h : Fits T (typ.tag ++ name) wasmCode scriptAbi)
    (hnone : s.scriptStorage.lookup h.key.key = none) :
    uploadWasm (.signed who) name typ wasmCode scriptAbi s = .ok () (h.store s who typ) := by
  have hlookup : s.scriptStorage.lookup
      (BoundedVec.ofLe (scriptKeyOf T (typ.tag ++ name)) h.key) = none := hnone
  simp only [uploadWasm, bind_apply, ensureSigned_signed, ensure_apply, if_pos h.code,
    BoundedVec.tryFrom_of_le h.code, BoundedVec.tryFrom_of_le h.name,
    BoundedVec.tryFrom_of_le h.abi, BoundedVec.tryFrom_of_le h.key, orFault_some, get_apply,
    hlookup, modify_apply, depositEvent]
  rfl

/-- What an upload that fits does when the name has a script: only the code is compared, as the
names are the same whenever the keys are. -/
theorem uploadWasm_again (h : Fits T (typ.tag ++ name) wasmCode scriptAbi) {d : ScriptDetail T}
    (hd : s.scriptStorage.lookup h.key.key = some d) :
    uploadWasm (.signed who) name typ wasmCode scriptAbi s =
      if d.name.val = utf8 (typ.tag ++ name) ∧ d.wasmCode.val = wasmCode then
        .error (.module .valAlreadyExist) s
      else .ok () (h.store s who typ) := by
  have hlookup : s.scriptStorage.lookup
      (BoundedVec.ofLe (scriptKeyOf T (typ.tag ++ name)) h.key) = some d := hd
  simp only [uploadWasm, bind_apply, ensureSigned_signed, ensure_apply, if_pos h.code,
    BoundedVec.tryFrom_of_le h.code, BoundedVec.tryFrom_of_le h.name,
    BoundedVec.tryFrom_of_le h.abi, BoundedVec.tryFrom_of_le h.key, orFault_some, get_apply,
    hlookup, modify_apply, depositEvent]
  by_cases hsame : d.name.val = utf8 (typ.tag ++ name) ∧ d.wasmCode.val = wasmCode
  · have hname : BoundedVec.ofLe (utf8 (typ.tag ++ name)) h.name = d.name :=
      Subtype.ext hsame.1.symm
    have hcode : BoundedVec.ofLe wasmCode h.code = d.wasmCode :=
      Subtype.ext hsame.2.symm
    simp [hsame, hname, hcode]
  · have hnew : BoundedVec.ofLe (utf8 (typ.tag ++ name)) h.name ≠ d.name ∨
        BoundedVec.ofLe wasmCode h.code ≠ d.wasmCode := by
      by_contra hboth
      push Not at hboth
      exact hsame ⟨congrArg Subtype.val hboth.1.symm, congrArg Subtype.val hboth.2.symm⟩
    rw [if_pos hnew, if_neg hsame]
    rfl

/-- Everything that an upload can come to: it is refused and changes nothing, or it was signed,
fits, is new, and is stored. -/
theorem uploadWasm_cases (s : State T) (origin : Origin T) (name : Str) (typ : ScriptType)
    (wasmCode scriptAbi : Bytes) :
    (∃ e, uploadWasm origin name typ wasmCode scriptAbi s = .error e s) ∨
    ∃ who, ∃ h : Fits T (typ.tag ++ name) wasmCode scriptAbi, origin = .signed who ∧
      (∀ d, s.scriptStorage.lookup h.key.key = some d →
        ¬(d.name.val = utf8 (typ.tag ++ name) ∧ d.wasmCode.val = wasmCode)) ∧
      uploadWasm origin name typ wasmCode scriptAbi s = .ok () (h.store s who typ) := by
  cases origin with
  | root => exact .inl ⟨_, rfl⟩
  | none => exact .inl ⟨_, rfl⟩
  | signed who =>
    by_cases h : Fits T (typ.tag ++ name) wasmCode scriptAbi
    case neg => exact .inl ⟨_, uploadWasm_tooBig h⟩
    cases hlookup : s.scriptStorage.lookup h.key.key with
    | none =>
      refine .inr ⟨who, h, rfl, ?_, uploadWasm_fresh h hlookup⟩
      intro d hd
      rw [hlookup] at hd
      contradiction
    | some d =>
      have hagain : uploadWasm (.signed who) name typ wasmCode scriptAbi s = _ :=
        uploadWasm_again h hlookup
      split at hagain
      · exact .inl ⟨_, hagain⟩
      · rename_i hnew
        refine .inr ⟨who, h, rfl, ?_, hagain⟩
        intro d' hd'
        obtain rfl : d = d' := Option.some.inj (hlookup.symm.trans hd')
        exact hnew

end PolkadotOracle
