import PolkadotOracle.Executor.Fields

/-! The environment in which a script runs, and the part of its run that is before its output: the
module is compiled, its imports are given placeholders, the answer of its API is written into the
memory of its instance, and its function `process` is called. -/

namespace PolkadotOracle.Executor

open Exec Scale

/-! ### Modules and instances -/

inductive ValType
  | i32
  | i64
  | f32
  | f64
  | v128
  | ref
deriving DecidableEq, Repr

/-- A value of the engine, with floats as bit patterns. -/
inductive Val
  | i32 (value : Int32)
  | i64 (value : Int64)
  | f32 (bits : UInt32)
  | f64 (bits : UInt64)
  | v128 (bits : BitVec 128)
  | ref (index : Option Nat)
deriving DecidableEq

def Val.toI32 : Val → Option Int32
  | i32 value => some value
  | _ => none

theorem Val.toI32_eq_some {val : Val} {value : Int32} :
    val.toI32 = some value ↔ val = .i32 value := by
  cases val <;> simp [toI32]

structure FuncType where
  params : List ValType
  results : List ValType
deriving DecidableEq, Repr

structure TableType where
  element : ValType
  minimum : Nat
  maximum : Option Nat
deriving DecidableEq, Repr

inductive ExternType
  | func (funcTy : FuncType)
  | global (content : ValType)
  | table (tableTy : TableType)
  | memory
deriving DecidableEq, Repr

/-- What a module is given for an import: a function that returns the defaults of its results, a
global with a value, or a table of null functions. -/
inductive Extern
  | func (funcTy : FuncType)
  | global (value : Val)
  | table (tableTy : TableType)
deriving DecidableEq

/-- An instance: its memory, its function `process` and the value of its global `url`, where it
exports them.  A call of the function gives the memory after it and the pointer that it returned,
or a trap, or `none` when it runs forever. -/
structure Instance where
  memory : Option Bytes
  process : Except String (Bytes → Int32 → Int32 → Option (Except String (Bytes × Int32)))
  url : Option Val

/-- A module that compiles.  Instantiation runs its start function, which may run forever. -/
structure Module where
  imports : List ExternType
  instantiate : List Extern → Option (Except String Instance)

structure Class where
  name : Str
  fields : List Param
deriving DecidableEq, Repr

/-- The part of a parsed ABI that a run reads. -/
structure Root where
  classes : List Class
deriving DecidableEq, Repr

/-- The parser of ABIs, the engine and the HTTP client.  Each reports its failures as errors. -/
structure Host where
  fromStr : Str → Except String Root
  fromBinary : Bytes → Except String Module
  newTable : TableType → Except String Unit
  fetchWithQuery : Str → Except String Bytes

/-! ### Errors and panics -/

/-- The result of an operation of the host, whose error is passed on. -/
def attempt {α : Type} (x : Except String α) : Except RunnerError α := x.mapError .other

def expect {α : Type} (message : String) : Option α → Except RunnerError α
  | some a => .ok a
  | none => .error (.panic message)

def unwrap {α : Type} (x : Option α) : Except RunnerError α :=
  expect "called `Option::unwrap()` on a `None` value" x

/-- The result of an operation of the host that may run forever. -/
def await {α : Type} (x : Option (Except String α)) : Run RunnerError α := .mk (x.map attempt)

variable {α : Type} {a : α}

theorem attempt_eq_ok {x : Except String α} : attempt x = .ok a ↔ x = .ok a := by
  cases x <;> simp [attempt, Except.mapError]

theorem expect_eq_ok {message : String} {x : Option α} :
    expect message x = .ok a ↔ x = some a := by
  cases x <;> simp [expect]

theorem unwrap_eq_ok {x : Option α} : unwrap x = .ok a ↔ x = some a := expect_eq_ok

theorem returns_await {x : Option (Except String α)} :
    Returns (await x) a ↔ x = some (.ok a) := by
  show x.map attempt = some (.ok a) ↔ _
  simp [Option.map_eq_some_iff, attempt_eq_ok]

/-! ### Imports -/

/-- The value of a placeholder for a global, of a numeric type. -/
def dummyVal : ValType → Option Val
  | .i32 => some (.i32 0)
  | .i64 => some (.i64 0)
  | .f32 => some (.f32 0)
  | .f64 => some (.f64 0)
  | _ => none

/-- One turn of the loop over the imports.  The value for a global is made, but no global is pushed
for it. -/
def pushExtern (host : Host) (externlts : List Extern) :
    ExternType → Except RunnerError (List Extern)
  | .func funcTy => .ok (externlts ++ [.func funcTy])
  | .global content =>
    match dummyVal content with
    | some _ => .ok externlts
    | none => .error (.panic "not implemented: Unsupported for dummy global type")
  | .table tableTy => do
    let _ ← attempt (host.newTable tableTy)
    return externlts ++ [.table tableTy]
  | .memory => .error (.panic "not implemented: Don't care bruv")

/-- What the loop over the imports pushes for them. -/
def externltsOf (host : Host) (imports : List ExternType) : Except RunnerError (List Extern) :=
  imports.foldlM (pushExtern host) []

/-- The loop can deal with an import: it is a function, a number, or a table that can be made. -/
def Host.Supports (host : Host) : ExternType → Prop
  | .func _ => True
  | .global content => content ∈ [.i32, .i64, .f32, .f64]
  | .table tableTy => host.newTable tableTy = .ok ()
  | .memory => False

/-- What the loop pushes for an import. -/
def ExternType.placeholder : ExternType → Option Extern
  | func funcTy => some (.func funcTy)
  | table tableTy => some (.table tableTy)
  | _ => none

theorem pushExtern_iff (host : Host) (externlts : List Extern) (ty : ExternType)
    (externlts' : List Extern) :
    pushExtern host externlts ty = .ok externlts' ↔
      host.Supports ty ∧ externlts' = externlts ++ ty.placeholder.toList := by
  cases ty with
  | func funcTy => simp [pushExtern, Host.Supports, ExternType.placeholder, eq_comm]
  | global content =>
    cases content <;>
      simp [pushExtern, dummyVal, Host.Supports, ExternType.placeholder, eq_comm]
  | table tableTy =>
    simp only [pushExtern, bind_eq_ok_iff, attempt_eq_ok, Host.Supports, ExternType.placeholder,
      Option.toList_some]
    constructor
    · rintro ⟨_, hnew, hpush⟩
      exact ⟨hnew, (Except.ok.inj hpush).symm⟩
    · rintro ⟨hnew, rfl⟩
      exact ⟨(), hnew, rfl⟩
  | memory => exact iff_of_false nofun fun h => h.1

theorem externltsOf_iff {host : Host} {imports : List ExternType} {externlts : List Extern} :
    externltsOf host imports = .ok externlts ↔
      (∀ ty ∈ imports, host.Supports ty) ∧
        externlts = imports.filterMap ExternType.placeholder :=
  foldlM_append_iff (pushExtern_iff host) imports

/-! ### Imports that are bound -/

inductive ExternKind
  | func
  | global
  | table
  | memory
deriving DecidableEq, Repr

def ExternType.kind : ExternType → ExternKind
  | func _ => .func
  | global _ => .global
  | table _ => .table
  | memory => .memory

def Extern.kind : Extern → ExternKind
  | func _ => .func
  | global _ => .global
  | table _ => .table

/-- The loop pushes something for an import of the kind. -/
def ExternKind.Pushed (kind : ExternKind) : Prop := kind = .func ∨ kind = .table

instance : DecidablePred ExternKind.Pushed := fun _ => inferInstanceAs (Decidable (_ ∨ _))

theorem placeholder_kind (ty : ExternType) :
    ty.placeholder.map Extern.kind = Option.guard (fun kind => decide kind.Pushed) ty.kind := by
  cases ty <;> rfl

/-- The kinds of what the loop pushes are the kinds of the imports without those of the globals. -/
theorem placeholders_kind (imports : List ExternType) :
    (imports.filterMap ExternType.placeholder).map Extern.kind =
      (imports.map ExternType.kind).filter fun kind => decide kind.Pushed := by
  rw [List.map_filterMap, ← List.filterMap_eq_filter, List.filterMap_map]
  exact List.filterMap_congr fun ty _ => placeholder_kind ty

/-- For imports of functions, numeric globals and tables that can be made: what the loop pushes has
one entry for each import, in their order and of the same kinds, exactly when none of them is a
global. -/
theorem imports_bound_iff {host : Host} {imports : List ExternType}
    (hsupports : ∀ ty ∈ imports, host.Supports ty) :
    (∃ externlts, externltsOf host imports = .ok externlts ∧
      externlts.map Extern.kind = imports.map ExternType.kind) ↔
    ∀ ty ∈ imports, ty.kind ≠ .global := by
  have hpushed : ∀ ty ∈ imports, ty.kind.Pushed ↔ ty.kind ≠ .global := by
    intro ty hty
    cases ty with
    | memory => exact (hsupports _ hty).elim
    | _ => simp [ExternKind.Pushed, ExternType.kind]
  simp only [externltsOf_iff, and_assoc, exists_and_left, exists_eq_left, placeholders_kind,
    List.filter_eq_self, List.forall_mem_map, decide_eq_true_eq]
  constructor
  · rintro ⟨-, h⟩ ty hty
    exact (hpushed ty hty).mp (h ty hty)
  · intro h
    exact ⟨hsupports, fun ty hty => (hpushed ty hty).mpr (h ty hty)⟩

/-- A host that makes any table and does nothing else. -/
def tableHost : Host where
  fromStr _ := .error "EOF while parsing a value"
  fromBinary _ := .error "failed to parse WebAssembly module"
  newTable _ := .ok ()
  fetchWithQuery _ := .error "builder error: relative URL without a base"

theorem imports_bound_iff_sample :
    ∃ externlts, externltsOf tableHost [.func ⟨[], []⟩, .table ⟨.ref, 1, none⟩] = .ok externlts ∧
      externlts.map Extern.kind = [.func, .table] :=
  (imports_bound_iff (by simp [Host.Supports, tableHost])).mpr (by decide)

/-- A function that is imported behind a global takes the global's place. -/
theorem import_shifted :
    (∀ ty ∈ [ExternType.global .i32, .func ⟨[], []⟩], tableHost.Supports ty) ∧
      externltsOf tableHost [.global .i32, .func ⟨[], []⟩] = .ok [.func ⟨[], []⟩] ∧
      ¬∃ externlts, externltsOf tableHost [.global .i32, .func ⟨[], []⟩] = .ok externlts ∧
        externlts.map Extern.kind = [.global, .func] := by
  refine ⟨by simp [Host.Supports], rfl, ?_⟩
  rintro ⟨externlts, hexternlts, hkinds⟩
  obtain rfl : [.func ⟨[], []⟩] = externlts := Except.ok.inj hexternlts
  exact absurd hkinds (by decide)

/-! ### The URL of the API -/

/-- The character of a 16-bit unit; a surrogate is none. -/
def charFromU32 (charCode : UInt16) : Char :=
  if charCode.toNat.isValidChar then Char.ofNat charCode.toNat else '?'

/-- The loop over the units of the URL, up to a null unit or the end of the memory. -/
def urlChars : Bytes → Str
  | lowByte :: highByte :: rest =>
    if lowByte = 0 ∧ highByte = 0 then []
    else charFromU32 (UInt16.ofNat (leNat [lowByte, highByte])) :: urlChars rest
  | _ => []

/-- The URL at a pointer.  The pointer -1 is the last index there is, whose successor wraps around
to zero and is taken to be within the memory, while the index itself is not. -/
def readUrl (memory : Bytes) (urlValue : Int32) : Except RunnerError Str :=
  let i := asUsize urlValue
  if i + 1 = 2 ^ 64 ∧ 0 < memory.length then .error (.panic "index out of bounds")
  else .ok (urlChars (memory.drop i))

theorem asUsize_injective : Function.Injective asUsize := by
  intro a b h
  have hwide : a.toInt64 = b.toInt64 :=
    congrArg UInt64.toInt64 (UInt64.toNat_inj.mp h)
  have hint : a.toInt64.toInt = b.toInt64.toInt := congrArg Int64.toInt hwide
  rw [Int32.toInt_toInt64, Int32.toInt_toInt64] at hint
  exact Int32.toInt_inj.mp hint

theorem readUrl_eq_ok {memory : Bytes} {urlValue : Int32} {apiUrl : Str}
    (hmemory : 0 < memory.length) :
    readUrl memory urlValue = .ok apiUrl ↔
      urlValue ≠ -1 ∧ urlChars (memory.drop (asUsize urlValue)) = apiUrl := by
  have hlast : asUsize urlValue + 1 = 2 ^ 64 ↔ urlValue = -1 := by
    have hneg : asUsize (-1) + 1 = 2 ^ 64 := by decide
    rw [← hneg, Nat.add_right_cancel_iff, asUsize_injective.eq_iff]
  unfold readUrl
  simp only [hlast, hmemory, and_true]
  by_cases h : urlValue = -1 <;> simp [h]

/-! ### The run up to the output -/

/-- How much of the memory is read back once the answer of the API is written. -/
def confirmLen : Nat := 10240

/-- The run of a script up to its output: the memory after the call of `process` and the pointer
that the call returned. -/
def callProcess (host : Host) (bin : Bytes) : Run RunnerError (Bytes × Int32) := do
  let compiled ← attempt (host.fromBinary bin)
  let externlts ← externltsOf host compiled.imports
  let inst ← await (compiled.instantiate externlts)
  let memory ← expect "Memory not found" inst.memory
  let processFunc ← attempt inst.process
  let urlGlobal ← unwrap inst.url
  let urlValue ← unwrap urlGlobal.toI32
  let apiUrl ← readUrl memory urlValue
  let jsonBytes ← attempt (host.fetchWithQuery apiUrl)
  let memory ← write memory 0 jsonBytes
  let _confirm ← read memory 0 confirmLen
  await (processFunc memory 0 (Int32.ofNat jsonBytes.length))

/-- A run of a script up to its output, with all that it needs on the way. -/
structure Session (host : Host) (bin : Bytes) where
  compiled : Module
  inst : Instance
  memory : Bytes
  processFunc : Bytes → Int32 → Int32 → Option (Except String (Bytes × Int32))
  urlValue : Int32
  jsonBytes : Bytes
  process : Bytes × Int32
  compiles : host.fromBinary bin = .ok compiled
  supports : ∀ ty ∈ compiled.imports, host.Supports ty
  instantiates :
    compiled.instantiate (compiled.imports.filterMap ExternType.placeholder) = some (.ok inst)
  exportsMemory : inst.memory = some memory
  exportsProcess : inst.process = .ok processFunc
  exportsUrl : inst.url = some (.i32 urlValue)
  url : urlValue ≠ -1
  fetches : host.fetchWithQuery (urlChars (memory.drop (asUsize urlValue))) = .ok jsonBytes
  fits : jsonBytes.length ≤ memory.length
  confirms : confirmLen ≤ memory.length
  returns : processFunc (jsonBytes ++ memory.drop jsonBytes.length) 0
    (Int32.ofNat jsonBytes.length) = some (.ok process)

theorem callProcess_returns_iff {host : Host} {bin : Bytes} {process : Bytes × Int32} :
    Returns (callProcess host bin) process ↔ ∃ s : Session host bin, s.process = process := by
  unfold callProcess
  simp only [returns_bind, returns_liftM, returns_await, attempt_eq_ok, expect_eq_ok, unwrap_eq_ok,
    externltsOf_iff, write_zero, read_eq_ok]
  constructor
  · rintro ⟨compiled, hcompiles, _, ⟨hsupports, rfl⟩, inst, hinst, memory, hmemory, processFunc,
      hprocess, url, hurl, urlValue, hvalue, apiUrl, hread, jsonBytes, hfetches, _, ⟨hfits, rfl⟩,
      _, ⟨hconfirms, -⟩, hreturns⟩
    rw [written_length hfits, Nat.zero_add] at hconfirms
    have hpos : 0 < memory.length := Nat.lt_of_lt_of_le (by decide) hconfirms
    obtain ⟨hplace, rfl⟩ := (readUrl_eq_ok hpos).mp hread
    rw [Val.toI32_eq_some] at hvalue
    exact ⟨⟨compiled, inst, memory, processFunc, urlValue, jsonBytes, process, hcompiles, hsupports,
      hinst, hmemory, hprocess, hvalue ▸ hurl, hplace, hfetches, hfits, hconfirms, hreturns⟩, rfl⟩
  · rintro ⟨s, rfl⟩
    have hpos : 0 < s.memory.length := Nat.lt_of_lt_of_le (by decide) s.confirms
    have hconfirms : 0 + confirmLen ≤
        (s.jsonBytes ++ s.memory.drop s.jsonBytes.length).length := by
      rw [written_length s.fits, Nat.zero_add]
      exact s.confirms
    exact ⟨s.compiled, s.compiles, _, ⟨s.supports, rfl⟩, s.inst, s.instantiates, s.memory,
      s.exportsMemory, s.processFunc, s.exportsProcess, _, s.exportsUrl, s.urlValue, rfl, _,
      (readUrl_eq_ok hpos).mpr ⟨s.url, rfl⟩, s.jsonBytes, s.fetches, _, ⟨s.fits, rfl⟩, _,
      ⟨hconfirms, rfl⟩, s.returns⟩

end PolkadotOracle.Executor
