import Mathlib.Data.Finmap
import PolkadotOracle.Executor.Memory

/-! The run of a script: the fields of the ABI's output class are read one after the other from the
place in memory that the script returned. -/

namespace PolkadotOracle.Executor

open Exec Scale Text

structure Param where
  name : Str
  paramType : Str
deriving DecidableEq, Repr

structure SelectorRegistry where
  classesSchema : Finmap fun _ : Str => List Param

def outputClass : Str := ['O', 'u', 't', 'p', 'u', 't']

def arrayPrefix : Str := ['A', 'r', 'r', 'a', 'y', '<']

def stripPrefix (pre s : Str) : Option Str :=
  if pre.isPrefixOf s then some (s.drop pre.length) else none

def stripSuffix (c : Char) (s : Str) : Option Str :=
  if s.getLast? = some c then some s.dropLast else none

/-- What the loop over the fields carries: how far it has read, and the bytes of the result. -/
structure Cursor where
  offsetVal : Nat
  bytesResult : Bytes
deriving DecidableEq, Repr

def Cursor.advance (cursor : Cursor) (width : Nat) (encoded : Bytes) : Cursor where
  offsetVal := cursor.offsetVal + width
  bytesResult := cursor.bytesResult ++ encoded

@[simp] theorem Cursor.advance_offsetVal (cursor : Cursor) (width : Nat) (encoded : Bytes) :
    (cursor.advance width encoded).offsetVal = cursor.offsetVal + width := rfl

@[simp] theorem Cursor.advance_zero (cursor : Cursor) : cursor.advance 0 [] = cursor := by
  simp [advance]

theorem Cursor.advance_advance (cursor : Cursor) (width width' : Nat) (encoded encoded' : Bytes) :
    (cursor.advance width encoded).advance width' encoded' =
      cursor.advance (width + width') (encoded ++ encoded') := by
  simp [advance, Nat.add_assoc]

/-- One turn of the loop over an array's elements: a null pointer is skipped. -/
def readElem (memory : Bytes) (passResDataPtr : Nat) (cryptoValues : List UInt32) (i : Nat) :
    Except RunnerError (List UInt32) := do
  let elemBytes ← read memory (passResDataPtr + i * 4) 4
  let ptr := (u32FromLeBytes elemBytes).toNat
  if ptr = 0 then
    return cryptoValues
  else
    let usdBytes ← read memory ptr 4
    return cryptoValues ++ [u32FromLeBytes usdBytes]

/-- The floats of the array object at a pointer. -/
def readArray (memory : Bytes) (customArrPtr : Nat) : Except RunnerError (List UInt32) := do
  let arrayHeaderBytes ← read memory customArrPtr 16
  let passResDataPtr := (u32FromLeBytes ((arrayHeaderBytes.drop 4).take 4)).toNat
  let passResDataCap := (u32FromLeBytes ((arrayHeaderBytes.drop 12).take 4)).toNat
  if passResDataPtr = 0 then
    throw (.panic "pass_res data pointer is null (0)")
  else
    (List.range passResDataCap).foldlM (readElem memory passResDataPtr) []

/-- One turn of the loop over the fields.  An array of a class that is not registered is passed over
without advancing, and a type that is none of the others is read and left out of the result. -/
def readField (register : SelectorRegistry) (memory : Bytes) (outputOffset : Nat)
    (cursor : Cursor) (params : Param) : Except RunnerError Cursor :=
  let typ := params.paramType
  let place := outputOffset + cursor.offsetVal
  if typ = ['i', '3', '2'] then do
    let result ← read memory place 4
    return cursor.advance 4 (i32.encode (u32FromLeBytes result).toInt32)
  else if typ = ['f', '3', '2'] then do
    let result ← read memory place 4
    return cursor.advance 4 (f32.encode (u32FromLeBytes result))
  else if typ = ['i', '6', '4'] then do
    let result ← read memory place 8
    return cursor.advance 8 (i64.encode (u64FromLeBytes result).toInt64)
  else if typ = ['f', '6', '4'] then do
    let result ← read memory place 8
    return cursor.advance 8 (f64.encode (u64FromLeBytes result))
  else if arrayPrefix.isPrefixOf typ then
    match (stripPrefix arrayPrefix typ).bind (stripSuffix '>') with
    | some inner =>
      if inner ∈ register.classesSchema then do
        let result ← read memory place 4
        let cryptoValues ← readArray memory (u32FromLeBytes result).toNat
        return cursor.advance 4 (f32.encodeItems cryptoValues)
      else
        return cursor
    | none => return cursor
  else if typ = ['s', 't', 'r', 'i', 'n', 'g'] then do
    let result ← read memory place 4
    let stringOut := (readUtf16String memory (u32FromLeBytes result).toNat 1024).toOption.getD []
    return cursor.advance 4 (encodeBytes (utf8 stringOut))
  else do
    let _ ← read memory place 4
    return cursor.advance 4 []

/-- A pointer as an offset: a negative one is sign-extended. -/
def asUsize (retPtr : Int32) : Nat := retPtr.toInt64.toUInt64.toNat

/-- The result of a script.  `process` is the memory of its instance after the run and the pointer
that the run returned, or the error with which it stopped. -/
def wasmtimeRunner (process : Except RunnerError (Bytes × Int32)) (register : SelectorRegistry) :
    Except RunnerError Bytes := do
  let (memory, retPtr) ← process
  let outputOffset := asUsize retPtr
  match register.classesSchema.lookup outputClass with
  | none => return []
  | some val =>
    let cursor ← val.foldlM (readField register memory outputOffset) ⟨0, []⟩
    return cursor.bytesResult

/-- A walk over the fields of the output ends with the bytes that it has collected. -/
theorem wasmtimeRunner_walk {memory : Bytes} {retPtr : Int32} {register : SelectorRegistry}
    {val : List Param} {cursor : Cursor}
    (houtput : register.classesSchema.lookup outputClass = some val)
    (hwalk : val.foldlM (readField register memory (asUsize retPtr)) ⟨0, []⟩ = .ok cursor) :
    wasmtimeRunner (.ok (memory, retPtr)) register = .ok cursor.bytesResult := by
  unfold wasmtimeRunner
  simp only [ok_bind, houtput, hwalk]
  rfl

end PolkadotOracle.Executor
