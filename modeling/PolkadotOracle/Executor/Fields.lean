import PolkadotOracle.Executor.Output

/-! The kinds of output fields that the loop over the fields tells apart by their types: how far
each kind moves the cursor, and where in memory a field of each kind can be read. -/

namespace PolkadotOracle.Executor

open Exec Layout Scale Text

/-- What the loop takes a field for.  `array` is an array of a registered class, and `skipped` what
begins like an array and is none. -/
inductive FieldKind
  | i32
  | f32
  | i64
  | f64
  | array
  | skipped
  | string
  | other
deriving DecidableEq, Repr

namespace FieldKind

/-- The kind of a type that begins like an array's, from the class between the brackets. -/
def ofInner (register : SelectorRegistry) : Option Str → FieldKind
  | some inner => if inner ∈ register.classesSchema then array else skipped
  | none => skipped

def of (register : SelectorRegistry) (typ : Str) : FieldKind :=
  if typ = ['i', '3', '2'] then i32
  else if typ = ['f', '3', '2'] then f32
  else if typ = ['i', '6', '4'] then i64
  else if typ = ['f', '6', '4'] then f64
  else if arrayPrefix.isPrefixOf typ then
    ofInner register ((stripPrefix arrayPrefix typ).bind (stripSuffix '>'))
  else if typ = ['s', 't', 'r', 'i', 'n', 'g'] then string
  else other

/-- How far a field moves the cursor. -/
def width : FieldKind → Nat
  | i64 | f64 => 8
  | skipped => 0
  | _ => 4

end FieldKind

/-- The bytes that a field of a kind adds to the result, from the bytes at its place. -/
def fieldBytes (memory result : Bytes) : FieldKind → Except RunnerError Bytes
  | .i32 => .ok (Scale.i32.encode (u32FromLeBytes result).toInt32)
  | .f32 => .ok (Scale.f32.encode (u32FromLeBytes result))
  | .i64 => .ok (Scale.i64.encode (u64FromLeBytes result).toInt64)
  | .f64 => .ok (Scale.f64.encode (u64FromLeBytes result))
  | .array => do
    let cryptoValues ← readArray memory (u32FromLeBytes result).toNat
    return Scale.f32.encodeItems cryptoValues
  | .string => .ok (encodeBytes (utf8
    ((readUtf16String memory (u32FromLeBytes result).toNat 1024).toOption.getD [])))
  | .skipped | .other => .ok []

/-- A turn of the loop, for the kind of its field. -/
def readKind (memory : Bytes) (outputOffset : Nat) (cursor : Cursor) (kind : FieldKind) :
    Except RunnerError Cursor :=
  if kind = .skipped then .ok cursor
  else do
    let result ← read memory (outputOffset + cursor.offsetVal) kind.width
    let encoded ← fieldBytes memory result kind
    return cursor.advance kind.width encoded

theorem readField_kind (register : SelectorRegistry) (memory : Bytes) (outputOffset : Nat)
    (cursor : Cursor) (params : Param) :
    readField register memory outputOffset cursor params =
      readKind memory outputOffset cursor (FieldKind.of register params.paramType) := by
  unfold readField FieldKind.of
  generalize params.paramType = typ
  by_cases hi32 : typ = ['i', '3', '2']
  · rw [if_pos hi32, if_pos hi32]
    rfl
  rw [if_neg hi32, if_neg hi32]
  by_cases hf32 : typ = ['f', '3', '2']
  · rw [if_pos hf32, if_pos hf32]
    rfl
  rw [if_neg hf32, if_neg hf32]
  by_cases hi64 : typ = ['i', '6', '4']
  · rw [if_pos hi64, if_pos hi64]
    rfl
  rw [if_neg hi64, if_neg hi64]
  by_cases hf64 : typ = ['f', '6', '4']
  · rw [if_pos hf64, if_pos hf64]
    rfl
  rw [if_neg hf64, if_neg hf64]
  by_cases harray : arrayPrefix.isPrefixOf typ = true
  · rw [if_pos harray, if_pos harray]
    cases (stripPrefix arrayPrefix typ).bind (stripSuffix '>') with
    | none => rfl
    | some inner =>
      rw [FieldKind.ofInner]
      by_cases hinner : inner ∈ register.classesSchema
      · simp only [if_pos hinner]
        rw [readKind, if_neg (by decide)]
        simp only [fieldBytes, bind_assoc, pure_bind]
        rfl
      · simp only [if_neg hinner]
        rfl
  rw [if_neg harray, if_neg harray]
  by_cases hstring : typ = ['s', 't', 'r', 'i', 'n', 'g']
  · rw [if_pos hstring, if_pos hstring]
    rfl
  · rw [if_neg hstring, if_neg hstring]
    rfl

/-! ### Where a field can be read -/

/-- A field of a kind can be read at a place: it lies within the memory there, and so does the array
that it points to. -/
def KindReadable (memory : Bytes) (kind : FieldKind) (place : Nat) : Prop :=
  kind ≠ .skipped →
    place + kind.width ≤ memory.length ∧
      (kind = .array → ArrayLoads memory (wordAt memory place).toNat)

theorem fieldBytes_iff (memory : Bytes) (place : Nat) (kind : FieldKind) :
    (∃ encoded, fieldBytes memory ((memory.drop place).take kind.width) kind = .ok encoded) ↔
      (kind = .array → ArrayLoads memory (wordAt memory place).toNat) := by
  cases kind with
  | array =>
    simp only [fieldBytes, bind_eq_ok_iff, readArray_iff, forall_const]
    constructor
    · rintro ⟨_, _, ⟨hloads, -⟩, -⟩
      exact hloads
    · intro hloads
      exact ⟨_, _, ⟨hloads, rfl⟩, rfl⟩
  | _ => exact iff_of_true ⟨_, rfl⟩ nofun

theorem readKind_iff (memory : Bytes) (outputOffset : Nat) (cursor : Cursor) (kind : FieldKind) :
    (∃ cursor', readKind memory outputOffset cursor kind = .ok cursor') ↔
      KindReadable memory kind (outputOffset + cursor.offsetVal) := by
  unfold readKind KindReadable
  by_cases hskipped : kind = .skipped
  · rw [if_pos hskipped]
    exact iff_of_true ⟨_, rfl⟩ fun h => absurd hskipped h
  rw [if_neg hskipped]
  by_cases hplace : outputOffset + cursor.offsetVal + kind.width ≤ memory.length
  case neg =>
    rw [read, if_neg hplace]
    refine iff_of_false ?_ fun h => hplace (h hskipped).1
    rintro ⟨_, hread⟩
    contradiction
  rw [read_of_le hplace, ok_bind]
  simp only [bind_eq_ok_iff, ne_eq, hskipped, not_false_eq_true, hplace, true_and, forall_const,
    ← fieldBytes_iff]
  constructor
  · rintro ⟨_, encoded, hencoded, -⟩
    exact ⟨encoded, hencoded⟩
  · rintro ⟨encoded, hencoded⟩
    exact ⟨_, encoded, hencoded, rfl⟩

theorem readKind_offsetVal {memory : Bytes} {outputOffset : Nat} {cursor cursor' : Cursor}
    {kind : FieldKind} (h : readKind memory outputOffset cursor kind = .ok cursor') :
    cursor'.offsetVal = cursor.offsetVal + kind.width := by
  unfold readKind at h
  by_cases hskipped : kind = .skipped
  · rw [if_pos hskipped] at h
    obtain rfl := Except.ok.inj h
    rw [hskipped]
    rfl
  rw [if_neg hskipped] at h
  obtain ⟨result, -, h⟩ := bind_eq_ok h
  obtain ⟨encoded, -, h⟩ := bind_eq_ok h
  obtain rfl := Except.ok.inj h
  rfl

/-- How far a field moves the cursor. -/
def advanceOf (register : SelectorRegistry) (params : Param) : Nat :=
  (FieldKind.of register params.paramType).width

def FieldReadable (register : SelectorRegistry) (memory : Bytes) (params : Param) (place : Nat) :
    Prop :=
  KindReadable memory (FieldKind.of register params.paramType) place

/-- The loop walks over the fields. -/
theorem readField_walks (register : SelectorRegistry) (memory : Bytes) (outputOffset : Nat) :
    Walks (advanceOf register) (fun cursor => outputOffset + cursor.offsetVal)
      (readField register memory outputOffset) (FieldReadable register memory) where
  moves {cursor params cursor'} h := by
    rw [readField_kind] at h
    rw [readKind_offsetVal h, ← Nat.add_assoc]
    rfl
  succeeds cursor params := by
    rw [readField_kind]
    exact readKind_iff memory outputOffset cursor _

/-- The output of a script can be read: every field of the output class, if there is one, can be
read at its place behind the pointer that the script returned. -/
def OutputReadable (register : SelectorRegistry) (memory : Bytes) (retPtr : Int32) : Prop :=
  ∀ fields, register.classesSchema.lookup outputClass = some fields →
    ∀ k : Fin fields.length, FieldReadable register memory (fields.get k)
      (offset (advanceOf register) fields (asUsize retPtr) k)

theorem wasmtimeRunner_ok_iff {register : SelectorRegistry} {memory : Bytes} {retPtr : Int32} :
    (∃ bytes, wasmtimeRunner (.ok (memory, retPtr)) register = .ok bytes) ↔
      OutputReadable register memory retPtr := by
  unfold wasmtimeRunner OutputReadable
  simp only [ok_bind]
  cases hfields : register.classesSchema.lookup outputClass with
  | none => exact iff_of_true ⟨[], rfl⟩ nofun
  | some fields =>
    simp only [bind_eq_ok_iff, Option.some.injEq, forall_eq']
    have hwalk := (readField_walks register memory (asUsize retPtr)).foldlM_iff fields ⟨0, []⟩
    refine Iff.trans ?_ hwalk
    constructor
    · rintro ⟨_, cursor, hcursor, -⟩
      exact ⟨cursor, hcursor⟩
    · rintro ⟨cursor, hcursor⟩
      exact ⟨_, cursor, hcursor, rfl⟩

end PolkadotOracle.Executor
