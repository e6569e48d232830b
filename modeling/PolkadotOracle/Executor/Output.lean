import PolkadotOracle.Executor.Runtime
import PolkadotOracle.Lib.Layout

/-! The output of a script against its ABI: the types that the fields of an output class may have,
the value of a field in memory, and that the bytes of a result are the encoded tuple of the fields'
values. -/

namespace PolkadotOracle.Executor

open Exec Scale Layout

/-! ### The types of fields -/

inductive FieldType
  | i32
  | i64
  | f32
  | f64
  | string
  | array (cls : Str)
deriving DecidableEq, Repr

namespace FieldType

def name : FieldType → Str
  | i32 => ['i', '3', '2']
  | i64 => ['i', '6', '4']
  | f32 => ['f', '3', '2']
  | f64 => ['f', '6', '4']
  | string => ['s', 't', 'r', 'i', 'n', 'g']
  | array cls => arrayPrefix ++ cls ++ ['>']

def width : FieldType → Nat
  | i64 | f64 => 8
  | i32 | f32 | string | array _ => 4

def isArray : FieldType → Bool
  | array _ => true
  | _ => false

/-- The values of a type.  An array is the floats of its elements. -/
def Carrier : FieldType → Type
  | i32 => Int32
  | i64 => Int64
  | f32 => UInt32
  | f64 => UInt64
  | string => Text.ScaleString
  | array _ => { l : List UInt32 // l.length ≤ maxLen }

def codec : (t : FieldType) → Codec t.Carrier
  | i32 => Scale.i32
  | i64 => Scale.i64
  | f32 => Scale.f32
  | f64 => Scale.f64
  | string => Text.string
  | array _ => Scale.f32.items

end FieldType

/-- The codec of the records of an output class. -/
def outputCodec (types : List FieldType) : Codec (Tuple FieldType.Carrier types) :=
  Codec.tuple FieldType.codec types

/-! ### The values of fields -/

def stringAt (memory : Bytes) (ptr : Nat) : Text.ScaleString where
  val := (readUtf16String memory ptr 1024).toOption.getD []
  property := by
    cases hread : readUtf16String memory ptr 1024 with
    | error e => simp [Except.toOption, Text.utf8]
    | ok s =>
      have hlen : (Text.utf8 s).length ≤ 3 * 1024 := readUtf16String_length hread
      simp only [Except.toOption, Option.getD_some, maxLen]
      omega

/-- The header of an array object has the data pointer at 4 and the number of elements at 12. -/
def arrayData (memory : Bytes) (ptr : Nat) : Nat := (wordAt memory (ptr + 4)).toNat

def arrayCap (memory : Bytes) (ptr : Nat) : Nat := (wordAt memory (ptr + 12)).toNat

/-- The pointer to element `i`. -/
def elemPtr (memory : Bytes) (ptr i : Nat) : Nat :=
  (wordAt memory (arrayData memory ptr + i * 4)).toNat

def arrayAt (memory : Bytes) (ptr : Nat) : { l : List UInt32 // l.length ≤ maxLen } where
  val := (List.range (arrayCap memory ptr)).map fun i => wordAt memory (elemPtr memory ptr i)
  property := by
    have hcap := (wordAt memory (ptr + 12)).toNat_lt
    simp only [List.length_map, List.length_range, arrayCap, maxLen]
    omega

def valueAt (memory : Bytes) : (t : FieldType) → Nat → t.Carrier
  | .i32, offset => (wordAt memory offset).toInt32
  | .i64, offset => (dwordAt memory offset).toInt64
  | .f32, offset => wordAt memory offset
  | .f64, offset => dwordAt memory offset
  | .string, offset => stringAt memory (wordAt memory offset).toNat
  | .array _, offset => arrayAt memory (wordAt memory offset).toNat

/-- All of an array object can be read, and neither its data pointer nor one of its element pointers
is null. -/
structure ArrayReadable (memory : Bytes) (ptr : Nat) : Prop where
  header : ptr + 16 ≤ memory.length
  data : arrayData memory ptr ≠ 0
  slots : ∀ i < arrayCap memory ptr, arrayData memory ptr + i * 4 + 4 ≤ memory.length
  elements : ∀ i < arrayCap memory ptr, elemPtr memory ptr i ≠ 0
  floats : ∀ i < arrayCap memory ptr, elemPtr memory ptr i + 4 ≤ memory.length

instance (memory : Bytes) (ptr : Nat) : Decidable (ArrayReadable memory ptr) :=
  decidable_of_iff (ptr + 16 ≤ memory.length ∧ arrayData memory ptr ≠ 0 ∧
    ∀ i < arrayCap memory ptr, arrayData memory ptr + i * 4 + 4 ≤ memory.length ∧
      elemPtr memory ptr i ≠ 0 ∧ elemPtr memory ptr i + 4 ≤ memory.length)
    ⟨fun ⟨hheader, hdata, helems⟩ => ⟨hheader, hdata, fun i hi => (helems i hi).1,
      fun i hi => (helems i hi).2.1, fun i hi => (helems i hi).2.2⟩,
    fun h => ⟨h.header, h.data, fun i hi => ⟨h.slots i hi, h.elements i hi, h.floats i hi⟩⟩⟩

/-- The value of a field can be read at a place. -/
def Readable (memory : Bytes) (t : FieldType) (offset : Nat) : Prop :=
  offset + t.width ≤ memory.length ∧
    (t.isArray → ArrayReadable memory (wordAt memory offset).toNat)

instance (memory : Bytes) (t : FieldType) (offset : Nat) : Decidable (Readable memory t offset) :=
  inferInstanceAs (Decidable (_ ∧ _))

/-! ### A field is read at the cursor -/

/-- Element `i` can be read: its slot lies within the memory, and so does its float unless the
pointer is null. -/
def ElemLoads (memory : Bytes) (ptr i : Nat) : Prop :=
  arrayData memory ptr + i * 4 + 4 ≤ memory.length ∧
    (elemPtr memory ptr i ≠ 0 → elemPtr memory ptr i + 4 ≤ memory.length)

/-- What the loop takes from element `i`. -/
def elemAt (memory : Bytes) (ptr i : Nat) : Option UInt32 :=
  if elemPtr memory ptr i = 0 then none else some (wordAt memory (elemPtr memory ptr i))

theorem readElem_iff {memory : Bytes} {ptr i : Nat} {values values' : List UInt32} :
    readElem memory (arrayData memory ptr) values i = .ok values' ↔
      ElemLoads memory ptr i ∧ values' = values ++ (elemAt memory ptr i).toList := by
  unfold readElem ElemLoads elemAt
  by_cases hslot : arrayData memory ptr + i * 4 + 4 ≤ memory.length
  case neg =>
    rw [read, if_neg hslot]
    exact iff_of_false nofun fun h => hslot h.1.1
  rw [read_of_le hslot, ok_bind]
  have hptr : (u32FromLeBytes ((memory.drop (arrayData memory ptr + i * 4)).take 4)).toNat =
      elemPtr memory ptr i := rfl
  simp only [hptr]
  by_cases hnull : elemPtr memory ptr i = 0
  · simp [hnull, hslot, pure, Except.pure, eq_comm]
  by_cases hfloat : elemPtr memory ptr i + 4 ≤ memory.length
  · rw [if_neg hnull, if_neg hnull, read_of_le hfloat, ok_bind]
    have hword : u32FromLeBytes ((memory.drop (elemPtr memory ptr i)).take 4) =
        wordAt memory (elemPtr memory ptr i) := rfl
    simp [hslot, hfloat, hword, pure, Except.pure, eq_comm]
  · rw [if_neg hnull, if_neg hnull, read, if_neg hfloat]
    exact iff_of_false nofun fun h => hfloat (h.1.2 hnull)

/-- The elements that the loop has read so far. -/
theorem foldlM_readElem_iff {memory : Bytes} {ptr : Nat} (n : Nat) {values : List UInt32} :
    (List.range n).foldlM (readElem memory (arrayData memory ptr)) [] = .ok values ↔
      (∀ i < n, ElemLoads memory ptr i) ∧
      values = (List.range n).filterMap (elemAt memory ptr) := by
  have hstep (l : List UInt32) (i : Nat) (l' : List UInt32) :
      readElem memory (arrayData memory ptr) l i = .ok l' ↔
        ElemLoads memory ptr i ∧ l' = l ++ (elemAt memory ptr i).toList := readElem_iff
  rw [foldlM_append_iff hstep, List.nil_append]
  simp only [List.mem_range]

/-- An array object can be read: its header lies within the memory, its data pointer is not null,
and every element can be read. -/
structure ArrayLoads (memory : Bytes) (ptr : Nat) : Prop where
  header : ptr + 16 ≤ memory.length
  data : arrayData memory ptr ≠ 0
  elements : ∀ i < arrayCap memory ptr, ElemLoads memory ptr i

/-- The floats of the elements whose pointers are not null. -/
def loadedArray (memory : Bytes) (ptr : Nat) : List UInt32 :=
  (List.range (arrayCap memory ptr)).filterMap (elemAt memory ptr)

/-- A word of the header is the word of the memory at its place. -/
theorem header_word (memory : Bytes) (ptr : Nat) {i : Nat} (hi : i + 4 ≤ 16) :
    u32FromLeBytes ((((memory.drop ptr).take 16).drop i).take 4) = wordAt memory (ptr + i) := by
  rw [wordAt, List.drop_take, List.take_take, List.drop_drop, Nat.min_eq_left (by omega)]

theorem readArray_iff {memory : Bytes} {ptr : Nat} {values : List UInt32} :
    readArray memory ptr = .ok values ↔
      ArrayLoads memory ptr ∧ values = loadedArray memory ptr := by
  unfold readArray
  by_cases hheader : ptr + 16 ≤ memory.length
  case neg =>
    rw [read, if_neg hheader]
    exact iff_of_false nofun fun h => hheader h.1.header
  rw [read_of_le hheader, ok_bind]
  simp only [header_word memory ptr (show 4 + 4 ≤ 16 by decide),
    header_word memory ptr (show 12 + 4 ≤ 16 by decide)]
  by_cases hdata : (wordAt memory (ptr + 4)).toNat = 0
  · rw [if_pos hdata]
    exact iff_of_false nofun fun h => h.1.data hdata
  rw [if_neg hdata]
  apply (foldlM_readElem_iff (arrayCap memory ptr)).trans
  refine and_congr_left fun _ => ⟨fun h => ⟨hheader, hdata, h⟩, fun h => h.elements⟩

/-- An array without null pointers has all its floats. -/
theorem ArrayReadable.loaded {memory : Bytes} {ptr : Nat} (h : ArrayReadable memory ptr) :
    (arrayAt memory ptr).val = loadedArray memory ptr := by
  have helem : ∀ i ∈ List.range (arrayCap memory ptr),
      elemAt memory ptr i = some (wordAt memory (elemPtr memory ptr i)) := by
    intro i hi
    exact if_neg (h.elements i (List.mem_range.mp hi))
  rw [loadedArray, List.filterMap_congr helem, List.filterMap_eq_map']
  rfl

theorem ArrayReadable.loads {memory : Bytes} {ptr : Nat} (h : ArrayReadable memory ptr) :
    ArrayLoads memory ptr :=
  ⟨h.header, h.data, fun i hi => ⟨h.slots i hi, fun _ => h.floats i hi⟩⟩

theorem readArray_eq {memory : Bytes} {ptr : Nat} (h : ArrayReadable memory ptr) :
    readArray memory ptr = .ok (arrayAt memory ptr).val :=
  readArray_iff.mpr ⟨h.loads, h.loaded⟩

theorem stripPrefix_append (pre s : Str) : stripPrefix pre (pre ++ s) = some s := by
  simp [stripPrefix]

theorem stripSuffix_append (s : Str) (c : Char) : stripSuffix c (s ++ [c]) = some s := by
  simp [stripSuffix]

theorem isPrefixOf_name (cls : Str) :
    arrayPrefix.isPrefixOf (FieldType.array cls).name = true := by
  simp [FieldType.name]

/-- The name of an array type is taken apart into its class. -/
theorem inner_name (cls : Str) :
    (stripPrefix arrayPrefix (FieldType.array cls).name).bind (stripSuffix '>') = some cls := by
  rw [FieldType.name, List.append_assoc, stripPrefix_append, Option.bind_some, stripSuffix_append]

/-- The arrays of a type are of a class with a single field, a float. -/
def ArrayRegistered (register : SelectorRegistry) (t : FieldType) : Prop :=
  ∀ cls, t = .array cls →
    ∃ field, register.classesSchema.lookup cls = some [field] ∧
      field.paramType = FieldType.f32.name

theorem readField_eq {register : SelectorRegistry} {memory : Bytes} {outputOffset : Nat}
    {cursor : Cursor} {field : Param} {t : FieldType} (htype : field.paramType = t.name)
    (hclass : ArrayRegistered register t)
    (hread : Readable memory t (outputOffset + cursor.offsetVal)) :
    readField register memory outputOffset cursor field =
      .ok (cursor.advance t.width
        (t.codec.encode (valueAt memory t (outputOffset + cursor.offsetVal)))) := by
  obtain ⟨hplace, harray⟩ := hread
  unfold readField
  cases t with
  | i32 | f32 | string =>
    have hresult : read memory (outputOffset + cursor.offsetVal) 4 = .ok _ := read_of_le hplace
    simp only [htype, FieldType.name, if_true, hresult, ok_bind]
    rfl
  | i64 | f64 =>
    have hresult : read memory (outputOffset + cursor.offsetVal) 8 = .ok _ := read_of_le hplace
    simp only [htype, FieldType.name, if_true, hresult, ok_bind]
    rfl
  | array cls =>
    have hresult : read memory (outputOffset + cursor.offsetVal) 4 = .ok _ := read_of_le hplace
    obtain ⟨inner, hinner, -⟩ := hclass cls rfl
    have hregistered : cls ∈ register.classesSchema := Finmap.mem_of_lookup_eq_some hinner
    have helems := readArray_eq (harray rfl)
    -- No other type begins with the letter of the prefix.
    have hother (c : Char) (name : Str) (hc : c ≠ 'A') :
        (FieldType.array cls).name ≠ c :: name := by
      intro h
      exact hc (List.cons.inj h).1.symm
    simp only [htype]
    rw [if_neg (hother _ _ (by decide)), if_neg (hother _ _ (by decide)),
      if_neg (hother _ _ (by decide)), if_neg (hother _ _ (by decide)),
      if_pos (isPrefixOf_name cls), inner_name cls]
    simp only [if_pos hregistered, hresult, ok_bind]
    rw [show u32FromLeBytes _ = wordAt memory (outputOffset + cursor.offsetVal) from rfl, helems]
    rfl

/-- The loop over the fields reads the tuple of their values and encodes it. -/
theorem foldlM_readField {register : SelectorRegistry} {memory : Bytes} {outputOffset : Nat}
    (types : List FieldType) (fields : List Param) (cursor : Cursor)
    (htypes : fields.map Param.paramType = types.map FieldType.name)
    (hclass : ∀ t ∈ types, ArrayRegistered register t)
    (hread : ∀ k : Fin types.length, Readable memory (types.get k)
      (offset FieldType.width types (outputOffset + cursor.offsetVal) k)) :
    fields.foldlM (readField register memory outputOffset) cursor =
      .ok (cursor.advance (size FieldType.width types)
        ((outputCodec types).encode
          (tupleAt FieldType.width (valueAt memory) types (outputOffset + cursor.offsetVal)))) := by
  induction types generalizing fields cursor with
  | nil =>
    obtain rfl := List.map_eq_nil_iff.mp htypes
    exact congrArg Except.ok cursor.advance_zero.symm
  | cons t types ih =>
    cases fields with
    | nil => contradiction
    | cons field fields =>
      obtain ⟨htype, htypes⟩ := List.cons.inj htypes
      obtain ⟨hfirst, hrest⟩ := (forall_offset_cons _).mp hread
      have hstep := readField_eq htype (hclass t List.mem_cons_self) hfirst
      rw [Nat.add_assoc] at hrest
      have hrun := ih fields (cursor.advance t.width (t.codec.encode (valueAt memory t
        (outputOffset + cursor.offsetVal)))) htypes
        (fun t' ht' => hclass t' (List.mem_cons_of_mem t ht')) hrest
      rw [List.foldlM_cons, hstep, ok_bind, hrun, Cursor.advance_advance,
        Cursor.advance_offsetVal, ← Nat.add_assoc]
      rfl

theorem asUsize_of_nonneg {retPtr : Int32} (h : 0 ≤ retPtr) :
    asUsize retPtr = retPtr.toInt.toNat := by
  have hwide : 0 ≤ retPtr.toInt64 := by
    rw [Int64.le_iff_toInt_le, Int32.toInt_toInt64]
    exact Int32.le_iff_toInt_le.mp h
  rw [asUsize, Int64.toNat_toUInt64_of_le hwide, Int32.toNatClampNeg_toInt64, Int32.toNat_toInt]

/-- For an ABI whose output class has fields of any of the types, the arrays being of classes with
a single float: the bytes of a result are the encoded tuple of the values that the fields have at
their places in memory, and decode to it. -/
theorem wasmtimeRunner_decodes {register : SelectorRegistry} {memory : Bytes} {retPtr : Int32}
    {fields : List Param} (types : List FieldType)
    (houtput : register.classesSchema.lookup outputClass = some fields)
    (htypes : fields.map Param.paramType = types.map FieldType.name)
    (hclass : ∀ t ∈ types, ArrayRegistered register t) (hptr : 0 ≤ retPtr)
    (hread : ∀ k : Fin types.length, Readable memory (types.get k)
      (offset FieldType.width types retPtr.toInt.toNat k)) :
    ∃ values : Tuple FieldType.Carrier types,
      wasmtimeRunner (.ok (memory, retPtr)) register = .ok ((outputCodec types).encode values) ∧
      (outputCodec types).decode ((outputCodec types).encode values) = some (values, []) ∧
      ∀ k : Fin types.length, values.get k =
        valueAt memory (types.get k) (offset FieldType.width types retPtr.toInt.toNat k) := by
  rw [← asUsize_of_nonneg hptr] at hread ⊢
  refine ⟨tupleAt FieldType.width (valueAt memory) types (asUsize retPtr), ?_,
    (outputCodec types).decode_encode_self _, get_tupleAt _ _ types _⟩
  have hwalk := foldlM_readField types fields ⟨0, []⟩ htypes hclass hread
  exact wasmtimeRunner_walk houtput hwalk

/-- An output with a field of each type, at place 8 of the memory. -/
def sampleTypes : List FieldType := [.array ['C'], .i64, .string, .f32, .f64, .i32]

def sampleFields : List Param := sampleTypes.map fun t => ⟨['v'], t.name⟩

def sampleRegister : SelectorRegistry where
  classesSchema :=
    ((∅ : Finmap fun _ : Str => List Param).insert ['C'] [⟨['u'], FieldType.f32.name⟩]).insert
      outputClass sampleFields

/-- The array object is at 40, its data at 56, its floats at 64, and the string `ok` at 72. -/
def sampleMemory : Bytes :=
  [0, 0, 0, 0, 0, 0, 0, 0,  40, 0, 0, 0,  1, 2, 3, 4, 5, 6, 7, 8,  72, 0, 0, 0,  0, 0, 128, 63,
    0, 0, 0, 0, 0, 0, 240, 63,  255, 255, 255, 255,
    0, 0, 0, 0,  56, 0, 0, 0,  8, 0, 0, 0,  2, 0, 0, 0,  64, 0, 0, 0,  68, 0, 0, 0,
    0, 0, 128, 63,  0, 0, 0, 64,  111, 0, 107, 0] ++ List.replicate 2044 0

theorem wasmtimeRunner_decodes_sample :
    ∃ values : Tuple FieldType.Carrier sampleTypes,
      wasmtimeRunner (.ok (sampleMemory, 8)) sampleRegister =
        .ok ((outputCodec sampleTypes).encode values) ∧
      (outputCodec sampleTypes).decode ((outputCodec sampleTypes).encode values) =
        some (values, []) ∧
      ∀ k : Fin sampleTypes.length, values.get k = valueAt sampleMemory (sampleTypes.get k)
        (offset FieldType.width sampleTypes (8 : Int32).toInt.toNat k) :=
  have hclass : ∀ t ∈ sampleTypes, ArrayRegistered sampleRegister t := by
    intro t ht cls hcls
    subst hcls
    obtain rfl : cls = ['C'] := by simpa [sampleTypes] using ht
    exact ⟨⟨['u'], FieldType.f32.name⟩, by decide, rfl⟩
  have houtput : sampleRegister.classesSchema.lookup outputClass = some sampleFields := by decide
  wasmtimeRunner_decodes sampleTypes houtput (by decide) hclass (by decide) (by decide +kernel)

end PolkadotOracle.Executor
