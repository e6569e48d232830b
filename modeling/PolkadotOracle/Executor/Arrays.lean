import PolkadotOracle.Executor.Places

/-! Arrays of objects in the result of a script: which of them are written with all their elements,
each with all its fields.  The loop over an array reads one word of every element, whatever fields
the class of the elements has, and leaves out those whose pointers are null. -/

namespace PolkadotOracle.Executor

open Exec Scale Layout

/-! ### Classes of numbers -/

/-- The numbers that a class may have as fields. -/
inductive Scalar
  | i32
  | i64
  | f32
  | f64
deriving DecidableEq, Repr

namespace Scalar

def type : Scalar → FieldType
  | i32 => .i32
  | i64 => .i64
  | f32 => .f32
  | f64 => .f64

def width (s : Scalar) : Nat := s.type.width

def Carrier (s : Scalar) : Type := s.type.Carrier

def codec (s : Scalar) : Codec s.Carrier := s.type.codec

theorem sized (s : Scalar) : s.codec.Sized s.width := by
  cases s with
  | i32 => exact Codec.Sized.i32
  | i64 => exact Codec.Sized.i64
  | f32 => exact Codec.Sized.u32
  | f64 => exact Codec.Sized.u64

end Scalar

/-- The fields of a class of numbers. -/
abbrev ClassFields := List (Str × Scalar)

/-- The class as the ABI declares it. -/
def ClassFields.params (fields : ClassFields) : List Param :=
  fields.map fun field => ⟨field.1, field.2.type.name⟩

def ClassFields.scalars (fields : ClassFields) : List Scalar := fields.map Prod.snd

/-- The codec of the objects of a class. -/
def classCodec (scalars : List Scalar) : Codec (Tuple Scalar.Carrier scalars) :=
  Codec.tuple Scalar.codec scalars

/-- The object at a place. -/
def objectAt (memory : Bytes) (scalars : List Scalar) (ptr : Nat) : Tuple Scalar.Carrier scalars :=
  tupleAt Scalar.width (fun s place => valueAt memory s.type place) scalars ptr

theorem arrayCap_le (memory : Bytes) (ptr : Nat) : arrayCap memory ptr ≤ maxLen := by
  have hcap := (wordAt memory (ptr + 12)).toNat_lt
  rw [arrayCap, maxLen]
  omega

theorem objects_length {α : Type} (memory : Bytes) (ptr : Nat) (f : Nat → α) :
    ((List.range (arrayCap memory ptr)).map f).length ≤ maxLen := by
  rw [List.length_map, List.length_range]
  exact arrayCap_le memory ptr

/-- The objects that an array object holds pointers to. -/
def objectsAt (memory : Bytes) (scalars : List Scalar) (ptr : Nat) :
    { l : List (Tuple Scalar.Carrier scalars) // l.length ≤ maxLen } where
  val := (List.range (arrayCap memory ptr)).map fun i =>
    objectAt memory scalars (elemPtr memory ptr i)
  property := objects_length memory ptr _

/-- An array object, its slots and its elements of a width lie within the memory. -/
structure ArrayStored (memory : Bytes) (ptr width : Nat) : Prop where
  header : ptr + 16 ≤ memory.length
  slots : ∀ i < arrayCap memory ptr, arrayData memory ptr + i * 4 + 4 ≤ memory.length
  elements : ∀ i < arrayCap memory ptr, elemPtr memory ptr i + width ≤ memory.length

/-- The turn over a field appends bytes that decode to all the objects of the array. -/
def Serialised (register : SelectorRegistry) (memory : Bytes) (outputOffset : Nat)
    (cursor : Cursor) (field : Param) (scalars : List Scalar) : Prop :=
  ∃ bytes, readField register memory outputOffset cursor field = .ok (cursor.advance 4 bytes) ∧
    (classCodec scalars).items.decode bytes = some (objectsAt memory scalars
      (wordAt memory (outputOffset + cursor.offsetVal)).toNat, [])

/-- A class with one field of four bytes. -/
def SingleWord (scalars : List Scalar) : Prop := ∃ s, scalars = [s] ∧ s.width = 4

/-- No pointer of the array is null, and it is empty or its class has one field of four bytes. -/
structure Complete (memory : Bytes) (ptr : Nat) (scalars : List Scalar) : Prop where
  data : arrayData memory ptr ≠ 0
  elements : ∀ i < arrayCap memory ptr, elemPtr memory ptr i ≠ 0
  fields : arrayCap memory ptr = 0 ∨ SingleWord scalars

section Serialised

variable {register : SelectorRegistry} {memory : Bytes} {outputOffset ptr : Nat} {cursor : Cursor}
  {field : Param} {scalars : List Scalar} {values : List UInt32}

theorem singleWord_iff : SingleWord scalars ↔ size Scalar.width scalars = 4 := by
  constructor
  · rintro ⟨s, rfl, hwidth⟩
    exact hwidth
  · intro h
    have hwide (s : Scalar) : s.width = 4 ∨ s.width = 8 := by
      cases s <;> decide
    cases scalars with
    | nil => contradiction
    | cons s scalars =>
      rw [size] at h
      cases scalars with
      | nil =>
        refine ⟨s, rfl, ?_⟩
        rw [size] at h
        omega
      | cons s' scalars =>
        rw [size] at h
        have hfirst := hwide s
        have hsecond := hwide s'
        omega

/-- Bytes of words decode to objects only when there are as many, and each has the size of a
word. -/
theorem items_words {objects : { l : List (Tuple Scalar.Carrier scalars) // l.length ≤ maxLen }}
    (hlength : values.length ≤ maxLen)
    (h : (classCodec scalars).items.decode (f32.encodeItems values) = some (objects, [])) :
    objects.val.length = values.length ∧
      values.length * size Scalar.width scalars = values.length * 4 := by
  have hsmall : values.length < 2 ^ 32 := by
    simp only [maxLen] at hlength
    omega
  have hitems := Codec.items_decode hsmall h
  have hwords := Codec.Sized.u32.decodeItems (f32.decodeItems_encode values [])
  have hsized := (sized_tuple Scalar.width Scalar.sized scalars).decodeItems hitems
  rw [List.append_nil, List.length_nil] at hwords
  rw [List.length_nil] at hsized
  exact ⟨hsized.1, by omega⟩

/-- A float and an integer of four bytes have the same encoding. -/
theorem encode_objectAt (hsingle : SingleWord scalars) (memory : Bytes) (place : Nat) :
    (classCodec scalars).encode (objectAt memory scalars place) =
      f32.encode (wordAt memory place) := by
  obtain ⟨s, rfl, hwidth⟩ := hsingle
  cases s with
  | i32 =>
    show u32.encode (wordAt memory place).toInt32.toUInt32 ++ [] = _
    rw [UInt32.toUInt32_toInt32, List.append_nil]
  | f32 => exact List.append_nil _
  | i64 => exact absurd hwidth (by decide)
  | f64 => exact absurd hwidth (by decide)

/-- The turn over an array of a registered class. -/
theorem readField_array {cls : Str} (htype : field.paramType = (FieldType.array cls).name)
    (hclass : cls ∈ register.classesSchema)
    (hplace : outputOffset + cursor.offsetVal + 4 ≤ memory.length) :
    readField register memory outputOffset cursor field = do
      let values ← readArray memory (wordAt memory (outputOffset + cursor.offsetVal)).toNat
      return cursor.advance 4 (f32.encodeItems values) := by
  have hkind : FieldKind.of register field.paramType = .array := by
    rw [htype, kind_array (isPrefixOf_name cls), inner_name]
    exact if_pos hclass
  rw [readField_kind, hkind, readKind, if_neg (by decide)]
  have hread : read memory (outputOffset + cursor.offsetVal) FieldKind.array.width = _ :=
    read_of_le hplace
  rw [hread, ok_bind, fieldBytes, bind_assoc]
  rfl

theorem loadedArray_length (memory : Bytes) (ptr : Nat) :
    (loadedArray memory ptr).length ≤ maxLen := by
  have hle := List.length_filterMap_le (elemAt memory ptr) (List.range (arrayCap memory ptr))
  rw [List.length_range] at hle
  exact hle.trans (arrayCap_le memory ptr)

/-- When no element is missing no pointer is null. -/
theorem elemPtr_ne_zero (h : (loadedArray memory ptr).length = arrayCap memory ptr) :
    ∀ i < arrayCap memory ptr, elemPtr memory ptr i ≠ 0 := by
  have hlength : (loadedArray memory ptr).length = (List.range (arrayCap memory ptr)).length := by
    rw [h, List.length_range]
  intro i hi hnull
  have hsome := List.filterMap_length_eq_length.mp hlength i (List.mem_range.mpr hi)
  rw [elemAt, if_pos hnull] at hsome
  contradiction

/-- An array all of whose objects are read is written as the vector of the objects. -/
theorem encodeItems_objectsAt (h : Complete memory ptr scalars) :
    f32.encodeItems (arrayAt memory ptr).val =
      (classCodec scalars).encodeItems (objectsAt memory scalars ptr).val := by
  have hlengths : (arrayAt memory ptr).val.length = (objectsAt memory scalars ptr).val.length := by
    simp [arrayAt, objectsAt]
  rw [Codec.encodeItems, Codec.encodeItems, hlengths, arrayAt, objectsAt]
  simp only [List.flatMap_map]
  rcases h.fields with hempty | hsingle
  · rw [hempty]
    rfl
  · simp only [encode_objectAt hsingle]

theorem Complete.readable (h : Complete memory ptr scalars)
    (hstored : ArrayStored memory ptr (size Scalar.width scalars)) : ArrayReadable memory ptr where
  header := hstored.header
  data := h.data
  slots := hstored.slots
  elements := h.elements
  floats i hi := by
    have hfields := h.fields.resolve_left (by omega)
    rw [← singleWord_iff.mp hfields]
    exact hstored.elements i hi

section Field

variable {cls : Str} {fields : ClassFields} (htype : field.paramType = (FieldType.array cls).name)
  (hclass : register.classesSchema.lookup cls = some fields.params)
  (hplace : outputOffset + cursor.offsetVal + 4 ≤ memory.length)

include htype hclass hplace

theorem Serialised.complete
    (h : Serialised register memory outputOffset cursor field fields.scalars) :
    Complete memory (wordAt memory (outputOffset + cursor.offsetVal)).toNat fields.scalars := by
  obtain ⟨bytes, hturn, hdecode⟩ := h
  rw [readField_array htype (Finmap.mem_of_lookup_eq_some hclass) hplace] at hturn
  generalize (wordAt memory (outputOffset + cursor.offsetVal)).toNat = ptr at hturn hdecode ⊢
  obtain ⟨values, hvalues, hbytes⟩ := bind_eq_ok hturn
  obtain ⟨hloads, rfl⟩ := readArray_iff.mp hvalues
  have hencoded : f32.encodeItems (loadedArray memory ptr) = bytes :=
    List.append_cancel_left (congrArg Cursor.bytesResult (Except.ok.inj hbytes))
  rw [← hencoded] at hdecode
  obtain ⟨hlength, hsize⟩ := items_words (loadedArray_length memory ptr) hdecode
  have hcap : (loadedArray memory ptr).length = arrayCap memory ptr := by
    rw [← hlength]
    simp [objectsAt]
  refine ⟨hloads.data, elemPtr_ne_zero hcap, ?_⟩
  rw [hcap] at hsize
  rcases Nat.eq_zero_or_pos (arrayCap memory ptr) with hempty | hpos
  · exact .inl hempty
  · exact .inr (singleWord_iff.mpr (Nat.eq_of_mul_eq_mul_left hpos hsize))

/-- For an array of objects of a class of numbers that lies within the memory: the bytes that are
appended for it decode to all its objects, with all their fields, exactly when no pointer is null
and it is empty or its class has one field of four bytes. -/
theorem serialised_iff
    (hstored : ArrayStored memory (wordAt memory (outputOffset + cursor.offsetVal)).toNat
      (size Scalar.width fields.scalars)) :
    Serialised register memory outputOffset cursor field fields.scalars ↔
      Complete memory (wordAt memory (outputOffset + cursor.offsetVal)).toNat fields.scalars := by
  refine ⟨Serialised.complete htype hclass hplace, fun hcomplete => ?_⟩
  unfold Serialised
  rw [readField_array htype (Finmap.mem_of_lookup_eq_some hclass) hplace,
    readArray_eq (hcomplete.readable hstored), ok_bind, encodeItems_objectsAt hcomplete]
  exact ⟨_, rfl, (classCodec fields.scalars).items.decode_encode_self _⟩

end Field

end Serialised

/-- The field of a script whose output is an array of objects of class C. -/
def sampleArrayField : Param := ⟨['v'], (FieldType.array ['C']).name⟩

theorem serialised_iff_sample :
    Serialised sampleRegister sampleMemory 8 ⟨0, []⟩ sampleArrayField [.f32] := by
  have hclass : sampleRegister.classesSchema.lookup ['C'] =
      some (ClassFields.params [(['u'], .f32)]) := by decide
  have hptr : (wordAt sampleMemory (8 + Cursor.offsetVal ⟨0, []⟩)).toNat = 40 := by decide
  have hcap : arrayCap sampleMemory 40 = 2 := by decide +kernel
  have hstored : ArrayStored sampleMemory (wordAt sampleMemory (8 + Cursor.offsetVal ⟨0, []⟩)).toNat
      (size Scalar.width (ClassFields.scalars [(['u'], .f32)])) := by
    rw [hptr]
    refine ⟨by decide +kernel, ?_, ?_⟩
    · rw [hcap]
      decide +kernel
    · rw [hcap]
      decide +kernel
  apply (serialised_iff rfl hclass (by decide +kernel) hstored).mpr
  rw [hptr]
  refine ⟨by decide +kernel, ?_, .inr ⟨.f32, rfl, rfl⟩⟩
  rw [hcap]
  decide +kernel

/-- A register in which C has two fields. -/
def pairRegister : SelectorRegistry where
  classesSchema := (∅ : Finmap fun _ : Str => List Param).insert ['C']
    (ClassFields.params [(['u'], .f32), (['w'], .f32)])

/-- An array object at 4 with one element, whose pointer is null. -/
def nullMemory : Bytes :=
  [4, 0, 0, 0,  0, 0, 0, 0,  20, 0, 0, 0,  4, 0, 0, 0,  1, 0, 0, 0,  0, 0, 0, 0]

/-- Of objects with two fields only the first fields are written, and an object behind a null
pointer is left out, although all of them can be read. -/
theorem array_incomplete :
    ArrayStored sampleMemory 40 (size Scalar.width [.f32, .f32]) ∧
      ¬ Serialised pairRegister sampleMemory 8 ⟨0, []⟩ sampleArrayField [.f32, .f32] ∧
      ArrayStored nullMemory 4 (size Scalar.width [.f32]) ∧
      ¬ Serialised sampleRegister nullMemory 0 ⟨0, []⟩ sampleArrayField [.f32] := by
  have hpair : pairRegister.classesSchema.lookup ['C'] =
      some (ClassFields.params [(['u'], .f32), (['w'], .f32)]) := by decide
  have hsample : sampleRegister.classesSchema.lookup ['C'] =
      some (ClassFields.params [(['u'], .f32)]) := by decide
  have hptr : (wordAt sampleMemory (8 + Cursor.offsetVal ⟨0, []⟩)).toNat = 40 := by decide
  have hcap : arrayCap sampleMemory 40 = 2 := by decide +kernel
  refine ⟨⟨by decide +kernel, ?_, ?_⟩, ?_, ⟨by decide +kernel, ?_, ?_⟩, ?_⟩
  · rw [hcap]
    decide +kernel
  · rw [hcap]
    decide +kernel
  · intro h
    have hcomplete := Serialised.complete rfl hpair (by decide +kernel) h
    rw [hptr] at hcomplete
    rcases hcomplete.fields with hempty | ⟨s, hs, -⟩
    · rw [hcap] at hempty
      contradiction
    · simp [ClassFields.scalars] at hs
  · decide +kernel
  · decide +kernel
  · intro h
    have hcomplete := Serialised.complete rfl hsample (by decide +kernel) h
    exact hcomplete.elements 0 (by decide +kernel) (by decide +kernel)

end PolkadotOracle.Executor
