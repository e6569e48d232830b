import PolkadotOracle.Executor.Fields

/-! The places at which the fields of an output class are read.  Every field moves the cursor by the
width of its type, except for an array whose class is not registered, which is passed over. -/

namespace PolkadotOracle.Executor

open Exec Scale Layout

/-- The width of a field: eight bytes for the wide numbers, and four for the others and for the
pointers that represent all other types. -/
def slotWidth (params : Param) : Nat :=
  if params.paramType = ['i', '6', '4'] ∨ params.paramType = ['f', '6', '4'] then 8 else 4

/-- The type begins like that of an array, and is not that of an array of a registered class. -/
def Unregistered (register : SelectorRegistry) (typ : Str) : Prop :=
  arrayPrefix.isPrefixOf typ = true ∧
    ∀ inner ∈ register.classesSchema, typ ≠ arrayPrefix ++ inner ++ ['>']

/-! ### The kinds of types -/

section Kinds

variable {register : SelectorRegistry} {typ : Str}

theorem inner_eq_some {inner : Str} :
    (stripPrefix arrayPrefix typ).bind (stripSuffix '>') = some inner ↔
      typ = arrayPrefix ++ inner ++ ['>'] := by
  constructor
  · intro h
    obtain ⟨rest, hrest, hinner⟩ := Option.bind_eq_some_iff.mp h
    unfold stripPrefix at hrest
    unfold stripSuffix at hinner
    by_cases hprefix : arrayPrefix.isPrefixOf typ = true
    case neg =>
      rw [if_neg hprefix] at hrest
      contradiction
    by_cases hlast : rest.getLast? = some '>'
    case neg =>
      rw [if_neg hlast] at hinner
      contradiction
    rw [if_pos hprefix] at hrest
    rw [if_pos hlast] at hinner
    obtain ⟨rest', rfl⟩ := List.isPrefixOf_iff_prefix.mp hprefix
    obtain rfl : rest' = rest := by simpa using hrest
    rw [← Option.some.inj hinner, List.append_assoc, List.dropLast_append_getLast? '>' hlast]
  · rintro rfl
    rw [List.append_assoc, stripPrefix_append, Option.bind_some, stripSuffix_append]

/-- A type that begins like an array's is none of the other types. -/
theorem kind_array (h : arrayPrefix.isPrefixOf typ = true) :
    FieldKind.of register typ =
      FieldKind.ofInner register ((stripPrefix arrayPrefix typ).bind (stripSuffix '>')) := by
  have hother (name : Str) (hname : arrayPrefix.isPrefixOf name = false) : typ ≠ name := by
    rintro rfl
    rw [h] at hname
    contradiction
  unfold FieldKind.of
  rw [if_neg (hother _ (by decide)), if_neg (hother _ (by decide)), if_neg (hother _ (by decide)),
    if_neg (hother _ (by decide)), if_pos h]

variable (register typ) in
/-- Numbers have their own kinds, and everything else is an array, a string or of no kind. -/
theorem kind_cases :
    (typ = ['i', '3', '2'] ∧ FieldKind.of register typ = .i32) ∨
    (typ = ['f', '3', '2'] ∧ FieldKind.of register typ = .f32) ∨
    (typ = ['i', '6', '4'] ∧ FieldKind.of register typ = .i64) ∨
    (typ = ['f', '6', '4'] ∧ FieldKind.of register typ = .f64) ∨
    (typ ≠ ['f', '3', '2'] ∧ typ ≠ ['i', '6', '4'] ∧ typ ≠ ['f', '6', '4'] ∧
      (FieldKind.of register typ = .skipped ∨ (FieldKind.of register typ).width = 4)) := by
  unfold FieldKind.of
  by_cases hi32 : typ = ['i', '3', '2']
  · exact .inl ⟨hi32, if_pos hi32⟩
  rw [if_neg hi32]
  by_cases hf32 : typ = ['f', '3', '2']
  · exact .inr (.inl ⟨hf32, if_pos hf32⟩)
  rw [if_neg hf32]
  by_cases hi64 : typ = ['i', '6', '4']
  · exact .inr (.inr (.inl ⟨hi64, if_pos hi64⟩))
  rw [if_neg hi64]
  by_cases hf64 : typ = ['f', '6', '4']
  · exact .inr (.inr (.inr (.inl ⟨hf64, if_pos hf64⟩)))
  rw [if_neg hf64]
  refine .inr (.inr (.inr (.inr ⟨hf32, hi64, hf64, ?_⟩)))
  by_cases harray : arrayPrefix.isPrefixOf typ = true
  · rw [if_pos harray]
    cases (stripPrefix arrayPrefix typ).bind (stripSuffix '>') with
    | none => exact .inl rfl
    | some inner =>
      rw [FieldKind.ofInner]
      by_cases hinner : inner ∈ register.classesSchema
      · exact .inr (by rw [if_pos hinner]; rfl)
      · exact .inl (if_neg hinner)
  rw [if_neg harray]
  by_cases hstring : typ = ['s', 't', 'r', 'i', 'n', 'g']
  · exact .inr (by rw [if_pos hstring]; rfl)
  · exact .inr (by rw [if_neg hstring]; rfl)

theorem kind_skipped_iff : FieldKind.of register typ = .skipped ↔ Unregistered register typ := by
  by_cases harray : arrayPrefix.isPrefixOf typ = true
  case neg =>
    refine iff_of_false (fun h => ?_) fun h => harray h.1
    unfold FieldKind.of at h
    rw [if_neg harray] at h
    split_ifs at h
  rw [kind_array harray]
  cases hinner : (stripPrefix arrayPrefix typ).bind (stripSuffix '>') with
  | none =>
    refine iff_of_true rfl ⟨harray, fun inner _ htyp => ?_⟩
    rw [inner_eq_some.mpr htyp] at hinner
    contradiction
  | some inner =>
    rw [FieldKind.ofInner]
    have htyp := inner_eq_some.mp hinner
    by_cases hmem : inner ∈ register.classesSchema
    · rw [if_pos hmem]
      exact iff_of_false (by decide) fun h => h.2 inner hmem htyp
    · rw [if_neg hmem]
      refine iff_of_true rfl ⟨harray, fun inner' hmem' htyp' => ?_⟩
      obtain rfl := Option.some.inj (hinner.symm.trans (inner_eq_some.mpr htyp'))
      exact hmem hmem'

/-- The kind of a field moves the cursor by the width of its type, or not at all. -/
theorem width_kind {params : Param} (h : ¬Unregistered register params.paramType) :
    (FieldKind.of register params.paramType).width = slotWidth params := by
  rw [← kind_skipped_iff] at h
  unfold slotWidth
  rcases kind_cases register params.paramType with ⟨htyp, hkind⟩ | ⟨htyp, hkind⟩ |
    ⟨htyp, hkind⟩ | ⟨htyp, hkind⟩ | ⟨-, hi64, hf64, hkind⟩
  · rw [hkind, htyp]
    rfl
  · rw [hkind, htyp]
    rfl
  · rw [hkind, htyp]
    rfl
  · rw [hkind, htyp]
    rfl
  · rw [hkind.resolve_left h, if_neg (not_or.mpr ⟨hi64, hf64⟩)]

end Kinds

/-! ### Every field at its place -/

/-- A turn of the loop reads its field where the cursor stands: it loads the field's slot there,
makes bytes of what it finds, and moves on by the slot's width. -/
def ReadsSlot (register : SelectorRegistry) (params : Param) : Prop :=
  ∃ bytesOf : Bytes → Bytes → Except RunnerError Bytes,
    ∀ (memory : Bytes) (outputOffset : Nat) (cursor : Cursor),
      readField register memory outputOffset cursor params = do
        let result ← read memory (outputOffset + cursor.offsetVal) (slotWidth params)
        let encoded ← bytesOf memory result
        return cursor.advance (slotWidth params) encoded

/-- Every field is read, and where the loop comes to a field the cursor has moved by the widths of
those before it. -/
structure ReadInPlace (register : SelectorRegistry) (fields : List Param) : Prop where
  places : ∀ (memory : Bytes) (outputOffset k : Nat) (cursor : Cursor),
    (fields.take k).foldlM (readField register memory outputOffset) ⟨0, []⟩ = .ok cursor →
    cursor.offsetVal = size slotWidth (fields.take k)
  reads : ∀ params ∈ fields, ReadsSlot register params

theorem readsSlot_iff (register : SelectorRegistry) (params : Param) :
    ReadsSlot register params ↔ ¬Unregistered register params.paramType := by
  constructor
  · rintro ⟨bytesOf, hreads⟩ hskipped
    have hturn := hreads [] 0 ⟨0, []⟩
    -- The turn succeeds on an empty memory, where nothing can be read.
    rw [readField_kind, kind_skipped_iff.mpr hskipped, readKind, if_pos rfl, read,
      if_neg (by rw [slotWidth]; split_ifs <;> decide)] at hturn
    contradiction
  · intro hregistered
    refine ⟨fun memory result => fieldBytes memory result (FieldKind.of register params.paramType),
      fun memory outputOffset cursor => ?_⟩
    rw [readField_kind, readKind, if_neg (kind_skipped_iff.not.mpr hregistered),
      width_kind hregistered]

/-- The cursor after some fields that are all read. -/
theorem offsetVal_foldlM {register : SelectorRegistry} {memory : Bytes} {outputOffset : Nat}
    {fields : List Param} {cursor cursor' : Cursor}
    (h : fields.foldlM (readField register memory outputOffset) cursor = .ok cursor') :
    cursor'.offsetVal = cursor.offsetVal + size (advanceOf register) fields := by
  have hplace := (readField_walks register memory outputOffset).place_foldlM h
  omega

/-- Every field of an output class is read at its own place exactly when none of them is an array of
a class that is not registered. -/
theorem readInPlace_iff (register : SelectorRegistry) (fields : List Param) :
    ReadInPlace register fields ↔
      ∀ params ∈ fields, ¬Unregistered register params.paramType := by
  constructor
  · intro h params hparams
    exact (readsSlot_iff register params).mp (h.reads params hparams)
  · intro h
    refine ⟨fun memory outputOffset k cursor hrun => ?_,
      fun params hparams => (readsSlot_iff register params).mpr (h params hparams)⟩
    rw [offsetVal_foldlM hrun, Nat.zero_add]
    exact size_congr fun params hparams => width_kind (h params (List.mem_of_mem_take hparams))

/-- An array of numbers before a number, and a registry with nothing but their class. -/
def sampleUnregistered : List Param :=
  [⟨['a'], arrayPrefix ++ ['f', '6', '4', '>']⟩, ⟨['n'], ['i', '3', '2']⟩]

def sampleOutputOnly : SelectorRegistry where
  classesSchema := (∅ : Finmap fun _ : Str => List Param).insert outputClass sampleUnregistered

/-- A turn of the loop over a page is one over its first bytes, when the field lies in them. -/
theorem readKind_page {bs : Bytes} {outputOffset : Nat} {cursor : Cursor} {kind : FieldKind}
    (harray : kind ≠ .array) (hstring : kind ≠ .string)
    (hinside : outputOffset + cursor.offsetVal + kind.width ≤ bs.length) :
    readKind (page bs) outputOffset cursor kind = readKind bs outputOffset cursor kind := by
  unfold readKind
  rw [read_page hinside]
  cases kind with
  | array => contradiction
  | string => contradiction
  | _ => rfl

/-- The array is passed over without moving the cursor, so the number behind it, a 5, is read as the
array's pointer. -/
theorem field_misread :
    wasmtimeRunner (.ok (page [64, 0, 0, 0, 5, 0, 0, 0], 0)) sampleOutputOnly =
      .ok [64, 0, 0, 0] ∧
    ¬ReadInPlace sampleOutputOnly sampleUnregistered := by
  have hturns : sampleUnregistered.foldlM
      (readField sampleOutputOnly (page [64, 0, 0, 0, 5, 0, 0, 0]) (asUsize 0)) ⟨0, []⟩ =
        .ok ⟨4, [64, 0, 0, 0]⟩ := by
    have hbase : asUsize 0 = 0 := by decide
    have hskipped : FieldKind.of sampleOutputOnly (arrayPrefix ++ ['f', '6', '4', '>']) =
        .skipped := by decide
    have hnumber : FieldKind.of sampleOutputOnly ['i', '3', '2'] = .i32 := by decide
    rw [hbase, sampleUnregistered, List.foldlM_cons, readField_kind, hskipped, readKind, if_pos rfl,
      ok_bind, List.foldlM_cons, readField_kind, hnumber,
      readKind_page (by decide) (by decide) (by decide)]
    rfl
  have houtput : sampleOutputOnly.classesSchema.lookup outputClass = some sampleUnregistered := by
    decide
  refine ⟨wasmtimeRunner_walk houtput hturns, fun h => ?_⟩
  refine (readsSlot_iff _ _).mp (h.reads _ List.mem_cons_self) ⟨by decide, fun inner hinner => ?_⟩
  obtain rfl : inner = outputClass := by
    simpa [sampleOutputOnly, Finmap.notMem_empty] using hinner
  decide

end PolkadotOracle.Executor
