import PolkadotOracle.Executor.Places

/-! The sizes that are computed for the fields of the output class, against how far the loop over
the fields moves for them. -/

namespace PolkadotOracle.Executor

open Exec Scale Layout

/-- The size that is computed for a type. -/
def fieldSize (typ : Str) : Int32 :=
  if typ = ['i', '3', '2'] then 4
  else if typ = ['i', '6', '4'] then 4
  else if typ = ['f', '3', '2'] then 8
  else if typ = ['f', '6', '4'] then 8
  else if arrayPrefix.isPrefixOf typ then 4
  else if typ = ['s', 't', 'r', 'i', 'n', 'g'] then 4
  else 4

/-- The fields of the output class, none when there is no such class. -/
def outputFields (register : SelectorRegistry) : List Param :=
  (register.classesSchema.lookup outputClass).getD []

/-- The sizes of the output's fields, and their sum, which wraps around.  The loop of the source
over the other classes does nothing. -/
def calOutputSize (register : SelectorRegistry) : List Int32 × Int32 :=
  (outputFields register).foldl
    (fun (vecOfSize, totalInputSize) field =>
      (vecOfSize ++ [fieldSize field.paramType], totalInputSize + fieldSize field.paramType))
    ([], 0)

theorem calOutputSize_eq (register : SelectorRegistry) :
    calOutputSize register =
      ((outputFields register).map fun field => fieldSize field.paramType,
        (outputFields register).foldl
          (fun total field => total + fieldSize field.paramType) 0) := by
  have hfold (fields : List Param) (sizes : List Int32) (total : Int32) :
      fields.foldl (fun (p : List Int32 × Int32) field =>
        (p.1 ++ [fieldSize field.paramType], p.2 + fieldSize field.paramType)) (sizes, total) =
      (sizes ++ fields.map fun field => fieldSize field.paramType,
        fields.foldl (fun total field => total + fieldSize field.paramType) total) := by
    induction fields generalizing sizes total with
    | nil => simp
    | cons field fields ih =>
      rw [List.foldl_cons, ih]
      simp
  exact hfold (outputFields register) [] 0

/-! ### A memory in which every output can be read -/

/-- Every word of a memory of ones is the same pointer. -/
theorem wordAt_replicate {n place : Nat} (h : place + 4 ≤ n) :
    (wordAt (List.replicate n 1) place).toNat = 16843009 := by
  rw [wordAt, List.drop_replicate, List.take_replicate, Nat.min_eq_left (by omega)]
  rfl

/-- In a long memory of ones every array object has its elements at its own place. -/
theorem arrayLoads_replicate {n : Nat} (h : 2 ^ 27 ≤ n) :
    ArrayLoads (List.replicate n 1) 16843009 := by
  have hdata : arrayData (List.replicate n 1) 16843009 = 16843009 := wordAt_replicate (by omega)
  have hcap : arrayCap (List.replicate n 1) 16843009 = 16843009 := wordAt_replicate (by omega)
  refine ⟨by rw [List.length_replicate]; omega, by omega, fun i hi => ?_⟩
  have hptr : elemPtr (List.replicate n 1) 16843009 i = 16843009 :=
    wordAt_replicate (by omega)
  rw [ElemLoads, hptr, hdata, List.length_replicate]
  omega

theorem exists_readable (register : SelectorRegistry) (fields : List Param) :
    ∃ memory cursor, fields.foldlM (readField register memory 0) ⟨0, []⟩ = .ok cursor := by
  refine ⟨List.replicate (size (advanceOf register) fields + 2 ^ 27) 1, ?_⟩
  refine ((readField_walks register _ 0).foldlM_iff fields ⟨0, []⟩).mpr fun k => ?_
  show KindReadable _ _ (offset (advanceOf register) fields 0 k)
  intro _
  have hend := offset_add_width_le (advanceOf register) fields 0 k
  have hwidth : (FieldKind.of register (fields.get k).paramType).width =
      advanceOf register (fields.get k) := rfl
  refine ⟨?_, fun harray => ?_⟩
  · rw [hwidth, List.length_replicate]
    omega
  · have hfour : advanceOf register (fields.get k) = 4 := by
      rw [← hwidth, harray]
      rfl
    rw [wordAt_replicate (by omega)]
    exact arrayLoads_replicate (by omega)

/-! ### Where the sizes agree -/

/-- A type whose size is the width that the loop moves by. -/
def Measured (register : SelectorRegistry) (typ : Str) : Prop :=
  typ ≠ ['i', '6', '4'] ∧ typ ≠ ['f', '3', '2'] ∧ ¬Unregistered register typ

theorem fieldSize_eq_iff (register : SelectorRegistry) (params : Param) :
    (fieldSize params.paramType).toInt = advanceOf register params ↔
      Measured register params.paramType := by
  unfold Measured advanceOf
  rw [← kind_skipped_iff]
  rcases kind_cases register params.paramType with ⟨htyp, hkind⟩ | ⟨htyp, hkind⟩ |
    ⟨htyp, hkind⟩ | ⟨htyp, hkind⟩ | ⟨hf32, hi64, hf64, hkind⟩
  · rw [hkind, htyp]
    decide
  · rw [hkind, htyp]
    decide
  · rw [hkind, htyp]
    decide
  · rw [hkind, htyp]
    decide
  · have hsize : fieldSize params.paramType = 4 := by
      unfold fieldSize
      split_ifs <;> rfl
    rw [hsize]
    rcases hkind with hkind | hkind
    · rw [hkind]
      simp [FieldKind.width]
    · have hskipped : FieldKind.of register params.paramType ≠ .skipped := by
        intro h
        rw [h] at hkind
        contradiction
      rw [hkind]
      exact iff_of_true rfl ⟨hi64, hf32, hskipped⟩

/-- The sum does not wrap around while it stays below `2 ^ 31`. -/
theorem foldl_fieldSize {register : SelectorRegistry} {fields : List Param}
    (h : ∀ params ∈ fields, Measured register params.paramType) (total : Int32)
    (hnonneg : 0 ≤ total.toInt)
    (hsum : total.toInt + size (advanceOf register) fields < 2 ^ 31) :
    (fields.foldl (fun total field => total + fieldSize field.paramType) total).toInt =
      total.toInt + size (advanceOf register) fields := by
  induction fields generalizing total with
  | nil => simp [size]
  | cons params fields ih =>
    have hsize := (fieldSize_eq_iff register params).mpr (h params List.mem_cons_self)
    rw [size] at hsum ⊢
    have hadd : (total + fieldSize params.paramType).toInt =
        total.toInt + advanceOf register params := by
      rw [Int32.toInt_add, hsize]
      exact Int.bmod_eq_of_le (by omega) (by omega)
    rw [List.foldl_cons, ih (fun p hp => h p (List.mem_cons_of_mem params hp)) _ (by omega)
      (by omega), hadd]
    push_cast
    omega

/-- The two computations agree on an output class: wherever the fields can be read, each is given
the size that the loop moves by, and so are all of them together. -/
structure SizesAgree (register : SelectorRegistry) : Prop where
  each : ∀ (memory : Bytes) (outputOffset k : Nat) (params : Param) (cursor cursor' : Cursor),
    (outputFields register)[k]? = some params →
    ((outputFields register).take k).foldlM (readField register memory outputOffset) ⟨0, []⟩ =
      .ok cursor →
    readField register memory outputOffset cursor params = .ok cursor' →
    ∃ size, (calOutputSize register).1[k]? = some size ∧
      (cursor'.offsetVal : Int) = cursor.offsetVal + size.toInt
  total : ∀ (memory : Bytes) (outputOffset : Nat) (cursor : Cursor),
    (outputFields register).foldlM (readField register memory outputOffset) ⟨0, []⟩ = .ok cursor →
    (calOutputSize register).2.toInt = cursor.offsetVal

theorem sizesAgree_of_measured {register : SelectorRegistry}
    (h : ∀ params ∈ outputFields register, Measured register params.paramType)
    (hsum : size (advanceOf register) (outputFields register) < 2 ^ 31) : SizesAgree register where
  each memory outputOffset k params cursor cursor' hk _ hturn := by
    have hsize := (fieldSize_eq_iff register params).mpr (h params (List.mem_of_getElem? hk))
    refine ⟨fieldSize params.paramType, by rw [calOutputSize_eq, List.getElem?_map, hk]; rfl, ?_⟩
    rw [readField_kind] at hturn
    rw [readKind_offsetVal hturn, hsize]
    push_cast
    rfl
  total memory outputOffset cursor hrun := by
    have hsum' : (0 : Int32).toInt + size (advanceOf register) (outputFields register) <
        2 ^ 31 := by
      simp only [Int32.toInt_zero]
      omega
    rw [calOutputSize_eq, offsetVal_foldlM hrun, foldl_fieldSize h 0 (by decide) hsum']
    simp

theorem SizesAgree.measured {register : SelectorRegistry} (h : SizesAgree register) :
    ∀ params ∈ outputFields register, Measured register params.paramType := by
  intro params hparams
  obtain ⟨k, hk⟩ := List.getElem?_of_mem hparams
  obtain ⟨memory, last, hrun⟩ := exists_readable register (outputFields register)
  -- The readable memory takes the loop to the field and past it.
  have hsplit : outputFields register = (outputFields register).take k ++
      params :: (outputFields register).drop (k + 1) := by
    obtain ⟨hlt, rfl⟩ := List.getElem?_eq_some_iff.mp hk
    rw [List.getElem_cons_drop, List.take_append_drop]
  rw [hsplit, List.foldlM_append] at hrun
  obtain ⟨cursor, hbefore, hrun⟩ := bind_eq_ok hrun
  rw [List.foldlM_cons] at hrun
  obtain ⟨cursor', hturn, -⟩ := bind_eq_ok hrun
  obtain ⟨size, hsize, hadvance⟩ := h.each memory 0 k params cursor cursor' hk hbefore hturn
  rw [calOutputSize_eq, List.getElem?_map, hk] at hsize
  obtain rfl := Option.some.inj hsize
  rw [readField_kind] at hturn
  rw [readKind_offsetVal hturn] at hadvance
  apply (fieldSize_eq_iff register params).mp
  simp only [advanceOf] at hadvance ⊢
  omega

/-- The two computations agree exactly when no field is a wide integer, a narrow float or an array
of a class that is not registered, and all fields together take less than `2 ^ 31` bytes. -/
theorem sizesAgree_iff (register : SelectorRegistry) :
    SizesAgree register ↔
      (∀ params ∈ outputFields register, Measured register params.paramType) ∧
      size slotWidth (outputFields register) < 2 ^ 31 := by
  have hwidths (hmeasured : ∀ params ∈ outputFields register,
      Measured register params.paramType) :
      size (advanceOf register) (outputFields register) =
        size slotWidth (outputFields register) :=
    size_congr fun params hparams => width_kind (hmeasured params hparams).2.2
  constructor
  · intro h
    refine ⟨h.measured, ?_⟩
    obtain ⟨memory, cursor, hrun⟩ := exists_readable register (outputFields register)
    have htotal := h.total memory 0 cursor hrun
    have hbound := (calOutputSize register).2.toInt_lt
    rw [offsetVal_foldlM hrun] at htotal
    rw [← hwidths h.measured]
    simp only at htotal
    omega
  · rintro ⟨hmeasured, hsum⟩
    exact sizesAgree_of_measured hmeasured (by rw [hwidths hmeasured]; exact hsum)

/-- A registry whose output is one wide integer. -/
def sampleWide : SelectorRegistry where
  classesSchema :=
    (∅ : Finmap fun _ : Str => List Param).insert outputClass [⟨['n'], ['i', '6', '4']⟩]

/-- A wide integer is given four bytes, and the loop moves by eight. -/
theorem size_differs : calOutputSize sampleWide = ([4], 4) ∧
    (outputFields sampleWide).foldlM (readField sampleWide (page (List.replicate 8 7)) 0) ⟨0, []⟩ =
      .ok ⟨8, List.replicate 8 7⟩ ∧
    ¬SizesAgree sampleWide := by
  have hfields : outputFields sampleWide = [⟨['n'], ['i', '6', '4']⟩] := by decide
  have hkind : FieldKind.of sampleWide ['i', '6', '4'] = .i64 := by decide
  refine ⟨by decide, ?_, fun h => ?_⟩
  · rw [hfields, List.foldlM_cons, readField_kind, hkind,
      readKind_page (by decide) (by decide) (by decide)]
    rfl
  exact (h.measured _ List.mem_cons_self).1 rfl

end PolkadotOracle.Executor
