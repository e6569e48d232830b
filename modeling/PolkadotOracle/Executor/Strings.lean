import PolkadotOracle.Executor.Host

/-! The two readers of UTF-16 strings: `readUtf16String`, which reads as many bytes as the bound
allows and decodes the units before a null unit, and the loop over the URL of the API, which turns
each unit into a character. -/

namespace PolkadotOracle.Executor

open Exec Scale Text

/-! ### Strings in memory -/

/-- The units of a text without null characters lie at a pointer, and a null unit after them. -/
structure TerminatedAt (memory : Bytes) (ptr : Nat) (s : Str) : Prop where
  nonzero : 0 ∉ encodeUtf16 s
  units : UnitsAt memory ptr (encodeUtf16 s ++ [0])

/-- The units of a text without null characters lie at a pointer and are as many as the bound. -/
structure FilledAt (memory : Bytes) (ptr maxLen : Nat) (s : Str) : Prop where
  nonzero : 0 ∉ encodeUtf16 s
  full : (encodeUtf16 s).length = maxLen
  units : UnitsAt memory ptr (encodeUtf16 s)

/-- A text of at most as many units as the bound lies at a pointer. -/
def StringAt (memory : Bytes) (ptr maxLen : Nat) (s : Str) : Prop :=
  (encodeUtf16 s).length < maxLen ∧ TerminatedAt memory ptr s ∨ FilledAt memory ptr maxLen s

/-- What is read from the pointer on, past the null unit, has the units of the text before it. -/
theorem TerminatedAt.takeWhile {memory : Bytes} {ptr : Nat} {s : Str}
    (h : TerminatedAt memory ptr s) (len : Nat) (hlen : 2 * ((encodeUtf16 s).length + 1) ≤ len) :
    (utf16Units ((memory.drop ptr).take len)).takeWhile (· != 0) = encodeUtf16 s := by
  have hunits : 2 * (encodeUtf16 s ++ [0]).length ≤ len := by
    rw [List.length_append, List.length_singleton]
    exact hlen
  obtain ⟨rest, hrest⟩ := h.units.append hunits
  rw [hrest, List.append_assoc, takeWhile_nonzero h.nonzero, List.singleton_append,
    List.takeWhile_cons_of_neg (by decide), List.append_nil]

theorem FilledAt.takeWhile {memory : Bytes} {ptr maxLen : Nat} {s : Str}
    (h : FilledAt memory ptr maxLen s) :
    (utf16Units ((memory.drop ptr).take (2 * maxLen))).takeWhile (· != 0) = encodeUtf16 s := by
  have hunits := h.units.units
  have hwhole := takeWhile_nonzero h.nonzero []
  rw [h.full] at hunits
  rw [List.append_nil, List.takeWhile_nil, List.append_nil] at hwhole
  rw [hunits, hwhole]

theorem page_room {bs : Bytes} (h : bs.length ≤ pageSize) : 0 + 2048 ≤ (page bs).length := by
  rw [page_length h, pageSize]
  omega

theorem page_unitsAt {bs : Bytes} {us : List UInt16} (hlen : bs.length = 2 * us.length)
    (hunits : utf16Units bs = us) : UnitsAt (page bs) 0 us := by
  constructor
  · rw [page, List.length_append]
    omega
  · rw [take_drop_page (by omega), ← hlen, List.drop_zero, List.take_length, hunits]

/-! ### The read of a fixed size -/

/-- The read gives the text when as many bytes as the bound allows are within the memory. -/
theorem readUtf16String_of_le {memory : Bytes} {ptr maxLen : Nat} {s : Str}
    (h : StringAt memory ptr maxLen s) (hroom : ptr + 2 * maxLen ≤ memory.length) :
    readUtf16String memory ptr maxLen = .ok s := by
  have hunits : (utf16Units ((memory.drop ptr).take (2 * maxLen))).takeWhile (· != 0) =
      encodeUtf16 s := by
    rcases h with ⟨hlen, hterminated⟩ | hfilled
    · exact hterminated.takeWhile _ (by omega)
    · exact hfilled.takeWhile
  rw [readUtf16String, Nat.mul_comm maxLen 2, read_of_le hroom]
  simp only [ok_bind, hunits, decodeUtf16_encodeUtf16]

/-- The read of a text that lies in memory gives the text exactly when twice the bound is within the
memory from the pointer on, wherever the text ends. -/
theorem readUtf16String_eq_iff {memory : Bytes} {ptr maxLen : Nat} {s : Str}
    (h : StringAt memory ptr maxLen s) :
    readUtf16String memory ptr maxLen = .ok s ↔ ptr + 2 * maxLen ≤ memory.length := by
  constructor
  · intro hread
    obtain ⟨rawBytes, hraw, -⟩ := bind_eq_ok hread
    have hroom := (read_eq_ok.mp hraw).1
    omega
  · exact readUtf16String_of_le h

theorem readUtf16String_eq_iff_sample :
    readUtf16String (page [104, 0, 0, 0]) 0 1024 = .ok ['h'] :=
  (readUtf16String_eq_iff (Or.inl ⟨by decide, by decide, page_unitsAt (by decide) rfl⟩)).mpr
    (page_room (by decide))

/-- A page that ends with a text and its null unit. -/
def sampleLast : Bytes := endOfPage [104, 0, 105, 0, 0, 0]

/-- A text and its null unit at the end of the memory cannot be read, and a field that points to it
is taken to be empty. -/
theorem end_of_memory_unread :
    StringAt sampleLast 65530 1024 ['h', 'i'] ∧
      readUtf16String sampleLast 65530 1024 = .error .memoryAccess ∧
      fieldBytes sampleLast [250, 255, 0, 0] .string = .ok (encodeBytes []) := by
  have hlength : sampleLast.length = 65536 := endOfPage_length (by decide)
  have hdrop : sampleLast.drop 65530 = [104, 0, 105, 0, 0, 0] :=
    drop_endOfPage [104, 0, 105, 0, 0, 0]
  have hunits : UnitsAt sampleLast 65530 (encodeUtf16 ['h', 'i'] ++ [0]) := by
    constructor
    · rw [hlength]
      decide
    · rw [hdrop]
      decide
  have hread : readUtf16String sampleLast 65530 1024 = .error .memoryAccess := by
    rw [readUtf16String, read_of_not_le (by omega)]
    rfl
  refine ⟨Or.inl ⟨by decide, by decide, hunits⟩, hread, ?_⟩
  have hptr : (u32FromLeBytes [250, 255, 0, 0]).toNat = 65530 := by decide
  rw [fieldBytes, hptr, hread]
  rfl

/-! ### The loop over the URL -/

theorem unit_eq_zero {lowByte highByte : UInt8} :
    UInt16.ofNat (leNat [lowByte, highByte]) = 0 ↔ lowByte = 0 ∧ highByte = 0 := by
  have hlow := lowByte.toNat_lt
  have hhigh := highByte.toNat_lt
  rw [← UInt16.toNat_inj, UInt16.toNat_ofNat', ← UInt8.toNat_inj, ← UInt8.toNat_inj]
  simp [leNat]
  omega

theorem urlChars_eq (bs : Bytes) :
    urlChars bs = ((utf16Units bs).takeWhile (· != 0)).map charFromU32 := by
  fun_induction urlChars bs with
  | case1 lowByte highByte rest hzero =>
    have hunit := unit_eq_zero.mpr hzero
    rw [utf16Units, hunit, List.takeWhile_cons_of_neg (by decide), List.map_nil]
  | case2 lowByte highByte rest hnonzero ih =>
    have hunit : UInt16.ofNat (leNat [lowByte, highByte]) ≠ 0 := unit_eq_zero.not.mpr hnonzero
    rw [utf16Units, List.takeWhile_cons_of_pos (by simpa using hunit), List.map_cons, ih]
  | case3 bs hshort =>
    rw [utf16Units]
    · rfl
    · exact hshort

/-- The loop converts a text unit by unit. -/
theorem urlChars_of_terminatedAt {memory : Bytes} {ptr : Nat} {s : Str}
    (h : TerminatedAt memory ptr s) :
    urlChars (memory.drop ptr) = (encodeUtf16 s).map charFromU32 := by
  have hinside := h.units.inside
  rw [List.length_append, List.length_singleton] at hinside
  have hunits := h.takeWhile (memory.drop ptr).length (by rw [List.length_drop]; omega)
  rw [List.take_length] at hunits
  rw [urlChars_eq, hunits]

theorem charFromU32_single {c : Char} (h : c.toNat < 0x10000) :
    charFromU32 (UInt16.ofNat c.toNat) = c := by
  rw [charFromU32, toNat_single h]
  exact (if_pos c.valid).trans (Char.ofNat_toNat c)

theorem map_charFromU32 {s : Str} (h : ∀ c ∈ s, c.toNat < 0x10000) :
    (encodeUtf16 s).map charFromU32 = s := by
  induction s with
  | nil => rfl
  | cons c s ih =>
    rw [List.forall_mem_cons] at h
    rw [encodeUtf16_cons, charUnits, if_pos h.1, List.map_append, ih h.2, List.map_singleton,
      charFromU32_single h.1, List.singleton_append]

/-- Both readers give the same for a text at a pointer exactly when no character of it takes a pair
of surrogates. -/
theorem readers_agree_iff {memory : Bytes} {ptr : Nat} {s : Str} (h : TerminatedAt memory ptr s)
    (hlen : (encodeUtf16 s).length < 1024) (hroom : ptr + 2048 ≤ memory.length) :
    readUtf16String memory ptr 1024 = .ok (urlChars (memory.drop ptr)) ↔
      ∀ c ∈ s, c.toNat < 0x10000 := by
  rw [readUtf16String_of_le (Or.inl ⟨hlen, h⟩) hroom, Except.ok.injEq, urlChars_of_terminatedAt h]
  constructor
  · intro hchars
    have hlength := congrArg List.length hchars
    rw [List.length_map] at hlength
    exact encodeUtf16_length_eq_iff.mp hlength.symm
  · intro hsmall
    exact (map_charFromU32 hsmall).symm

theorem readers_agree_iff_sample :
    readUtf16String (page [104, 0, 0, 0]) 0 1024 =
      .ok (urlChars ((page [104, 0, 0, 0]).drop 0)) :=
  (readers_agree_iff (s := ['h']) ⟨by decide, page_unitsAt (by decide) rfl⟩ (by decide)
    (page_room (by decide))).mpr (List.forall_mem_singleton.mpr (by decide))

/-- The loop gives two question marks for a character that takes a pair of surrogates. -/
theorem pair_replaced :
    TerminatedAt (page [0x3D, 0xD8, 0, 0xDE, 0, 0]) 0 ['😀'] ∧
      readUtf16String (page [0x3D, 0xD8, 0, 0xDE, 0, 0]) 0 1024 = .ok ['😀'] ∧
      readUrl (page [0x3D, 0xD8, 0, 0xDE, 0, 0]) 0 = .ok ['?', '?'] := by
  have hterminated : TerminatedAt (page [0x3D, 0xD8, 0, 0xDE, 0, 0]) 0 ['😀'] :=
    ⟨by decide, page_unitsAt (by decide) (by decide)⟩
  have hroom : 0 + 2048 ≤ (page [0x3D, 0xD8, 0, 0xDE, 0, 0]).length := page_room (by decide)
  refine ⟨hterminated, readUtf16String_of_le (Or.inl ⟨by decide, hterminated⟩) hroom, ?_⟩
  rw [readUrl_eq_ok (by omega)]
  exact ⟨by decide, urlChars_of_terminatedAt hterminated⟩

end PolkadotOracle.Executor
