import PolkadotOracle.Lib.Scale

/-! Text as UTF-8 and UTF-16: the SCALE codec of strings, and the decoding of UTF-16, which refuses
surrogates that are not in pairs. -/

namespace Text

open Scale

/-! ### UTF-8 -/

def utf8 (s : List Char) : Bytes := s.flatMap String.utf8EncodeChar

def utf8Decode (bs : Bytes) : Option (List Char) := bs.toByteArray.utf8Decode?.map Array.toList

theorem utf8Decode_utf8 (s : List Char) : utf8Decode (utf8 s) = some s := by
  have hbytes : (utf8 s).toByteArray = s.utf8Encode := rfl
  rw [utf8Decode, hbytes, List.utf8Decode?_utf8Encode]
  simp

theorem utf8Decode_isSome (bs : Bytes) :
    (utf8Decode bs).isSome = (ByteArray.mk bs.toArray).validateUTF8 := by
  have hbytes : bs.toByteArray = ByteArray.mk bs.toArray := by
    rw [ByteArray.ext_iff, List.data_toByteArray]
  rw [utf8Decode, Option.isSome_map, ByteArray.isSome_utf8Decode?_eq_validateUTF8, hbytes]

theorem utf8_injective : Function.Injective utf8 := by
  intro a b h
  have hdecode := utf8Decode_utf8 a
  rw [h, utf8Decode_utf8] at hdecode
  exact (Option.some.inj hdecode).symm

/-- The strings that have a compact length. -/
abbrev ScaleString := { s : List Char // (utf8 s).length ≤ maxLen }

def ScaleString.toVec (s : ScaleString) : Vec := .ofLe (utf8 s.val) s.property

def ScaleString.ofVec (v : Vec) : Option ScaleString := do
  let s ← utf8Decode v.val
  if h : (utf8 s).length ≤ maxLen then some ⟨s, h⟩ else none

theorem ScaleString.ofVec_toVec (s : ScaleString) : ofVec s.toVec = some s := by
  have hdecode : utf8Decode s.toVec.val = some s.val := utf8Decode_utf8 s.val
  simp [ofVec, hdecode, s.property]

/-- Bytes that are not UTF-8 are refused. -/
def string : Codec ScaleString :=
  vec.refine ScaleString.ofVec ScaleString.toVec ScaleString.ofVec_toVec

/-! ### UTF-16 -/

/-- The little-endian 16-bit units of some bytes; an odd byte at the end is dropped. -/
def utf16Units : Bytes → List UInt16
  | a :: b :: rest => UInt16.ofNat (leNat [a, b]) :: utf16Units rest
  | _ => []

def isLead (u : UInt16) : Bool := 0xD800 ≤ u && u < 0xDC00

def isTrail (u : UInt16) : Bool := 0xDC00 ≤ u && u < 0xE000

/-- The character of a unit that is no surrogate. -/
def unitChar (u : UInt16) : Char := Char.ofNat u.toNat

def pairChar (lead trail : UInt16) : Char :=
  Char.ofNat (0x10000 + (lead.toNat - 0xD800) * 0x400 + (trail.toNat - 0xDC00))

def decodeUtf16 : List UInt16 → Option (List Char)
  | [] => some []
  | [u] => if isLead u || isTrail u then none else some [unitChar u]
  | u :: v :: us =>
    if isLead u then
      if isTrail v then (decodeUtf16 us).map (pairChar u v :: ·) else none
    else if isTrail u then none
    else (decodeUtf16 (v :: us)).map (unitChar u :: ·)

theorem utf16Units_length (bs : Bytes) : 2 * (utf16Units bs).length ≤ bs.length := by
  fun_induction utf16Units bs with
  | case1 a b rest ih =>
    simp only [List.length_cons]
    omega
  | case2 => simp

theorem utf8Size_unitChar (u : UInt16) : (unitChar u).utf8Size ≤ 3 := by
  have hu := u.toNat_lt
  have hval : (unitChar u).toNat ≤ 0xFFFF := by
    unfold unitChar Char.ofNat
    by_cases hvalid : u.toNat.isValidChar
    · rw [dif_pos hvalid]
      show u.toNat ≤ 0xFFFF
      omega
    · rw [dif_neg hvalid]
      decide
  have hne : (unitChar u).utf8Size ≠ 4 := by
    intro h
    have hlt := Char.utf8Size_eq_four_iff.mp h
    rw [UInt32.lt_iff_toNat_lt] at hlt
    simp at hlt
    omega
  have hle := (unitChar u).utf8Size_le_four
  omega

theorem utf8_cons_length (c : Char) (s : List Char) :
    (utf8 (c :: s)).length = c.utf8Size + (utf8 s).length := by
  simp [utf8]

/-- A string of one-byte characters has as many bytes. -/
theorem utf8_length_of_ascii {s : List Char} (h : ∀ c ∈ s, c.utf8Size = 1) :
    (utf8 s).length = s.length := by
  induction s with
  | nil => rfl
  | cons c s ih =>
    rw [utf8_cons_length, h c List.mem_cons_self, ih fun c hc => h c (List.mem_cons_of_mem _ hc),
      List.length_cons, Nat.add_comm]

/-- A unit takes at most three bytes in UTF-8, and a pair of surrogates four. -/
theorem decodeUtf16_length {us : List UInt16} {s : List Char} (h : decodeUtf16 us = some s) :
    (utf8 s).length ≤ 3 * us.length := by
  induction us using decodeUtf16.induct generalizing s with
  | case1 =>
    obtain rfl := Option.some.inj h
    simp [utf8]
  | case2 u hsurrogate => simp [decodeUtf16, hsurrogate] at h
  | case3 u hunit =>
    simp only [decodeUtf16, hunit] at h
    obtain rfl := Option.some.inj h
    have hsize := utf8Size_unitChar u
    rw [utf8_cons_length]
    simp [utf8]
    omega
  | case4 u v us hlead htrail ih =>
    rw [decodeUtf16, if_pos hlead, if_pos htrail] at h
    obtain ⟨s', hs', rfl⟩ := Option.map_eq_some_iff.mp h
    have hrest := ih hs'
    have hsize := (pairChar u v).utf8Size_le_four
    rw [utf8_cons_length]
    simp only [List.length_cons]
    omega
  | case5 u v us hlead htrail => simp [decodeUtf16, hlead, htrail] at h
  | case6 u v us hlead htrail => simp [decodeUtf16, hlead, htrail] at h
  | case7 u v us hlead htrail ih =>
    rw [decodeUtf16, if_neg hlead, if_neg htrail] at h
    obtain ⟨s', hs', rfl⟩ := Option.map_eq_some_iff.mp h
    have hrest := ih hs'
    have hsize := utf8Size_unitChar u
    rw [utf8_cons_length]
    simp only [List.length_cons] at hrest ⊢
    omega

/-! ### The units of a text -/

def leadUnit (c : Char) : UInt16 := UInt16.ofNat (0xD800 + (c.toNat - 0x10000) / 0x400)

def trailUnit (c : Char) : UInt16 := UInt16.ofNat (0xDC00 + (c.toNat - 0x10000) % 0x400)

/-- A character takes one unit, or a pair of surrogates. -/
def charUnits (c : Char) : List UInt16 :=
  if c.toNat < 0x10000 then [UInt16.ofNat c.toNat] else [leadUnit c, trailUnit c]

def encodeUtf16 (s : List Char) : List UInt16 := s.flatMap charUnits

theorem toNat_range (c : Char) : c.toNat < 0xD800 ∨ 0xDFFF < c.toNat ∧ c.toNat < 0x110000 :=
  c.valid

theorem toNat_leadUnit {c : Char} (h : ¬c.toNat < 0x10000) :
    (leadUnit c).toNat = 0xD800 + (c.toNat - 0x10000) / 0x400 ∧ (leadUnit c).toNat < 0xDC00 := by
  have hrange := toNat_range c
  rw [leadUnit, UInt16.toNat_ofNat']
  omega

theorem toNat_trailUnit (c : Char) :
    (trailUnit c).toNat = 0xDC00 + (c.toNat - 0x10000) % 0x400 ∧ (trailUnit c).toNat < 0xE000 := by
  rw [trailUnit, UInt16.toNat_ofNat']
  omega

theorem isLead_iff {u : UInt16} : isLead u = true ↔ 0xD800 ≤ u.toNat ∧ u.toNat < 0xDC00 := by
  simp [isLead, UInt16.le_iff_toNat_le, UInt16.lt_iff_toNat_lt]

theorem isTrail_iff {u : UInt16} : isTrail u = true ↔ 0xDC00 ≤ u.toNat ∧ u.toNat < 0xE000 := by
  simp [isTrail, UInt16.le_iff_toNat_le, UInt16.lt_iff_toNat_lt]

theorem toNat_single {c : Char} (h : c.toNat < 0x10000) :
    (UInt16.ofNat c.toNat).toNat = c.toNat := by
  rw [UInt16.toNat_ofNat']
  omega

/-- The unit of a character is no surrogate. -/
theorem single_not_surrogate {c : Char} (h : c.toNat < 0x10000) :
    isLead (UInt16.ofNat c.toNat) = false ∧ isTrail (UInt16.ofNat c.toNat) = false := by
  have hrange := toNat_range c
  rw [← Bool.not_eq_true, ← Bool.not_eq_true, isLead_iff, isTrail_iff, toNat_single h]
  omega

theorem unitChar_single {c : Char} (h : c.toNat < 0x10000) :
    unitChar (UInt16.ofNat c.toNat) = c := by
  rw [unitChar, toNat_single h]
  exact Char.ofNat_toNat c

theorem pairChar_units {c : Char} (h : ¬c.toNat < 0x10000) :
    pairChar (leadUnit c) (trailUnit c) = c := by
  have hlead := (toNat_leadUnit h).1
  have htrail := (toNat_trailUnit c).1
  have hvalue : 0x10000 + ((leadUnit c).toNat - 0xD800) * 0x400 +
      ((trailUnit c).toNat - 0xDC00) = c.toNat := by
    omega
  rw [pairChar, hvalue]
  exact Char.ofNat_toNat c

theorem decodeUtf16_single {u : UInt16} (hlead : isLead u = false) (htrail : isTrail u = false)
    (us : List UInt16) : decodeUtf16 (u :: us) = (decodeUtf16 us).map (unitChar u :: ·) := by
  cases us <;> simp [decodeUtf16, hlead, htrail]

theorem encodeUtf16_cons (c : Char) (s : List Char) :
    encodeUtf16 (c :: s) = charUnits c ++ encodeUtf16 s := List.flatMap_cons

theorem charUnits_length (c : Char) : 1 ≤ (charUnits c).length := by
  unfold charUnits
  split <;> simp

theorem charUnits_length_eq_iff {c : Char} : (charUnits c).length = 1 ↔ c.toNat < 0x10000 := by
  unfold charUnits
  split <;> simp [*]

theorem length_le_encodeUtf16 (s : List Char) : s.length ≤ (encodeUtf16 s).length := by
  induction s with
  | nil => simp
  | cons c s ih =>
    have hc := charUnits_length c
    rw [encodeUtf16_cons, List.length_append, List.length_cons]
    omega

/-- A text has as many units as characters exactly when none of them takes a pair. -/
theorem encodeUtf16_length_eq_iff {s : List Char} :
    (encodeUtf16 s).length = s.length ↔ ∀ c ∈ s, c.toNat < 0x10000 := by
  induction s with
  | nil => simp [encodeUtf16]
  | cons c s ih =>
    have hc := charUnits_length c
    have hs := length_le_encodeUtf16 s
    rw [List.forall_mem_cons, ← charUnits_length_eq_iff, ← ih, encodeUtf16_cons,
      List.length_append, List.length_cons]
    omega

theorem decodeUtf16_encodeUtf16 (s : List Char) : decodeUtf16 (encodeUtf16 s) = some s := by
  induction s with
  | nil => rfl
  | cons c s ih =>
    rw [encodeUtf16_cons, charUnits]
    by_cases hc : c.toNat < 0x10000
    · obtain ⟨hlead, htrail⟩ := single_not_surrogate hc
      rw [if_pos hc, List.singleton_append, decodeUtf16_single hlead htrail, ih, Option.map_some,
        unitChar_single hc]
    · have hlead : isLead (leadUnit c) = true := by
        have hvalue := toNat_leadUnit hc
        rw [isLead_iff]
        omega
      have htrail : isTrail (trailUnit c) = true := by
        have hvalue := toNat_trailUnit c
        rw [isTrail_iff]
        omega
      rw [if_neg hc, List.cons_append, List.singleton_append, decodeUtf16, if_pos hlead,
        if_pos htrail, ih, Option.map_some, pairChar_units hc]

/-- The units of a sequence of pairs of bytes come before those of what follows. -/
theorem utf16Units_append {a : Bytes} (b : Bytes) (h : a.length % 2 = 0) :
    utf16Units (a ++ b) = utf16Units a ++ utf16Units b := by
  fun_induction utf16Units a with
  | case1 x y rest ih =>
    have hrest : rest.length % 2 = 0 := by
      simp only [List.length_cons] at h
      omega
    rw [List.cons_append, List.cons_append, utf16Units, ih hrest, List.cons_append]
  | case2 a hshort =>
    cases a with
    | nil => rfl
    | cons x a =>
      cases a with
      | nil => contradiction
      | cons y rest => exact absurd rfl (hshort x y rest)

/-! ### Texts in a memory -/

/-- The units lie within the memory at a pointer. -/
structure UnitsAt (memory : Bytes) (ptr : Nat) (us : List UInt16) : Prop where
  inside : ptr + 2 * us.length ≤ memory.length
  units : utf16Units ((memory.drop ptr).take (2 * us.length)) = us

/-- What is read from the pointer on begins with the units. -/
theorem UnitsAt.append {memory : Bytes} {ptr : Nat} {us : List UInt16} (h : UnitsAt memory ptr us)
    {len : Nat} (hlen : 2 * us.length ≤ len) :
    ∃ rest, utf16Units ((memory.drop ptr).take len) = us ++ rest := by
  have hfirst : ((memory.drop ptr).take (2 * us.length)).length = 2 * us.length := by
    have hinside := h.inside
    rw [List.length_take, List.length_drop]
    omega
  have hsplit : (memory.drop ptr).take len = (memory.drop ptr).take (2 * us.length) ++
      ((memory.drop ptr).drop (2 * us.length)).take (len - 2 * us.length) := by
    rw [← List.take_add]
    congr 1
    omega
  rw [hsplit, utf16Units_append _ (by omega), h.units]
  exact ⟨_, rfl⟩

theorem takeWhile_nonzero {us : List UInt16} (h : 0 ∉ us) (rest : List UInt16) :
    (us ++ rest).takeWhile (· != 0) = us ++ rest.takeWhile (· != 0) := by
  apply List.takeWhile_append_of_pos
  intro u hu
  have hne : u ≠ 0 := fun hzero => h (hzero ▸ hu)
  simpa using hne

end Text
