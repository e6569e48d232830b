import Mathlib.Algebra.Group.Nat.Defs
import Mathlib.Data.Nat.Basic
import Mathlib.Tactic.Common

/-! The SCALE codec: little-endian integers, compact lengths, bounded byte vectors, fixed arrays,
enumerations, products and tuples.  A codec carries the proof that its decoder reads back what its
encoder wrote, whatever follows it in the input. -/

namespace Scale

abbrev Bytes := List UInt8

/-- An encoder with a decoder that takes one value off the front of its input and returns the
rest. -/
structure Codec (α : Type) where
  encode : α → Bytes
  decode : Bytes → Option (α × Bytes)
  decode_encode : ∀ a rest, decode (encode a ++ rest) = some (a, rest)

namespace Codec

variable {α β : Type}

theorem decode_encode_self (c : Codec α) (a : α) : c.decode (c.encode a) = some (a, []) := by
  simpa using c.decode_encode a []

theorem encode_append_inj (c : Codec α) {a b : α} {rest rest' : Bytes}
    (h : c.encode a ++ rest = c.encode b ++ rest') : a = b ∧ rest = rest' := by
  have := c.decode_encode a rest
  rw [h, c.decode_encode b rest'] at this
  simp only [Option.some.injEq, Prod.mk.injEq] at this
  exact ⟨this.1.symm, this.2.symm⟩

theorem encode_injective (c : Codec α) : Function.Injective c.encode := fun _ _ h =>
  (c.encode_append_inj (congrArg (· ++ []) h)).1

def prod (c : Codec α) (d : Codec β) : Codec (α × β) where
  encode p := c.encode p.1 ++ d.encode p.2
  decode input := do
    let (a, input) ← c.decode input
    let (b, input) ← d.decode input
    return ((a, b), input)
  decode_encode p rest := by
    simp [List.append_assoc, c.decode_encode, d.decode_encode]

/-- A pair whose first component is there decodes as far as the second does. -/
theorem prod_decode_append (c : Codec α) (d : Codec β) (a : α) (rest : Bytes) :
    (c.prod d).decode (c.encode a ++ rest) =
      (d.decode rest).map fun (b, rest) => ((a, b), rest) := by
  simp only [prod, c.decode_encode, Option.bind_eq_bind, Option.bind_some]
  cases d.decode rest <;> rfl

/-- A codec for a type that is the image of another, such as a record of its fields. -/
def map (c : Codec α) (f : α → β) (g : β → α) (h : ∀ b, f (g b) = b) : Codec β where
  encode b := c.encode (g b)
  decode input := (c.decode input).map fun (a, rest) => (f a, rest)
  decode_encode b rest := by simp [c.decode_encode, h]

/-- A codec for a type whose values some of those of another stand for. -/
def refine (c : Codec α) (f : α → Option β) (g : β → α) (h : ∀ b, f (g b) = some b) :
    Codec β where
  encode b := c.encode (g b)
  decode input := do
    let (a, rest) ← c.decode input
    let b ← f a
    return (b, rest)
  decode_encode b rest := by simp [c.decode_encode, h]

def enum (index : α → UInt8) (ofIndex : UInt8 → Option α)
    (h : ∀ a, ofIndex (index a) = some a) : Codec α where
  encode a := [index a]
  decode
    | [] => none
    | b :: rest => (ofIndex b).map fun a => (a, rest)
  decode_encode a rest := by simp [h]

end Codec

/-! ### Little-endian integers -/

def leBytes : Nat → Nat → Bytes
  | 0, _ => []
  | width + 1, n => UInt8.ofNat n :: leBytes width (n / 256)

def leNat : Bytes → Nat
  | [] => 0
  | b :: bs => b.toNat + 256 * leNat bs

@[simp] theorem leBytes_length (width n : Nat) : (leBytes width n).length = width := by
  induction width generalizing n with
  | zero => rfl
  | succ width ih => simp [leBytes, ih]

theorem leNat_leBytes {width n : Nat} (h : n < 256 ^ width) : leNat (leBytes width n) = n := by
  induction width generalizing n with
  | zero => simp at h; simp [leBytes, leNat, h]
  | succ width ih =>
    have hdiv : n / 256 < 256 ^ width := by
      rw [Nat.pow_succ] at h
      exact Nat.div_lt_of_lt_mul (by omega)
    rw [leBytes, leNat, ih hdiv, UInt8.toNat_ofNat']
    omega

def take (n : Nat) (input : Bytes) : Option (Bytes × Bytes) :=
  if n ≤ input.length then some (input.take n, input.drop n) else none

theorem take_append {n : Nat} {bs : Bytes} (rest : Bytes) (h : bs.length = n) :
    take n (bs ++ rest) = some (bs, rest) := by
  subst h
  simp [take]

theorem take_eq_none {n : Nat} {input : Bytes} (h : input.length < n) : take n input = none := by
  simp [take, Nat.not_le.mpr h]

def u32 : Codec UInt32 where
  encode v := leBytes 4 v.toNat
  decode input := (take 4 input).map fun (bs, rest) => (UInt32.ofNat (leNat bs), rest)
  decode_encode v rest := by
    rw [take_append rest (leBytes_length 4 _)]
    simp [leNat_leBytes (show v.toNat < 256 ^ 4 from v.toNat_lt)]

def u64 : Codec UInt64 where
  encode v := leBytes 8 v.toNat
  decode input := (take 8 input).map fun (bs, rest) => (UInt64.ofNat (leNat bs), rest)
  decode_encode v rest := by
    rw [take_append rest (leBytes_length 8 _)]
    simp [leNat_leBytes (show v.toNat < 256 ^ 8 from v.toNat_lt)]

def i32 : Codec Int32 := u32.map UInt32.toInt32 Int32.toUInt32 Int32.toInt32_toUInt32

def i64 : Codec Int64 := u64.map UInt64.toInt64 Int64.toUInt64 Int64.toInt64_toUInt64

/-- A float is its bit pattern. -/
abbrev f32 : Codec UInt32 := u32

abbrev f64 : Codec UInt64 := u64

/-! ### Compact lengths -/

/-- The compact form of `n`, for the lengths below `2 ^ 32` that vectors have. -/
def compact (n : Nat) : Bytes :=
  if n < 2 ^ 6 then leBytes 1 (4 * n)
  else if n < 2 ^ 14 then leBytes 2 (4 * n + 1)
  else if n < 2 ^ 30 then leBytes 4 (4 * n + 2)
  else 3 :: leBytes 4 n

/-- Reads a compact `u32`.  A number in a longer form than it needs is refused. -/
def decodeCompact : Bytes → Option (Nat × Bytes)
  | [] => none
  | b :: input =>
    match b.toNat % 4 with
    | 0 => some (b.toNat / 4, input)
    | 1 => do
      let (bs, rest) ← take 1 input
      let x := leNat (b :: bs) / 4
      if 2 ^ 6 ≤ x ∧ x < 2 ^ 14 then some (x, rest) else none
    | 2 => do
      let (bs, rest) ← take 3 input
      let x := leNat (b :: bs) / 4
      if 2 ^ 14 ≤ x ∧ x < 2 ^ 30 then some (x, rest) else none
    | _ =>
      if b.toNat / 4 = 0 then do
        let (bs, rest) ← take 4 input
        let x := leNat bs
        if 2 ^ 30 ≤ x then some (x, rest) else none
      else none

theorem leBytes_succ (width n : Nat) :
    leBytes (width + 1) n = UInt8.ofNat n :: leBytes width (n / 256) := rfl

theorem decodeCompact_compact {n : Nat} (rest : Bytes) (h : n < 2 ^ 32) :
    decodeCompact (compact n ++ rest) = some (n, rest) := by
  unfold compact
  split
  · have hb : (UInt8.ofNat (4 * n)).toNat = 4 * n := by rw [UInt8.toNat_ofNat']; omega
    rw [leBytes_succ, List.cons_append, decodeCompact, hb,
      show 4 * n % 4 = 0 by omega, show 4 * n / 4 = n by omega]
    rfl
  split
  · have hb : (UInt8.ofNat (4 * n + 1)).toNat % 4 = 1 := by rw [UInt8.toNat_ofNat']; omega
    have hx : leNat (UInt8.ofNat (4 * n + 1) :: leBytes 1 ((4 * n + 1) / 256)) = 4 * n + 1 :=
      @leNat_leBytes 2 _ (by omega)
    rw [leBytes_succ, List.cons_append, decodeCompact, hb]
    simp only [take_append rest (leBytes_length 1 _), Option.bind_eq_bind, Option.bind_some, hx]
    rw [if_pos (by omega), show (4 * n + 1) / 4 = n by omega]
  split
  · have hb : (UInt8.ofNat (4 * n + 2)).toNat % 4 = 2 := by rw [UInt8.toNat_ofNat']; omega
    have hx : leNat (UInt8.ofNat (4 * n + 2) :: leBytes 3 ((4 * n + 2) / 256)) = 4 * n + 2 :=
      @leNat_leBytes 4 _ (by omega)
    rw [leBytes_succ, List.cons_append, decodeCompact, hb]
    simp only [take_append rest (leBytes_length 3 _), Option.bind_eq_bind, Option.bind_some, hx]
    rw [if_pos (by omega), show (4 * n + 2) / 4 = n by omega]
  · have hx : leNat (leBytes 4 n) = n := leNat_leBytes (by omega)
    rw [List.cons_append, decodeCompact]
    simp only [show (3 : UInt8).toNat % 4 = 3 from rfl, show (3 : UInt8).toNat / 4 = 0 from rfl,
      take_append rest (leBytes_length 4 _), Option.bind_eq_bind, Option.bind_some, hx, if_true]
    rw [if_pos (by omega)]

/-- A length that starts with the byte 3 is at least `2 ^ 30`, and takes five bytes. -/
theorem decodeCompact_three {input rest : Bytes} {n : Nat}
    (h : decodeCompact (3 :: input) = some (n, rest)) :
    2 ^ 30 ≤ n ∧ rest.length ≤ input.length := by
  rw [decodeCompact] at h
  simp only [show (3 : UInt8).toNat % 4 = 3 from rfl, show (3 : UInt8).toNat / 4 = 0 from rfl,
    if_true, take] at h
  split at h
  · simp only [Option.bind_eq_bind, Option.bind_some] at h
    split at h
    · rename_i hle hbig
      obtain ⟨rfl, rfl⟩ : leNat (input.take 4) = n ∧ input.drop 4 = rest := by simpa using h
      exact ⟨hbig, by simp⟩
    · contradiction
  · contradiction

/-- The first byte of a compact form: its mode, and the lowest bits of the number. -/
def compactHead (n : Nat) : UInt8 :=
  if n < 2 ^ 6 then UInt8.ofNat (4 * n)
  else if n < 2 ^ 14 then UInt8.ofNat (4 * n + 1)
  else if n < 2 ^ 30 then UInt8.ofNat (4 * n + 2)
  else 3

theorem compact_eq_cons (n : Nat) : compact n = compactHead n :: (compact n).tail := by
  unfold compact compactHead
  split_ifs <;> rfl

theorem compact_length_mono {m n : Nat} (h : m ≤ n) :
    (compact m).length ≤ (compact n).length := by
  unfold compact
  split_ifs <;> simp <;> omega

/-! ### Byte vectors -/

def BoundedVec (bound : Nat) := { bs : Bytes // bs.length ≤ bound }

instance (bound : Nat) : DecidableEq (BoundedVec bound) :=
  inferInstanceAs (DecidableEq { bs : Bytes // bs.length ≤ bound })

def BoundedVec.tryFrom (bound : Nat) (bs : Bytes) : Option (BoundedVec bound) :=
  if h : bs.length ≤ bound then some ⟨bs, h⟩ else none

theorem BoundedVec.tryFrom_eq_some {bound : Nat} {bs : Bytes} {v : BoundedVec bound} :
    tryFrom bound bs = some v ↔ v.val = bs := by
  unfold tryFrom
  constructor
  · intro h
    split at h
    · obtain rfl := Option.some.inj h; rfl
    · contradiction
  · rintro rfl
    rw [dif_pos v.property]
    rfl

def BoundedVec.ofLe {bound : Nat} (bs : Bytes) (h : bs.length ≤ bound) : BoundedVec bound := ⟨bs, h⟩

theorem BoundedVec.tryFrom_of_le {bound : Nat} {bs : Bytes} (h : bs.length ≤ bound) :
    tryFrom bound bs = some (ofLe bs h) := dif_pos h

theorem BoundedVec.tryFrom_of_not_le {bound : Nat} {bs : Bytes} (h : ¬bs.length ≤ bound) :
    tryFrom bound bs = none := dif_neg h

/-- The longest vector that has a compact length. -/
def maxLen : Nat := 2 ^ 32 - 1

abbrev Vec := BoundedVec maxLen

def encodeBytes (bs : Bytes) : Bytes := compact bs.length ++ bs

theorem encodeBytes_injective : Function.Injective encodeBytes := by
  intro a b h
  have hlen : a.length = b.length := by
    have := congrArg List.length h
    simp only [encodeBytes, List.length_append] at this
    rcases Nat.le_total a.length b.length with hab | hab
    · have := compact_length_mono hab; omega
    · have := compact_length_mono hab; omega
  rw [encodeBytes, encodeBytes, hlen] at h
  exact List.append_cancel_left h

/-- A bounded vector is refused when its length is over the bound, or over what the input
holds. -/
def boundedVec (bound : Nat) (hb : bound ≤ maxLen) : Codec (BoundedVec bound) where
  encode v := encodeBytes v.val
  decode input := do
    let (n, input) ← decodeCompact input
    if n ≤ bound then
      let (bs, rest) ← take n input
      let v ← BoundedVec.tryFrom bound bs
      return (v, rest)
    else none
  decode_encode v rest := by
    have hv := v.property
    have hlen : v.val.length < 2 ^ 32 := by simp only [maxLen] at hb; omega
    rw [encodeBytes, List.append_assoc, decodeCompact_compact _ hlen]
    simp [hv, take_append rest rfl, BoundedVec.tryFrom_eq_some.mpr (rfl : v.val = v.val)]

def vec : Codec Vec := boundedVec maxLen le_rfl

def Codec.decodeItems {α : Type} (c : Codec α) : Nat → Bytes → Option (List α × Bytes)
  | 0, input => some ([], input)
  | n + 1, input => do
    let (a, input) ← c.decode input
    let (items, rest) ← c.decodeItems n input
    return (a :: items, rest)

theorem Codec.decodeItems_encode {α : Type} (c : Codec α) (items : List α) (rest : Bytes) :
    c.decodeItems items.length (items.flatMap c.encode ++ rest) = some (items, rest) := by
  induction items with
  | nil => rfl
  | cons a items ih => simp [decodeItems, List.append_assoc, c.decode_encode, ih]

def Codec.encodeItems {α : Type} (c : Codec α) (items : List α) : Bytes :=
  compact items.length ++ items.flatMap c.encode

/-- The vector of the items of a codec. -/
def Codec.items {α : Type} (c : Codec α) : Codec { l : List α // l.length ≤ maxLen } where
  encode v := c.encodeItems v.val
  decode input := do
    let (n, input) ← decodeCompact input
    let (items, rest) ← c.decodeItems n input
    if h : items.length ≤ maxLen then some (⟨items, h⟩, rest) else none
  decode_encode v rest := by
    have hlen : v.val.length < 2 ^ 32 := by
      have hv := v.property
      simp only [maxLen] at hv
      omega
    rw [encodeItems, List.append_assoc, decodeCompact_compact _ hlen]
    simp [c.decodeItems_encode, v.property]

/-- What a vector of `n` items decodes to is what its items decode to. -/
theorem Codec.items_decode {α : Type} {c : Codec α} {n : Nat} {input rest : Bytes}
    {v : { l : List α // l.length ≤ maxLen }} (hn : n < 2 ^ 32)
    (h : c.items.decode (compact n ++ input) = some (v, rest)) :
    c.decodeItems n input = some (v.val, rest) := by
  obtain ⟨⟨n', input'⟩, hlength, h⟩ := Option.bind_eq_some_iff.mp h
  rw [decodeCompact_compact input hn] at hlength
  obtain ⟨rfl, rfl⟩ := Prod.mk.inj (Option.some.inj hlength)
  obtain ⟨⟨items, rest'⟩, hitems, h⟩ := Option.bind_eq_some_iff.mp h
  dsimp only at h
  by_cases hmax : items.length ≤ maxLen
  · rw [dif_pos hmax] at h
    obtain ⟨rfl, rfl⟩ := Prod.mk.inj (Option.some.inj h)
    exact hitems
  · rw [dif_neg hmax] at h
    contradiction

/-! ### Tuples -/

/-- The tuples that have, for each index of a list, a component of the index's type. -/
def Tuple {ι : Type} (C : ι → Type) : List ι → Type
  | [] => Unit
  | i :: is => C i × Tuple C is

def Tuple.get {ι : Type} {C : ι → Type} :
    {is : List ι} → Tuple C is → (k : Fin is.length) → C (is.get k)
  | _ :: _, (a, _), ⟨0, _⟩ => a
  | _ :: _, (_, t), ⟨k + 1, h⟩ => Tuple.get t ⟨k, Nat.lt_of_succ_lt_succ h⟩

def Codec.unit : Codec Unit where
  encode _ := []
  decode input := some ((), input)
  decode_encode _ _ := rfl

/-- A tuple is its components one after the other. -/
def Codec.tuple {ι : Type} {C : ι → Type} (c : (i : ι) → Codec (C i)) :
    (is : List ι) → Codec (Tuple C is)
  | [] => Codec.unit
  | i :: is => (c i).prod (Codec.tuple c is)

/-! ### Codecs of a fixed size -/

/-- Every value that the codec reads takes `w` bytes. -/
def Codec.Sized {α : Type} (c : Codec α) (w : Nat) : Prop :=
  ∀ input a rest, c.decode input = some (a, rest) → input.length = w + rest.length

namespace Codec.Sized

variable {α β : Type} {c : Codec α} {d : Codec β} {w w' : Nat}

theorem of_take {n : Nat} {input bs rest : Bytes} (h : take n input = some (bs, rest)) :
    input.length = n + rest.length := by
  unfold take at h
  split_ifs at h
  obtain ⟨-, rfl⟩ := Prod.mk.inj (Option.some.inj h)
  rw [List.length_drop]
  omega

theorem u32 : Scale.u32.Sized 4 := by
  intro input a rest h
  obtain ⟨⟨bs, rest'⟩, htake, heq⟩ := Option.map_eq_some_iff.mp h
  obtain ⟨-, rfl⟩ := Prod.mk.inj heq
  exact of_take htake

theorem u64 : Scale.u64.Sized 8 := by
  intro input a rest h
  obtain ⟨⟨bs, rest'⟩, htake, heq⟩ := Option.map_eq_some_iff.mp h
  obtain ⟨-, rfl⟩ := Prod.mk.inj heq
  exact of_take htake

theorem map (hc : c.Sized w) (f : α → β) (g : β → α) (h : ∀ b, f (g b) = b) :
    (c.map f g h).Sized w := by
  intro input b rest hmap
  obtain ⟨⟨a, rest'⟩, hdecode, heq⟩ := Option.map_eq_some_iff.mp hmap
  obtain ⟨-, rfl⟩ := Prod.mk.inj heq
  exact hc _ _ _ hdecode

theorem i32 : Scale.i32.Sized 4 := u32.map _ _ _

theorem i64 : Scale.i64.Sized 8 := u64.map _ _ _

theorem unit : Codec.unit.Sized 0 := by
  intro input a rest h
  obtain ⟨-, rfl⟩ := Prod.mk.inj (Option.some.inj h)
  omega

theorem prod (hc : c.Sized w) (hd : d.Sized w') : (c.prod d).Sized (w + w') := by
  intro input p rest h
  obtain ⟨⟨a, input'⟩, ha, h⟩ := Option.bind_eq_some_iff.mp h
  obtain ⟨⟨b, rest'⟩, hb, h⟩ := Option.bind_eq_some_iff.mp h
  obtain ⟨-, rfl⟩ := Prod.mk.inj (Option.some.inj h)
  have hfirst := hc _ _ _ ha
  have hsecond := hd _ _ _ hb
  omega

theorem decodeItems (hc : c.Sized w) {n : Nat} {input rest : Bytes} {items : List α}
    (h : c.decodeItems n input = some (items, rest)) :
    items.length = n ∧ input.length = n * w + rest.length := by
  induction n generalizing input items with
  | zero =>
    obtain ⟨rfl, rfl⟩ := Prod.mk.inj (Option.some.inj h)
    simp
  | succ n ih =>
    obtain ⟨⟨a, input'⟩, ha, h⟩ := Option.bind_eq_some_iff.mp h
    obtain ⟨⟨items', rest'⟩, hitems, h⟩ := Option.bind_eq_some_iff.mp h
    obtain ⟨rfl, rfl⟩ := Prod.mk.inj (Option.some.inj h)
    obtain ⟨hlength, hinput⟩ := ih hitems
    have hfirst := hc _ _ _ ha
    rw [Nat.succ_mul, List.length_cons]
    omega

end Codec.Sized

/-! ### Arrays -/

def FixedBytes (n : Nat) := { bs : Bytes // bs.length = n }

instance (n : Nat) : DecidableEq (FixedBytes n) :=
  inferInstanceAs (DecidableEq { bs : Bytes // bs.length = n })

def FixedBytes.zero (n : Nat) : FixedBytes n := ⟨List.replicate n 0, List.length_replicate⟩

def fixedBytes (n : Nat) : Codec (FixedBytes n) where
  encode v := v.val
  decode input :=
    if h : n ≤ input.length then
      some (⟨input.take n, by simp [h]⟩, input.drop n)
    else none
  decode_encode v rest := by
    obtain ⟨bs, rfl⟩ := v
    simp

theorem vec_decode_three {input : Bytes} (h : input.length < 2 ^ 30) :
    vec.decode (3 :: input) = none := by
  show (decodeCompact (3 :: input)).bind _ = none
  cases hc : decodeCompact (3 :: input) with
  | none => rfl
  | some p =>
    obtain ⟨n, rest⟩ := p
    obtain ⟨hn, hrest⟩ := decodeCompact_three hc
    simp [take_eq_none (show rest.length < n by omega)]

end Scale
