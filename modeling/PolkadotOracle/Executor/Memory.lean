import PolkadotOracle.Lib.Text
import PolkadotOracle.Pallet.Types

/-! The linear memory of a script's instance: what a read of it gives, and the reading of UTF-16
strings. -/

namespace PolkadotOracle.Executor

open Exec Scale Text

inductive RunnerError
  | memoryAccess
  | fromUtf16
  | panic (message : String)
  | other (message : String)
deriving DecidableEq, Repr

def read (memory : Bytes) (offset len : Nat) : Except RunnerError Bytes :=
  if offset + len ≤ memory.length then .ok ((memory.drop offset).take len)
  else .error .memoryAccess

theorem read_of_le {memory : Bytes} {offset len : Nat} (h : offset + len ≤ memory.length) :
    read memory offset len = .ok ((memory.drop offset).take len) := if_pos h

theorem read_of_not_le {memory : Bytes} {offset len : Nat} (h : ¬offset + len ≤ memory.length) :
    read memory offset len = .error .memoryAccess := if_neg h

theorem read_length {memory : Bytes} {offset len : Nat} {bs : Bytes}
    (h : read memory offset len = .ok bs) : bs.length = len := by
  unfold read at h
  split at h
  · obtain rfl := Except.ok.inj h
    rw [List.length_take, List.length_drop]
    omega
  · contradiction

def write (memory : Bytes) (offset : Nat) (buffer : Bytes) : Except RunnerError Bytes :=
  if offset + buffer.length ≤ memory.length then
    .ok (memory.take offset ++ buffer ++ memory.drop (offset + buffer.length))
  else .error .memoryAccess

theorem read_eq_ok {memory : Bytes} {offset len : Nat} {bs : Bytes} :
    read memory offset len = .ok bs ↔
      offset + len ≤ memory.length ∧ (memory.drop offset).take len = bs := by
  unfold read
  by_cases hlen : offset + len ≤ memory.length <;> simp [hlen]

/-- What is written at the start of a memory lies before the rest of it. -/
theorem write_zero {memory memory' buffer : Bytes} :
    write memory 0 buffer = .ok memory' ↔
      buffer.length ≤ memory.length ∧ buffer ++ memory.drop buffer.length = memory' := by
  unfold write
  by_cases hlen : buffer.length ≤ memory.length <;> simp [hlen]

theorem written_length {memory buffer : Bytes} (h : buffer.length ≤ memory.length) :
    (buffer ++ memory.drop buffer.length).length = memory.length := by
  rw [List.length_append, List.length_drop]
  omega

/-! ### Pages

The smallest memory that an instance can have is one page. -/

def pageSize : Nat := 65536

/-- A page that begins with the bytes. -/
def page (bs : Bytes) : Bytes := bs ++ List.replicate (pageSize - bs.length) 0

/-- A page that ends with the bytes. -/
def endOfPage (bs : Bytes) : Bytes := List.replicate (pageSize - bs.length) 0 ++ bs

theorem page_length {bs : Bytes} (h : bs.length ≤ pageSize) : (page bs).length = pageSize := by
  rw [page, List.length_append, List.length_replicate]
  omega

theorem endOfPage_length {bs : Bytes} (h : bs.length ≤ pageSize) :
    (endOfPage bs).length = pageSize := by
  rw [endOfPage, List.length_append, List.length_replicate]
  omega

theorem take_drop_page {bs : Bytes} {offset len : Nat} (h : offset + len ≤ bs.length) :
    ((page bs).drop offset).take len = (bs.drop offset).take len := by
  have hdrop : len ≤ (bs.drop offset).length := by
    rw [List.length_drop]
    omega
  rw [page, List.drop_append_of_le_length (by omega), List.take_append_of_le_length hdrop]

theorem read_page {bs : Bytes} {offset len : Nat} (h : offset + len ≤ bs.length) :
    read (page bs) offset len = read bs offset len := by
  have hinside : offset + len ≤ (page bs).length := by
    rw [page, List.length_append]
    omega
  rw [read_of_le hinside, read_of_le h, take_drop_page h]

theorem drop_endOfPage (bs : Bytes) : (endOfPage bs).drop (pageSize - bs.length) = bs := by
  rw [endOfPage, List.drop_left' List.length_replicate]

/-! ### Words -/

def u32FromLeBytes (bs : Bytes) : UInt32 := UInt32.ofNat (leNat bs)

def u64FromLeBytes (bs : Bytes) : UInt64 := UInt64.ofNat (leNat bs)

def wordAt (memory : Bytes) (offset : Nat) : UInt32 :=
  u32FromLeBytes ((memory.drop offset).take 4)

def dwordAt (memory : Bytes) (offset : Nat) : UInt64 :=
  u64FromLeBytes ((memory.drop offset).take 8)

/-! ### Strings -/

def readUtf16String (memory : Bytes) (ptr maxLen : Nat) : Except RunnerError Str := do
  let rawBytes ← read memory ptr (maxLen * 2)
  let utf16Units := (Text.utf16Units rawBytes).takeWhile (· != 0)
  match Text.decodeUtf16 utf16Units with
  | some decoded => .ok decoded
  | none => .error .fromUtf16

theorem readUtf16String_length {memory : Bytes} {ptr maxLen : Nat} {s : Str}
    (h : readUtf16String memory ptr maxLen = .ok s) : (utf8 s).length ≤ 3 * maxLen := by
  unfold readUtf16String at h
  obtain ⟨rawBytes, hread, h⟩ := bind_eq_ok h
  have hlen := read_length hread
  have hunits := Text.utf16Units_length rawBytes
  have htake : ((Text.utf16Units rawBytes).takeWhile (· != 0)).length ≤
      (Text.utf16Units rawBytes).length := (List.takeWhile_prefix _).length_le
  simp only at h
  split at h
  · rename_i decoded hdecoded
    obtain rfl := Except.ok.inj h
    have hutf8 : (utf8 decoded).length ≤ _ := Text.decodeUtf16_length hdecoded
    omega
  · contradiction

end PolkadotOracle.Executor
