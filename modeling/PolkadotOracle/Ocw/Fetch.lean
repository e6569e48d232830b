import PolkadotOracle.Lib.Sequence
import PolkadotOracle.Lib.Store
import PolkadotOracle.Lib.Text
import PolkadotOracle.Ocw.Calls

/-! What the price workers fetch: the response to a request, the price in its text, and the key
under which the response is kept in the local storage. -/

namespace PolkadotOracle.OcwPallet

open Exec Scale Text
open Sequence (PrefixCode append_cons_inj)

/-! ### Responses -/

inductive HttpError
  | deadlineReached
  | ioError
  | unknown
deriving DecidableEq, Repr

/-- What comes of a request up to its deadline. -/
inductive Exchange
  | notSent
  | pending
  | failed (error : HttpError)
  | response (code : UInt16) (body : Bytes)

/-- JSON, with the integer part of its numbers. -/
inductive JsonValue
  | null
  | boolean (b : Bool)
  | number (integer : UInt64)
  | string (s : Str)
  | array (items : List JsonValue)
  | object (members : List (Str × JsonValue))

/-- The functions that the workers use: the hash of the runtime and the parser of JSON. -/
structure Primitives where
  hashing : Bytes → Hash
  parseJson : Str → Option JsonValue

/-- What a run of a worker finds: the HTTP client, the time at which the request is sent and at
which the response is there, the accounts of the keystore and the signatures that it makes, and
what the pool accepts. -/
structure Offchain (T : Config) where
  exchange : Str → UInt64 → Exchange
  sentAt : UInt64
  receivedAt : UInt64
  accounts : List (T.AccountId × T.Public)
  sign : PricePayload T.Public → Option T.Signature
  accepts : Origin T × Call T → Bool

variable {T : Config}

def responseFromHttpUrl (host : Offchain T) (url : Str) (timeToLive : UInt64) :
    Except HttpError Bytes :=
  match host.exchange url (saturatingAdd64 host.sentAt timeToLive) with
  | .notSent => .error .ioError
  | .pending => .error .deadlineReached
  | .failed error => .error error
  | .response code body => if code ≠ 200 then .error .unknown else .ok body

/-- The only response with a body that counts is one with status 200. -/
theorem responseFromHttpUrl_ok {host : Offchain T} {url : Str} {timeToLive : UInt64} {body : Bytes}
    (h : responseFromHttpUrl host url timeToLive = .ok body) :
    host.exchange url (saturatingAdd64 host.sentAt timeToLive) = .response 200 body := by
  unfold responseFromHttpUrl at h
  split at h
  · contradiction
  · contradiction
  · contradiction
  · rename_i code body' hexchange
    split at h
    · contradiction
    · rename_i hcode
      obtain rfl := Except.ok.inj h
      rw [hexchange, not_not.mp hcode]

def lengthMember : Str := ['l', 'e', 'n', 'g', 't', 'h']

/-- The price in a text: the integer part of the first length that the object has, whose high bits
are cut off. -/
def parseData (P : Primitives) (priceStr : Str) : Option UInt32 := do
  match ← P.parseJson priceStr with
  | .object obj =>
    let (_, v) ← obj.find? fun member => member.1 = lengthMember
    match v with
    | .number integer => some integer.toUInt32
    | _ => none
  | _ => none

/-! ### The keys of responses -/

/-- A number as Rust's `Debug` writes it. -/
def debugNat (n : Nat) : Str := Nat.toDigits 10 n

def debugByte (b : UInt8) : Str :=
  [Nat.digitChar (b.toNat / 16), Nat.digitChar (b.toNat % 16)]

/-- A hash as its `Debug` writes it. -/
def debugHash (hash : Hash) : Str := '0' :: 'x' :: hash.val.flatMap debugByte

def keyPrefix : Str := "ocw-pallet:catfact:".toList

/-- The key of a response in the local storage. -/
def responseKey (timeStamp : UInt64) (blockHeight : Nat) (hash : Hash) : Str :=
  keyPrefix ++ (debugNat timeStamp.toNat ++ ':' :: (debugNat blockHeight ++ ':' :: debugHash hash))

theorem debugNat_injective : Function.Injective debugNat := by
  intro m n h
  rw [← Nat.ofDigitChars_ten_toDigits (n := m), ← Nat.ofDigitChars_ten_toDigits (n := n)]
  exact congrArg (Nat.ofDigitChars 10 · 0) h

theorem colon_notMem_debugNat (n : Nat) : ':' ∉ debugNat n := by
  intro h
  have hdigit := Nat.isDigit_of_mem_toDigits (by decide) le_rfl h
  exact absurd hdigit (by decide)

theorem digitChar_inj : ∀ m < 16, ∀ n < 16, Nat.digitChar m = Nat.digitChar n → m = n := by
  decide

theorem debugByte_prefixCode : PrefixCode debugByte where
  ne_nil b := List.cons_ne_nil _ _
  prefix_free a b rest rest' h := by
    have ha := a.toNat_lt
    have hb := b.toNat_lt
    simp only [debugByte, List.cons_append, List.cons.injEq] at h
    have hhigh := digitChar_inj _ (by omega) _ (by omega) h.1
    have hlow := digitChar_inj _ (by omega) _ (by omega) h.2.1
    apply UInt8.toNat_inj.mp
    omega

theorem debugHash_injective : Function.Injective debugHash := by
  intro a b h
  simp only [debugHash, List.cons.injEq, true_and] at h
  exact Subtype.ext (debugByte_prefixCode.flatMap_injective h)

/-- A key tells when and for which block its response was stored, and the hash of the body. -/
theorem responseKey_inj {timeStamp timeStamp' : UInt64} {blockHeight blockHeight' : Nat}
    {hash hash' : Hash}
    (h : responseKey timeStamp blockHeight hash = responseKey timeStamp' blockHeight' hash') :
    timeStamp = timeStamp' ∧ blockHeight = blockHeight' ∧ hash = hash' := by
  have hrest := List.append_cancel_left h
  obtain ⟨htime, hrest⟩ :=
    append_cons_inj (colon_notMem_debugNat _) (colon_notMem_debugNat _) hrest
  obtain ⟨hblock, hhash⟩ :=
    append_cons_inj (colon_notMem_debugNat _) (colon_notMem_debugNat _) hrest
  exact ⟨UInt64.toNat_inj.mp (debugNat_injective htime), debugNat_injective hblock,
    debugHash_injective hhash⟩

theorem ascii_of_isDigit {c : Char} (h : c.isDigit = true) : c.utf8Size = 1 := by
  rw [Char.isDigit, Bool.and_eq_true, decide_eq_true_iff, decide_eq_true_iff] at h
  rw [Char.utf8Size_eq_one_iff]
  exact UInt32.le_trans h.2 (by decide)

theorem ascii_digitChar : ∀ n < 16, (Nat.digitChar n).utf8Size = 1 := by
  decide

theorem ascii_debugNat {n : Nat} {c : Char} (h : c ∈ debugNat n) : c.utf8Size = 1 :=
  ascii_of_isDigit (Nat.isDigit_of_mem_toDigits (by decide) le_rfl h)

theorem ascii_debugHash {hash : Hash} {c : Char} (h : c ∈ debugHash hash) : c.utf8Size = 1 := by
  simp only [debugHash, debugByte, List.mem_cons, List.mem_flatMap, List.not_mem_nil,
    or_false] at h
  rcases h with rfl | rfl | ⟨b, -, rfl | rfl⟩
  · decide
  · decide
  · exact ascii_digitChar _ (Nat.div_lt_of_lt_mul b.toNat_lt)
  · exact ascii_digitChar _ (Nat.mod_lt _ (by decide))

theorem length_debugHash (hash : Hash) : (debugHash hash).length = 66 := by
  have hlength : (hash.val.flatMap debugByte).length = hash.val.length * 2 := by
    rw [List.length_flatMap]
    simp [debugByte]
  rw [debugHash, List.length_cons, List.length_cons, hlength, hash.property]

theorem length_debugNat_le {n k : Nat} (hk : 0 < k) (h : n < 10 ^ k) : (debugNat n).length ≤ k :=
  (Nat.length_toDigits_le_iff (by decide) hk).mpr h

/-- The key of a response fits, for every block number of the runtime. -/
theorem responseKey_fits (timeStamp : UInt64) {blockHeight : Nat} (h : blockHeight < 2 ^ 32)
    (hash : Hash) : (utf8 (responseKey timeStamp blockHeight hash)).length ≤ 256 := by
  have hascii : ∀ c ∈ responseKey timeStamp blockHeight hash, c.utf8Size = 1 := by
    intro c hc
    simp only [responseKey, List.mem_append, List.mem_cons] at hc
    have hascii : keyPrefix.all (·.utf8Size == 1) = true := by decide
    rcases hc with hc | hc | rfl | hc | rfl | hc
    · exact beq_iff_eq.mp (List.all_eq_true.mp hascii c hc)
    · exact ascii_debugNat hc
    · decide
    · exact ascii_debugNat hc
    · decide
    · exact ascii_debugHash hc
  have htime : (debugNat timeStamp.toNat).length ≤ 20 := by
    apply length_debugNat_le (by decide)
    have hlt := timeStamp.toNat_lt
    omega
  have hblock : (debugNat blockHeight).length ≤ 10 := by
    apply length_debugNat_le (by decide)
    omega
  have hprefix : keyPrefix.length = 19 := by decide
  have hsize : (utf8 (responseKey timeStamp blockHeight hash)).length =
      (responseKey timeStamp blockHeight hash).length := Text.utf8_length_of_ascii hascii
  rw [hsize, responseKey]
  simp only [List.length_append, List.length_cons, length_debugHash, hprefix]
  omega

end PolkadotOracle.OcwPallet
