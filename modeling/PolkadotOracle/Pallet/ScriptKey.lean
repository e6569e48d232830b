import PolkadotOracle.Lib.Sequence
import PolkadotOracle.Lib.Text
import PolkadotOracle.Pallet.Calls

/-! Different script names have different storage keys: the escapes of Rust's `Debug` are a prefix
code, and UTF-8 and the SCALE length prefix lose nothing. -/

namespace PolkadotOracle

open Scale Sequence

def hexDigit (c : Char) : Nat := if c.toNat < 58 then c.toNat - 48 else c.toNat - 87

/-- The number that hexadecimal digits spell. -/
def hexValue (digits : Str) : Nat := digits.foldl (fun n c => 16 * n + hexDigit c) 0

theorem hexDigit_digitChar {n : Nat} (h : n < 16) : hexDigit n.digitChar = n :=
  (by decide : ∀ n < 16, hexDigit n.digitChar = n) n h

theorem hexValue_toDigits (n : Nat) : hexValue (Nat.toDigits 16 n) = n := by
  induction n using Nat.strong_induction_on with
  | _ n ih =>
    rw [Nat.toDigits_eq_if (by decide)]
    split
    · rename_i hn
      simp [hexValue, hexDigit_digitChar hn]
    · rename_i hn
      have hdiv := ih (n / 16) (by omega)
      simp only [hexValue, List.foldl_append, List.foldl_cons, List.foldl_nil] at hdiv ⊢
      rw [hdiv, hexDigit_digitChar (Nat.mod_lt n (by decide))]
      omega

theorem closeBrace_not_mem_toDigits (n : Nat) : '\x7d' ∉ Nat.toDigits 16 n := by
  induction n using Nat.strong_induction_on with
  | _ n ih =>
    have hdigit : ∀ m : Nat, '\x7d' ≠ m.digitChar := fun m =>
      (Nat.digitChar_ne '\x7d' (by decide)).symm
    rw [Nat.toDigits_eq_if (by decide)]
    split
    · rw [List.mem_singleton]
      exact hdigit n
    · rw [List.mem_append, List.mem_singleton, not_or]
      exact ⟨ih (n / 16) (by omega), hdigit (n % 16)⟩

/-- The code point that an escape stands for, read after its backslash. -/
def readBackslash : Str → Nat
  | [] => 0
  | c :: rest =>
    if c = '0' then 0
    else if c = 't' then 9
    else if c = 'r' then 13
    else if c = 'n' then 10
    else if c = 'u' then hexValue ((rest.drop 1).takeWhile (· ≠ '\x7d'))
    else c.toNat

/-- The code point of the first character of an escaped string. -/
def readEscape : Str → Nat
  | [] => 0
  | c :: rest => if c = '\\' then readBackslash rest else c.toNat

theorem readEscape_escapeDebug (escaped : Char → Bool) (c : Char) (rest : Str) :
    readEscape (escapeDebug escaped c ++ rest) = c.toNat := by
  unfold escapeDebug
  split
  · rename_i h; subst h; rfl
  split
  · rename_i h; subst h; rfl
  split
  · rename_i h; subst h; rfl
  split
  · rename_i h; subst h; rfl
  split
  · rename_i h; subst h; rfl
  split
  · rename_i h; subst h; rfl
  split
  · have htake : (Nat.toDigits 16 c.toNat ++ '\x7d' :: rest).takeWhile (· ≠ '\x7d') =
        Nat.toDigits 16 c.toNat := by
      rw [List.takeWhile_append_of_pos]
      · simp
      · intro d hd
        have : d ≠ '\x7d' := fun h => closeBrace_not_mem_toDigits _ (h ▸ hd)
        simpa using this
    show hexValue ((Nat.toDigits 16 c.toNat ++ ['\x7d'] ++ rest).takeWhile (· ≠ '\x7d')) = _
    rw [List.append_assoc, List.singleton_append, htake, hexValue_toDigits]
  · rename_i _ _ _ _ _ hbackslash _
    simp [readEscape, hbackslash]

theorem escapeDebug_prefixCode (escaped : Char → Bool) : PrefixCode (escapeDebug escaped) where
  ne_nil c := by
    unfold escapeDebug
    split_ifs <;> simp
  prefix_free a b rest rest' h := by
    have := congrArg readEscape h
    rw [readEscape_escapeDebug, readEscape_escapeDebug] at this
    exact Char.toNat_inj.mp this

theorem debugStr_injective (escaped : Char → Bool) : Function.Injective (debugStr escaped) := by
  intro a b h
  simp only [debugStr] at h
  exact (escapeDebug_prefixCode escaped).flatMap_injective
    (List.append_cancel_left (List.append_cancel_right h))

theorem scriptKeyOf_injective (T : Config) : Function.Injective (scriptKeyOf T) := fun _ _ h =>
  debugStr_injective T.escaped (Text.utf8_injective (encodeBytes_injective h))

/-- Different types or names make different prefixed names. -/
theorem ScriptType.tag_append_inj {typ typ' : ScriptType} {name name' : Str} :
    typ.tag ++ name = typ'.tag ++ name' ↔ typ = typ' ∧ name = name' := by
  constructor
  · intro h
    cases typ <;> cases typ' <;> simp_all [tag]
  · rintro ⟨rfl, rfl⟩
    rfl

/-- The keys that uploads derive from a type and a name are equal only for the same type and the
same name, before and after the check of their length. -/
theorem uploadKeys_injective (T : Config) (typ typ' : ScriptType) (name name' : Str) :
    (scriptKeyOf T (typ.tag ++ name) = scriptKeyOf T (typ'.tag ++ name') ↔
      typ = typ' ∧ name = name') ∧
    ∀ key : BoundedVec T.maxScriptKeyLen.toNat,
      BoundedVec.tryFrom _ (scriptKeyOf T (typ.tag ++ name)) = some key →
      BoundedVec.tryFrom _ (scriptKeyOf T (typ'.tag ++ name')) = some key →
      typ = typ' ∧ name = name' := by
  have hkeys : scriptKeyOf T (typ.tag ++ name) = scriptKeyOf T (typ'.tag ++ name') ↔
      typ = typ' ∧ name = name' := by
    rw [(scriptKeyOf_injective T).eq_iff, ScriptType.tag_append_inj]
  refine ⟨hkeys, fun key hkey hkey' => hkeys.mp ?_⟩
  rw [BoundedVec.tryFrom_eq_some] at hkey hkey'
  exact hkey.symm.trans hkey'

end PolkadotOracle
