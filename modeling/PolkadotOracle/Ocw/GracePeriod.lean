import PolkadotOracle.Lib.Mutate
import PolkadotOracle.Ocw.Types

/-! The grace period between the transactions of the price workers: the choice of a transaction type
updates the number of the last block that sent, and concurrent runs of it that send are spaced. -/

namespace PolkadotOracle.OcwPallet

open Scale Text
open Mutate (Update MutateError)

/-! ### The choice of a transaction type -/

inductive TransactionType
  | signed
  | unsignedForAny
  | unsignedForAll
  | raw
  | none
deriving DecidableEq, Repr

inductive StorageRetrievalError
  | undecodable
deriving DecidableEq, Repr

/-- The block of the last send, from what is in the local storage. -/
def getLastSend : Option Bytes → Except StorageRetrievalError (Option UInt32)
  | none => .ok none
  | some bs =>
    match u32.decode bs with
    | some (block, _) => .ok (some block)
    | none => .error .undecodable

/-- The next block of a last send; none within the grace period after the one before. -/
def nextSend (gracePeriod blockNumber : UInt32) :
    Except StorageRetrievalError (Option UInt32) → Except Unit UInt32
  | .ok (some block) =>
    if blockNumber < block + gracePeriod then .error () else .ok blockNumber
  | _ => .ok blockNumber

/-- The update of the last send by runs on some block numbers. -/
def lastSend (gracePeriod : UInt32) : Update Bytes Bytes UInt32 Unit UInt32 where
  key := utf8 "ocw-pallet::last_send".toList
  value blockNumber orig := nextSend gracePeriod blockNumber (getLastSend orig)
  encode := u32.encode

/-- The type that a run returns, from the result of its update. -/
def ocwDoChooseTransactionType : Except (MutateError Unit UInt32) UInt32 → TransactionType
  | .ok blockNumber =>
    let transactionType := blockNumber % 3
    if transactionType = 0 then .signed
    else if transactionType = 1 then .unsignedForAny
    else if transactionType = 2 then .unsignedForAll
    else .raw
  | .error (.valueFunctionFailed ()) => .none
  | .error (.concurrentModification _) => .none

abbrev Choice := Mutate.Run Bytes UInt32 Unit UInt32

abbrev Send := Mutate.Write Bytes UInt32 UInt32

/-- The local storage and the runs that choose a type. -/
abbrev Choices := Mutate.State Bytes Bytes UInt32 Unit UInt32

/-- The run has returned a type other than none. -/
def Sends (run : Choice) : Prop :=
  ∃ result, run.phase = .returned result ∧ ocwDoChooseTransactionType result ≠ .none

theorem chooses_none_iff (result : Except (MutateError Unit UInt32) UInt32) :
    ocwDoChooseTransactionType result = .none ↔ ∃ e, result = .error e := by
  cases result with
  | ok blockNumber =>
    simp only [ocwDoChooseTransactionType]
    repeat' split
    all_goals simp
  | error e => cases e <;> simp [ocwDoChooseTransactionType]

/-- A run sends exactly when its write succeeded. -/
theorem sends_iff {run : Choice} :
    Sends run ↔ ∃ blockNumber, run.phase = .returned (.ok blockNumber) := by
  constructor
  · rintro ⟨result, hphase, hsends⟩
    cases result with
    | ok blockNumber => exact ⟨blockNumber, hphase⟩
    | error e => exact absurd ((chooses_none_iff _).mpr ⟨e, rfl⟩) hsends
  · rintro ⟨blockNumber, hphase⟩
    refine ⟨_, hphase, ?_⟩
    rw [ne_eq, chooses_none_iff]
    simp

/-! ### Spacing -/

def NoOverflow (gracePeriod blockNumber : UInt32) : Prop :=
  blockNumber.toNat + gracePeriod.toNat < 2 ^ 32

instance (gracePeriod : UInt32) : DecidablePred (NoOverflow gracePeriod) :=
  fun _ => inferInstanceAs (Decidable (_ < _))

/-- A run that goes on is on the block that it writes, which is not within the grace period after
the one it has read. -/
theorem nextSend_ok {gracePeriod blockNumber value : UInt32}
    {last : Except StorageRetrievalError (Option UInt32)}
    (h : nextSend gracePeriod blockNumber last = .ok value) :
    value = blockNumber ∧ ∀ block, last = .ok (some block) → NoOverflow gracePeriod block →
      block.toNat + gracePeriod.toNat ≤ blockNumber.toNat := by
  unfold nextSend at h
  split at h
  next block =>
    split at h
    · contradiction
    next hlt =>
      refine ⟨(Except.ok.inj h).symm, ?_⟩
      rintro block' hblock hsmall
      obtain rfl : block = block' := by simpa using hblock
      unfold NoOverflow at hsmall
      rw [UInt32.lt_iff_toNat_lt, UInt32.toNat_add] at hlt
      omega
  next hother => exact ⟨(Except.ok.inj h).symm, fun block hblock => absurd hblock (hother block)⟩

/-- What a later write has read is the block of the earlier one or one after it, and the later block
is not within the grace period after it. -/
def Follows (gracePeriod : UInt32) (a b : Send) : Prop :=
  ∃ block, getLastSend b.orig = .ok (some block) ∧ a.input.toNat ≤ block.toNat ∧
    block.toNat + gracePeriod.toNat ≤ b.input.toNat

theorem Follows.trans {gracePeriod : UInt32} {a b c : Send}
    (hab : Follows gracePeriod a b) (hbc : Follows gracePeriod b c) : Follows gracePeriod a c := by
  obtain ⟨block, -, ha, hb⟩ := hab
  obtain ⟨block', hread, hb', hc⟩ := hbc
  exact ⟨block', hread, by omega, hc⟩

theorem getLastSend_encode (block : UInt32) :
    getLastSend (some (u32.encode block)) = .ok (some block) := by
  simp only [getLastSend, u32.decode_encode_self]

variable {gracePeriod : UInt32} {db : Store Bytes Bytes} {first : Option Bytes}
  {s : Choices}

theorem input_of_write (h : Mutate.Inv (lastSend gracePeriod) (NoOverflow gracePeriod) first s)
    {w : Send} (hw : w ∈ s.writes) : NoOverflow gracePeriod w.input :=
  h.inputs _ (List.mem_of_getElem? (h.writer w hw))

theorem writes_follow (h : Mutate.Inv (lastSend gracePeriod) (NoOverflow gracePeriod) first s) :
    s.writes.Pairwise (Follows gracePeriod) := by
  apply h.linked.pairwise (R := Follows gracePeriod) fun a b c => Follows.trans
  intro a ha b hb horig
  obtain ⟨hvalue, -⟩ := nextSend_ok (h.valid a ha)
  obtain ⟨-, hspaced⟩ := nextSend_ok (h.valid b hb)
  have hread : getLastSend b.orig = .ok (some a.input) := by
    rw [horig, hvalue]
    exact getLastSend_encode a.input
  exact ⟨a.input, hread, le_rfl, hspaced a.input hread (input_of_write h ha)⟩

/-- With a grace period, writes of which one follows the other have not read the same. -/
theorem Follows.reads_ne {a b : Send} (h : Follows gracePeriod a b)
    (ha : (lastSend gracePeriod).value a.input a.orig = .ok a.value) (hgrace : 0 < gracePeriod) :
    getLastSend a.orig ≠ getLastSend b.orig := by
  obtain ⟨block, hread, hle, hspaced⟩ := h
  intro hsame
  have hb := b.input.toNat_lt
  have hpos : 0 < gracePeriod.toNat := UInt32.lt_iff_toNat_lt.mp hgrace
  have hsmall : NoOverflow gracePeriod block := Nat.lt_of_le_of_lt hspaced hb
  have hafter := (nextSend_ok ha).2 block (hsame.trans hread) hsmall
  omega

/-- The runs that send are those whose writes are listed, in their order and each one once; the
block of a later one is not within the grace period after the block of an earlier one; and with a
grace period no two of them have read the same last send. -/
structure RespectsGrace (gracePeriod : UInt32) (s : Choices) : Prop where
  senders : ∀ i run, s.runs[i]? = some run → (Sends run ↔ i ∈ s.writes.map Mutate.Write.run)
  numbers : ∀ w ∈ s.writes, ∃ run, s.runs[w.run]? = some run ∧ run.input = w.input
  once : (s.writes.map Mutate.Write.run).Nodup
  spaced : s.writes.Pairwise fun a b =>
    a.input.toNat + gracePeriod.toNat ≤ b.input.toNat
  distinct : 0 < gracePeriod →
    s.writes.Pairwise fun a b => getLastSend a.orig ≠ getLastSend b.orig

/-- Every interleaving of runs, on any block numbers to which the grace period can be added and from
any storage, respects the grace period. -/
theorem gracePeriod_respected
    (h : Lts.ReachesBy (Mutate.step (lastSend gracePeriod))
      (fun _ l => l.Inputs (NoOverflow gracePeriod)) (Mutate.State.init db) s) :
    RespectsGrace gracePeriod s := by
  have hinv := Mutate.inv_of_reaches h
  have hfollow := writes_follow hinv
  constructor
  case senders =>
    intro i run hrun
    rw [sends_iff, List.mem_map]
    constructor
    · rintro ⟨blockNumber, hphase⟩
      have hreturned : s.runs[i]? = some ⟨run.input, .returned (.ok blockNumber)⟩ := by
        rw [hrun, ← hphase]
      exact hinv.written i run.input blockNumber hreturned
    · rintro ⟨w, hw, rfl⟩
      obtain rfl := Option.some.inj (hrun.symm.trans (hinv.writer w hw))
      exact ⟨w.value, rfl⟩
  case numbers => exact fun w hw => ⟨_, hinv.writer w hw, rfl⟩
  case once => exact hinv.nodup
  case spaced =>
    apply hfollow.imp
    rintro a b ⟨block, -, hle, hspaced⟩
    omega
  case distinct =>
    intro hgrace
    apply hfollow.imp_of_mem
    intro a b ha hb hab
    exact hab.reads_ne (hinv.valid a ha) hgrace

/-- Two runs on block 5 that read the same, one on block 6 after the first of them has written, and
one on block 8. -/
def sampleChoices : List (Mutate.Label Bytes Bytes UInt32) :=
  [.start 5, .start 5, .read 0, .read 1, .write 0, .write 1, .start 6, .read 2, .start 8, .read 3,
    .write 3]

instance : ∀ l : Mutate.Label Bytes Bytes UInt32, Decidable (l.Inputs (NoOverflow 3))
  | .start input => inferInstanceAs (Decidable (NoOverflow 3 input))
  | .read _ | .write _ | .other _ _ => inferInstanceAs (Decidable True)

theorem gracePeriod_respected_sample :
    ∃ s : Choices, RespectsGrace 3 s ∧ s.writes.map Mutate.Write.input = [5, 8] := by
  have hrun : (Lts.runBy (Mutate.step (lastSend 3)) (fun _ l => l.Inputs (NoOverflow 3))
      (.init Store.empty) sampleChoices).any
        (fun s => s.writes.map Mutate.Write.input == [5, 8]) = true := by decide
  obtain ⟨s, hs, hinputs⟩ := Lts.reachesBy_of_runBy hrun
  exact ⟨s, gracePeriod_respected hs, by simpa using hinputs⟩

end PolkadotOracle.OcwPallet
