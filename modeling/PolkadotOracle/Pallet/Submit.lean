import PolkadotOracle.Pallet.Calls

/-! What a submission of a result does: it is refused when its job has not finished, records the
value when it fits, and stops when it does not, with an error the first time and a panic after. -/

namespace PolkadotOracle

open Exec Frame Scale

variable {T : Config} {s : State T} {key value rest : Bytes} {onchainKey : Hash} {job : OcwJob T}

/-- The state after a value that fits has been recorded. -/
def State.record (s : State T) (onchainKey : Hash) (processorPub : Public)
    (resultData : BoundedVec T.maxResultSize.toNat) (extTime : UInt32) : State T :=
  { s with
    scriptResult := s.scriptResult.insert (onchainKey, processorPub) ⟨resultData, extTime⟩ }

theorem submitResultUnsiged_badOrigin {origin : Origin T} (h : origin ≠ .none)
    (blockNumber : Nat) (processorPub : Public) (extTime : UInt32) :
    submitResultUnsiged origin blockNumber key value processorPub extTime s =
      .error .badOrigin s := by
  cases origin with
  | none => exact absurd rfl h
  | root => rfl
  | signed who => rfl

theorem submitResultUnsiged_badKey (h : (fixedBytes 32).decode key = none) (blockNumber : Nat)
    (processorPub : Public) (extTime : UInt32) :
    submitResultUnsiged .none blockNumber key value processorPub extTime s =
      .error (.panic "DEcode hash work baby") s := by
  simp only [submitResultUnsiged, bind_apply, ensureNone_none, h, orFault_none]

theorem submitResultUnsiged_noJob (hkey : (fixedBytes 32).decode key = some (onchainKey, rest))
    (hjob : s.jobQueue.lookup onchainKey = none) (blockNumber : Nat) (processorPub : Public)
    (extTime : UInt32) :
    submitResultUnsiged .none blockNumber key value processorPub extTime s = .ok () s := by
  simp only [submitResultUnsiged, bind_apply, ensureNone_none, hkey, orFault_some, get_apply, hjob,
    pure_apply]

theorem submitResultUnsiged_unfinished
    (hkey : (fixedBytes 32).decode key = some (onchainKey, rest))
    (hjob : s.jobQueue.lookup onchainKey = some job) (hstate : job.state ≠ .finish)
    (blockNumber : Nat) (processorPub : Public) (extTime : UInt32) :
    submitResultUnsiged .none blockNumber key value processorPub extTime s =
      .error (.module .invalidOperation) s := by
  simp only [submitResultUnsiged, bind_apply, ensureNone_none, hkey, orFault_some, get_apply, hjob,
    ensure_apply, if_neg hstate]

theorem submitResultUnsiged_fits (hkey : (fixedBytes 32).decode key = some (onchainKey, rest))
    (hjob : s.jobQueue.lookup onchainKey = some job) (hstate : job.state = .finish)
    (hsize : value.length ≤ T.maxResultSize.toNat) (blockNumber : Nat) (processorPub : Public)
    (extTime : UInt32) :
    submitResultUnsiged .none blockNumber key value processorPub extTime s =
      .ok () (s.record onchainKey processorPub (.ofLe value hsize) extTime) := by
  simp only [submitResultUnsiged, bind_apply, ensureNone_none, hkey, orFault_some, get_apply, hjob,
    ensure_apply, if_pos hstate]
  cases s.scriptResult.lookup (onchainKey, processorPub) <;>
    simp only [BoundedVec.tryFrom_of_le hsize, bind_apply, orFault_some, modify_apply] <;> rfl

/-- A value that is too long is an error the first time, and a panic once the processor has a
result. -/
theorem submitResultUnsiged_tooLong (hkey : (fixedBytes 32).decode key = some (onchainKey, rest))
    (hjob : s.jobQueue.lookup onchainKey = some job) (hstate : job.state = .finish)
    (hsize : ¬value.length ≤ T.maxResultSize.toNat) (blockNumber : Nat) (processorPub : Public)
    (extTime : UInt32) :
    submitResultUnsiged .none blockNumber key value processorPub extTime s =
      .error (if s.scriptResult.lookup (onchainKey, processorPub) = none then .module .sizeTooBig
        else .panic "Oversize") s := by
  simp only [submitResultUnsiged, bind_apply, ensureNone_none, hkey, orFault_some, get_apply, hjob,
    ensure_apply, if_pos hstate]
  cases s.scriptResult.lookup (onchainKey, processorPub) <;>
    simp only [BoundedVec.tryFrom_of_not_le hsize, bind_apply, orFault_none] <;> simp

end PolkadotOracle
