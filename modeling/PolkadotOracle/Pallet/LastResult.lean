import PolkadotOracle.Lib.Register
import PolkadotOracle.Pallet.StateCount

/-! Which result the chain holds: the last one that was submitted for a finished job, and nothing of
the submissions that came too early, were signed, had no key in them or did not fit. -/

namespace PolkadotOracle

open Exec Scale Register

variable {T : Config}

/-- The result that a step submits for a job and a processor. -/
def ChainLabel.result (key : Hash) (pub : Public) : ChainLabel T → Option (SignedScriptResult T)
  | .call .none (.submitResultUnsiged _ key' value processorPub extTime) =>
    if ((fixedBytes 32).decode key').map Prod.fst = some key ∧ processorPub = pub then
      (BoundedVec.tryFrom T.maxResultSize.toNat value).map (⟨·, extTime⟩)
    else none
  | _ => none

/-- The queue has the job, and it has finished. -/
def State.HasFinished (s : State T) (key : Hash) : Prop :=
  ∃ job, s.jobQueue.lookup key = some job ∧ job.state = .finish

variable {s s' : State T} {key : Hash} {pub : Public} {l : ChainLabel T}
  {result : SignedScriptResult T}

theorem State.HasFinished.step (h : s.HasFinished key) (hstep : chainStep s l = some s') :
    s'.HasFinished key := by
  obtain ⟨job, hjob, hfinish⟩ := h
  refine ⟨_, chainStep_lookup hstep hjob, ?_⟩
  split
  · exact congrArg JobState.advance hfinish
  · exact hfinish

theorem ChainLabel.result_eq_some (h : l.result key pub = some result) :
    ∃ blockNumber key' rest, (fixedBytes 32).decode key' = some (key, rest) ∧
      l = .call .none
        (.submitResultUnsiged blockNumber key' result.resultData.val pub result.extTime) := by
  unfold ChainLabel.result at h
  split at h
  case h_2 => contradiction
  case h_1 blockNumber key' value processorPub extTime =>
    split at h
    case isFalse => contradiction
    case isTrue hplace =>
      obtain ⟨hdecodes, rfl⟩ := hplace
      obtain ⟨⟨_, rest⟩, hkey, rfl⟩ := Option.map_eq_some_iff.mp hdecodes
      obtain ⟨resultData, hdata, rfl⟩ := Option.map_eq_some_iff.mp h
      obtain rfl := BoundedVec.tryFrom_eq_some.mp hdata
      exact ⟨blockNumber, key', rest, hkey, rfl⟩

theorem scriptResult_writes (h : chainStep s l = some s') (hfinished : s.HasFinished key)
    (hresult : l.result key pub = some result) :
    s'.scriptResult.lookup (key, pub) = some result := by
  obtain ⟨job, hjob, hfinish⟩ := hfinished
  obtain ⟨blockNumber, key', rest, hkey, rfl⟩ := ChainLabel.result_eq_some hresult
  obtain rfl := Option.some.inj h
  have hdispatch : (Call.submitResultUnsiged blockNumber key' result.resultData.val pub
      result.extTime).dispatch .none s = _ :=
    submitResultUnsiged_fits hkey hjob hfinish result.resultData.property blockNumber pub
      result.extTime
  rw [State.call, hdispatch]
  exact Finmap.lookup_insert _

theorem scriptResult_keeps (h : chainStep s l = some s')
    (hnone : s.HasFinished key → l.result key pub = none) :
    s'.scriptResult.lookup (key, pub) = s.scriptResult.lookup (key, pub) := by
  cases l with
  | block invulnerables =>
    obtain rfl := Option.some.inj h
    rfl
  | call origin c =>
  have heffect := call_effect s origin c
  obtain rfl := Option.some.inj h
  generalize s.call origin c = s' at heffect
  cases heffect with
  | @record blockNumber key' value rest processorPub extTime onchainKey job resultData hkey hjob
      hfinish hdata =>
    apply Finmap.lookup_insert_of_ne
    intro hplace
    obtain ⟨rfl, rfl⟩ := Prod.mk.inj hplace
    have hresult := hnone ⟨job, hjob, hfinish⟩
    simp [ChainLabel.result, hkey, BoundedVec.tryFrom_eq_some.mpr hdata] at hresult
  | _ => rfl

/-- The results of a processor for a job are a register that the submissions write once the job has
finished. -/
theorem scriptResult_register (key : Hash) (pub : Public) :
    IsRegister (chainStep (T := T)) (fun s => s.scriptResult.lookup (key, pub))
      (State.HasFinished · key) (ChainLabel.result key pub) where
  writes _ _ _ _ hstep hfinished hresult := scriptResult_writes hstep hfinished hresult
  keeps _ _ _ hstep hnone := scriptResult_keeps hstep hnone
  stable _ _ _ hstep hfinished := hfinished.step hstep

/-- After any run from a new chain, a result is the one that was submitted last for its job and
processor, among the submissions that the chain has taken: the job had finished before, and no
later submission has a value that fits. -/
theorem scriptResult_last {ls : List (ChainLabel T)}
    (h : Lts.run chainStep (State.genesis T) ls = some s) (key : Hash) (pub : Public)
    (result : SignedScriptResult T) :
    s.scriptResult.lookup (key, pub) = some result ↔
      ∃ before l after s₁, ls = before ++ l :: after ∧
        Lts.run chainStep (State.genesis T) before = some s₁ ∧
        (∃ job, s₁.jobQueue.lookup key = some job ∧ job.state = .finish) ∧
        l.result key pub = some result ∧ ∀ l' ∈ after, l'.result key pub = none :=
  (scriptResult_register key pub).read_run_iff rfl h

/-- A submission of a value for the sample job. -/
def sampleSubmit (origin : Origin sampleRuntime) (value : Bytes) : ChainLabel sampleRuntime :=
  .call origin (.submitResultUnsiged 0 sampleJob.key.val value (FixedBytes.zero 32) 5)

/-- Submissions before and after the job has finished, and a signed one. -/
def sampleSubmitting : List (ChainLabel sampleRuntime) :=
  [.call (.signed (1 : UInt32)) (.uploadWasm ['a'] .executable [1, 2] [3]),
    .call (.signed (1 : UInt32)) (.requestScriptExecution ['E', 'X', 'E', 'a'] none),
    .call .none (.changeJobState 0 sampleJob.key), sampleSubmit .none [9],
    .call .none (.changeJobState 0 sampleJob.key), sampleSubmit .none [7]]

theorem scriptResult_last_sample : ∃ s result, Lts.run chainStep (State.genesis sampleRuntime)
      (sampleSubmitting ++ [sampleSubmit .none [8], sampleSubmit (.signed (1 : UInt32)) [6]]) =
        some s ∧
    result.resultData.val = [8] ∧
    s.scriptResult.lookup (sampleJob.key, FixedBytes.zero 32) = some result := by
  have hbefore : (Lts.run chainStep (State.genesis sampleRuntime) sampleSubmitting).any
      (fun s => (s.jobQueue.lookup sampleJob.key).any (·.state = .finish)) = true := by
    decide +kernel
  obtain ⟨s₁, hs₁, hany⟩ := (Option.any_eq_true _ _).mp hbefore
  obtain ⟨job, hjob, hfinish⟩ := (Option.any_eq_true _ _).mp hany
  have hend : Lts.run chainStep (State.genesis sampleRuntime)
      (sampleSubmitting ++ [sampleSubmit .none [8], sampleSubmit (.signed (1 : UInt32)) [6]]) =
        some ((s₁.call .none (.submitResultUnsiged 0 sampleJob.key.val [8] (FixedBytes.zero 32)
          5)).call (.signed (1 : UInt32))
            (.submitResultUnsiged 0 sampleJob.key.val [6] (FixedBytes.zero 32) 5)) := by
    rw [Lts.run_append, hs₁]
    rfl
  refine ⟨_, ⟨⟨[8], by decide⟩, 5⟩, hend, rfl, (scriptResult_last hend _ _ _).mpr ?_⟩
  refine ⟨sampleSubmitting, sampleSubmit .none [8], [sampleSubmit (.signed (1 : UInt32)) [6]], s₁,
    rfl, hs₁, ⟨job, hjob, of_decide_eq_true hfinish⟩, by decide +kernel, ?_⟩
  intro l' hmem
  rw [List.mem_singleton.mp hmem]
  rfl

end PolkadotOracle
