import PolkadotOracle.Pallet.Admission

/-! Submissions of results that the workers repeat: what a list of them leaves depends on neither
their order nor how often each is made. -/

namespace PolkadotOracle

open Scale

variable {T : Config}

/-- A submission whose key is a hash and whose value fits. -/
structure Submission (T : Config) where
  origin : Origin T
  blockNumber : Nat
  key : Bytes
  value : Bytes
  processorPub : Public
  extTime : UInt32
  decodes : ((fixedBytes 32).decode key).isSome
  fits : value.length ≤ T.maxResultSize.toNat

namespace Submission

def call (c : Submission T) : Call :=
  .submitResultUnsiged c.blockNumber c.key c.value c.processorPub c.extTime

def onchainKey (c : Submission T) : Hash := (((fixedBytes 32).decode c.key).get c.decodes).1

theorem decode_key (c : Submission T) :
    (fixedBytes 32).decode c.key =
      some (c.onchainKey, (((fixedBytes 32).decode c.key).get c.decodes).2) := by
  rw [onchainKey, Prod.mk.eta, Option.some_get]

/-- Where a result is stored. -/
def place (c : Submission T) : Hash × Public := (c.onchainKey, c.processorPub)

/-- What a submission writes: its value, when it is unsigned and its job has finished. -/
def write (queue : Finmap fun _ : Hash => OcwJob T) (c : Submission T) :
    Option ((Hash × Public) × SignedScriptResult T) :=
  match c.origin with
  | .none => (queue.lookup c.onchainKey).bind fun job =>
    if job.state = .finish then some (c.place, ⟨.ofLe c.value c.fits, c.extTime⟩) else none
  | _ => none

theorem write_badOrigin {c : Submission T} (h : c.origin ≠ .none)
    (queue : Finmap fun _ : Hash => OcwJob T) : c.write queue = none := by
  unfold write
  cases horigin : c.origin with
  | none => exact absurd horigin h
  | _ => rfl

theorem write_unsigned {c : Submission T} (h : c.origin = .none)
    (queue : Finmap fun _ : Hash => OcwJob T) :
    c.write queue = (queue.lookup c.onchainKey).bind fun job =>
      if job.state = .finish then some (c.place, ⟨.ofLe c.value c.fits, c.extTime⟩) else none := by
  unfold write
  rw [h]

/-- The first submission of a processor and a later one write the same, and one that fails writes
nothing. -/
theorem call_write (c : Submission T) (s : State T) :
    s.call c.origin c.call =
      { s with scriptResult := s.scriptResult.insertAll (c.write s.jobQueue).toList } := by
  have hkey := c.decode_key
  by_cases horigin : c.origin = .none
  case neg =>
    have hdispatch : c.call.dispatch c.origin s = .error .badOrigin s :=
      submitResultUnsiged_badOrigin horigin c.blockNumber c.processorPub c.extTime
    rw [State.call, hdispatch, write_badOrigin horigin]
    rfl
  rw [write_unsigned horigin, horigin]
  cases hjob : s.jobQueue.lookup c.onchainKey with
  | none =>
    have hdispatch : c.call.dispatch .none s = .ok () s :=
      submitResultUnsiged_noJob hkey hjob c.blockNumber c.processorPub c.extTime
    rw [State.call, hdispatch]
    rfl
  | some job =>
    by_cases hfinish : job.state = .finish
    · have hdispatch : c.call.dispatch .none s =
          .ok () (s.record c.onchainKey c.processorPub (.ofLe c.value c.fits) c.extTime) :=
        submitResultUnsiged_fits hkey hjob hfinish c.fits c.blockNumber c.processorPub c.extTime
      rw [State.call, hdispatch, Option.bind_some, if_pos hfinish]
      rfl
    · have hdispatch : c.call.dispatch .none s = .error (.module .invalidOperation) s :=
        submitResultUnsiged_unfinished hkey hjob hfinish c.blockNumber c.processorPub c.extTime
      rw [State.call, hdispatch, Option.bind_some, if_neg hfinish]
      rfl

theorem write_eq_some {queue : Finmap fun _ : Hash => OcwJob T} {c : Submission T}
    {place : Hash × Public} {result : SignedScriptResult T}
    (h : c.write queue = some (place, result)) :
    place = c.place ∧ result = ⟨.ofLe c.value c.fits, c.extTime⟩ := by
  by_cases horigin : c.origin = .none
  case neg =>
    rw [write_badOrigin horigin] at h
    contradiction
  rw [write_unsigned horigin, Option.bind_eq_some_iff] at h
  obtain ⟨job, -, hjob⟩ := h
  by_cases hfinish : job.state = .finish
  · rw [if_pos hfinish] at hjob
    exact Prod.mk.inj (Option.some.inj hjob.symm)
  · rw [if_neg hfinish] at hjob
    contradiction

end Submission

/-- The state after the submissions, one after the other. -/
def State.submitAll (s : State T) (submissions : List (Submission T)) : State T :=
  submissions.foldl (fun s c => s.call c.origin c.call) s

/-- All submissions of a processor for a job have the same value and time. -/
def Consistent (submissions : List (Submission T)) : Prop :=
  ∀ c ∈ submissions, ∀ c' ∈ submissions, c.place = c'.place →
    c.value = c'.value ∧ c.extTime = c'.extTime

/-- No submission touches the queue, so what each of them writes is known at the start. -/
theorem submitAll_eq (s : State T) (submissions : List (Submission T)) :
    s.submitAll submissions = { s with
      scriptResult := s.scriptResult.insertAll
        (submissions.filterMap (Submission.write s.jobQueue)) } := by
  induction submissions generalizing s with
  | nil => rfl
  | cons c submissions ih =>
    have hstep : s.submitAll (c :: submissions) =
        (s.call c.origin c.call).submitAll submissions := rfl
    rw [hstep, ih, c.call_write]
    cases hwrite : c.write s.jobQueue with
    | none => rw [List.filterMap_cons_none hwrite]; rfl
    | some p => rw [List.filterMap_cons_some hwrite]; rfl

theorem Consistent.writes {submissions : List (Submission T)} (h : Consistent submissions)
    (queue : Finmap fun _ : Hash => OcwJob T) (place : Hash × Public)
    (result result' : SignedScriptResult T)
    (hmem : (place, result) ∈ submissions.filterMap (Submission.write queue))
    (hmem' : (place, result') ∈ submissions.filterMap (Submission.write queue)) :
    result' = result := by
  obtain ⟨c, hc, hwrite⟩ := List.mem_filterMap.mp hmem
  obtain ⟨c', hc', hwrite'⟩ := List.mem_filterMap.mp hmem'
  obtain ⟨hplace, rfl⟩ := Submission.write_eq_some hwrite
  obtain ⟨hplace', rfl⟩ := Submission.write_eq_some hwrite'
  obtain ⟨hvalue, htime⟩ := h c hc c' hc' (hplace.symm.trans hplace')
  simp only [hvalue, htime]

/-- Consistent submissions leave the same state in any order and in any number, and the queue as it
was. -/
theorem resubmission_harmless (s : State T) {submissions submissions' : List (Submission T)}
    (hconsistent : Consistent submissions)
    (hsame : ∀ c, c ∈ submissions' ↔ c ∈ submissions) :
    (s.submitAll submissions').scriptResult = (s.submitAll submissions).scriptResult ∧
    (s.submitAll submissions).jobQueue = s.jobQueue ∧
    (s.submitAll submissions').jobQueue = s.jobQueue := by
  rw [submitAll_eq s submissions, submitAll_eq s submissions']
  refine ⟨?_, rfl, rfl⟩
  refine Finmap.insertAll_congr (hconsistent.writes s.jobQueue) (fun p => ?_) _
  simp only [List.mem_filterMap, hsame]

/-- A submission for the job with a key. -/
def sampleSubmission (key : Hash) (value : UInt8) : Submission sampleRuntime where
  origin := .none
  blockNumber := 0
  key := key.val
  value := [value]
  processorPub := FixedBytes.zero 32
  extTime := 5
  decodes := by
    have hkey : (fixedBytes 32).decode key.val = _ := (fixedBytes 32).decode_encode_self key
    rw [hkey]
    rfl
  fits := by simp; decide

/-- Submissions for the finished sample job, and one between them for no job. -/
theorem resubmission_harmless_sample :
    let first := sampleSubmission sampleJob.key 9
    let other := sampleSubmission sampleNoJob 3
    (sampleResult.submitAll [other, first, first]).scriptResult =
      (sampleResult.submitAll [first, other]).scriptResult := by
  intro first other
  refine (resubmission_harmless sampleResult ?_ ?_).1
  · have hkeys : first.place ≠ other.place := by decide
    intro c hc c' hc' hplace
    simp only [List.mem_cons, List.not_mem_nil, or_false] at hc hc'
    rcases hc with rfl | rfl <;> rcases hc' with rfl | rfl
    · exact ⟨rfl, rfl⟩
    · exact absurd hplace hkeys
    · exact absurd hplace.symm hkeys
    · exact ⟨rfl, rfl⟩
  · intro c
    simp only [List.mem_cons, List.not_mem_nil, or_false]
    tauto

end PolkadotOracle
