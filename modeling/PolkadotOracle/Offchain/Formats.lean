import PolkadotOracle.Offchain.Records

/-! Requests and responses lie under the same keys, and each reader tells them apart by the failure
of its decoder: a finished response never reads as a request, but a request reads as a response when
the length of its ABI is read as a job state. -/

namespace PolkadotOracle

open Scale

variable {T : Config}

/-! ### Responses read as requests -/

/-- A finished response does not decode as a request, and the task that the executor spawns for it
ends without handing anything to the runner. -/
theorem finished_not_request {p : ResponePayload} (hfinish : p.jobState = .finish) :
    RequestPayload.decode (ResponePayload.codec.encode p) = none ∧
    ∀ (db : Db) (i : Bytes) (keyList : List Bytes),
      db.get i = some (ResponePayload.codec.encode p) →
      ∀ task ∈ (offChainMonitor db (.spawning (i :: keyList))).2.2,
        ∀ outcome, processTask outcome task = .ended := by
  have hdecode := RequestPayload.decode_finished hfinish
  refine ⟨hdecode, fun db i keyList hget task htask outcome => ?_⟩
  have hspawned : (offChainMonitor db (.spawning (i :: keyList))).2.2 =
      [.spawned (some (ResponePayload.codec.encode p))] := by
    rw [offChainMonitor, hget]
  rw [hspawned] at htask
  obtain rfl := List.mem_singleton.mp htask
  simp only [processTask, hdecode]

def sampleRespone : ResponePayload where
  jobId := ⟨[1], by decide⟩
  jobResult := ⟨[7], by decide⟩
  jobState := .finish
  address := FixedBytes.zero 32
  exeTime := 5

theorem finished_not_request_sample :
    let db : Db := Store.empty.set [1] (ResponePayload.codec.encode sampleRespone)
    RequestPayload.decode (ResponePayload.codec.encode sampleRespone) = none ∧
    ∀ task ∈ (offChainMonitor db (.spawning [[1]])).2.2, processTask none task = .ended := by
  obtain ⟨hdecode, htask⟩ := finished_not_request (show sampleRespone.jobState = .finish from rfl)
  exact ⟨hdecode, fun task hmem => htask _ [1] [] (by simp) task hmem none⟩

/-! ### Requests read as responses -/

theorem JobState.ofIndex_eq_none {b : UInt8} : JobState.ofIndex b = none ↔ 4 ≤ b.toNat := by
  have hzero : b = 0 ↔ b.toNat = 0 := UInt8.toNat_inj.symm
  have hone : b = 1 ↔ b.toNat = 1 := UInt8.toNat_inj.symm
  have htwo : b = 2 ↔ b.toNat = 2 := UInt8.toNat_inj.symm
  have hthree : b = 3 ↔ b.toNat = 3 := UInt8.toNat_inj.symm
  unfold JobState.ofIndex
  simp only [hzero, hone, htwo, hthree]
  split_ifs
  · exact iff_of_false nofun (by omega)
  · exact iff_of_false nofun (by omega)
  · exact iff_of_false nofun (by omega)
  · exact iff_of_false nofun (by omega)
  · exact iff_of_true rfl (by omega)

/-- A compact length starts with the index of a job state when it is a multiple of 64, whose first
byte holds the mode alone, or takes five bytes. -/
theorem ofIndex_compactHead (n : Nat) :
    JobState.ofIndex (compactHead n) = none ↔ n % 64 ≠ 0 ∧ n < 2 ^ 30 := by
  rw [JobState.ofIndex_eq_none]
  unfold compactHead
  split_ifs with h6 h14 h30
  · rw [UInt8.toNat_ofNat']
    omega
  · rw [UInt8.toNat_ofNat']
    omega
  · rw [UInt8.toNat_ofNat']
    omega
  · simp
    omega

/-- What follows the result in a response: the state, the address and the time. -/
theorem decode_state_eq_none (b : UInt8) (rest : Bytes) :
    (JobState.codec.prod ((fixedBytes 32).prod u32)).decode (b :: rest) = none ↔
      JobState.ofIndex b = none ∨ rest.length < 36 := by
  cases hstate : JobState.ofIndex b with
  | none => simp [Codec.prod, JobState.codec, Codec.enum, hstate]
  | some state =>
    by_cases haddress : 32 ≤ rest.length
    · by_cases htime : 4 ≤ rest.length - 32
      · refine iff_of_false ?_ (by simp; omega)
        simp [Codec.prod, JobState.codec, Codec.enum, hstate, fixedBytes, haddress, u32, take,
          htime]
      · refine iff_of_true ?_ (by simp; omega)
        simp [Codec.prod, JobState.codec, Codec.enum, hstate, fixedBytes, haddress, u32, take,
          htime]
    · refine iff_of_true ?_ (by simp; omega)
      simp [Codec.prod, JobState.codec, Codec.enum, hstate, fixedBytes, haddress]

theorem ResponePayload.decode_request (r : RequestPayload) :
    ResponePayload.decode (RequestPayload.codec.encode r) = none ↔
      (JobState.codec.prod ((fixedBytes 32).prod u32)).decode
        (vec.encode r.contentAbi ++ JobState.codec.encode r.jobState) = none := by
  have hencode : RequestPayload.codec.encode r = vec.encode r.jobId ++ (vec.encode r.jobContent ++
      (vec.encode r.contentAbi ++ JobState.codec.encode r.jobState)) := rfl
  simp only [ResponePayload.decode, hencode, ResponePayload.codec, Codec.map,
    Codec.prod_decode_append, Option.map_eq_none_iff]

/-- The ABI of a request is empty, or its length is no multiple of 64 and below `2 ^ 30`. -/
def RequestPayload.Apart (r : RequestPayload) : Prop :=
  r.contentAbi.val.length = 0 ∨
    r.contentAbi.val.length % 64 ≠ 0 ∧ r.contentAbi.val.length < 2 ^ 30

theorem ResponePayload.decode_request_iff (r : RequestPayload) :
    ResponePayload.decode (RequestPayload.codec.encode r) = none ↔ r.Apart := by
  have hencode : vec.encode r.contentAbi ++ JobState.codec.encode r.jobState =
      compactHead r.contentAbi.val.length :: ((compact r.contentAbi.val.length).tail ++
        (r.contentAbi.val ++ [r.jobState.index])) := by
    show (compact _ ++ _) ++ _ = _
    rw [compact_eq_cons]
    simp
    rfl
  rw [ResponePayload.decode_request, hencode, decode_state_eq_none, ofIndex_compactHead]
  simp only [List.length_append, List.length_singleton, RequestPayload.Apart]
  constructor
  · rintro (h | h)
    · exact .inr h
    · omega
  · rintro (h | h)
    · apply Or.inr
      rw [h]
      decide
    · exact .inl h

/-- A request does not decode as a response, and the result loop submits nothing for an id under
which it lies. -/
structure NotResponse (T : Config) (r : RequestPayload) : Prop where
  decode : ResponePayload.decode (RequestPayload.codec.encode r) = none
  submitsNothing : ∀ (db : Db) (blockNumber : Nat) (jobs : Entries T) (resultKey : Bytes)
    (resultKeys : List Bytes) (submit : Call → Bool),
    db.get resultKey = some (RequestPayload.codec.encode r) →
    offchainWorker submit db ⟨blockNumber, jobs, .submitting (resultKey :: resultKeys)⟩ =
      (db, .submitting resultKeys, [])

theorem notResponse_iff (T : Config) (r : RequestPayload) : NotResponse T r ↔ r.Apart := by
  rw [← ResponePayload.decode_request_iff]
  constructor
  · exact NotResponse.decode
  · intro hdecode
    refine ⟨hdecode, fun db blockNumber jobs resultKey resultKeys submit hget => ?_⟩
    simp only [offchainWorker, hget, Option.bind_some, hdecode]

/-- A request with an ABI of 64 spaces. -/
def sampleMistaken : RequestPayload where
  jobId := sampleJob.key.toVec
  jobContent := ⟨[7], by decide⟩
  contentAbi := ⟨List.replicate 64 32, by decide⟩
  jobState := .pending

/-- A request whose ABI has 64 bytes is taken for a pending response, whose address and time are the
ABI's own bytes. -/
theorem request_taken :
    ResponePayload.decode (RequestPayload.codec.encode sampleMistaken) =
      some ⟨sampleMistaken.jobId, sampleMistaken.jobContent, .pending,
        ⟨1 :: List.replicate 31 32, rfl⟩, 0x20202020⟩ ∧
    ¬NotResponse sampleRuntime sampleMistaken := by
  have hdecode : ResponePayload.decode (RequestPayload.codec.encode sampleMistaken) =
      some ⟨sampleMistaken.jobId, sampleMistaken.jobContent, .pending,
        ⟨1 :: List.replicate 31 32, rfl⟩, 0x20202020⟩ := by
    decide +kernel
  exact ⟨hdecode, fun h => nomatch hdecode.symm.trans h.decode⟩

end PolkadotOracle
