import PolkadotOracle.Lib.Scale

/-! The records that the worker and the executor exchange through local storage: requests for a
job's execution and responses with its result, both stored under the job's id. -/

namespace PolkadotOracle

open Scale

/-- A 32-byte hash, such as a job id. -/
abbrev Hash := FixedBytes 32

abbrev Public := FixedBytes 32

def Hash.isClear (h : Hash) : Bool := decide (h = FixedBytes.zero 32)

inductive JobState
  | idling
  | pending
  | processing
  | finish
deriving DecidableEq, Repr

instance : Inhabited JobState := ⟨.idling⟩

namespace JobState

def index : JobState → UInt8
  | idling => 0
  | pending => 1
  | processing => 2
  | finish => 3

def ofIndex (b : UInt8) : Option JobState :=
  if b = 0 then some idling
  else if b = 1 then some pending
  else if b = 2 then some processing
  else if b = 3 then some finish
  else none

def codec : Codec JobState := Codec.enum index ofIndex (by intro s; cases s <;> rfl)

end JobState

instance : Inhabited Vec := ⟨⟨[], Nat.zero_le _⟩⟩

structure RequestPayload where
  jobId : Vec
  jobContent : Vec
  contentAbi : Vec
  jobState : JobState
deriving DecidableEq

instance : Inhabited RequestPayload := ⟨⟨default, default, default, default⟩⟩

def RequestPayload.codec : Codec RequestPayload :=
  (vec.prod (vec.prod (vec.prod JobState.codec))).map
    (fun (jobId, jobContent, contentAbi, jobState) => ⟨jobId, jobContent, contentAbi, jobState⟩)
    (fun p => (p.jobId, p.jobContent, p.contentAbi, p.jobState)) fun _ => rfl

structure ResponePayload where
  jobId : Vec
  jobResult : Vec
  jobState : JobState
  address : Public
  exeTime : UInt32
deriving DecidableEq

def ResponePayload.codec : Codec ResponePayload :=
  (vec.prod (vec.prod (JobState.codec.prod ((fixedBytes 32).prod u32)))).map
    (fun (jobId, jobResult, jobState, address, exeTime) =>
      ⟨jobId, jobResult, jobState, address, exeTime⟩)
    (fun p => (p.jobId, p.jobResult, p.jobState, p.address, p.exeTime)) fun _ => rfl

/-- What a record holds when it is read as a request. -/
def RequestPayload.decode (record : Bytes) : Option RequestPayload :=
  (RequestPayload.codec.decode record).map Prod.fst

def ResponePayload.decode (record : Bytes) : Option ResponePayload :=
  (ResponePayload.codec.decode record).map Prod.fst

@[simp] theorem RequestPayload.decode_encode (p : RequestPayload) :
    RequestPayload.decode (RequestPayload.codec.encode p) = some p := by
  simp [RequestPayload.decode, Codec.decode_encode_self]

@[simp] theorem ResponePayload.decode_encode (q : ResponePayload) :
    ResponePayload.decode (ResponePayload.codec.encode q) = some q := by
  simp [ResponePayload.decode, Codec.decode_encode_self]

/-- The state, the address and the time of a finished response read as the start of a vector that
is longer than the record: the state's byte announces a length of at least `2 ^ 30`. -/
theorem RequestPayload.decode_finished {q : ResponePayload} (hq : q.jobState = .finish) :
    RequestPayload.decode (ResponePayload.codec.encode q) = none := by
  have hrest : vec.decode (3 :: (q.address.val ++ u32.encode q.exeTime)) = none := by
    apply vec_decode_three
    have haddr := q.address.property
    simp [u32, haddr]
  have hencode : ResponePayload.codec.encode q = vec.encode q.jobId ++ (vec.encode q.jobResult ++
      (3 :: (q.address.val ++ u32.encode q.exeTime))) := by
    show vec.encode q.jobId ++ (vec.encode q.jobResult ++ ([q.jobState.index] ++ _)) = _
    rw [hq]
    rfl
  simp [RequestPayload.decode, RequestPayload.codec, Codec.map, Codec.prod, hencode,
    vec.decode_encode, hrest]

end PolkadotOracle
