import PolkadotOracle.Lib.Store
import PolkadotOracle.Offchain.Handler

/-! The off-chain side of one node: its local storage, the runs of the worker, the executor with the
tasks that it spawns, and the result listener.  A step is one access to local storage, one message,
or one move of a task; what a step computes on its own values happens within it. -/

namespace PolkadotOracle

open Scale Sequence Text

abbrev Db := Store Bytes Bytes

def wasmstoreKeyList : Bytes := utf8 "wasmstore_jobs_executor".toList

def wasmstoreResultList : Bytes := utf8 "wasmstore_jobs_result".toList

/-- The key under which the executor leaves its public key. -/
def identity : Bytes := utf8 "identity".toList

inductive StorageError
  | failToWrite
  | parsingError
  | noPendingPayloadFound
  | wasmProcessingError
  | jobExist
deriving DecidableEq, Repr

/-! ### Writing to the database -/

/-- Where a `write_to_offchain_db` stands: before its read, or before one of its two writes. -/
inductive WriteDb
  | get
  | compareAndSet (val : Bytes)
  | set
deriving DecidableEq

inductive Write
  | running (pc : WriteDb)
  | returned (res : Except StorageError Unit)

def writeToOffchainDb (db : Db) (key newValue : Bytes) : WriteDb → Db × Write
  | .get =>
    match db.get key with
    | some val => (db, .running (.compareAndSet val))
    | none => (db, .running .set)
  | .compareAndSet val =>
    match db.compareAndSet key (some val) newValue with
    | (db, true) => (db, .returned (.ok ()))
    | (db, false) => (db, .returned (.error .failToWrite))
  | .set => (db.set key newValue, .returned (.ok ()))

/-- All that a step of `write_to_offchain_db` can do. -/
inductive WriteMove (db : Db) (key newValue : Bytes) : WriteDb → Db → Write → Prop
  | found (val : Bytes) (hget : db.get key = some val) :
      WriteMove db key newValue .get db (.running (.compareAndSet val))
  | absent (hget : db.get key = none) : WriteMove db key newValue .get db (.running .set)
  | swapped (val : Bytes) (hget : db.get key = some val) :
      WriteMove db key newValue (.compareAndSet val) (db.set key newValue) (.returned (.ok ()))
  | missed (val : Bytes) (hget : db.get key ≠ some val) :
      WriteMove db key newValue (.compareAndSet val) db (.returned (.error .failToWrite))
  | created : WriteMove db key newValue .set (db.set key newValue) (.returned (.ok ()))

theorem writeToOffchainDb_move (db : Db) (key newValue : Bytes) (pc : WriteDb) :
    WriteMove db key newValue pc (writeToOffchainDb db key newValue pc).1
      (writeToOffchainDb db key newValue pc).2 := by
  cases pc with
  | get =>
    cases hget : db.get key with
    | none => simpa [writeToOffchainDb, hget] using .absent hget
    | some val => simpa [writeToOffchainDb, hget] using .found val hget
  | compareAndSet val =>
    by_cases hget : db.get key = some val
    · simpa [writeToOffchainDb, Store.compareAndSet_hit _ hget] using .swapped val hget
    · simpa [writeToOffchainDb, Store.compareAndSet_miss _ hget] using .missed val hget
  | set => exact .created

/-- A step leaves the storage as it is, or writes the new value. -/
theorem WriteMove.db_cases {db db' : Db} {key newValue : Bytes} {pc : WriteDb} {write : Write}
    (h : WriteMove db key newValue pc db' write) : db' = db ∨ db' = db.set key newValue := by
  cases h with
  | swapped | created => exact .inr rfl
  | _ => exact .inl rfl

/-! ### The worker -/

def ocwDoSubmitResult (submit : Call → Bool) (blockNumber : Nat) (key value : Bytes)
    (processorPub : Public) (extTime : UInt32) : Except String Unit × List Call :=
  let call := Call.submitResultUnsiged blockNumber key value processorPub extTime
  if submit call then (.ok (), [call])
  else (.error "Unable to submit unsigned transaction.", [])

/-- Where a run of the worker stands, with what it has read. -/
inductive WorkerPc
  | getKeyList
  | getResultList (jobKey : Bytes)
  | handling (jobKey resultKey : Bytes)
  | compareAndSet (jobKey resultKey keyList encodedPayload : Bytes) (payload : RequestPayload)
  | set (resultKey encodedPayload : Bytes) (payload : RequestPayload)
  | submitting (resultKeys : List Bytes)
  | ended
deriving DecidableEq

/-- A run of the worker on the state of one block, whose queue it iterates as `jobs`. -/
structure Worker (T : Config) where
  blockNumber : Nat
  jobs : Entries T
  pc : WorkerPc

/-- How a run goes on to the results.  It ends when there is none yet, and also when the parser
panics. -/
def WorkerPc.handleResult (resultKey : Bytes) : WorkerPc :=
  match ocwDoHandlingResult resultKey with
  | some (.ok resultKeys) => .submitting resultKeys
  | _ => .ended

variable {T : Config}

/-- One step of a run: the storage after it, where the run stands, and what has entered the pool.
A panic of the source ends the run. -/
def offchainWorker (submit : Call → Bool) (db : Db) (w : Worker T) : Db × WorkerPc × List Call :=
  match w.pc with
  | .getKeyList =>
    match db.get wasmstoreKeyList with
    | none => (db, .ended, [])
    | some jobKey => (db, .getResultList jobKey, [])
  | .getResultList jobKey =>
    match db.get wasmstoreResultList with
    | none => (db, .ended, [])
    | some resultKey => (db, .handling jobKey resultKey, [])
  | .handling jobKey resultKey =>
    match ocwDoHandlingJob submit w.blockNumber jobKey w.jobs with
    | (.ok .none, calls) => (db, .ended, calls)
    | (.ok (.requestData keyList data), calls) =>
      match RequestPayload.decode data with
      | some payload => (db, .compareAndSet jobKey resultKey keyList data payload, calls)
      | none => (db, .handleResult resultKey, calls)
    | (.ok (.resultData _), calls) => (db, .handleResult resultKey, calls)
    | (.error _, calls) => (db, .handleResult resultKey, calls)
  | .compareAndSet jobKey resultKey keyList encodedPayload payload =>
    -- The run goes on whether or not the compare-and-set wrote.
    ((db.compareAndSet wasmstoreKeyList (some jobKey) keyList).1,
      .set resultKey encodedPayload payload, [])
  | .set resultKey encodedPayload payload =>
    (db.set payload.jobId.val encodedPayload, .handleResult resultKey, [])
  | .submitting [] => (db, .ended, [])
  | .submitting (resultKey :: resultKeys) =>
    match (db.get resultKey).bind ResponePayload.decode with
    | none => (db, .submitting resultKeys, [])
    | some res =>
      match ocwDoSubmitResult submit w.blockNumber res.jobId.val res.jobResult.val res.address
        res.exeTime with
      | (.ok _, calls) => (db, .submitting resultKeys, calls)
      | (.error _, calls) => (db, .ended, calls)
  | .ended => (db, .ended, [])

/-! ### The executor, its tasks and the result listener -/

structure JobResult where
  jobId : Vec
  result : Vec
  extTime : UInt32
deriving DecidableEq

/-- The ids of a key list after its first four bytes.  `none` is a panic. -/
def keyListParser (keyListRaw : Bytes) : Option (Except StorageError (List Bytes)) :=
  (sliceFrom 4 keyListRaw).map fun keyList => .ok (chunks 32 keyList)

/-- A task that the executor has spawned for one id. -/
inductive Task
  | spawned (encodedPayload : Option Bytes)
  | processing (payload : RequestPayload)
  | sending (res : JobResult)
  | ended
deriving DecidableEq

/-- A task's own moves.  `outcome` is what `abi_reader` returns for the script, or `none` when it
fails, on which the task panics. -/
def processTask (outcome : Option (Vec × UInt32)) : Task → Task
  | .spawned none => .ended
  | .spawned (some res) =>
    match RequestPayload.decode res with
    | none => .ended
    | some payload =>
      if (ByteArray.mk payload.contentAbi.val.toArray).validateUTF8 then .processing payload
      else .ended
  | .processing payload =>
    match outcome with
    | none => .ended
    | some (result, extTime) => .sending ⟨payload.jobId, result, extTime⟩
  | task => task

/-- Where the executor's loop stands. -/
inductive Executor
  | poll
  | resetting (keyLists : Bytes) (keyList : List Bytes) (pc : WriteDb)
  | spawning (keyList : List Bytes)
  | panicked
deriving DecidableEq

/-- The executor once a step of its reset is done, whose result it does not look at. -/
def Executor.afterReset (keyLists : Bytes) (keyList : List Bytes) : Write → Executor
  | .running pc => .resetting keyLists keyList pc
  | .returned _ => .spawning keyList

/-- One step of the executor's loop, with the task that it spawns. -/
def offChainMonitor (db : Db) : Executor → Db × Executor × List Task
  | .poll =>
    match db.get wasmstoreKeyList with
    | none => (db, .poll, [])
    | some keyLists =>
      match keyListParser keyLists with
      | none => (db, .panicked, [])
      | some (.error _) => (db, .poll, [])
      | some (.ok keyList) => (db, .resetting keyLists keyList .get, [])
  | .resetting keyLists keyList pc =>
    let (db, write) := writeToOffchainDb db wasmstoreKeyList initList pc
    (db, .afterReset keyLists keyList write, [])
  | .spawning [] => (db, .poll, [])
  | .spawning (i :: keyList) => (db, .spawning keyList, [.spawned (db.get i)])
  | .panicked => (db, .panicked, [])

/-- Where the result listener's loop stands. -/
inductive Listener
  | recv
  | writeRecord (jobResult : JobResult) (pc : WriteDb)
  | readList (jobId : Vec)
  | writeList (jobId : Vec) (result : Bytes) (pc : WriteDb)
deriving DecidableEq

def JobResult.respone (procesorKey : Public) (r : JobResult) : ResponePayload :=
  ⟨r.jobId, r.result, .finish, procesorKey, r.extTime⟩

def Listener.afterRecord (jobResult : JobResult) : Write → Listener
  | .running pc => .writeRecord jobResult pc
  | .returned _ => .readList jobResult.jobId

def Listener.afterList (jobId : Vec) (result : Bytes) : Write → Listener
  | .running pc => .writeList jobId result pc
  | .returned _ => .recv

/-- One step of the listener's loop, which waits while the channel is empty. -/
def resultListener (procesorKey : Public) (db : Db) (channel : List JobResult) :
    Listener → Option (Db × List JobResult × Listener)
  | .recv =>
    match channel with
    | [] => none
    | jobResult :: channel => some (db, channel, .writeRecord jobResult .get)
  | .writeRecord jobResult pc =>
    let (db, write) := writeToOffchainDb db jobResult.jobId.val
      (ResponePayload.codec.encode (jobResult.respone procesorKey)) pc
    some (db, channel, .afterRecord jobResult write)
  | .readList jobId =>
    match db.get wasmstoreResultList with
    | none => some (db, channel, .recv)
    | some value => some (db, channel, .writeList jobId (value ++ jobId.val) .get)
  | .writeList jobId result pc =>
    let (db, write) := writeToOffchainDb db wasmstoreResultList result pc
    some (db, channel, .afterList jobId result write)

end PolkadotOracle
