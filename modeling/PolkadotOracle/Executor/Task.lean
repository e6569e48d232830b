import PolkadotOracle.Executor.Host
import PolkadotOracle.Offchain.Node

/-! The task that the executor spawns for a request: which requests it answers with a result.  Each
layer panics on the errors of the one below, so that the task never comes to log one. -/

namespace PolkadotOracle.Executor

open Exec Scale

/-- A later class takes the place of an earlier one of the same name. -/
def SelectorRegistry.ofRoot (root : Root) : SelectorRegistry where
  classesSchema := root.classes.foldl (fun schema cls => schema.insert cls.name cls.fields) ∅

/-- The whole of `wasmtime_runner`. -/
def runScript (host : Host) (bin : Bytes) (register : SelectorRegistry) :
    Run RunnerError Bytes := do
  let process ← callProcess host bin
  wasmtimeRunner (.ok process) register

/-- What an error becomes where a result is expected.  The text of the error that the message goes
on with is left out. -/
def RunnerError.expected (message : String) : RunnerError → RunnerError
  | .panic message' => .panic message'
  | _ => .panic message

def abiReader (host : Host) (fileContent : Str) (wasmBytecode : Bytes) : Run RunnerError Bytes := do
  let root ← attempt (host.fromStr fileContent)
  (runScript host wasmBytecode (.ofRoot root)).adapt (.expected "DEBUG: wasmtime runner run")

/-- A job's result before it is encoded, which can be of any length. -/
structure Answer where
  jobId : Vec
  result : Bytes
  extTime : UInt32
deriving DecidableEq

def processWasm (host : Host) (extTime : UInt32) (wasmCode : Bytes) (wasmAbi : Str) (jobId : Vec) :
    Run RunnerError (Except StorageError Answer) := do
  let res ← (abiReader host wasmAbi wasmCode).adapt (.expected "Shoudl work bruv")
  return .ok ⟨jobId, res, extTime⟩

inductive TaskEnd
  | sent (res : Answer)
  | logged (e : StorageError)
deriving DecidableEq

/-- The task for a request. -/
def runTask (host : Host) (extTime : UInt32) (payload : RequestPayload) :
    Run RunnerError TaskEnd := do
  let abi ← expect "Invalid UTF-8" (Text.utf8Decode payload.contentAbi.val)
  let res ← processWasm host extTime payload.jobContent.val abi payload.jobId
  match res with
  | .ok res => return .sent res
  | .error e => return .logged e

/-! ### How a task ends -/

section Ends

variable {host : Host} {extTime : UInt32} {payload : RequestPayload}

theorem returns_runScript {bin : Bytes} {register : SelectorRegistry} :
    (∃ bytes, Returns (runScript host bin register) bytes) ↔
      ∃ s : Session host bin, OutputReadable register s.process.1 s.process.2 := by
  unfold runScript
  simp only [returns_bind, returns_liftM, callProcess_returns_iff, ← wasmtimeRunner_ok_iff]
  constructor
  · rintro ⟨bytes, _, ⟨s, rfl⟩, hbytes⟩
    exact ⟨s, bytes, hbytes⟩
  · rintro ⟨s, bytes, hbytes⟩
    exact ⟨bytes, _, ⟨s, rfl⟩, hbytes⟩

theorem returns_abiReader {fileContent : Str} {bin : Bytes} {bytes : Bytes} :
    Returns (abiReader host fileContent bin) bytes ↔
      ∃ root, host.fromStr fileContent = .ok root ∧
        Returns (runScript host bin (.ofRoot root)) bytes := by
  simp only [abiReader, returns_bind, returns_liftM, returns_adapt, attempt_eq_ok]

/-- A task that ends without a panic sends a result. -/
theorem returns_runTask {taskEnd : TaskEnd} :
    Returns (runTask host extTime payload) taskEnd ↔
      ∃ abi bytes, Text.utf8Decode payload.contentAbi.val = some abi ∧
        Returns (abiReader host abi payload.jobContent.val) bytes ∧
        taskEnd = .sent ⟨payload.jobId, bytes, extTime⟩ := by
  simp only [runTask, processWasm, returns_bind, returns_liftM, returns_adapt, returns_pure,
    expect_eq_ok]
  constructor
  · rintro ⟨abi, habi, _, ⟨bytes, hbytes, rfl⟩, hend⟩
    exact ⟨abi, bytes, habi, hbytes, (returns_pure.mp hend).symm⟩
  · rintro ⟨abi, bytes, habi, hbytes, rfl⟩
    exact ⟨abi, habi, _, ⟨bytes, hbytes, rfl⟩, returns_pure.mpr rfl⟩

theorem RunnerError.expected_panic (message : String) (e : RunnerError) :
    ∃ message', e.expected message = .panic message' := by
  cases e with
  | panic message' => exact ⟨message', rfl⟩
  | _ => exact ⟨message, rfl⟩

/-- The only error that ends a task is a panic. -/
theorem raises_runTask {e : RunnerError} (h : Raises (runTask host extTime payload) e) :
    ∃ message, e = .panic message := by
  simp only [runTask, raises_bind, raises_liftM] at h
  rcases h with hexpect | ⟨abi, -, hprocess | ⟨res, -, hend⟩⟩
  · cases habi : Text.utf8Decode payload.contentAbi.val with
    | none =>
      rw [habi] at hexpect
      exact ⟨_, (Except.error.inj hexpect).symm⟩
    | some abi =>
      rw [habi] at hexpect
      contradiction
  · simp only [processWasm, raises_bind, raises_adapt, raises_pure, and_false, exists_false,
      or_false] at hprocess
    obtain ⟨e', -, rfl⟩ := hprocess
    exact e'.expected_panic _
  · cases res <;> exact absurd hend raises_pure

/-- The task ends with a result or with an error that it logs. -/
def Survives (host : Host) (extTime : UInt32) (payload : RequestPayload) : Prop :=
  ∃ taskEnd, Returns (runTask host extTime payload) taskEnd

/-- A request to which nothing is wrong: its ABI is a text that parses, its script runs up to its
output, and its output can be read. -/
def Answerable (host : Host) (payload : RequestPayload) : Prop :=
  ∃ abi root, Text.utf8Decode payload.contentAbi.val = some abi ∧ host.fromStr abi = .ok root ∧
    ∃ s : Session host payload.jobContent.val,
      OutputReadable (.ofRoot root) s.process.1 s.process.2

theorem survives_answerable :
    Survives host extTime payload ↔ Answerable host payload := by
  unfold Survives Answerable
  simp only [returns_runTask, returns_abiReader, ← returns_runScript]
  constructor
  · rintro ⟨_, abi, bytes, habi, ⟨root, hroot, hbytes⟩, -⟩
    exact ⟨abi, root, habi, hroot, bytes, hbytes⟩
  · rintro ⟨abi, root, habi, hroot, bytes, hbytes⟩
    exact ⟨_, abi, bytes, habi, ⟨root, hroot, hbytes⟩, rfl⟩

/-- The task survives a request exactly when nothing is wrong with it; it panics or runs forever
otherwise. -/
theorem survives_iff (host : Host) (extTime : UInt32) (payload : RequestPayload) :
    (Survives host extTime payload ↔ Answerable host payload) ∧
      (¬Answerable host payload →
        (∃ message, Raises (runTask host extTime payload) (.panic message)) ∨
          Diverges (runTask host extTime payload)) := by
  refine ⟨survives_answerable, fun hwrong => ?_⟩
  rcases returns_or_raises (runTask host extTime payload) with hreturns | ⟨e, hraises⟩ | hdiverges
  · exact absurd (survives_answerable.mp hreturns) hwrong
  · obtain ⟨message, rfl⟩ := raises_runTask hraises
    exact .inl ⟨message, hraises⟩
  · exact .inr hdiverges

/-- What `abi_reader` returns for the script of a request, where it has a length. -/
def outcomeOf (host : Host) (extTime : UInt32) (payload : RequestPayload) :
    Option (Vec × UInt32) := do
  let abi ← Text.utf8Decode payload.contentAbi.val
  match (abiReader host abi payload.jobContent.val).run with
  | some (.ok res) => (BoundedVec.tryFrom maxLen res).map (·, extTime)
  | _ => none

theorem outcomeOf_eq_some {result : Vec} {extTime' : UInt32} :
    outcomeOf host extTime payload = some (result, extTime') ↔
      ∃ abi, Text.utf8Decode payload.contentAbi.val = some abi ∧
        Returns (abiReader host abi payload.jobContent.val) result.val ∧ extTime = extTime' := by
  unfold outcomeOf Returns
  simp only [Option.bind_eq_bind, Option.bind_eq_some_iff]
  refine exists_congr fun abi => and_congr_right fun _ => ?_
  rcases (abiReader host abi payload.jobContent.val).run with _ | e | res
  · exact iff_of_false nofun nofun
  · exact iff_of_false nofun nofun
  · simp only [Option.map_eq_some_iff, BoundedVec.tryFrom_eq_some, Prod.mk.injEq,
      Option.some.injEq, Except.ok.injEq]
    constructor
    · rintro ⟨_, rfl, rfl, rfl⟩
      exact ⟨rfl, rfl⟩
    · rintro ⟨rfl, rfl⟩
      exact ⟨result, rfl, rfl, rfl⟩

theorem processTask_sending {outcome : Option (Vec × UInt32)} {res : JobResult} :
    processTask outcome (.processing payload) = .sending res ↔
      outcome = some (res.result, res.extTime) ∧ payload.jobId = res.jobId := by
  obtain ⟨jobId, result, extTime⟩ := res
  rcases outcome with _ | ⟨result', extTime'⟩
  · exact iff_of_false nofun nofun
  · simp only [processTask, Task.sending.injEq, JobResult.mk.injEq, Option.some.injEq,
      Prod.mk.injEq]
    exact and_comm

/-- The node's task sends a result for a record exactly when the task on the host does, and it is
the same. -/
theorem processTask_runTask {record : Bytes} {res : JobResult}
    (hdecode : RequestPayload.decode record = some payload) :
    processTask (outcomeOf host extTime payload)
        (processTask (outcomeOf host extTime payload) (.spawned (some record))) = .sending res ↔
      Returns (runTask host extTime payload) (.sent ⟨res.jobId, res.result.val, res.extTime⟩) := by
  have hspawned (outcome : Option (Vec × UInt32)) :
      processTask outcome (.spawned (some record)) =
        if (Text.utf8Decode payload.contentAbi.val).isSome then .processing payload
        else .ended := by
    rw [Text.utf8Decode_isSome]
    simp only [processTask, hdecode]
  rw [returns_runTask, hspawned]
  cases habi : Text.utf8Decode payload.contentAbi.val with
  | none =>
    apply iff_of_false nofun
    rintro ⟨_, _, h, -⟩
    contradiction
  | some abi =>
    rw [Option.isSome_some, if_pos rfl, processTask_sending, outcomeOf_eq_some]
    simp only [habi, Option.some.injEq, exists_eq_left', TaskEnd.sent.injEq, Answer.mk.injEq]
    constructor
    · rintro ⟨⟨hbytes, htime⟩, hjob⟩
      exact ⟨_, _, rfl, hbytes, hjob.symm, rfl, htime.symm⟩
    · rintro ⟨_, _, rfl, hbytes, hjob, rfl, htime⟩
      exact ⟨⟨hbytes, htime.symm⟩, hjob.symm⟩

end Ends

/-! ### Requests that stop a task -/

/-- The shortest ABI that parses. -/
def sampleAbi : Str :=
  ("\x7b\"headers\":\x7b\"header\":\"\"\x7d,\"functions\":[]," ++
    "\"classes\":[],\"variables\":[]\x7d").toList

/-- The module without imports and exports. -/
def emptyModule : Bytes := [0, 97, 115, 109, 1, 0, 0, 0]

def sampleHost : Host where
  fromStr abi := if abi = sampleAbi then .ok ⟨[]⟩ else .error "EOF while parsing a value"
  fromBinary bin :=
    if bin = emptyModule then
      .ok ⟨[], fun _ => some (.ok ⟨none, .error "failed to find function export", none⟩)⟩
    else .error "failed to parse WebAssembly module"
  newTable _ := .ok ()
  fetchWithQuery _ := .error "builder error: relative URL without a base"

def invalidText : RequestPayload := ⟨default, default, ⟨[0xFF], by decide⟩, .processing⟩

def emptyAbi : RequestPayload := ⟨default, default, default, .processing⟩

def emptyScript : RequestPayload where
  jobId := default
  jobContent := ⟨emptyModule, by decide⟩
  contentAbi := ⟨Text.utf8 sampleAbi, by decide +kernel⟩
  jobState := .processing

/-- An ABI that is no text, an ABI that does not parse, and a script that exports no memory: each
stops its task at another place. -/
theorem task_panics :
    Raises (runTask sampleHost 0 invalidText) (.panic "Invalid UTF-8") ∧
      Raises (runTask sampleHost 0 emptyAbi) (.panic "Shoudl work bruv") ∧
      Raises (runTask sampleHost 0 emptyScript) (.panic "Memory not found") ∧
      ∀ payload ∈ [invalidText, emptyAbi, emptyScript], ¬Survives sampleHost 0 payload := by
  have hinvalid : Raises (runTask sampleHost 0 invalidText) (.panic "Invalid UTF-8") := by
    decide +kernel
  have hempty : Raises (runTask sampleHost 0 emptyAbi) (.panic "Shoudl work bruv") := by
    decide +kernel
  have hscript : Raises (runTask sampleHost 0 emptyScript) (.panic "Memory not found") := by
    decide +kernel
  refine ⟨hinvalid, hempty, hscript, ?_⟩
  rw [List.forall_mem_cons, List.forall_mem_cons, List.forall_mem_singleton]
  exact ⟨fun ⟨_, h⟩ => hinvalid.not_returns h, fun ⟨_, h⟩ => hempty.not_returns h,
    fun ⟨_, h⟩ => hscript.not_returns h⟩

end PolkadotOracle.Executor
