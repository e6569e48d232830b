import PolkadotOracle.Offchain.System

/-! What local storage holds on every node, in every state that a run reaches: two lists of whole
ids, and under each job id the job's request or a finished response to it. -/

namespace PolkadotOracle

open Scale Sequence

variable {T : Config}

/-! ### Requests -/

/-- `p` is the request for a job of the queue, as the job was queued. -/
def Requests (chain : State T) (p : RequestPayload) : Prop :=
  ∃ key job, chain.jobQueue.lookup key = some job ∧ p = requestOf key job.asPending

section Requests

variable {chain chain' : State T} {p q : RequestPayload}

theorem Requests.grow (h : Requests chain p) (hchain : ChainReaches chain chain') :
    Requests chain' p := by
  obtain ⟨key, job, hjob, rfl⟩ := h
  obtain ⟨job', hjob', hsame, -⟩ := hchain.queueGrows key job hjob
  exact ⟨key, job', hjob', by rw [hsame]⟩

theorem Requests.length (h : Requests chain p) : p.jobId.val.length = 32 := by
  obtain ⟨key, job, -, rfl⟩ := h
  exact key.property

/-- A job has one request. -/
theorem Requests.unique (hp : Requests chain p) (hq : Requests chain q)
    (h : p.jobId.val = q.jobId.val) : p = q := by
  obtain ⟨key, job, hjob, rfl⟩ := hp
  obtain ⟨key', job', hjob', rfl⟩ := hq
  obtain rfl : key = key' := Subtype.ext h
  obtain rfl : job = job' := Option.some.inj (hjob.symm.trans hjob')
  rfl

/-- What can lie under a job id. -/
inductive RecordOk (chain : State T) (id : Bytes) : Bytes → Prop
  | request (p : RequestPayload) (hp : Requests chain p) (hid : p.jobId.val = id) :
      RecordOk chain id (RequestPayload.codec.encode p)
  | respone (q : ResponePayload) (hfinish : q.jobState = .finish) (hid : q.jobId.val = id) :
      RecordOk chain id (ResponePayload.codec.encode q)

theorem RecordOk.grow {id record : Bytes} (h : RecordOk chain id record)
    (hchain : ChainReaches chain chain') : RecordOk chain' id record := by
  cases h with
  | request p hp hid => exact .request p (hp.grow hchain) hid
  | respone q hfinish hid => exact .respone q hfinish hid

/-- A record under an id that reads as a request is the request for that job: a finished response
does not read as one. -/
theorem RecordOk.decode {id record : Bytes} (h : RecordOk chain id record)
    (hdecode : RequestPayload.decode record = some p) : Requests chain p ∧ p.jobId.val = id := by
  cases h with
  | request p' hp hid =>
    rw [RequestPayload.decode_encode] at hdecode
    obtain rfl := Option.some.inj hdecode
    exact ⟨hp, hid⟩
  | respone q hfinish hid =>
    rw [RequestPayload.decode_finished hfinish] at hdecode
    contradiction

end Requests

/-! ### The lists -/

/-- `list` is the bytes `init` followed by the 32-byte `ids`. -/
structure IdList (list : Bytes) (ids : List Bytes) : Prop where
  eq : list = initList ++ ids.flatten
  length : ∀ id ∈ ids, id.length = 32

section IdList

variable {list : Bytes} {ids ids' : List Bytes}

theorem idList_init : IdList initList [] := ⟨rfl, by simp⟩

theorem IdList.append (h : IdList list ids) {id : Bytes} (hid : id.length = 32) :
    IdList (list ++ id) (ids ++ [id]) := by
  refine ⟨by simp [h.eq], fun id' hid' => ?_⟩
  rcases List.mem_append.mp hid' with hmem | hmem
  · exact h.length id' hmem
  · obtain rfl := List.mem_singleton.mp hmem
    exact hid

theorem IdList.sliceFrom (h : IdList list ids) : sliceFrom 4 list = some ids.flatten := by
  rw [h.eq]
  simp [PolkadotOracle.sliceFrom, initList]

theorem IdList.chunks (h : IdList list ids) : chunks 32 ids.flatten = ids :=
  chunks_flatten (by decide) h.length

/-- The parser stays within the list and returns its ids. -/
theorem IdList.keyListParser (h : IdList list ids) :
    keyListParser list = some (.ok ids) := by
  simp [PolkadotOracle.keyListParser, h.sliceFrom, h.chunks]

theorem IdList.unique (h : IdList list ids) (h' : IdList list ids') : ids = ids' := by
  have := h.keyListParser.symm.trans h'.keyListParser
  simpa using this

theorem IdList.eq_init (h : IdList list ids) : list = initList ↔ ids = [] := by
  constructor
  · intro hinit
    exact h.unique (hinit ▸ idList_init)
  · rintro rfl
    simp [h.eq]

/-- The result handler stays within the list and returns its ids, or refuses an empty list. -/
theorem IdList.handlingResult (h : IdList list ids) :
    ocwDoHandlingResult list =
      some (if ids = [] then .error .isStillRunning else .ok ids) := by
  by_cases hids : ids = []
  · simp [ocwDoHandlingResult, h.eq_init.mpr hids, hids]
  · have hne : list ≠ initList := fun hinit => hids (h.eq_init.mp hinit)
    simp [ocwDoHandlingResult, hne, hids, h.sliceFrom, h.chunks]

end IdList

/-! ### Local storage -/

theorem wasmstoreKeyList_ne_resultList : wasmstoreKeyList ≠ wasmstoreResultList := by decide

theorem ne_wasmstoreKeyList {id : Bytes} (hid : id.length = 32 ∨ id = []) :
    id ≠ wasmstoreKeyList := by
  rintro rfl
  rcases hid with hid | hid <;> revert hid <;> decide

theorem ne_wasmstoreResultList {id : Bytes} (hid : id.length = 32 ∨ id = []) :
    id ≠ wasmstoreResultList := by
  rintro rfl
  rcases hid with hid | hid <;> revert hid <;> decide

/-- Local storage holds a list of ids for the executor, the list of the finished ids, and nothing
but requests and finished responses under job ids. -/
structure DbOk (chain : State T) (finished : List Bytes) (db : Db) : Prop where
  keyList : ∃ list ids, db.get wasmstoreKeyList = some list ∧ IdList list ids
  resultList : ∃ list, db.get wasmstoreResultList = some list ∧ IdList list finished
  records : ∀ id record, id.length = 32 → db.get id = some record → RecordOk chain id record

section DbOk

variable {chain chain' : State T} {finished : List Bytes} {db : Db}

theorem DbOk.grow (h : DbOk chain finished db) (hchain : ChainReaches chain chain') :
    DbOk chain' finished db :=
  ⟨h.keyList, h.resultList, fun id record hid hget => (h.records id record hid hget).grow hchain⟩

theorem DbOk.setKeyList (h : DbOk chain finished db) {list : Bytes} {ids : List Bytes}
    (hlist : IdList list ids) : DbOk chain finished (db.set wasmstoreKeyList list) := by
  obtain ⟨results, hget, hresults⟩ := h.resultList
  refine ⟨⟨list, ids, by simp, hlist⟩, ⟨results, ?_, hresults⟩, fun id record hid hrecord => ?_⟩
  · rwa [Store.get_set_ne _ _ wasmstoreKeyList_ne_resultList.symm]
  · rw [Store.get_set_ne _ _ (ne_wasmstoreKeyList (.inl hid))] at hrecord
    exact h.records id record hid hrecord

theorem DbOk.setResultList (h : DbOk chain finished db) {list : Bytes} {finished' : List Bytes}
    (hlist : IdList list finished') :
    DbOk chain finished' (db.set wasmstoreResultList list) := by
  obtain ⟨keys, ids, hget, hkeys⟩ := h.keyList
  refine ⟨⟨keys, ids, ?_, hkeys⟩, ⟨list, by simp, hlist⟩, fun id record hid hrecord => ?_⟩
  · rwa [Store.get_set_ne _ _ wasmstoreKeyList_ne_resultList]
  · rw [Store.get_set_ne _ _ (ne_wasmstoreResultList (.inl hid))] at hrecord
    exact h.records id record hid hrecord

/-- A write under a job id, or the write of a default payload under the empty key. -/
theorem DbOk.setRecord (h : DbOk chain finished db) {id record : Bytes}
    (hid : id.length = 32 ∧ RecordOk chain id record ∨ id = []) :
    DbOk chain finished (db.set id record) := by
  have hlength : id.length = 32 ∨ id = [] := hid.imp_left And.left
  obtain ⟨keys, ids, hkeyList, hkeys⟩ := h.keyList
  obtain ⟨results, hresultList, hresults⟩ := h.resultList
  refine ⟨⟨keys, ids, ?_, hkeys⟩, ⟨results, ?_, hresults⟩, fun id' record' hid' hrecord => ?_⟩
  · rw [Store.get_set_ne _ _ (ne_wasmstoreKeyList hlength).symm]
    exact hkeyList
  · rw [Store.get_set_ne _ _ (ne_wasmstoreResultList hlength).symm]
    exact hresultList
  · by_cases hsame : id' = id
    · subst hsame
      rw [Store.get_set_same] at hrecord
      obtain rfl := Option.some.inj hrecord
      rcases hid with ⟨-, hok⟩ | rfl
      · exact hok
      · simp at hid'
    · rw [Store.get_set_ne _ _ hsame] at hrecord
      exact h.records id' record' hid' hrecord

end DbOk

end PolkadotOracle
