import PolkadotOracle.Ocw.Fetch
import PolkadotOracle.Ocw.RateLimit

/-! The price workers: each run fetches a price and submits it, signed by the accounts of the
keystore or unsigned, and keeps the response in the local storage. -/

namespace PolkadotOracle.OcwPallet

open Exec Scale Text

variable {T : Config}

/-- What a run of a worker leaves: the local storage, and the transactions that are now in the pool.
The hashes are in the storage of the chain, of which a run has a copy that is discarded with it. -/
structure Run (T : Config) where
  localStorage : Store Bytes Bytes
  hashStore : Finmap fun _ : BoundedVec 256 => Hash
  pooled : List (Origin T × Call T)
  /-- What has come of the requests of the run.  No step reads it. -/
  exchanges : List Exchange

/-- Why a run stops: an error of the HTTP client, an error text, or a panic. -/
inductive Stop
  | http (error : HttpError)
  | text (message : String)
  | panic (message : String)
deriving DecidableEq, Repr

abbrev Worker (T : Config) := EStateM Stop (Run T)

def liftHttp {α : Type} : Except HttpError α → Worker T α
  | .ok a => pure a
  | .error e => throw (.http e)

/-- An error of the HTTP client becomes a text. -/
def orText {α : Type} (message : String) (x : Worker T α) : Worker T α := fun run =>
  match x run with
  | .error (.http _) run' => .error (.text message) run'
  | result => result

def toBoundedVec (bound : Nat) (input : Bytes) : Except String (BoundedVec bound) :=
  match BoundedVec.tryFrom bound input with
  | some v => .ok v
  | none => .error "Input data is too large"

theorem toBoundedVec_of_le {bound : Nat} {input : Bytes} (h : input.length ≤ bound) :
    toBoundedVec bound input = .ok (.ofLe input h) := by
  rw [toBoundedVec, BoundedVec.tryFrom_of_le h]

theorem toBoundedVec_of_not_le {bound : Nat} {input : Bytes} (h : ¬input.length ≤ bound) :
    toBoundedVec bound input = .error "Input data is too large" := by
  rw [toBoundedVec, BoundedVec.tryFrom_of_not_le h]

def buildLocalStorageForHttpResponse (key data : Bytes) : Worker T Unit :=
  modify fun run => { run with localStorage := run.localStorage.set key data }

/-- The request of a run. -/
def sendRequest (host : Offchain T) (url : Str) (timeToLive : UInt64) : Worker T Bytes := do
  let exchange := host.exchange url (saturatingAdd64 host.sentAt timeToLive)
  modify fun run => { run with exchanges := run.exchanges ++ [exchange] }
  liftHttp (responseFromHttpUrl host url timeToLive)

section Runs

variable (P : Primitives) (host : Offchain T) (s : State T) (blockNumber : Nat)

def fetchData (url : Str) : Worker T UInt32 := do
  let body ← sendRequest host url 5000
  match Text.utf8Decode body with
  | none => throw (.http .unknown)
  | some bodyStr =>
    let key := utf8 (responseKey host.receivedAt s.blockNumber (P.hashing body))
    match toBoundedVec 256 key with
    | .error _ => throw (.panic "Data")
    | .ok keyAsBytes =>
      let run ← get
      match run.hashStore.lookup keyAsBytes with
      | none =>
        buildLocalStorageForHttpResponse key body
        modify fun run =>
          { run with hashStore := run.hashStore.insert keyAsBytes (P.hashing body) }
      | some _ => pure ()
      match parseData P bodyStr with
      | some price => pure price
      | none => throw (.http .unknown)

def catfactUrl : Str := "https://catfact.ninja/fact".toList

def fetchPrice : Worker T UInt32 :=
  orText "Failed to fetch price" (fetchData P host s catfactUrl)

/-- A price, unless the validation would refuse one for the block as stale. -/
def fetchDuePrice : Worker T UInt32 := do
  if blockNumber < s.nextUnsignedAt then throw (.text "Too early to send unsigned transaction")
  fetchPrice P host s

/-- Whether the pool takes a transaction. -/
def submitTransaction (transaction : Origin T × Call T) : Worker T Bool := do
  if host.accepts transaction then
    modify fun run => { run with pooled := run.pooled ++ [transaction] }
    pure true
  else pure false

/-- The unsigned call with a payload that an account signs. -/
def signedPayload (price : UInt32) (account : T.AccountId × T.Public) :
    Option (Origin T × Call T) :=
  let payload : PricePayload T.Public := ⟨blockNumber, price, account.2⟩
  (host.sign payload).map fun signature =>
    (.none, .submitPriceUnsignedWithSignedPayload payload signature)

/-- The source only logs what comes of the transactions. -/
def ocwDoFetchPriceAndSendSigned : Worker T Unit := do
  if host.accounts.isEmpty then
    throw (.text "No local accounts available. Consider adding one via `author_insertKey` RPC.")
  let price ← fetchPrice P host s
  let _results ← (host.accounts.map fun account =>
    (.signed account.1, .submitPrice price)).mapM (submitTransaction host)

def ocwDoFetchPriceAndSendRawUnsigned : Worker T Unit := do
  let price ← fetchDuePrice P host s blockNumber
  let sent ← submitTransaction host (.none, .submitPriceUnsigned blockNumber price)
  if !sent then throw (.text "Unable to submit unsigned transaction.")

/-- The first account that can sign is the one that does. -/
def ocwDoFetchPriceAndSendUnsignedForAnyAccount : Worker T Unit := do
  let price ← fetchDuePrice P host s blockNumber
  match host.accounts.findSome? (signedPayload host blockNumber price) with
  | none => throw (.text "No local accounts accounts available.")
  | some transaction =>
    let sent ← submitTransaction host transaction
    if !sent then throw (.text "Unable to submit transaction")

def ocwDoFetchPriceAndSendUnsignedForAllAccounts : Worker T Unit := do
  let price ← fetchDuePrice P host s blockNumber
  let results ← (host.accounts.filterMap (signedPayload host blockNumber price)).mapM
    (submitTransaction host)
  if results.any (!·) then throw (.text "Unable to submit transaction")

def fetchDataAndStoreHash : Worker T Unit := do
  let _price ← fetchDuePrice P host s blockNumber

inductive PriceWorker
  | signed
  | rawUnsigned
  | unsignedForAny
  | unsignedForAll
  | storeHash
deriving DecidableEq, Repr

def PriceWorker.run : PriceWorker → Worker T Unit
  | signed => ocwDoFetchPriceAndSendSigned P host s
  | rawUnsigned => ocwDoFetchPriceAndSendRawUnsigned P host s blockNumber
  | unsignedForAny => ocwDoFetchPriceAndSendUnsignedForAnyAccount P host s blockNumber
  | unsignedForAll => ocwDoFetchPriceAndSendUnsignedForAllAccounts P host s blockNumber
  | storeHash => fetchDataAndStoreHash P host s blockNumber

end Runs

/-! ### What a run leaves -/

section Leaves

variable {P : Primitives} {host : Offchain T} {s : State T} {blockNumber : Nat}

/-- The price in the body of a response. -/
def Primitives.priceOf (P : Primitives) (body : Bytes) : Option UInt32 :=
  (Text.utf8Decode body).bind (parseData P)

/-- The key under which a run on the state keeps a body. -/
def bodyKey (P : Primitives) (host : Offchain T) (s : State T) (body : Bytes) : Bytes :=
  utf8 (responseKey host.receivedAt s.blockNumber (P.hashing body))

/-- The run has kept the body of its response. -/
structure Keeps (P : Primitives) (host : Offchain T) (s : State T) (body : Bytes)
    (r r' : Run T) : Prop where
  response : responseFromHttpUrl host catfactUrl 5000 = .ok body
  exchanges : r'.exchanges = r.exchanges ++ [.response 200 body]
  localStorage : r'.localStorage = r.localStorage.set (bodyKey P host s body) body

/-- The run has kept nothing and submitted nothing. -/
structure Idle (r r' : Run T) : Prop where
  localStorage : r'.localStorage = r.localStorage
  pooled : r'.pooled = r.pooled

theorem Idle.refl (r : Run T) : Idle r r := ⟨rfl, rfl⟩

/-- The price is in a text, and of the transactions that a run may submit with it. -/
inductive Carries (host : Offchain T) (s : State T) (blockNumber : Nat) (price : UInt32) :
    Origin T × Call T → Prop
  | signed {account : T.AccountId × T.Public} (haccount : account ∈ host.accounts) :
      Carries host s blockNumber price (.signed account.1, .submitPrice price)
  | raw (hdue : s.nextUnsignedAt ≤ blockNumber) :
      Carries host s blockNumber price (.none, .submitPriceUnsigned blockNumber price)
  | payload {account : T.AccountId × T.Public} {signature : T.Signature}
      (hdue : s.nextUnsignedAt ≤ blockNumber) (haccount : account ∈ host.accounts)
      (hsign : host.sign ⟨blockNumber, price, account.2⟩ = some signature) :
      Carries host s blockNumber price
        (.none, .submitPriceUnsignedWithSignedPayload ⟨blockNumber, price, account.2⟩ signature)

@[simp] theorem submitTransaction_apply (transaction : Origin T × Call T) (r : Run T) :
    submitTransaction host transaction r =
      if host.accepts transaction then
        .ok true { r with pooled := r.pooled ++ [transaction] }
      else .ok false r := by
  unfold submitTransaction
  split <;> simp

theorem mapM_submitTransaction (transactions : List (Origin T × Call T)) (r : Run T) :
    transactions.mapM (submitTransaction host) r =
      .ok (transactions.map host.accepts)
        { r with pooled := r.pooled ++ transactions.filter host.accepts } := by
  induction transactions generalizing r with
  | nil => simp
  | cons transaction transactions ih =>
    rw [List.mapM_cons, bind_apply, submitTransaction_apply]
    by_cases haccepts : host.accepts transaction = true
    · simp only [haccepts, if_true, bind_apply, ih, pure_apply]
      simp [haccepts]
    · simp only [haccepts, bind_apply, ih, pure_apply]
      simp [haccepts]

/-- A fetch stops before it has kept the body, or keeps it and returns its price, if it has one.  A
body with a price is kept when its key fits. -/
theorem fetchData_cases (P : Primitives) (host : Offchain T) (s : State T) {r : Run T}
    (hfresh : r.hashStore = ∅) :
    (∃ e r', Idle r r' ∧ fetchData P host s catfactUrl r = .error e r' ∧
      ∀ body price, responseFromHttpUrl host catfactUrl 5000 = .ok body →
        P.priceOf body = some price → 256 < (bodyKey P host s body).length) ∨
    ∃ body r', Keeps P host s body r r' ∧ r'.pooled = r.pooled ∧
      fetchData P host s catfactUrl r =
        match P.priceOf body with
        | some price => .ok price r'
        | none => .error (.http .unknown) r' := by
  simp only [fetchData, sendRequest, bind_apply, modify_apply]
  cases hresponse : responseFromHttpUrl host catfactUrl 5000 with
  | error e =>
    refine .inl ⟨.http e, { r with exchanges := r.exchanges ++
      [host.exchange catfactUrl (saturatingAdd64 host.sentAt 5000)] }, ⟨rfl, rfl⟩, rfl, ?_⟩
    rintro body price ⟨⟩
  | ok body =>
  have hexchange := responseFromHttpUrl_ok hresponse
  -- From here on the request of the run has this response.
  let asked : Run T := { r with exchanges := r.exchanges ++ [.response 200 body] }
  simp only [liftHttp, pure_apply, hexchange]
  cases hutf8 : Text.utf8Decode body with
  | none =>
    refine .inl ⟨.http .unknown, asked, ⟨rfl, rfl⟩, rfl, ?_⟩
    rintro body' price ⟨⟩ hprice
    rw [Primitives.priceOf, hutf8] at hprice
    contradiction
  | some bodyStr =>
  simp only
  by_cases hfits : (bodyKey P host s body).length ≤ 256
  case neg =>
    have hkey : toBoundedVec 256 (utf8 (responseKey host.receivedAt s.blockNumber
        (P.hashing body))) = .error "Input data is too large" := toBoundedVec_of_not_le hfits
    rw [hkey]
    refine .inl ⟨.panic "Data", asked, ⟨rfl, rfl⟩, rfl, ?_⟩
    rintro body' price ⟨⟩ -
    exact Nat.lt_of_not_le hfits
  have hkey : toBoundedVec 256 (utf8 (responseKey host.receivedAt s.blockNumber
      (P.hashing body))) = .ok (.ofLe (bodyKey P host s body) hfits) := toBoundedVec_of_le hfits
  rw [hkey]
  simp only [bind_apply, get_apply, hfresh, Finmap.lookup_empty,
    buildLocalStorageForHttpResponse, modify_apply]
  refine .inr ⟨body, { asked with
    localStorage := r.localStorage.set (bodyKey P host s body) body
    hashStore := Finmap.insert (.ofLe (bodyKey P host s body) hfits) (P.hashing body) ∅ },
    ⟨hresponse, rfl, rfl⟩, rfl, ?_⟩
  rw [Primitives.priceOf, hutf8]
  show _ = match parseData P bodyStr with
    | some price => _
    | none => _
  cases parseData P bodyStr <;> rfl

/-- A body that has a price is kept, and the price is returned. -/
theorem fetchData_ok {body : Bytes} {price : UInt32} {r : Run T} (hfresh : r.hashStore = ∅)
    (hresponse : responseFromHttpUrl host catfactUrl 5000 = .ok body)
    (hprice : P.priceOf body = some price) (hblock : s.blockNumber < 2 ^ 32) :
    ∃ r', Keeps P host s body r r' ∧ r'.pooled = r.pooled ∧
      fetchData P host s catfactUrl r = .ok price r' := by
  rcases fetchData_cases P host s hfresh with
    ⟨e, r', -, -, hlong⟩ | ⟨body', r', hkeeps, hpooled, hfetch⟩
  · have hfits := responseKey_fits host.receivedAt hblock (P.hashing body)
    exact absurd (hlong body price hresponse hprice) (Nat.not_lt.mpr hfits)
  · obtain rfl : body = body' := Except.ok.inj (hresponse.symm.trans hkeeps.response)
    rw [hprice] at hfetch
    exact ⟨r', hkeeps, hpooled, hfetch⟩

/-- All that a run leaves: nothing, or the body of its response and transactions with its price,
each of which the pool has accepted. -/
inductive Leaves (P : Primitives) (host : Offchain T) (s : State T) (blockNumber : Nat)
    (r : Run T) : Run T → Prop
  | nothing {r' : Run T} (hidle : Idle r r') : Leaves P host s blockNumber r r'
  | fetched {body : Bytes} {transactions : List (Origin T × Call T)} {r' : Run T}
      (hkeeps : Keeps P host s body r r') (hpooled : r'.pooled = r.pooled ++ transactions)
      (hcarries : ∀ transaction ∈ transactions, host.accepts transaction = true ∧
        ∃ price, P.priceOf body = some price ∧ Carries host s blockNumber price transaction) :
      Leaves P host s blockNumber r r'

/-- What a worker does with a price: it submits transactions that carry it. -/
def Submits (host : Offchain T) (s : State T) (blockNumber : Nat) (price : UInt32)
    (x : Worker T Unit) : Prop :=
  ∀ r, ∃ transactions, (final (x r)).localStorage = r.localStorage ∧
    (final (x r)).exchanges = r.exchanges ∧
    (final (x r)).pooled = r.pooled ++ transactions ∧
    ∀ transaction ∈ transactions, host.accepts transaction = true ∧
      Carries host s blockNumber price transaction

theorem leaves_fetchPrice {submit : UInt32 → Worker T Unit}
    (hsubmit : ∀ price, Submits host s blockNumber price (submit price)) {r : Run T}
    (hfresh : r.hashStore = ∅) :
    Leaves P host s blockNumber r (final ((fetchPrice P host s >>= submit) r)) := by
  rw [bind_apply, fetchPrice, orText]
  rcases fetchData_cases P host s hfresh with
    ⟨e, r', hidle, hfetch, -⟩ | ⟨body, r', hkeeps, hpooled, hfetch⟩
  · rw [hfetch]
    cases e <;> exact .nothing hidle
  cases hprice : P.priceOf body with
  | none =>
    rw [hfetch, hprice]
    have hnone : r'.pooled = r.pooled ++ [] := by rw [hpooled, List.append_nil]
    exact .fetched hkeeps hnone (by simp)
  | some price =>
    rw [hfetch, hprice]
    obtain ⟨transactions, hlocal, hexchanges, hsent, hcarries⟩ := hsubmit price r'
    refine .fetched ⟨hkeeps.response, hexchanges.trans hkeeps.exchanges,
        hlocal.trans hkeeps.localStorage⟩
      (hsent.trans (by rw [hpooled])) fun transaction hmem => ?_
    obtain ⟨haccepts, hcarried⟩ := hcarries transaction hmem
    exact ⟨haccepts, price, hprice, hcarried⟩

/-- A run that the guard stops leaves nothing, and what the others submit is due. -/
theorem leaves_fetchDuePrice {submit : UInt32 → Worker T Unit}
    (hsubmit : s.nextUnsignedAt ≤ blockNumber →
      ∀ price, Submits host s blockNumber price (submit price)) {r : Run T}
    (hfresh : r.hashStore = ∅) :
    Leaves P host s blockNumber r
      (final ((fetchDuePrice P host s blockNumber >>= submit) r)) := by
  rw [bind_apply, fetchDuePrice]
  by_cases hdue : blockNumber < s.nextUnsignedAt
  · rw [if_pos hdue]
    exact .nothing (.refl r)
  · rw [if_neg hdue, ← bind_apply]
    exact leaves_fetchPrice (hsubmit (by omega)) hfresh

theorem submits_one {price : UInt32} {transaction : Origin T × Call T} {message : String}
    (hcarries : Carries host s blockNumber price transaction) :
    Submits host s blockNumber price (do
      let sent ← submitTransaction host transaction
      if !sent then throw (.text message)) := by
  intro r
  simp only [bind_apply, submitTransaction_apply]
  by_cases haccepts : host.accepts transaction = true
  · refine ⟨[transaction], ?_, ?_, ?_, ?_⟩
    all_goals simp [haccepts, hcarries]
  · refine ⟨[], ?_, ?_, ?_, ?_⟩
    all_goals simp [haccepts]

theorem submits_all {price : UInt32} {transactions : List (Origin T × Call T)}
    {after : List Bool → Worker T Unit} (hafter : ∀ results r, final (after results r) = r)
    (hcarries : ∀ transaction ∈ transactions, Carries host s blockNumber price transaction) :
    Submits host s blockNumber price
      (transactions.mapM (submitTransaction host) >>= after) := by
  intro r
  rw [bind_apply, mapM_submitTransaction]
  have hfinal := hafter (transactions.map host.accepts)
    { r with pooled := r.pooled ++ transactions.filter host.accepts }
  have hlocal := congrArg Run.localStorage hfinal
  have hexchanges := congrArg Run.exchanges hfinal
  have hpooled := congrArg Run.pooled hfinal
  refine ⟨transactions.filter host.accepts, hlocal, hexchanges, hpooled,
    fun transaction hmem => ?_⟩
  obtain ⟨hmem, haccepts⟩ := List.mem_filter.mp hmem
  exact ⟨haccepts, hcarries transaction hmem⟩

theorem carries_signedPayload {price : UInt32} {account : T.AccountId × T.Public}
    {transaction : Origin T × Call T} (hdue : s.nextUnsignedAt ≤ blockNumber)
    (haccount : account ∈ host.accounts)
    (h : signedPayload host blockNumber price account = some transaction) :
    Carries host s blockNumber price transaction := by
  obtain ⟨signature, hsign, rfl⟩ := Option.map_eq_some_iff.mp h
  exact .payload hdue haccount hsign

/-- Whatever a run of a worker comes to, it leaves this. -/
theorem run_leaves (worker : PriceWorker) {r : Run T} (hfresh : r.hashStore = ∅) :
    Leaves P host s blockNumber r (final (worker.run P host s blockNumber r)) := by
  cases worker with
  | signed =>
    simp only [PriceWorker.run, ocwDoFetchPriceAndSendSigned]
    by_cases hempty : host.accounts.isEmpty = true
    · rw [if_pos hempty]
      exact .nothing (.refl r)
    · rw [if_neg hempty]
      apply leaves_fetchPrice _ hfresh
      intro price
      apply submits_all
      · intro results r
        rfl
      · intro transaction hmem
        obtain ⟨account, haccount, rfl⟩ := List.mem_map.mp hmem
        exact .signed haccount
  | rawUnsigned =>
    exact leaves_fetchDuePrice (fun hdue price => submits_one (.raw hdue)) hfresh
  | unsignedForAny =>
    apply leaves_fetchDuePrice _ hfresh
    intro hdue price
    cases hany : host.accounts.findSome? (signedPayload host blockNumber price) with
    | none => exact fun r => ⟨[], by simp⟩
    | some transaction =>
      obtain ⟨account, haccount, hpayload⟩ := List.exists_of_findSome?_eq_some hany
      exact submits_one (carries_signedPayload hdue haccount hpayload)
  | unsignedForAll =>
    apply leaves_fetchDuePrice _ hfresh
    intro hdue price
    apply submits_all
    · intro results r
      split <;> rfl
    · intro transaction hmem
      obtain ⟨account, haccount, hpayload⟩ := List.mem_filterMap.mp hmem
      exact carries_signedPayload hdue haccount hpayload
  | storeHash =>
    exact leaves_fetchDuePrice (fun _ _ r => ⟨[], by simp⟩) hfresh

/-- A run that is due and fetches a price submits it, if the pool accepts. -/
theorem rawUnsigned_sends {body : Bytes} {price : UInt32} {r : Run T} (hfresh : r.hashStore = ∅)
    (hdue : s.nextUnsignedAt ≤ blockNumber)
    (hresponse : responseFromHttpUrl host catfactUrl 5000 = .ok body)
    (hprice : P.priceOf body = some price) (hblock : s.blockNumber < 2 ^ 32)
    (haccepts : host.accepts (.none, .submitPriceUnsigned blockNumber price) = true) :
    (final (ocwDoFetchPriceAndSendRawUnsigned P host s blockNumber r)).pooled =
      r.pooled ++ [(.none, .submitPriceUnsigned blockNumber price)] := by
  obtain ⟨r', -, hpooled, hfetch⟩ := fetchData_ok hfresh hresponse hprice hblock
  have hprice : fetchDuePrice P host s blockNumber r = .ok price r' := by
    rw [fetchDuePrice, if_neg (Nat.not_lt.mpr hdue)]
    show fetchPrice P host s r = _
    rw [fetchPrice, orText, hfetch]
  rw [ocwDoFetchPriceAndSendRawUnsigned, bind_apply, hprice]
  simp only [bind_apply, submitTransaction_apply, haccepts, if_true]
  rw [← hpooled]
  rfl

end Leaves

end PolkadotOracle.OcwPallet
