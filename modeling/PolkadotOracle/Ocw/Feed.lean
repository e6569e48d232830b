import PolkadotOracle.Ocw.Prices
import PolkadotOracle.Ocw.Worker

/-! The price feed: a chain, the pool, and the price workers of any number of nodes, whose runs take
any time between the state that they have read and the transactions that they submit. -/

namespace PolkadotOracle.OcwPallet

open Exec Scale Text

variable {T : Config} {ι : Type} [DecidableEq ι] {P : Primitives}

/-! ### Steps -/

/-- A run that has started: its node, the worker, and the state that it reads. -/
structure Started (T : Config) (ι : Type) where
  node : ι
  worker : PriceWorker
  state : State T

/-- A price that an unsigned call has put on the chain, with the block that the call claims and the
block that has included it. -/
structure Priced where
  claimed : Nat
  included : Nat
  price : UInt32
deriving DecidableEq

/-- What has come of a request of a run: the node and the block of the run, the time at which the
response was there, and what the HTTP client has brought. -/
structure Fetched (ι : Type) where
  node : ι
  blockNumber : Nat
  receivedAt : UInt64
  exchange : Exchange

/-- No step reads the lists of the requests and of the prices. -/
structure Feed (T : Config) (ι : Type) where
  chain : State T
  localStorage : ι → Store Bytes Bytes
  running : List (Started T ι)
  pool : List (Origin T × Call T)
  fetched : List (Fetched ι)
  priced : List Priced

/-- What moves the feed: a new block, a call of somebody, the start of a run on the block of the
chain and its end, the inclusion of a pooled transaction, or its loss. -/
inductive FeedLabel (T : Config) (ι : Type)
  | block
  | call (who : T.AccountId) (c : Call T)
  | start (i : ι) (worker : PriceWorker)
  | finish (k : Nat) (host : Offchain T)
  | inclusion (k : Nat)
  | loss (k : Nat)

/-- The block and the price of an unsigned call. -/
def Call.priced : Call T → Option (Nat × UInt32)
  | .submitPriceUnsigned blockNumber price => some (blockNumber, price)
  | .submitPriceUnsignedWithSignedPayload pricePayload _ =>
    some (pricePayload.blockNumber, pricePayload.price)
  | _ => none

/-- The price that the inclusion of a transaction puts on the chain without a signer. -/
def pricedAt (blockNumber : Nat) : Origin T × Call T → List Priced
  | (.none, c) => (c.priced.map fun (claimed, price) => ⟨claimed, blockNumber, price⟩).toList
  | _ => []

/-- What the run leaves in the end. -/
def Started.leaves (P : Primitives) (r : Started T ι) (host : Offchain T)
    (localStorage : Store Bytes Bytes) : Run T :=
  final (r.worker.run P host r.state r.state.blockNumber ⟨localStorage, ∅, [], []⟩)

/-- The requests of the run. -/
def Started.fetched (r : Started T ι) (host : Offchain T) (left : Run T) : List (Fetched ι) :=
  left.exchanges.map fun exchange => ⟨r.node, r.state.blockNumber, host.receivedAt, exchange⟩

def Feed.step (P : Primitives) (x : Feed T ι) : FeedLabel T ι → Option (Feed T ι)
  | .block => (OcwPallet.step x.chain .block).map fun chain => { x with chain }
  | .call who c => (OcwPallet.step x.chain (.call (.signed who) c)).map fun chain =>
    { x with chain }
  | .start i worker => some { x with running := x.running ++ [⟨i, worker, x.chain⟩] }
  | .finish k host =>
    match x.running[k]? with
    | none => none
    | some r =>
      let left := r.leaves P host (x.localStorage r.node)
      some { x with
        localStorage := Function.update x.localStorage r.node left.localStorage
        running := x.running.eraseIdx k
        pool := x.pool ++ left.pooled
        fetched := x.fetched ++ r.fetched host left }
  | .inclusion k =>
    match x.pool[k]? with
    | none => none
    | some transaction =>
      (OcwPallet.step x.chain (.call transaction.1 transaction.2)).map fun chain => { x with
        chain
        pool := x.pool.eraseIdx k
        priced := x.priced ++ pricedAt x.chain.blockNumber transaction }
  | .loss k => some { x with pool := x.pool.eraseIdx k }

/-- A new chain, with nodes whose local storage has whatever is left in it. -/
def Feed.launch (ledger : T.currency.Ledger) (localStorage : ι → Store Bytes Bytes) : Feed T ι where
  chain := State.genesis T ledger
  localStorage := localStorage
  running := []
  pool := []
  fetched := []
  priced := []

/-! ### Responses in the local storage -/

/-- The price is that of a response with status 200 that a run for the block has fetched, and the
node of the run has kept, under a key that names the block and the hash of the response, a body with
that hash. -/
def Audited (P : Primitives) (fetched : List (Fetched ι)) (localStorage : ι → Store Bytes Bytes)
    (claimed : Nat) (price : UInt32) : Prop :=
  ∃ f ∈ fetched, ∃ body kept, f.blockNumber = claimed ∧ f.exchange = .response 200 body ∧
    P.priceOf body = some price ∧
    (localStorage f.node).get (utf8 (responseKey f.receivedAt claimed (P.hashing body))) =
      some kept ∧
    P.hashing kept = P.hashing body

/-- A run that keeps its body loses no response: under a key of another there is still a body with
its hash. -/
theorem Audited.set {fetched : List (Fetched ι)} {localStorage : ι → Store Bytes Bytes}
    {claimed : Nat} {price : UInt32} (h : Audited P fetched localStorage claimed price) (i : ι)
    (host : Offchain T) (s : State T) (body : Bytes) (more : List (Fetched ι)) :
    Audited P (fetched ++ more)
      (Function.update localStorage i ((localStorage i).set (bodyKey P host s body) body))
      claimed price := by
  obtain ⟨f, hf, body', kept, hblock, hexchange, hprice, hget, hhash⟩ := h
  refine ⟨f, List.mem_append_left _ hf, body', ?_⟩
  by_cases hnode : f.node = i
  case neg =>
    refine ⟨kept, hblock, hexchange, hprice, ?_, hhash⟩
    rw [Function.update_of_ne hnode]
    exact hget
  subst hnode
  by_cases hkey : utf8 (responseKey f.receivedAt claimed (P.hashing body')) = bodyKey P host s body
  · obtain ⟨-, -, hsame⟩ := responseKey_inj (Text.utf8_injective hkey)
    refine ⟨body, hblock, hexchange, hprice, ?_, hsame.symm⟩
    rw [Function.update_self, hkey]
    exact Store.get_set_same _ _ _
  · refine ⟨kept, hblock, hexchange, hprice, ?_, hhash⟩
    rw [Function.update_self, Store.get_set_ne _ _ hkey]
    exact hget

omit [DecidableEq ι] in
/-- More requests do no harm. -/
theorem Audited.mono {fetched fetched' : List (Fetched ι)} {localStorage : ι → Store Bytes Bytes}
    {claimed : Nat} {price : UInt32} (h : Audited P fetched localStorage claimed price)
    (hmore : fetched <+: fetched') : Audited P fetched' localStorage claimed price := by
  obtain ⟨f, hf, hfetched⟩ := h
  exact ⟨f, hmore.subset hf, hfetched⟩

/-! ### The invariant -/

/-- Every unsigned price that is on its way or on the chain is that of a response for a past block,
and those on the chain keep the interval. -/
structure FeedInv (P : Primitives) (x : Feed T ι) : Prop where
  running : ∀ r ∈ x.running, r.state.blockNumber ≤ x.chain.blockNumber
  pool : ∀ c claimed price, ((.none : Origin T), c) ∈ x.pool → c.priced = some (claimed, price) →
    claimed ≤ x.chain.blockNumber ∧ Audited P x.fetched x.localStorage claimed price
  priced : ∀ e ∈ x.priced, e.claimed ≤ e.included ∧
    Audited P x.fetched x.localStorage e.claimed e.price
  spaced : x.priced.Pairwise fun e e' => e.included + T.unsignedInterval ≤ e'.claimed
  next : ∀ e ∈ x.priced, e.included + T.unsignedInterval ≤ x.chain.nextUnsignedAt

omit [DecidableEq ι] in
theorem feedInv_launch (ledger : T.currency.Ledger) (localStorage : ι → Store Bytes Bytes) :
    FeedInv P (Feed.launch ledger localStorage) := by
  constructor <;> simp [Feed.launch]

theorem ClockStep.block_le {s s' : State T} {l : Label T} (h : ClockStep s s' l) :
    s.blockNumber ≤ s'.blockNumber := by
  cases h with
  | other hl hnext hblock => exact hblock
  | unsigned haccepts hnext hblock => exact hblock.ge

theorem claimed_of_priced {c : Call T} {claimed : Nat} {price : UInt32}
    (h : c.priced = some (claimed, price)) : c.claimed = some claimed := by
  cases c with
  | submitPriceUnsigned =>
    obtain ⟨rfl, rfl⟩ := Prod.mk.inj (Option.some.inj h)
    rfl
  | submitPriceUnsignedWithSignedPayload =>
    obtain ⟨rfl, rfl⟩ := Prod.mk.inj (Option.some.inj h)
    rfl
  | _ => contradiction

/-- What an unsigned transaction of a run claims is the block of the run. -/
theorem Carries.priced {host : Offchain T} {s : State T} {blockNumber claimed : Nat}
    {price price' : UInt32} {c : Call T} (h : Carries host s blockNumber price (.none, c))
    (hpriced : c.priced = some (claimed, price')) : claimed = blockNumber ∧ price' = price := by
  cases h with
  | raw =>
    obtain ⟨rfl, rfl⟩ := Prod.mk.inj (Option.some.inj hpriced)
    exact ⟨rfl, rfl⟩
  | payload =>
    obtain ⟨rfl, rfl⟩ := Prod.mk.inj (Option.some.inj hpriced)
    exact ⟨rfl, rfl⟩

namespace FeedInv

variable {x x' : Feed T ι}

omit [DecidableEq ι] in
/-- A step that puts no price on the chain, changes no local storage and brings no transaction. -/
theorem frame (h : FeedInv P x) (hblock : x.chain.blockNumber ≤ x'.chain.blockNumber)
    (hnext : x.chain.nextUnsignedAt ≤ x'.chain.nextUnsignedAt)
    (hstorage : x'.localStorage = x.localStorage) (hfetched : x.fetched <+: x'.fetched)
    (hrunning : ∀ r ∈ x'.running, r ∈ x.running ∨ r.state = x.chain)
    (hpool : ∀ transaction ∈ x'.pool, transaction ∈ x.pool) (hpriced : x'.priced = x.priced) :
    FeedInv P x' where
  running r hr := by
    rcases hrunning r hr with hold | hnew
    · exact Nat.le_trans (h.running r hold) hblock
    · rw [hnew]
      exact hblock
  pool c claimed price hc hprice := by
    obtain ⟨hle, haudited⟩ := h.pool c claimed price (hpool _ hc) hprice
    rw [hstorage]
    exact ⟨Nat.le_trans hle hblock, haudited.mono hfetched⟩
  priced e he := by
    obtain ⟨hle, haudited⟩ := h.priced e (hpriced ▸ he)
    rw [hstorage]
    exact ⟨hle, haudited.mono hfetched⟩
  spaced := by
    rw [hpriced]
    exact h.spaced
  next e he := by
    rw [hpriced] at he
    exact Nat.le_trans (h.next e he) hnext

theorem finish (h : FeedInv P x) {k : Nat} {r : Started T ι} (hr : x.running[k]? = some r)
    (host : Offchain T) :
    FeedInv P { x with
      localStorage := Function.update x.localStorage r.node
        (r.leaves P host (x.localStorage r.node)).localStorage
      running := x.running.eraseIdx k
      pool := x.pool ++ (r.leaves P host (x.localStorage r.node)).pooled
      fetched := x.fetched ++ r.fetched host (r.leaves P host (x.localStorage r.node)) } := by
  have hleaves : Leaves P host r.state r.state.blockNumber ⟨x.localStorage r.node, ∅, [], []⟩
      (r.leaves P host (x.localStorage r.node)) := run_leaves r.worker rfl
  have hblock := h.running r (List.mem_of_getElem? hr)
  generalize r.leaves P host (x.localStorage r.node) = left at hleaves ⊢
  cases hleaves with
  | nothing hidle =>
    refine h.frame ?_ ?_ ?_ (List.prefix_append _ _) ?_ ?_ rfl
    · exact le_rfl
    · exact le_rfl
    · show Function.update x.localStorage r.node left.localStorage = x.localStorage
      rw [hidle.localStorage, Function.update_eq_self]
    · exact fun r' hr' => .inl (List.mem_of_mem_eraseIdx hr')
    · simp [hidle.pooled]
  | @fetched body transactions _ hkeeps hpooled hcarries =>
    obtain ⟨-, hexchanges, hlocal⟩ := hkeeps
    rw [hlocal, hpooled, List.nil_append]
    constructor
    case running => exact fun r' hr' => h.running r' (List.mem_of_mem_eraseIdx hr')
    case pool =>
      intro c claimed price hc hprice
      rcases List.mem_append.mp hc with hold | hnew
      · obtain ⟨hle, haudited⟩ := h.pool c claimed price hold hprice
        exact ⟨hle, haudited.set r.node host r.state body _⟩
      · obtain ⟨-, price', hbody, hcarried⟩ := hcarries _ hnew
        obtain ⟨rfl, rfl⟩ := hcarried.priced hprice
        refine ⟨hblock, ⟨r.node, r.state.blockNumber, host.receivedAt, .response 200 body⟩, ?_,
          body, body, rfl, rfl, hbody, ?_, rfl⟩
        · simp [Started.fetched, hexchanges]
        · show (Function.update x.localStorage r.node _ r.node).get _ = some body
          rw [Function.update_self]
          exact Store.get_set_same _ _ _
    case priced =>
      intro e he
      obtain ⟨hle, haudited⟩ := h.priced e he
      exact ⟨hle, haudited.set r.node host r.state body _⟩
    case spaced => exact h.spaced
    case next => exact h.next

omit [DecidableEq ι] in
theorem inclusion (h : FeedInv P x) {k : Nat} {transaction : Origin T × Call T}
    (hpool : x.pool[k]? = some transaction) {chain : State T}
    (hstep : OcwPallet.step x.chain (.call transaction.1 transaction.2) = some chain) :
    FeedInv P { x with
      chain
      pool := x.pool.eraseIdx k
      priced := x.priced ++ pricedAt x.chain.blockNumber transaction } := by
  have hclock := step_clock hstep
  have hmem := List.mem_of_getElem? hpool
  have hquiet : pricedAt x.chain.blockNumber transaction = [] →
      FeedInv P { x with
        chain
        pool := x.pool.eraseIdx k
        priced := x.priced ++ pricedAt x.chain.blockNumber transaction } := fun hnone => by
    rw [hnone, List.append_nil]
    exact h.frame hclock.block_le hclock.next_le rfl List.prefix_rfl (fun r hr => .inl hr)
      (fun t ht => List.mem_of_mem_eraseIdx ht) rfl
  obtain ⟨origin, c⟩ := transaction
  cases origin with
  | root => exact hquiet rfl
  | signed who => exact hquiet rfl
  | none =>
  cases hpriced : c.priced with
  | none => exact hquiet (by rw [pricedAt, hpriced]; rfl)
  | some entry =>
  obtain ⟨claimed, price⟩ := entry
  have hentry : pricedAt x.chain.blockNumber ((.none : Origin T), c) =
      [⟨claimed, x.chain.blockNumber, price⟩] := by
    rw [pricedAt, hpriced]
    rfl
  obtain ⟨hle, haudited⟩ := h.pool c claimed price hmem hpriced
  have hmono := hclock.next_le
  have hblock := hclock.block_le
  cases hclock with
  | other hl => exact absurd rfl (hl c)
  | unsigned haccepts hnext hsame =>
  obtain ⟨claimed', hclaimed, hlow, -⟩ := validateUnsigned_window haccepts
  obtain rfl : claimed = claimed' :=
    Option.some.inj ((claimed_of_priced hpriced).symm.trans hclaimed)
  rw [hentry]
  constructor
  case running => exact fun r hr => Nat.le_trans (h.running r hr) hblock
  case pool =>
    intro c' claimed' price' hc' hprice'
    obtain ⟨hle', haudited'⟩ := h.pool c' claimed' price' (List.mem_of_mem_eraseIdx hc') hprice'
    exact ⟨Nat.le_trans hle' hblock, haudited'⟩
  case priced =>
    intro e he
    rcases List.mem_append.mp he with hold | hnew
    · exact h.priced e hold
    · obtain rfl := List.mem_singleton.mp hnew
      exact ⟨hle, haudited⟩
  case spaced =>
    refine List.pairwise_append.mpr ⟨h.spaced, List.pairwise_singleton _ _, ?_⟩
    intro e he e' he'
    obtain rfl := List.mem_singleton.mp he'
    exact Nat.le_trans (h.next e he) hlow
  case next =>
    intro e he
    rcases List.mem_append.mp he with hold | hnew
    · exact Nat.le_trans (h.next e hold) hmono
    · obtain rfl := List.mem_singleton.mp hnew
      exact hnext.ge

/-- Every step of the feed keeps the invariant. -/
theorem step {l : FeedLabel T ι} (h : FeedInv P x) (hstep : Feed.step P x l = some x') :
    FeedInv P x' := by
  cases l with
  | block =>
    simp only [Feed.step, Option.map_eq_some_iff] at hstep
    obtain ⟨chain, hchain, rfl⟩ := hstep
    have hclock := step_clock hchain
    exact h.frame hclock.block_le hclock.next_le rfl List.prefix_rfl (fun r hr => .inl hr)
      (fun t ht => ht) rfl
  | call who c =>
    simp only [Feed.step, Option.map_eq_some_iff] at hstep
    obtain ⟨chain, hchain, rfl⟩ := hstep
    have hclock := step_clock hchain
    exact h.frame hclock.block_le hclock.next_le rfl List.prefix_rfl (fun r hr => .inl hr)
      (fun t ht => ht) rfl
  | start i worker =>
    obtain rfl := Option.some.inj hstep
    refine h.frame le_rfl le_rfl rfl List.prefix_rfl ?_ (fun t ht => ht) rfl
    intro r hr
    rcases List.mem_append.mp hr with hold | hnew
    · exact .inl hold
    · obtain rfl := List.mem_singleton.mp hnew
      exact .inr rfl
  | finish k host =>
    cases hr : x.running[k]? with
    | none => simp [Feed.step, hr] at hstep
    | some r =>
      simp only [Feed.step, hr] at hstep
      obtain rfl := Option.some.inj hstep
      exact h.finish hr host
  | inclusion k =>
    cases hpool : x.pool[k]? with
    | none => simp [Feed.step, hpool] at hstep
    | some transaction =>
      simp only [Feed.step, hpool, Option.map_eq_some_iff] at hstep
      obtain ⟨chain, hchain, rfl⟩ := hstep
      exact h.inclusion hpool hchain
  | loss k =>
    obtain rfl := Option.some.inj hstep
    exact h.frame le_rfl le_rfl rfl List.prefix_rfl (fun r hr => .inl hr)
      (fun t ht => List.mem_of_mem_eraseIdx ht) rfl

end FeedInv

/-- Whatever the nodes, their runs and the pool do: every price that an unsigned call of a worker
has put on the chain is that of a response with status 200 that a run for the block that the call
claims has fetched, and the node of the run still has, under a key that names the block and the hash
of the response, a body with that hash.  Each of these calls claims a block at least an interval
after the block that has included the one before; if the interval is not zero, no two of them claim
the same block. -/
theorem feed_audited {ledger : T.currency.Ledger} {localStorage : ι → Store Bytes Bytes}
    {x : Feed T ι} (h : Lts.Reaches (Feed.step P) (Feed.launch ledger localStorage) x) :
    (∀ e ∈ x.priced, e.claimed ≤ e.included ∧
      Audited P x.fetched x.localStorage e.claimed e.price) ∧
    (x.priced.Pairwise fun e e' => e.included + T.unsignedInterval ≤ e'.claimed) ∧
    (0 < T.unsignedInterval → (x.priced.map Priced.claimed).Nodup) := by
  have hinv : FeedInv P x := by
    apply h.invariant (feedInv_launch ledger localStorage)
    intro x l x' hx _ hstep
    exact hx.step hstep
  refine ⟨hinv.priced, hinv.spaced, fun hinterval => ?_⟩
  refine List.pairwise_map.mpr (hinv.spaced.imp_of_mem fun {e e'} he he' hspaced => ?_)
  have hclaimed := (hinv.priced e he).1
  omega

def sampleBody : Str := "\x7b\"length\":42\x7d".toList

theorem length_padded (bs : Bytes) : ((bs ++ List.replicate 32 0).take 32).length = 32 := by
  rw [List.length_take, List.length_append, List.length_replicate]
  omega

/-- The hash keeps the first 32 bytes, and the parser knows one text. -/
def samplePrimitives : Primitives where
  hashing bs := ⟨(bs ++ List.replicate 32 0).take 32, length_padded bs⟩
  parseJson text := if text = sampleBody then some (.object [(lengthMember, .number 42)]) else none

/-- An API that answers with the text, and no accounts. -/
def sampleOffchain : Offchain sampleRuntime where
  exchange _ _ := .response 200 (utf8 sampleBody)
  sentAt := 1000
  receivedAt := 1200
  accounts := []
  sign _ := none
  accepts _ := true

/-- Two runs of a worker on the first block, and one on the fourth. -/
def sampleFeeding : List (FeedLabel sampleRuntime Unit) :=
  [.block, .start () .rawUnsigned, .start () .rawUnsigned, .finish 0 sampleOffchain,
    .finish 0 sampleOffchain, .inclusion 1, .block, .block, .block, .start () .rawUnsigned,
    .finish 0 sampleOffchain, .inclusion 1]

theorem feed_audited_sample : ∃ x : Feed sampleRuntime Unit,
    Lts.Reaches (Feed.step samplePrimitives) (Feed.launch Book.empty fun _ => Store.empty) x ∧
    x.priced = [⟨1, 1, 42⟩, ⟨4, 4, 42⟩] ∧
    Audited samplePrimitives x.fetched x.localStorage 1 42 := by
  have hrun : (Lts.run (Feed.step samplePrimitives) (Feed.launch Book.empty fun _ => Store.empty)
      sampleFeeding).any (fun x => x.priced = [⟨1, 1, 42⟩, ⟨4, 4, 42⟩]) = true := by
    decide +kernel
  obtain ⟨x, hx, hend⟩ := Lts.reaches_of_run hrun
  have hpriced := of_decide_eq_true hend
  exact ⟨x, hx, hpriced, ((feed_audited hx).1 ⟨1, 1, 42⟩ (by simp [hpriced])).2⟩

end PolkadotOracle.OcwPallet
