import PolkadotOracle.Ocw.Feed

/-! The price feed never shuts itself out: within an interval from any state that it reaches, a
worker that fetches a price gets it on the chain. -/

namespace PolkadotOracle.OcwPallet

open Exec Scale Text

variable {T : Config} {ι : Type} [DecidableEq ι] {P : Primitives} {x x' : Feed T ι} {i : ι}
  {host : Offchain T}

/-- The next interval starts within an interval from the present block. -/
theorem nextUnsignedAt_le {ledger : T.currency.Ledger} {s : State T}
    (h : Lts.Reaches step (State.genesis T ledger) s) :
    s.nextUnsignedAt ≤ s.blockNumber + T.unsignedInterval := by
  apply h.invariant
  · exact Nat.zero_le _
  · intro s l s' hle _ hstep
    cases step_clock hstep with
    | other hl hnext hblock => omega
    | unsigned haccepts hnext hblock => omega

/-- A run of the feed is one of the chain. -/
theorem Feed.chain_reaches (h : Lts.Reaches (Feed.step P) x x') :
    Lts.Reaches OcwPallet.step x.chain x'.chain := by
  apply h.relates (R := fun x x' => Lts.Reaches OcwPallet.step x.chain x'.chain)
  · exact fun x => Lts.ReachesBy.refl x.chain
  · exact fun _ _ _ => Lts.ReachesBy.trans
  intro x l x' hstep
  have hone : ∀ l' chain, OcwPallet.step x.chain l' = some chain →
      Lts.Reaches OcwPallet.step x.chain chain := fun l' chain hchain =>
    (Lts.ReachesBy.refl _).tail trivial hchain
  cases l with
  | block =>
    simp only [Feed.step, Option.map_eq_some_iff] at hstep
    obtain ⟨chain, hchain, rfl⟩ := hstep
    exact hone _ _ hchain
  | call who c =>
    simp only [Feed.step, Option.map_eq_some_iff] at hstep
    obtain ⟨chain, hchain, rfl⟩ := hstep
    exact hone _ _ hchain
  | start i worker =>
    obtain rfl := Option.some.inj hstep
    exact Lts.ReachesBy.refl _
  | finish k host =>
    cases hr : x.running[k]? with
    | none => simp [Feed.step, hr] at hstep
    | some r =>
      simp only [Feed.step, hr] at hstep
      obtain rfl := Option.some.inj hstep
      exact Lts.ReachesBy.refl _
  | inclusion k =>
    cases hpool : x.pool[k]? with
    | none => simp [Feed.step, hpool] at hstep
    | some transaction =>
      simp only [Feed.step, hpool, Option.map_eq_some_iff] at hstep
      obtain ⟨chain, hchain, rfl⟩ := hstep
      exact hone _ _ hchain
  | loss k =>
    obtain rfl := Option.some.inj hstep
    exact Lts.ReachesBy.refl _

/-- Blocks, runs of the raw worker of one node that find the given, and inclusions. -/
def OneWorker (i : ι) (host : Offchain T) (_ : Feed T ι) : FeedLabel T ι → Prop
  | .block => True
  | .start j worker => j = i ∧ worker = .rawUnsigned
  | .finish _ host' => host' = host
  | .inclusion _ => True
  | .call _ _ => False
  | .loss _ => False

theorem reaches_blocks (x : Feed T ι) (i : ι) (host : Offchain T) (n : Nat) : ∃ chain,
    Lts.ReachesBy (Feed.step P) (OneWorker i host) x { x with chain } ∧
      chain.blockNumber = x.chain.blockNumber + n ∧
      chain.nextUnsignedAt = x.chain.nextUnsignedAt := by
  induction n with
  | zero => exact ⟨x.chain, Lts.ReachesBy.refl x, rfl, rfl⟩
  | succ n ih =>
    obtain ⟨chain, hreaches, hblock, hnext⟩ := ih
    refine ⟨{ chain with blockNumber := chain.blockNumber + 1, events := [] }, ?_, ?_, hnext⟩
    · exact hreaches.tail (l := .block) trivial rfl
    · show chain.blockNumber + 1 = _
      omega

/-- A run that is due leaves its transaction in the pool. -/
theorem reaches_pooled {body : Bytes} {price : UInt32}
    (hdue : x.chain.nextUnsignedAt ≤ x.chain.blockNumber)
    (hresponse : responseFromHttpUrl host catfactUrl 5000 = .ok body)
    (hprice : P.priceOf body = some price) (hblock : x.chain.blockNumber < 2 ^ 32)
    (haccepts : ∀ transaction, host.accepts transaction = true) :
    ∃ x', Lts.ReachesBy (Feed.step P) (OneWorker i host) x x' ∧ x'.chain = x.chain ∧
      x'.priced = x.priced ∧
      x'.pool = x.pool ++ [(.none, .submitPriceUnsigned x.chain.blockNumber price)] := by
  have hstart : Feed.step P x (.start i .rawUnsigned) =
      some { x with running := x.running ++ [⟨i, .rawUnsigned, x.chain⟩] } := rfl
  have hlast : (x.running ++ [⟨i, .rawUnsigned, x.chain⟩])[x.running.length]? =
      some ⟨i, .rawUnsigned, x.chain⟩ := List.getElem?_concat_length
  let r : Started T ι := ⟨i, .rawUnsigned, x.chain⟩
  have hsent : (r.leaves P host (x.localStorage i)).pooled =
      [(.none, .submitPriceUnsigned x.chain.blockNumber price)] :=
    rawUnsigned_sends rfl hdue hresponse hprice hblock (haccepts _)
  have hfinish : Feed.step P { x with running := x.running ++ [r] }
      (.finish x.running.length host) = some { x with
        localStorage := Function.update x.localStorage i
          (r.leaves P host (x.localStorage i)).localStorage
        running := (x.running ++ [r]).eraseIdx x.running.length
        pool := x.pool ++ (r.leaves P host (x.localStorage i)).pooled
        fetched := x.fetched ++ r.fetched host (r.leaves P host (x.localStorage i)) } := by
    simp only [Feed.step, r, hlast]
  have hstarted : Lts.ReachesBy (Feed.step P) (OneWorker i host) x
      { x with running := x.running ++ [r] } :=
    (Lts.ReachesBy.refl x).tail (show OneWorker i host x (.start i .rawUnsigned) from ⟨rfl, rfl⟩)
      hstart
  have hfinished : OneWorker i host { x with running := x.running ++ [r] }
      (.finish x.running.length host) := rfl
  exact ⟨_, hstarted.tail hfinished hfinish, rfl, rfl, congrArg (x.pool ++ ·) hsent⟩

/-- From every state that the feed reaches, whatever has happened before: after at most an interval
of blocks a run that fetches a price puts it on the chain, when the pool takes its transaction and
no other is included first. -/
theorem feed_live (hmax : 0 < T.maxPrices.toNat) {ledger : T.currency.Ledger}
    {localStorage : ι → Store Bytes Bytes}
    (h : Lts.Reaches (Feed.step P) (Feed.launch ledger localStorage) x) (i : ι) {body : Bytes}
    {price : UInt32} (hresponse : responseFromHttpUrl host catfactUrl 5000 = .ok body)
    (hprice : P.priceOf body = some price)
    (haccepts : ∀ transaction, host.accepts transaction = true)
    (hblock : x.chain.blockNumber + T.unsignedInterval < 2 ^ 32) :
    ∃ x', Lts.ReachesBy (Feed.step P) (OneWorker i host) x x' ∧
      x'.chain.blockNumber ≤ x.chain.blockNumber + T.unsignedInterval ∧
      x'.priced = x.priced ++ [⟨x'.chain.blockNumber, x'.chain.blockNumber, price⟩] ∧
      price ∈ x'.chain.prices.val := by
  have hnext := nextUnsignedAt_le (Feed.chain_reaches h)
  obtain ⟨chain, hwait, hnumber, hsame⟩ :=
    reaches_blocks (P := P) x i host T.unsignedInterval
  have hdue : chain.nextUnsignedAt ≤ chain.blockNumber := by omega
  obtain ⟨x₂, hrun, hchain, hpriced, hpool⟩ := reaches_pooled (P := P) (x := { x with chain })
    (i := i) hdue hresponse hprice (by simp only; omega) haccepts
  -- The transaction is the last one of the pool, and the validation accepts it.
  have hvalid : (validateUnsigned chain (.submitPriceUnsigned chain.blockNumber price)).accepts =
      true := validateTransactionParameters_accepts.mpr ⟨hdue, le_rfl⟩
  obtain ⟨chain', hcall, hprices⟩ :=
    submit_some hmax chain (.submitPriceUnsigned chain.blockNumber price)
  have hstep : OcwPallet.step chain
      (.call .none (.submitPriceUnsigned chain.blockNumber price)) = some chain' := by
    rw [OcwPallet.step, if_pos hvalid]
    exact hcall
  have hnumber' : chain'.blockNumber = chain.blockNumber := by
    cases step_clock hstep with
    | other hl => exact absurd rfl (hl _)
    | unsigned hacc hnext hblock => exact hblock
  have hlast : x₂.pool[x.pool.length]? =
      some (.none, .submitPriceUnsigned chain.blockNumber price) := by
    rw [hpool]
    exact List.getElem?_concat_length
  have hincluded : Feed.step P x₂ (.inclusion x.pool.length) = some { x₂ with
      chain := chain'
      pool := x₂.pool.eraseIdx x.pool.length
      priced := x₂.priced ++ [⟨chain.blockNumber, chain.blockNumber, price⟩] } := by
    simp only [Feed.step, hlast, hchain, hstep]
    rfl
  have hallowed : OneWorker i host x₂ (.inclusion x.pool.length) := trivial
  refine ⟨_, (hwait.trans hrun).tail hallowed hincluded, ?_, ?_, ?_⟩
  · simp only
    omega
  · simp only [hnumber', hpriced]
  · show price ∈ chain'.prices.val
    rw [hprices]
    exact Buffer.mem_push (priceSlot_lt hmax price)

/-- A second price, after one in the first block. -/
theorem feed_live_sample : ∃ x x' : Feed sampleRuntime Unit,
    Lts.Reaches (Feed.step samplePrimitives) (Feed.launch Book.empty fun _ => Store.empty) x ∧
    Lts.ReachesBy (Feed.step samplePrimitives) (OneWorker () sampleOffchain) x x' ∧
    x.chain.nextUnsignedAt = 4 ∧ x'.chain.blockNumber ≤ 4 ∧
    x'.priced = [⟨1, 1, 42⟩, ⟨x'.chain.blockNumber, x'.chain.blockNumber, 42⟩] := by
  have hrun : (Lts.run (Feed.step samplePrimitives) (Feed.launch Book.empty fun _ => Store.empty)
      (sampleFeeding.take 6)).any (fun x => x.chain.nextUnsignedAt = 4 ∧ x.chain.blockNumber = 1 ∧
        x.priced = [⟨1, 1, 42⟩]) = true := by
    decide +kernel
  obtain ⟨x, hx, hend⟩ := Lts.reaches_of_run hrun
  obtain ⟨hnext, hblock, hpriced⟩ := of_decide_eq_true hend
  have hprice : samplePrimitives.priceOf (utf8 sampleBody) = some 42 := by decide +kernel
  have hresponse : responseFromHttpUrl sampleOffchain catfactUrl 5000 = .ok (utf8 sampleBody) := rfl
  obtain ⟨x', hx', hnumber, hpriced', -⟩ :=
    feed_live (by decide) hx () hresponse hprice (fun _ => rfl) (by rw [hblock]; decide)
  rw [hpriced, List.singleton_append] at hpriced'
  rw [hblock] at hnumber
  exact ⟨x, x', hx, hx', hnext, hnumber, hpriced'⟩

end PolkadotOracle.OcwPallet
