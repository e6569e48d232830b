import PolkadotOracle.Lib.Journal
import PolkadotOracle.Ocw.Prices
import PolkadotOracle.Ocw.Slash

/-! The events of the ocw pallet tell all that its calls do to the prices, to the processors and to
the reserved balances: an observer rebuilds them from the events of all blocks. -/

namespace PolkadotOracle.OcwPallet

open Exec Frame Text

variable {T : Config} {s s' : State T}

/-! ### The index of an observer -/

/-- What an observer knows of a state. -/
@[ext]
structure Index (T : Config) where
  prices : List UInt32
  stakedProcessors : Finmap fun _ : T.AccountId => Meta T
  reserved : T.AccountId → Nat

def State.index (s : State T) : Index T where
  prices := s.prices.val
  stakedProcessors := s.stakedProcessors
  reserved := T.currency.reserved s.ledger

/-- What an event tells.  A slash takes what it says, or all that there is. -/
def Index.apply (x : Index T) : Event T → Index T
  | .newPrice price _ =>
    { x with prices := Buffer.push T.maxPrices.toNat (priceSlot T) x.prices price }
  | .addNewUrl _ _ => x
  | .processorStaked who amount =>
    { x with
      stakedProcessors := x.stakedProcessors.insert who (Meta.new amount)
      reserved := Function.update x.reserved who (x.reserved who + amount) }
  | .processorRemove who =>
    { x with
      stakedProcessors := x.stakedProcessors.erase who
      reserved := Function.update x.reserved who 0 }
  | .slashEvent who slashAmount _ =>
    { x with reserved := Function.update x.reserved who (x.reserved who - slashAmount) }
  | .treasuryAcc _ _ => x

def Label.isBlock : Label T → Bool
  | .block => true
  | .call _ _ => false

/-- The steps of the chain, with an observer of the events. -/
def observe : Journal.Observed (State T) (Event T) → Label T →
    Option (Journal.Observed (State T) (Event T)) :=
  Journal.observe step State.events Label.isBlock

/-! ### What a call announces -/

/-- The events that a call deposits tell what it does. -/
def Told (s s' : State T) : Prop :=
  ∃ new, s'.events = s.events ++ new ∧ s'.index = new.foldl Index.apply s.index

theorem Told.nothing (s : State T) : Told s s := ⟨[], (List.append_nil _).symm, rfl⟩

theorem Told.event {event : Event T} (hevents : s'.events = s.events ++ [event])
    (hindex : s'.index = s.index.apply event) : Told s s' := ⟨[event], hevents, hindex⟩

/-- The reserved balances of two ledgers that differ on one account. -/
theorem reserved_update {reserved reserved' : T.AccountId → Nat} {who : T.AccountId} {n : Nat}
    (hwho : reserved' who = n) (hothers : ∀ a ≠ who, reserved' a = reserved a) :
    reserved' = Function.update reserved who n := by
  funext a
  by_cases ha : a = who
  · rw [ha, Function.update_self, hwho]
  · rw [Function.update_of_ne ha, hothers a ha]

theorem Told.stake (hlaws : T.currency.Lawful) {who : T.AccountId} {stakeAmount : Nat}
    {ledger : T.currency.Ledger}
    (hreserve : T.currency.reserve s.ledger who stakeAmount = some ledger) :
    Told s (s.stake who stakeAmount ledger) := by
  obtain ⟨-, hreserved, hsame⟩ := hlaws.reserve hreserve
  apply Told.event rfl
  apply Index.ext
  · rfl
  · rfl
  · exact reserved_update hreserved fun a ha => (hsame a ha).2

theorem Told.unStake (hlaws : T.currency.Lawful) (s : State T) (who : T.AccountId) :
    Told s (s.unStake who) := by
  obtain ⟨-, hreserved, hsame⟩ := unStake_ledger hlaws s who
  apply Told.event rfl
  apply Index.ext
  · rfl
  · rfl
  · exact reserved_update hreserved fun a ha => (hsame a ha).2

theorem Told.slash (hlaws : T.currency.Lawful) (s : State T) (mockTarget : T.AccountId)
    (slashAmount : Nat) : Told s (s.slash mockTarget slashAmount) := by
  obtain ⟨htaken, hothers⟩ := slashLedger_reserved hlaws s mockTarget slashAmount
  apply Told.event rfl
  apply Index.ext
  · rfl
  · rfl
  · apply reserved_update _ hothers
    have hleft : T.currency.reserved (s.slashLedger mockTarget slashAmount) mockTarget =
        T.currency.reserved s.ledger mockTarget - slashAmount := by omega
    exact hleft

theorem Prices.push_eq {prices prices' : Prices T} {price : UInt32}
    (h : prices.push price = some prices') :
    prices'.val = Buffer.push T.maxPrices.toNat (priceSlot T) prices.val price := by
  by_cases hmax : 0 < T.maxPrices.toNat
  · obtain ⟨pushed, hpushed, hval⟩ := prices.push_some hmax price
    obtain rfl : prices' = pushed := Option.some.inj (h.symm.trans hpushed)
    exact hval
  · have hzero : T.maxPrices = 0 := UInt32.toNat_inj.mp (Nat.eq_zero_of_not_pos hmax)
    rw [Prices.push, dif_neg (by omega), if_pos hzero] at h
    contradiction

theorem Told.addPrice {price : UInt32} {prices : Prices T}
    (hpush : s.prices.push price = some prices) (maybeWho : Option T.AccountId)
    (hevents : s'.events = s.events ++ [.newPrice price maybeWho]) (hprices : s'.prices = prices)
    (hstaked : s'.stakedProcessors = s.stakedProcessors) (hledger : s'.ledger = s.ledger) :
    Told s s' := by
  apply Told.event hevents
  apply Index.ext
  · show s'.prices.val = _
    rw [hprices]
    exact Prices.push_eq hpush
  · exact hstaked
  · exact congrArg T.currency.reserved hledger

end PolkadotOracle.OcwPallet
