import PolkadotOracle.Ocw.Types

/-! The calls of the ocw pallet, the validation of its unsigned calls, and its genesis. -/

namespace PolkadotOracle.OcwPallet

open Exec Frame Scale Text

variable {T : Config}

/-- Whether an account is a staked processor. -/
def State.Staked (s : State T) (who : T.AccountId) : Prop := who ∈ s.stakedProcessors

instance (s : State T) (who : T.AccountId) : Decidable (s.Staked who) :=
  inferInstanceAs (Decidable (who ∈ s.stakedProcessors))

/-- The record of a new processor. -/
def Meta.new (stakeAmount : Nat) : Meta T where
  totalStake := stakeAmount
  creditScore := 80
  nominators := ⟨∅, Nat.zero_le _⟩

/-- The source logs the error of a failing reserve and returns. -/
def stake (origin : Origin T) (stakeAmount : Nat) : Dispatch T Unit := do
  let who ← ensureSigned origin
  let s ← get
  ensure (¬s.Staked who) .alreadyStaked
  ensure (stakeAmount < T.minStakeAmount.toNat) .insufficientFund
  match T.currency.reserve s.ledger who stakeAmount with
  | some ledger =>
    modify fun s => { s with
      ledger
      stakedProcessors := s.stakedProcessors.insert who (Meta.new stakeAmount) }
    depositEvent (.processorStaked who stakeAmount)
  | none => pure ()

def unStake (origin : Origin T) : Dispatch T Unit := do
  let who ← ensureSigned origin
  let s ← get
  match s.stakedProcessors.lookup who with
  | none => throw (.module .nonExisted)
  | some _val =>
    let currentReserved := T.currency.reserved s.ledger who
    modify fun s => { s with
      ledger := (T.currency.unreserve s.ledger who currentReserved).1
      stakedProcessors := s.stakedProcessors.erase who }
    depositEvent (.processorRemove who)

def slash (origin : Origin T) (mockTarget : T.AccountId) (slashAmount : Nat) :
    Dispatch T Unit := do
  let who ← ensureSigned origin
  let s ← get
  let currentReserved := T.currency.reserved s.ledger who
  ensure (currentReserved < slashAmount) .insufficientFund
  ensure (¬s.Staked who) .nonExisted
  let ((ledger, imb), remain) := T.currency.slashReserved s.ledger mockTarget slashAmount
  modify fun s => { s with ledger := T.currency.resolveCreating ledger T.treasury imb }
  depositEvent (.slashEvent mockTarget slashAmount remain)

def testAcc (origin : Origin T) : Dispatch T Unit := do
  let _ ← ensureSigned origin
  let s ← get
  depositEvent (.treasuryAcc T.treasury (T.currency.free s.ledger T.treasury))

/-- The prices after one more: at the end, or once they are full in the place that the price gives.
Without room for any price the remainder is by zero. -/
def Prices.push (prices : Prices T) (price : UInt32) : Option (Prices T) :=
  if h : prices.val.length < T.maxPrices.toNat then
    some ⟨prices.val ++ [price], by simpa using Nat.succ_le_of_lt h⟩
  else if T.maxPrices = 0 then none
  else some ⟨prices.val.set (price % T.maxPrices).toNat price, by simpa using prices.property⟩

def saturatingAdd (a b : UInt32) : UInt32 :=
  if a.toNat + b.toNat < 2 ^ 32 then a + b else UInt32.ofNat (2 ^ 32 - 1)

/-- The average of the prices, whose sum stops at the largest number. -/
def averagePrice (prices : Prices T) : Option UInt32 :=
  if prices.val = [] then none
  else some (prices.val.foldl saturatingAdd 0 / UInt32.ofNat prices.val.length)

def addData (maybeWho : Option T.AccountId) (price : UInt32) : Dispatch T Unit := do
  let s ← get
  let prices ← orFault (.panic "attempt to calculate the remainder with a divisor of zero")
    (s.prices.push price)
  modify fun s => { s with prices }
  let _average ← orFault
    (.panic "The average is not empty, because it was just mutated; qed") (averagePrice prices)
  depositEvent (.newPrice price maybeWho)

def submitPrice (origin : Origin T) (price : UInt32) : Dispatch T Unit := do
  let who ← ensureSigned origin
  addData (some who) price

/-- The source takes the block number for validation only. -/
def submitPriceUnsigned (origin : Origin T) (_blockNumber : Nat) (price : UInt32) :
    Dispatch T Unit := do
  ensureNone origin
  addData none price
  modify fun s => { s with nextUnsignedAt := s.blockNumber + T.unsignedInterval }

/-- The source takes the signature for validation only. -/
def submitPriceUnsignedWithSignedPayload (origin : Origin T)
    (pricePayload : PricePayload T.Public) (_signature : T.Signature) : Dispatch T Unit := do
  ensureNone origin
  addData none pricePayload.price
  modify fun s => { s with nextUnsignedAt := s.blockNumber + T.unsignedInterval }

def submitApiUrl (origin : Origin T) (topicId : UInt32) (apiUrl : Str) : Dispatch T Unit := do
  match ← ensureSignedOrRoot origin with
  | some who =>
    let apiUrlBytes ← orFault (.panic "Good") (BoundedVec.tryFrom 256 (utf8 apiUrl))
    modify fun s => { s with apiUrlStore := s.apiUrlStore.insert (who, topicId) apiUrlBytes }
    depositEvent (.addNewUrl who (UInt32.ofNat apiUrlBytes.val.length))
  | none => throw .badOrigin

inductive Call (T : Config)
  | stake (stakeAmount : Nat)
  | unStake
  | slash (mockTarget : T.AccountId) (slashAmount : Nat)
  | testAcc
  | submitPrice (price : UInt32)
  | submitPriceUnsigned (blockNumber : Nat) (price : UInt32)
  | submitPriceUnsignedWithSignedPayload (pricePayload : PricePayload T.Public)
      (signature : T.Signature)
  | submitApiUrl (topicId : UInt32) (apiUrl : Str)

def Call.dispatch (origin : Origin T) : Call T → Dispatch T Unit
  | stake stakeAmount => OcwPallet.stake origin stakeAmount
  | unStake => OcwPallet.unStake origin
  | slash mockTarget slashAmount => OcwPallet.slash origin mockTarget slashAmount
  | testAcc => OcwPallet.testAcc origin
  | submitPrice price => OcwPallet.submitPrice origin price
  | submitPriceUnsigned blockNumber price =>
    OcwPallet.submitPriceUnsigned origin blockNumber price
  | submitPriceUnsignedWithSignedPayload pricePayload signature =>
    OcwPallet.submitPriceUnsignedWithSignedPayload origin pricePayload signature
  | submitApiUrl topicId apiUrl => OcwPallet.submitApiUrl origin topicId apiUrl

/-! ### Validation of unsigned calls -/

inductive InvalidTransaction
  | call
  | stale
  | future
  | badProof
deriving DecidableEq, Repr

structure ValidTransaction where
  priority : UInt64
  requires : List (String × Nat)
  provides : List (String × Nat)
  longevity : Nat
  propagate : Bool
deriving DecidableEq

inductive Validity
  | valid (transaction : ValidTransaction)
  | invalid (reason : InvalidTransaction)
deriving DecidableEq

def Validity.accepts : Validity → Bool
  | .valid _ => true
  | .invalid _ => false

def saturatingAdd64 (a b : UInt64) : UInt64 :=
  if a.toNat + b.toNat < 2 ^ 64 then a + b else UInt64.ofNat (2 ^ 64 - 1)

/-- How far a price is from the average, which counts as not at all while there is none. -/
def priceDistance (prices : Prices T) (newPrice : UInt32) : UInt32 :=
  match averagePrice prices with
  | some price => if newPrice < price then price - newPrice else newPrice - price
  | none => 0

def validateTransactionParameters (s : State T) (blockNumber : Nat) (newPrice : UInt32) :
    Validity :=
  if blockNumber < s.nextUnsignedAt then .invalid .stale
  else if s.blockNumber < blockNumber then .invalid .future
  else .valid {
    priority := saturatingAdd64 T.unsignedPriority (priceDistance s.prices newPrice).toUInt64
    requires := []
    provides := [("OffchainWorker", s.nextUnsignedAt)]
    longevity := 5
    propagate := true }

def validateUnsigned (s : State T) : Call T → Validity
  | .submitPriceUnsignedWithSignedPayload payload signature =>
    if T.verify payload signature = false then .invalid .badProof
    else validateTransactionParameters s payload.blockNumber payload.price
  | .submitPriceUnsigned blockNumber newPrice =>
    validateTransactionParameters s blockNumber newPrice
  | _ => .invalid .call

/-! ### Genesis -/

/-- The balances after the genesis hook, which gives the treasury the minimum balance if it has
less. -/
def GenesisConfig.build (T : Config) (ledger : T.currency.Ledger) : T.currency.Ledger :=
  let min := T.currency.minimumBalance
  if T.currency.free ledger T.treasury < min then
    T.currency.makeFreeBalanceBe ledger T.treasury min
  else ledger

/-- The state of a new chain whose accounts have the balances of `ledger`. -/
def State.genesis (T : Config) (ledger : T.currency.Ledger) : State T where
  blockNumber := 0
  ledger := GenesisConfig.build T ledger
  stakedProcessors := ∅
  prices := ⟨[], Nat.zero_le _⟩
  nextUnsignedAt := 0
  apiUrlStore := ∅
  events := []

end PolkadotOracle.OcwPallet
