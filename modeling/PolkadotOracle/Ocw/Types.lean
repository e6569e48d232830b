import PolkadotOracle.Lib.Currency
import PolkadotOracle.Pallet.Types

/-! The storage of the ocw pallet, its configuration, and the monad in which its calls run. -/

namespace PolkadotOracle.OcwPallet

/-- The price that an off-chain worker signs. -/
structure PricePayload (Public : Type) where
  blockNumber : Nat
  price : UInt32
  «public» : Public

/-- The runtime that the pallet is configured with.  `currency` is the balances pallet, `verify` the
check of a payload's signature, and `treasury` the account of the pallet's id. -/
structure Config where
  AccountId : Type
  accountDecidableEq : DecidableEq AccountId
  currency : Currency AccountId
  Public : Type
  Signature : Type
  verify : PricePayload Public → Signature → Bool
  treasury : AccountId
  unsignedInterval : Nat
  unsignedPriority : UInt64
  maxPrices : UInt32
  minStakeAmount : UInt32
  maxNomiators : UInt32

instance (T : Config) : DecidableEq T.AccountId := T.accountDecidableEq

/-- A runtime to evaluate the model on: four-byte accounts with books of balances, account 0 as the
treasury, and signatures that say whether they are valid. -/
def sampleRuntime : Config where
  AccountId := UInt32
  accountDecidableEq := inferInstance
  currency := Book.currency UInt32 10
  Public := Unit
  Signature := Bool
  verify _ signature := signature
  treasury := 0
  unsignedInterval := 3
  unsignedPriority := 3
  maxPrices := 500
  minStakeAmount := 100
  maxNomiators := 16

def sampleAccount (account : UInt32) : sampleRuntime.AccountId := account

structure Meta (T : Config) where
  totalStake : Nat
  creditScore : UInt32
  nominators : { s : Finset (T.AccountId × Nat) // s.card ≤ T.maxNomiators.toNat }

/-- The recently submitted prices. -/
def Prices (T : Config) := { prices : List UInt32 // prices.length ≤ T.maxPrices.toNat }

inductive Event (T : Config)
  | newPrice (price : UInt32) (maybeWho : Option T.AccountId)
  | addNewUrl (who : T.AccountId) (size : UInt32)
  | processorStaked (who : T.AccountId) (amount : Nat)
  | processorRemove (who : T.AccountId)
  | slashEvent (who : T.AccountId) (slashAmount remainingReserved : Nat)
  | treasuryAcc (who : T.AccountId) (free : Nat)

/-- The storage that the pallet's calls read and write; `ledger` is that of the balances pallet. -/
structure State (T : Config) where
  blockNumber : Nat
  ledger : T.currency.Ledger
  stakedProcessors : Finmap fun _ : T.AccountId => Meta T
  prices : Prices T
  nextUnsignedAt : Nat
  apiUrlStore : Finmap fun _ : T.AccountId × UInt32 => Scale.BoundedVec 256
  events : List (Event T)

abbrev Origin (T : Config) := Frame.Origin T.AccountId

inductive Error
  | unresolveOrigin
  | urlTooLong
  | bytesTooLong
  | hashingProblem
  | insufficientFund
  | alreadyStaked
  | nonExisted
  | duplicated
deriving DecidableEq, Repr

abbrev Fault := Frame.Fault Error

/-- A call of the pallet. -/
abbrev Dispatch (T : Config) := EStateM Fault (State T)

def depositEvent {T : Config} (event : Event T) : Dispatch T Unit :=
  modify fun s => { s with events := s.events ++ [event] }

@[simp] theorem depositEvent_apply {T : Config} (event : Event T) (s : State T) :
    depositEvent event s = .ok () { s with events := s.events ++ [event] } := rfl

end PolkadotOracle.OcwPallet
