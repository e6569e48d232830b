import PolkadotOracle.Lib.Lts
import PolkadotOracle.Lib.Store
import PolkadotOracle.Ocw.Calls

/-! What a call of the ocw pallet can do to its storage, and the runs of blocks and calls. -/

namespace PolkadotOracle.OcwPallet

open Exec Frame Scale Text

variable {T : Config}

/-! ### The staking calls, one equation each -/

/-- The state after `who` has staked an amount that leaves the balances `ledger`. -/
def State.stake (s : State T) (who : T.AccountId) (stakeAmount : Nat)
    (ledger : T.currency.Ledger) : State T :=
  { s with
    ledger
    stakedProcessors := s.stakedProcessors.insert who (Meta.new stakeAmount)
    events := s.events ++ [.processorStaked who stakeAmount] }

theorem stake_signed (s : State T) (who : T.AccountId) (stakeAmount : Nat) :
    stake (.signed who) stakeAmount s =
      if s.Staked who then .error (.module .alreadyStaked) s
      else if stakeAmount < T.minStakeAmount.toNat then
        match T.currency.reserve s.ledger who stakeAmount with
        | some ledger => .ok () (s.stake who stakeAmount ledger)
        | none => .ok () s
      else .error (.module .insufficientFund) s := by
  simp only [stake, bind_apply, ensureSigned_signed, get_apply, ensure_apply]
  by_cases hstaked : s.Staked who
  · simp [hstaked]
  by_cases hmin : stakeAmount < T.minStakeAmount.toNat
  · simp only [hstaked, not_false_eq_true, if_true, if_false, hmin]
    cases T.currency.reserve s.ledger who stakeAmount <;> rfl
  · simp [hstaked, hmin]

/-- The state after `who` has unstaked: its whole reserve is free, and its record is gone. -/
def State.unStake (s : State T) (who : T.AccountId) : State T :=
  { s with
    ledger := (T.currency.unreserve s.ledger who (T.currency.reserved s.ledger who)).1
    stakedProcessors := s.stakedProcessors.erase who
    events := s.events ++ [.processorRemove who] }

theorem unStake_signed (s : State T) (who : T.AccountId) :
    unStake (.signed who) s =
      if s.Staked who then .ok () (s.unStake who) else .error (.module .nonExisted) s := by
  simp only [unStake, bind_apply, ensureSigned_signed, get_apply]
  by_cases hstaked : s.Staked who
  · obtain ⟨val, hval⟩ := Finmap.mem_iff.mp hstaked
    rw [if_pos hstaked, hval]
    rfl
  · rw [if_neg hstaked, Finmap.lookup_eq_none.mpr hstaked]
    rfl

/-- The balances after a slash. -/
def State.slashLedger (s : State T) (mockTarget : T.AccountId) (slashAmount : Nat) :
    T.currency.Ledger :=
  let taken := T.currency.slashReserved s.ledger mockTarget slashAmount
  T.currency.resolveCreating taken.1.1 T.treasury taken.1.2

def State.slash (s : State T) (mockTarget : T.AccountId) (slashAmount : Nat) : State T :=
  { s with
    ledger := s.slashLedger mockTarget slashAmount
    events := s.events ++ [.slashEvent mockTarget slashAmount
      (T.currency.slashReserved s.ledger mockTarget slashAmount).2] }

/-- The guards of a slash let `who` pass: its own reserve is less than the amount and it is not
staked. -/
def State.Passes (s : State T) (who : T.AccountId) (slashAmount : Nat) : Prop :=
  T.currency.reserved s.ledger who < slashAmount ∧ ¬s.Staked who

instance (s : State T) (who : T.AccountId) (slashAmount : Nat) :
    Decidable (s.Passes who slashAmount) :=
  inferInstanceAs (Decidable (_ ∧ _))

theorem slash_passes {s : State T} {who : T.AccountId} {slashAmount : Nat}
    (h : s.Passes who slashAmount) (mockTarget : T.AccountId) :
    slash (.signed who) mockTarget slashAmount s = .ok () (s.slash mockTarget slashAmount) := by
  simp only [slash, bind_apply, ensureSigned_signed, get_apply, ensure_apply, if_pos h.1,
    if_pos h.2, modify_apply, depositEvent_apply]
  rfl

theorem slash_refused {s : State T} {who : T.AccountId} {slashAmount : Nat}
    (h : ¬s.Passes who slashAmount) (mockTarget : T.AccountId) :
    slash (.signed who) mockTarget slashAmount s =
      .error (.module (if T.currency.reserved s.ledger who < slashAmount then .nonExisted
        else .insufficientFund)) s := by
  simp only [slash, bind_apply, ensureSigned_signed, get_apply, ensure_apply]
  by_cases hreserved : T.currency.reserved s.ledger who < slashAmount
  · have hstaked : s.Staked who := by
      by_contra hnot
      exact h ⟨hreserved, hnot⟩
    simp [hreserved, hstaked]
  · simp [hreserved]

/-! ### The price calls -/

/-- The state after a price was added. -/
def State.addPrice (s : State T) (maybeWho : Option T.AccountId) (price : UInt32)
    (prices : Prices T) : State T :=
  { s with prices, events := s.events ++ [.newPrice price maybeWho] }

theorem addData_cases (s : State T) (maybeWho : Option T.AccountId) (price : UInt32) :
    (∃ prices, s.prices.push price = some prices ∧
      addData maybeWho price s = .ok () (s.addPrice maybeWho price prices)) ∨
    ∃ message s', addData maybeWho price s = .error (.panic message) s' := by
  simp only [addData, bind_apply, get_apply]
  cases hpush : s.prices.push price with
  | none => exact .inr ⟨_, _, rfl⟩
  | some prices =>
    cases haverage : averagePrice prices with
    | none =>
      refine .inr
        ⟨"The average is not empty, because it was just mutated; qed", { s with prices }, ?_⟩
      simp only [orFault_some, modify_apply, haverage, orFault_none]
    | some average =>
      refine .inl ⟨prices, rfl, ?_⟩
      simp only [orFault_some, modify_apply, haverage, depositEvent_apply]
      rfl

/-- The state after an unsigned price, which starts the next interval. -/
def State.addUnsigned (s : State T) (price : UInt32) (prices : Prices T) : State T :=
  { s.addPrice none price prices with nextUnsignedAt := s.blockNumber + T.unsignedInterval }

/-! ### Calls -/

/-- The state after a call: what it leaves when it returns, or returns an error; none when it
panics. -/
def State.call (s : State T) (origin : Origin T) (c : Call T) : Option (State T) :=
  match c.dispatch origin s with
  | .ok _ s' => some s'
  | .error (.panic _) _ => none
  | .error _ s' => some s'

/-- Everything that a call can do.  When it does nothing it is no slash that passes the guards, and
no unsigned call that the validation accepts. -/
inductive Effect (s : State T) : Origin T → Call T → State T → Prop
  | idle {origin : Origin T} {c : Call T}
      (hslash : ∀ who mockTarget slashAmount, origin = .signed who →
        c = .slash mockTarget slashAmount → ¬s.Passes who slashAmount)
      (hunsigned : origin = .none → (validateUnsigned s c).accepts = false) :
      Effect s origin c s
  | stake {who : T.AccountId} {stakeAmount : Nat} {ledger : T.currency.Ledger}
      (hnew : ¬s.Staked who)
      (hreserve : T.currency.reserve s.ledger who stakeAmount = some ledger) :
      Effect s (.signed who) (.stake stakeAmount) (s.stake who stakeAmount ledger)
  | unStake {who : T.AccountId} (hstaked : s.Staked who) :
      Effect s (.signed who) .unStake (s.unStake who)
  | slash {who mockTarget : T.AccountId} {slashAmount : Nat} (hpasses : s.Passes who slashAmount) :
      Effect s (.signed who) (.slash mockTarget slashAmount) (s.slash mockTarget slashAmount)
  | testAcc {who : T.AccountId} {event : Event T} :
      Effect s (.signed who) .testAcc { s with events := s.events ++ [event] }
  | submitPrice {who : T.AccountId} {price : UInt32} {prices : Prices T} :
      Effect s (.signed who) (.submitPrice price) (s.addPrice (some who) price prices)
  | submitUnsigned {c : Call T} {price : UInt32} {prices : Prices T} :
      Effect s .none c (s.addUnsigned price prices)
  | submitApiUrl {who : T.AccountId} {topicId : UInt32} {apiUrl : Str} {url : BoundedVec 256}
      {event : Event T} :
      Effect s (.signed who) (.submitApiUrl topicId apiUrl)
        { s with
          apiUrlStore := s.apiUrlStore.insert (who, topicId) url
          events := s.events ++ [event] }

/-- A refused call does nothing. -/
theorem Effect.refused {s s' : State T} {origin : Origin T} {c : Call T} {e : Fault}
    (hslash : ∀ who mockTarget slashAmount, origin = .signed who →
      c = .slash mockTarget slashAmount → ¬s.Passes who slashAmount)
    (hunsigned : origin = .none → (validateUnsigned s c).accepts = false)
    (hdispatch : c.dispatch origin s = .error e s) (h : s.call origin c = some s') :
    Effect s origin c s' := by
  have hsame : s = s' := by
    rw [State.call, hdispatch] at h
    cases e with
    | panic message => contradiction
    | badOrigin => exact Option.some.inj h
    | module error => exact Option.some.inj h
  rw [← hsame]
  exact .idle hslash hunsigned

theorem State.call_ok {s s' t : State T} {origin : Origin T} {c : Call T}
    (h : s.call origin c = some s') (hdispatch : c.dispatch origin s = .ok () t) : s' = t := by
  rw [State.call, hdispatch] at h
  exact (Option.some.inj h).symm

theorem stake_effect {s s' : State T} {who : T.AccountId} {stakeAmount : Nat}
    (h : s.call (.signed who) (.stake stakeAmount) = some s') :
    Effect s (.signed who) (.stake stakeAmount) s' := by
  have hdispatch : (Call.stake stakeAmount).dispatch (.signed who) s = _ :=
    stake_signed s who stakeAmount
  by_cases hstaked : s.Staked who
  · rw [if_pos hstaked] at hdispatch
    exact .refused (by simp) (by simp) hdispatch h
  rw [if_neg hstaked] at hdispatch
  by_cases hmin : stakeAmount < T.minStakeAmount.toNat
  case neg =>
    rw [if_neg hmin] at hdispatch
    exact .refused (by simp) (by simp) hdispatch h
  rw [if_pos hmin] at hdispatch
  cases hreserve : T.currency.reserve s.ledger who stakeAmount with
  | none =>
    rw [hreserve] at hdispatch
    obtain rfl := State.call_ok h hdispatch
    exact .idle (by simp) (by simp)
  | some ledger =>
    rw [hreserve] at hdispatch
    obtain rfl := State.call_ok h hdispatch
    exact .stake hstaked hreserve

theorem unStake_effect {s s' : State T} {who : T.AccountId}
    (h : s.call (.signed who) .unStake = some s') : Effect s (.signed who) .unStake s' := by
  have hdispatch : Call.unStake.dispatch (.signed who) s = _ := unStake_signed s who
  by_cases hstaked : s.Staked who
  · rw [if_pos hstaked] at hdispatch
    obtain rfl := State.call_ok h hdispatch
    exact .unStake hstaked
  · rw [if_neg hstaked] at hdispatch
    exact .refused (by simp) (by simp) hdispatch h

theorem slash_effect {s s' : State T} {who mockTarget : T.AccountId} {slashAmount : Nat}
    (h : s.call (.signed who) (.slash mockTarget slashAmount) = some s') :
    Effect s (.signed who) (.slash mockTarget slashAmount) s' := by
  by_cases hpasses : s.Passes who slashAmount
  · obtain rfl := State.call_ok h (slash_passes hpasses mockTarget)
    exact .slash hpasses
  · refine .refused ?_ (by simp) (slash_refused hpasses mockTarget) h
    intro who' target' amount' hwho hslash
    cases hwho
    cases hslash
    exact hpasses

/-- The two unsigned calls do the same with their price. -/
theorem unsigned_effect {s s' : State T} {c : Call T} {price : UInt32}
    (hdispatch : c.dispatch .none s =
      (do addData none price
          modify fun s => { s with nextUnsignedAt := s.blockNumber + T.unsignedInterval } :
        Dispatch T Unit) s)
    (h : s.call .none c = some s') : Effect s .none c s' := by
  rw [bind_apply] at hdispatch
  rcases addData_cases s none price with ⟨prices, -, hadd⟩ | ⟨message, t, hadd⟩
  · rw [hadd] at hdispatch
    obtain rfl := State.call_ok h hdispatch
    exact .submitUnsigned
  · rw [hadd] at hdispatch
    rw [State.call, hdispatch] at h
    contradiction

theorem submitPrice_effect {s s' : State T} {who : T.AccountId} {price : UInt32}
    (h : s.call (.signed who) (.submitPrice price) = some s') :
    Effect s (.signed who) (.submitPrice price) s' := by
  have hdispatch : (Call.submitPrice price).dispatch (.signed who) s =
      addData (some who) price s := by
    simp only [Call.dispatch, submitPrice, bind_apply, ensureSigned_signed]
  rcases addData_cases s (some who) price with ⟨prices, -, hadd⟩ | ⟨message, t, hadd⟩
  · rw [hadd] at hdispatch
    obtain rfl := State.call_ok h hdispatch
    exact .submitPrice
  · rw [hadd] at hdispatch
    rw [State.call, hdispatch] at h
    contradiction

theorem submitApiUrl_effect {s s' : State T} {who : T.AccountId} {topicId : UInt32}
    {apiUrl : Str} (h : s.call (.signed who) (.submitApiUrl topicId apiUrl) = some s') :
    Effect s (.signed who) (.submitApiUrl topicId apiUrl) s' := by
  rw [State.call, Call.dispatch, submitApiUrl, bind_apply, ensureSignedOrRoot_signed] at h
  simp only [bind_apply] at h
  cases hurl : BoundedVec.tryFrom 256 (utf8 apiUrl) with
  | none => simp [hurl] at h
  | some url =>
    rw [hurl] at h
    obtain rfl := Option.some.inj h
    exact .submitApiUrl

/-- Whatever a call does, it is one of the effects. -/
theorem call_effect {s s' : State T} {origin : Origin T} {c : Call T}
    (h : s.call origin c = some s') : Effect s origin c s' := by
  cases origin with
  | root => cases c <;> exact .refused (by simp) (by simp) rfl h
  | signed who =>
    cases c with
    | stake => exact stake_effect h
    | unStake => exact unStake_effect h
    | slash => exact slash_effect h
    | testAcc =>
      obtain rfl := State.call_ok h rfl
      exact .testAcc
    | submitPrice => exact submitPrice_effect h
    | submitPriceUnsigned => exact .refused (by simp) (by simp) rfl h
    | submitPriceUnsignedWithSignedPayload => exact .refused (by simp) (by simp) rfl h
    | submitApiUrl => exact submitApiUrl_effect h
  | none =>
    cases c with
    | submitPriceUnsigned => exact unsigned_effect rfl h
    | submitPriceUnsignedWithSignedPayload => exact unsigned_effect rfl h
    | _ => exact .refused (by simp) (fun _ => rfl) rfl h

/-! ### Runs -/

/-- What moves the chain: a new block, or a call.  A call that is not signed is dispatched only if
the validation accepts it. -/
inductive Label (T : Config)
  | block
  | call (origin : Origin T) (c : Call T)

/-- A call that panics has no next state: its transaction is not included. -/
def step (s : State T) : Label T → Option (State T)
  | .block => some { s with blockNumber := s.blockNumber + 1, events := [] }
  | .call .none c => if (validateUnsigned s c).accepts then s.call .none c else none
  | .call origin c => s.call origin c

/-- A step starts a block or has the effect of a call, which was accepted if it is unsigned. -/
theorem step_effect {s s' : State T} {l : Label T} (h : step s l = some s') :
    (l = .block ∧ s' = { s with blockNumber := s.blockNumber + 1, events := [] }) ∨
    ∃ origin c, l = .call origin c ∧ Effect s origin c s' ∧
      (origin = .none → (validateUnsigned s c).accepts = true) := by
  cases l with
  | block => exact .inl ⟨rfl, (Option.some.inj h).symm⟩
  | call origin c =>
    refine .inr ⟨origin, c, rfl, ?_⟩
    cases origin with
    | root => exact ⟨call_effect h, by simp⟩
    | signed who => exact ⟨call_effect h, by simp⟩
    | none =>
      by_cases haccepts : (validateUnsigned s c).accepts = true
      · rw [step, if_pos haccepts] at h
        exact ⟨call_effect h, fun _ => haccepts⟩
      · rw [step, if_neg haccepts] at h
        contradiction

end PolkadotOracle.OcwPallet
