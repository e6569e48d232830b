import PolkadotOracle.Ocw.Effect

/-! When staking takes effect, and what unstaking releases.  A stake has to be below the minimum to
succeed, and unstaking frees the whole reserve of the account, whoever reserved it. -/

namespace PolkadotOracle.OcwPallet

open Exec

variable {T : Config}

/-! ### Stake -/

/-- Staking returns exactly when it is new, reaches the minimum and can be reserved; it then grows
the reserve by the amount and records it; otherwise it changes nothing. -/
structure StakeRule (s : State T) (who : T.AccountId) (stakeAmount : Nat) : Prop where
  returns : (∃ s', stake (.signed who) stakeAmount s = .ok () s') ↔
    ¬s.Staked who ∧ T.minStakeAmount.toNat ≤ stakeAmount ∧
      ∃ ledger, T.currency.reserve s.ledger who stakeAmount = some ledger
  effect : ∀ s', stake (.signed who) stakeAmount s = .ok () s' →
    T.currency.reserved s'.ledger who = T.currency.reserved s.ledger who + stakeAmount ∧
      ∃ m, s'.stakedProcessors.lookup who = some m ∧ m.totalStake = stakeAmount
  refused : ∀ e s', stake (.signed who) stakeAmount s = .error e s' →
    s'.ledger = s.ledger ∧ s'.stakedProcessors = s.stakedProcessors

/-- A stake that is refused keeps the rule when it could not have been taken. -/
theorem StakeRule.of_refused {s : State T} {who : T.AccountId} {stakeAmount : Nat} {e : Fault}
    (hrefused : stake (.signed who) stakeAmount s = .error e s)
    (hnot : ¬(¬s.Staked who ∧ T.minStakeAmount.toNat ≤ stakeAmount ∧
      ∃ ledger, T.currency.reserve s.ledger who stakeAmount = some ledger)) :
    StakeRule s who stakeAmount where
  returns := by
    rw [hrefused]
    constructor
    · rintro ⟨s', hs'⟩
      contradiction
    · intro hcan
      exact absurd hcan hnot
  effect := by
    intro s' hs'
    rw [hrefused] at hs'
    contradiction
  refused := by
    intro e' s' hs'
    rw [hrefused] at hs'
    obtain ⟨-, rfl⟩ := EStateM.Result.error.inj hs'
    exact ⟨rfl, rfl⟩

theorem stake_returns {s : State T} {who : T.AccountId} {stakeAmount : Nat}
    (hstaked : ¬s.Staked who) (hmin : stakeAmount < T.minStakeAmount.toNat) :
    ∃ s', stake (.signed who) stakeAmount s = .ok () s' := by
  rw [stake_signed, if_neg hstaked, if_pos hmin]
  cases T.currency.reserve s.ledger who stakeAmount with
  | none => exact ⟨_, rfl⟩
  | some ledger => exact ⟨_, rfl⟩

/-- Staking obeys the rule exactly when the account is already staked, or the amount reaches the
minimum and cannot be reserved. -/
theorem stakeRule_iff (s : State T) (who : T.AccountId) (stakeAmount : Nat) :
    StakeRule s who stakeAmount ↔ s.Staked who ∨
      (T.minStakeAmount.toNat ≤ stakeAmount ∧
        T.currency.reserve s.ledger who stakeAmount = none) := by
  by_cases hstaked : s.Staked who
  · have hrefused := stake_signed s who stakeAmount
    rw [if_pos hstaked] at hrefused
    exact iff_of_true (.of_refused hrefused fun h => h.1 hstaked) (.inl hstaked)
  by_cases hmin : stakeAmount < T.minStakeAmount.toNat
  · refine iff_of_false (fun h => ?_) ?_
    · have hcan := h.returns.mp (stake_returns hstaked hmin)
      omega
    · rintro (h | h)
      · exact hstaked h
      · omega
  · have hrefused := stake_signed s who stakeAmount
    rw [if_neg hstaked, if_neg hmin] at hrefused
    have hle : T.minStakeAmount.toNat ≤ stakeAmount := by omega
    constructor
    · intro h
      refine .inr ⟨hle, ?_⟩
      cases hreserve : T.currency.reserve s.ledger who stakeAmount with
      | none => rfl
      | some ledger =>
        obtain ⟨s', hs'⟩ := h.returns.mpr ⟨hstaked, hle, ledger, hreserve⟩
        rw [hrefused] at hs'
        contradiction
    · rintro (h | ⟨-, hreserve⟩)
      · exact absurd h hstaked
      · refine .of_refused hrefused ?_
        rintro ⟨-, -, ledger, hledger⟩
        rw [hreserve] at hledger
        contradiction

/-- The treasury at the minimum, account 1 with 1000 free and account 2 with 20 free. -/
def sampleBook : Book UInt32 := ((Book.empty.set 0 10 0).set 1 1000 0).set 2 20 0

def sampleState : State sampleRuntime := State.genesis sampleRuntime sampleBook

/-- Account 1 cannot stake 200, which it has, but can stake 50, which is below the minimum; and
account 2 is told that it has staked 50, which it does not have. -/
theorem stake_reversed :
    ¬StakeRule sampleState (sampleAccount 1) 200 ∧ ¬StakeRule sampleState (sampleAccount 1) 50 ∧
    ¬StakeRule sampleState (sampleAccount 2) 50 ∧
    error (stake (.signed (sampleAccount 1)) 200 sampleState) = some (.module .insufficientFund) ∧
    error (stake (.signed (sampleAccount 1)) 50 sampleState) = none ∧
    error (stake (.signed (sampleAccount 2)) 50 sampleState) = none ∧
    ¬(final (stake (.signed (sampleAccount 2)) 50 sampleState)).Staked (sampleAccount 2) := by
  have hfree : sampleRuntime.currency.reserve sampleState.ledger (sampleAccount 1) 200 =
      some (Book.set sampleBook 1 800 200) := rfl
  have herror : stake (.signed (sampleAccount 1)) 200 sampleState =
      .error (.module .insufficientFund) sampleState := rfl
  refine ⟨fun h => ?_, fun h => ?_, fun h => ?_, by rw [herror]; rfl, by decide, by decide,
    by decide⟩
  · obtain ⟨s', hs'⟩ := h.returns.mpr ⟨by decide, by decide, _, hfree⟩
    rw [herror] at hs'
    contradiction
  · have hcan := h.returns.mp (stake_returns (by decide) (by decide))
    exact absurd hcan.2.1 (by decide)
  · have hcan := h.returns.mp (stake_returns (by decide) (by decide))
    exact absurd hcan.2.1 (by decide)

/-! ### Unstake -/

/-- Unstaking moves exactly the recorded stake from the reserve of `who` to its free balance,
removes the record, and leaves every other account as it was. -/
def ReleasesStake (s : State T) (who : T.AccountId) (m : Meta T) : Prop :=
  ∃ s', unStake (.signed who) s = .ok () s' ∧
    T.currency.reserved s'.ledger who + m.totalStake = T.currency.reserved s.ledger who ∧
    T.currency.free s'.ledger who = T.currency.free s.ledger who + m.totalStake ∧
    s'.stakedProcessors.lookup who = none ∧
    ∀ a ≠ who, T.currency.SameAt s.ledger s'.ledger a ∧
      s'.stakedProcessors.lookup a = s.stakedProcessors.lookup a

/-- Unstaking after a stake gives `who` the balances that it had in `s`. -/
def Restores (s : State T) (who : T.AccountId) (s₁ : State T) : Prop :=
  ∃ s₂, unStake (.signed who) s₁ = .ok () s₂ ∧ T.currency.SameAt s.ledger s₂.ledger who

theorem unStake_staked {s : State T} {who : T.AccountId} (h : s.Staked who) :
    unStake (.signed who) s = .ok () (s.unStake who) := by
  rw [unStake_signed, if_pos h]

/-- Unstaking frees the whole reserve. -/
theorem unStake_ledger (hlaws : T.currency.Lawful) (s : State T) (who : T.AccountId) :
    T.currency.free (s.unStake who).ledger who =
      T.currency.free s.ledger who + T.currency.reserved s.ledger who ∧
    T.currency.reserved (s.unStake who).ledger who = 0 ∧
    ∀ a ≠ who, T.currency.SameAt s.ledger (s.unStake who).ledger a := by
  obtain ⟨hfree, hreserved, hsame⟩ :=
    hlaws.unreserve s.ledger who (T.currency.reserved s.ledger who)
  rw [Nat.min_self] at hfree hreserved
  refine ⟨hfree, ?_, hsame⟩
  show T.currency.reserved (T.currency.unreserve s.ledger who _).1 who = 0
  omega

theorem stake_recorded {s s' : State T} {who : T.AccountId} {stakeAmount : Nat}
    (h : stake (.signed who) stakeAmount s = .ok () s') (hstaked : s'.Staked who) :
    ∃ ledger, T.currency.reserve s.ledger who stakeAmount = some ledger ∧
      s' = s.stake who stakeAmount ledger := by
  rw [stake_signed] at h
  split at h
  · contradiction
  rename_i hnew
  split at h
  · cases hreserve : T.currency.reserve s.ledger who stakeAmount with
    | none =>
      rw [hreserve] at h
      obtain ⟨-, rfl⟩ := EStateM.Result.ok.inj h
      exact absurd hstaked hnew
    | some ledger =>
      rw [hreserve] at h
      exact ⟨ledger, rfl, (EStateM.Result.ok.inj h).2.symm⟩
  · contradiction

/-- Unstaking releases exactly the stake of a processor when nothing else is reserved on its
account, and takes back a stake exactly when nothing was reserved on the account before. -/
theorem releasesStake_iff (hlaws : T.currency.Lawful) (s : State T) (who : T.AccountId) :
    (∀ m, s.stakedProcessors.lookup who = some m →
      (ReleasesStake s who m ↔ T.currency.reserved s.ledger who = m.totalStake)) ∧
    ∀ stakeAmount s₁, stake (.signed who) stakeAmount s = .ok () s₁ → s₁.Staked who →
      (Restores s who s₁ ↔ T.currency.reserved s.ledger who = 0) := by
  refine ⟨fun m hm => ?_, fun stakeAmount s₁ hstake hstaked => ?_⟩
  · have hstaked : s.Staked who := Finmap.mem_of_lookup_eq_some hm
    obtain ⟨hfree, hreserved, hsame⟩ := unStake_ledger hlaws s who
    constructor
    · rintro ⟨s', hs', hreserved', -⟩
      rw [unStake_staked hstaked] at hs'
      obtain ⟨-, rfl⟩ := EStateM.Result.ok.inj hs'
      omega
    · intro hstake
      refine ⟨_, unStake_staked hstaked, by omega, by omega, Finmap.lookup_erase .., ?_⟩
      intro a ha
      exact ⟨hsame a ha, Finmap.lookup_erase_ne ha⟩
  · obtain ⟨ledger, hreserve, rfl⟩ := stake_recorded hstake hstaked
    obtain ⟨hfree, hreserved, -⟩ := hlaws.reserve hreserve
    obtain ⟨hfree', hreserved', -⟩ := unStake_ledger hlaws (s.stake who stakeAmount ledger) who
    have hledger : (s.stake who stakeAmount ledger).ledger = ledger := rfl
    rw [hledger] at hfree'
    constructor
    · rintro ⟨s₂, hs₂, -, hsame⟩
      rw [unStake_staked hstaked] at hs₂
      obtain ⟨-, rfl⟩ := EStateM.Result.ok.inj hs₂
      omega
    · intro hzero
      exact ⟨_, unStake_staked hstaked, by omega, by omega⟩

/-- Account 1, on which another pallet has reserved `bond`, has staked 50. -/
def sampleStaked (bond : Nat) : State sampleRuntime :=
  final (stake (.signed (sampleAccount 1)) 50
    (State.genesis sampleRuntime (sampleBook.set 1 1000 bond)))

theorem sampleStaked_record (bond : Nat) :
    (sampleStaked bond).stakedProcessors.lookup (sampleAccount 1) = some (Meta.new 50) := rfl

theorem releasesStake_iff_sample :
    ReleasesStake (sampleStaked 0) (sampleAccount 1) (Meta.new 50) ∧
    Restores (State.genesis sampleRuntime (sampleBook.set 1 1000 0)) (sampleAccount 1)
      (sampleStaked 0) := by
  have hlaws : sampleRuntime.currency.Lawful := Book.currency_lawful UInt32 10
  exact ⟨((releasesStake_iff hlaws (sampleStaked 0) (sampleAccount 1)).1 _
      (sampleStaked_record 0)).mpr rfl,
    ((releasesStake_iff hlaws _ (sampleAccount 1)).2 50 (sampleStaked 0) rfl
      (Finmap.mem_of_lookup_eq_some (sampleStaked_record 0))).mpr rfl⟩

/-- With 7 reserved by another pallet, unstaking 50 frees 57: it does not release the stake only,
and does not restore the balances. -/
theorem unStake_frees_all :
    sampleRuntime.currency.reserved (sampleStaked 7).ledger (sampleAccount 1) = 57 ∧
    sampleRuntime.currency.reserved ((sampleStaked 7).unStake (sampleAccount 1)).ledger
      (sampleAccount 1) = 0 ∧
    ¬ReleasesStake (sampleStaked 7) (sampleAccount 1) (Meta.new 50) ∧
    ¬Restores (State.genesis sampleRuntime (sampleBook.set 1 1000 7)) (sampleAccount 1)
      (sampleStaked 7) := by
  have hstaked : (sampleStaked 7).Staked (sampleAccount 1) :=
    Finmap.mem_of_lookup_eq_some (sampleStaked_record 7)
  have hzero : sampleRuntime.currency.reserved ((sampleStaked 7).unStake (sampleAccount 1)).ledger
      (sampleAccount 1) = 0 := by decide
  refine ⟨by decide, hzero, ?_, ?_⟩
  · rintro ⟨s', hs', hreserved, -⟩
    rw [unStake_staked hstaked] at hs'
    obtain ⟨-, rfl⟩ := EStateM.Result.ok.inj hs'
    rw [hzero] at hreserved
    exact absurd hreserved (by decide)
  · rintro ⟨s', hs', -, hsame⟩
    rw [unStake_staked hstaked] at hs'
    obtain ⟨-, rfl⟩ := EStateM.Result.ok.inj hs'
    rw [hzero] at hsame
    exact absurd hsame (by decide)

end PolkadotOracle.OcwPallet
