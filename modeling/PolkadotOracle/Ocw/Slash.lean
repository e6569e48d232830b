import PolkadotOracle.Ocw.Stake

/-! What a slash takes from whom.  Its guards look at the account that calls it, and let it pass
when that account has less reserved than the amount and is not staked. -/

namespace PolkadotOracle.OcwPallet

open Exec

variable {T : Config}

/-- The balances after a slash: the target's reserve is lowered by what it has of the amount, and
nobody else's reserve changes. -/
theorem slashLedger_reserved (hlaws : T.currency.Lawful) (s : State T) (mockTarget : T.AccountId)
    (slashAmount : Nat) :
    T.currency.reserved (s.slashLedger mockTarget slashAmount) mockTarget +
        min slashAmount (T.currency.reserved s.ledger mockTarget) =
      T.currency.reserved s.ledger mockTarget ∧
    ∀ a ≠ mockTarget, T.currency.reserved (s.slashLedger mockTarget slashAmount) a =
      T.currency.reserved s.ledger a := by
  obtain ⟨-, -, htaken, hothers⟩ := hlaws.slashReserved s.ledger mockTarget slashAmount
  refine ⟨?_, fun a ha => ?_⟩
  · rw [State.slashLedger, hlaws.resolveCreating_reserved]
    exact htaken
  · rw [State.slashLedger, hlaws.resolveCreating_reserved]
    exact (hothers a ha).2

/-- A slash returns only for a staked target whose reserve covers the amount, and takes exactly the
amount from it; otherwise it fails for one of two reasons and changes no balance. -/
structure TakesStake (s : State T) (who mockTarget : T.AccountId) (slashAmount : Nat) : Prop where
  returns : ∀ s', slash (.signed who) mockTarget slashAmount s = .ok () s' →
    s.Staked mockTarget ∧ slashAmount ≤ T.currency.reserved s.ledger mockTarget ∧
      T.currency.reserved s'.ledger mockTarget + slashAmount =
        T.currency.reserved s.ledger mockTarget
  fails : ∀ e s', slash (.signed who) mockTarget slashAmount s = .error e s' →
    (e = .module .nonExisted ∨ e = .module .insufficientFund) ∧ s'.ledger = s.ledger
  otherwise : ¬(s.Staked mockTarget ∧ slashAmount ≤ T.currency.reserved s.ledger mockTarget) →
    ∃ e, slash (.signed who) mockTarget slashAmount s = .error e s

/-- A slash takes what the target has at stake, and its outcome is the same for every signer. -/
structure SlashRule (s : State T) (who mockTarget : T.AccountId) (slashAmount : Nat) : Prop where
  takes : TakesStake s who mockTarget slashAmount
  signer : ∀ who', error (slash (.signed who') mockTarget slashAmount s) =
    error (slash (.signed who) mockTarget slashAmount s)

theorem takesStake_iff (hlaws : T.currency.Lawful) (s : State T) (who mockTarget : T.AccountId)
    (slashAmount : Nat) :
    TakesStake s who mockTarget slashAmount ↔ (s.Passes who slashAmount →
      s.Staked mockTarget ∧ slashAmount ≤ T.currency.reserved s.ledger mockTarget) := by
  by_cases hpasses : s.Passes who slashAmount
  · have hslash := slash_passes hpasses mockTarget
    constructor
    · intro h _
      obtain ⟨hstaked, hle, -⟩ := h.returns _ hslash
      exact ⟨hstaked, hle⟩
    · intro h
      obtain ⟨hstaked, hle⟩ := h hpasses
      refine ⟨fun s' hs' => ?_, fun e s' hs' => ?_, fun hnot => absurd ⟨hstaked, hle⟩ hnot⟩
      · rw [hslash] at hs'
        obtain ⟨-, rfl⟩ := EStateM.Result.ok.inj hs'
        have htaken := (slashLedger_reserved hlaws s mockTarget slashAmount).1
        rw [Nat.min_eq_left hle] at htaken
        exact ⟨hstaked, hle, htaken⟩
      · rw [hslash] at hs'
        contradiction
  · have hslash := slash_refused hpasses mockTarget
    refine iff_of_true ⟨fun s' hs' => ?_, fun e s' hs' => ?_, fun _ => ⟨_, hslash⟩⟩
      fun h => absurd h hpasses
    · rw [hslash] at hs'
      contradiction
    · rw [hslash] at hs'
      obtain ⟨rfl, rfl⟩ := EStateM.Result.error.inj hs'
      refine ⟨?_, rfl⟩
      split
      · exact .inl rfl
      · exact .inr rfl

/-- Why the guards refuse a signer, if they do. -/
theorem slash_error (s : State T) (who mockTarget : T.AccountId) (slashAmount : Nat) :
    error (slash (.signed who) mockTarget slashAmount s) =
      if T.currency.reserved s.ledger who < slashAmount then
        if s.Staked who then some (.module .nonExisted) else none
      else some (.module .insufficientFund) := by
  by_cases hpasses : s.Passes who slashAmount
  · rw [slash_passes hpasses, if_pos hpasses.1, if_neg hpasses.2]
    rfl
  · rw [slash_refused hpasses]
    by_cases hreserved : T.currency.reserved s.ledger who < slashAmount
    · have hstaked : s.Staked who := by
        by_contra hnot
        exact hpasses ⟨hreserved, hnot⟩
      rw [if_pos hreserved, if_pos hreserved, if_pos hstaked]
      rfl
    · rw [if_neg hreserved, if_neg hreserved]
      rfl

/-- A slash obeys the rule exactly when it is refused for every signer for the same reason: every
account has the amount reserved, or every account is staked and has less reserved.  For one signer
it takes what is at stake exactly when the guards refuse the signer, or the target is staked and has
the amount reserved. -/
theorem slashRule_iff (hlaws : T.currency.Lawful) (s : State T) (who mockTarget : T.AccountId)
    (slashAmount : Nat) :
    (SlashRule s who mockTarget slashAmount ↔
      (∀ a, slashAmount ≤ T.currency.reserved s.ledger a) ∨
      ∀ a, T.currency.reserved s.ledger a < slashAmount ∧ s.Staked a) ∧
    (TakesStake s who mockTarget slashAmount ↔ (s.Passes who slashAmount →
      s.Staked mockTarget ∧ slashAmount ≤ T.currency.reserved s.ledger mockTarget)) := by
  have htakes := takesStake_iff hlaws s who mockTarget slashAmount
  refine ⟨?_, htakes⟩
  constructor
  · rintro ⟨hrule, hsigner⟩
    have hself := slash_error s who mockTarget slashAmount
    by_cases hreserved : T.currency.reserved s.ledger who < slashAmount
    · by_cases hstaked : s.Staked who
      · refine .inr fun a => ?_
        have hother := hsigner a
        rw [hself, slash_error, if_pos hreserved, if_pos hstaked] at hother
        split at hother
        · rename_i ha
          split at hother
          · rename_i hstaked_a
            exact ⟨ha, hstaked_a⟩
          · contradiction
        · simp at hother
      · -- The target, as a signer, is refused: its reserve covers the amount.
        obtain ⟨-, hle⟩ := htakes.mp hrule ⟨hreserved, hstaked⟩
        have htarget := hsigner mockTarget
        rw [hself, slash_error, if_pos hreserved, if_neg hstaked, if_neg (by omega)] at htarget
        contradiction
    · refine .inl fun a => ?_
      have hother := hsigner a
      rw [hself, slash_error, if_neg hreserved] at hother
      split at hother
      · split at hother <;> simp at hother
      · omega
  · intro hcond
    refine ⟨htakes.mpr ?_, fun who' => ?_⟩
    · rintro ⟨hreserved, hstaked⟩
      rcases hcond with hall | hall
      · have hwho := hall who
        omega
      · exact absurd (hall who).2 hstaked
    · rw [slash_error, slash_error]
      rcases hcond with hall | hall
      · have hwho := hall who
        have hwho' := hall who'
        rw [if_neg (by omega), if_neg (by omega)]
      · rw [if_pos (hall who).1, if_pos (hall who').1, if_pos (hall who).2, if_pos (hall who').2]

theorem slashRule_iff_sample : SlashRule (sampleStaked 0) (sampleAccount 2) (sampleAccount 1) 0 :=
  (slashRule_iff (Book.currency_lawful UInt32 10) (sampleStaked 0) (sampleAccount 2)
    (sampleAccount 1) 0).1.mpr (.inl fun _ => Nat.zero_le _)

/-- Account 2, which has staked nothing, slashes 80 from account 1, which has 50 reserved, and 30
from account 2 itself, which is not staked; account 1, which is staked, may slash nobody. -/
theorem slash_by_anyone :
    error (slash (.signed (sampleAccount 2)) (sampleAccount 1) 80 (sampleStaked 0)) = none ∧
    sampleRuntime.currency.reserved ((sampleStaked 0).slash (sampleAccount 1) 80).ledger
      (sampleAccount 1) = 0 ∧
    ¬TakesStake (sampleStaked 0) (sampleAccount 2) (sampleAccount 1) 80 ∧
    error (slash (.signed (sampleAccount 2)) (sampleAccount 2) 30 (sampleStaked 0)) = none ∧
    ¬TakesStake (sampleStaked 0) (sampleAccount 2) (sampleAccount 2) 30 ∧
    error (slash (.signed (sampleAccount 1)) (sampleAccount 1) 80 (sampleStaked 0)) =
      some (.module .nonExisted) ∧
    ¬SlashRule (sampleStaked 0) (sampleAccount 2) (sampleAccount 1) 30 := by
  refine ⟨by decide, by decide, fun h => ?_, by decide, fun h => ?_, by decide, fun h => ?_⟩
  · obtain ⟨-, hle, -⟩ := h.returns _ (slash_passes (by decide) _)
    exact absurd hle (by decide)
  · obtain ⟨hstaked, -, -⟩ := h.returns _ (slash_passes (by decide) _)
    exact absurd hstaked (by decide)
  · have hsame := h.signer (sampleAccount 1)
    exact absurd hsame (by decide)

end PolkadotOracle.OcwPallet
