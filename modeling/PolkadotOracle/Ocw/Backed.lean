import PolkadotOracle.Ocw.Slash

/-! Whether every recorded stake is backed by the reserve of its account.  Stakes and unstakes keep
both ledgers in step; a slash lowers the reserve of a target whose record it does not touch. -/

namespace PolkadotOracle.OcwPallet

variable {T : Config}

/-- No record is larger than what can still be slashed or returned. -/
def Backed (s : State T) : Prop :=
  ∀ who m, s.stakedProcessors.lookup who = some m →
    m.totalStake ≤ T.currency.reserved s.ledger who

/-- A slash that passes its guards leaves the recorded stake of its target in the reserve. -/
def KeepsBacked (s : State T) : Label T → Prop
  | .call (.signed who) (.slash mockTarget slashAmount) => s.Passes who slashAmount →
    ∀ m, s.stakedProcessors.lookup mockTarget = some m →
      m.totalStake + min slashAmount (T.currency.reserved s.ledger mockTarget) ≤
        T.currency.reserved s.ledger mockTarget
  | _ => True

theorem backed_genesis (ledger : T.currency.Ledger) : Backed (State.genesis T ledger) := by
  intro who m hm
  simp [State.genesis] at hm

theorem Backed.stake {s : State T} (hbacked : Backed s) (hlaws : T.currency.Lawful)
    {who : T.AccountId} {stakeAmount : Nat} {ledger : T.currency.Ledger}
    (hreserve : T.currency.reserve s.ledger who stakeAmount = some ledger) :
    Backed (s.stake who stakeAmount ledger) := by
  obtain ⟨-, hreserved, hsame⟩ := hlaws.reserve hreserve
  intro a m hm
  show m.totalStake ≤ T.currency.reserved ledger a
  rcases Finmap.lookup_insert_iff.mp hm with ⟨rfl, rfl⟩ | ⟨ha, hm⟩
  · rw [hreserved]
    exact Nat.le_add_left ..
  · rw [(hsame a ha).2]
    exact hbacked a m hm

theorem Backed.unStake {s : State T} (hbacked : Backed s) (hlaws : T.currency.Lawful)
    (who : T.AccountId) : Backed (s.unStake who) := by
  obtain ⟨-, -, hsame⟩ := unStake_ledger hlaws s who
  intro a m hm
  by_cases ha : a = who
  · subst ha
    have hnone : (s.unStake a).stakedProcessors.lookup a = none := Finmap.lookup_erase ..
    rw [hnone] at hm
    contradiction
  · have hsame_m : (s.unStake who).stakedProcessors.lookup a = s.stakedProcessors.lookup a :=
      Finmap.lookup_erase_ne ha
    rw [hsame_m] at hm
    rw [(hsame a ha).2]
    exact hbacked a m hm

/-- A slash keeps every stake backed exactly when it leaves the target's record in its reserve. -/
theorem Backed.slash_iff {s : State T} (hbacked : Backed s) (hlaws : T.currency.Lawful)
    (mockTarget : T.AccountId) (slashAmount : Nat) :
    Backed (s.slash mockTarget slashAmount) ↔
      ∀ m, s.stakedProcessors.lookup mockTarget = some m →
        m.totalStake + min slashAmount (T.currency.reserved s.ledger mockTarget) ≤
          T.currency.reserved s.ledger mockTarget := by
  obtain ⟨htaken, hothers⟩ := slashLedger_reserved hlaws s mockTarget slashAmount
  constructor
  · intro hafter m hm
    have hle : m.totalStake ≤
        T.currency.reserved (s.slashLedger mockTarget slashAmount) mockTarget :=
      hafter mockTarget m hm
    omega
  · intro hleft a m hm
    show m.totalStake ≤ T.currency.reserved (s.slashLedger mockTarget slashAmount) a
    by_cases ha : a = mockTarget
    · subst ha
      have hle := hleft m hm
      omega
    · rw [hothers a ha]
      exact hbacked a m hm

/-- From a state whose stakes are backed a step leads to one exactly when it meets the
condition. -/
theorem Backed.step_iff {s s' : State T} {l : Label T} (hbacked : Backed s)
    (hlaws : T.currency.Lawful) (h : step s l = some s') : Backed s' ↔ KeepsBacked s l := by
  rcases step_effect h with ⟨rfl, rfl⟩ | ⟨origin, c, rfl, heffect, -⟩
  · exact iff_of_true hbacked trivial
  · cases heffect with
    | idle hslash =>
      apply iff_of_true hbacked
      cases origin with
      | signed who =>
        cases c with
        | slash mockTarget slashAmount =>
          intro hpasses
          exact absurd hpasses (hslash who mockTarget slashAmount rfl rfl)
        | _ => trivial
      | _ => trivial
    | stake hnew hreserve => exact iff_of_true (hbacked.stake hlaws hreserve) trivial
    | @unStake who hstaked => exact iff_of_true (hbacked.unStake hlaws who) trivial
    | @slash who mockTarget slashAmount hpasses =>
      rw [hbacked.slash_iff hlaws mockTarget slashAmount]
      exact ⟨fun hleft _ => hleft, fun hleft => hleft hpasses⟩
    | _ => exact iff_of_true hbacked trivial

/-- Every recorded stake is backed in every state of every run whose steps all meet the condition;
and the first step of a run that does not meet it leaves a stake that is not backed. -/
theorem backed_runs (hlaws : T.currency.Lawful) (ledger : T.currency.Ledger) :
    (∀ s, Lts.ReachesBy step KeepsBacked (State.genesis T ledger) s → Backed s) ∧
    ∀ s l s', Lts.ReachesBy step KeepsBacked (State.genesis T ledger) s → step s l = some s' →
      ¬KeepsBacked s l → ¬Backed s' := by
  have hruns : ∀ s, Lts.ReachesBy step KeepsBacked (State.genesis T ledger) s → Backed s := by
    intro s hrun
    apply hrun.invariant (backed_genesis ledger)
    exact fun _ _ _ hbacked hkeeps hstep => (hbacked.step_iff hlaws hstep).mpr hkeeps
  refine ⟨hruns, fun s l s' hrun hstep hnot hafter => ?_⟩
  exact hnot (((hruns s hrun).step_iff hlaws hstep).mp hafter)

/-- A slash of the sample's account 1 by account 2. -/
def sampleSlash (slashAmount : Nat) : Label sampleRuntime :=
  .call (.signed (sampleAccount 2)) (.slash (sampleAccount 1) slashAmount)

theorem sampleStaked_step (bond : Nat) :
    step (State.genesis sampleRuntime (sampleBook.set 1 1000 bond))
      (.call (.signed (sampleAccount 1)) (.stake 50)) = some (sampleStaked bond) := rfl

/-- With 7 reserved by another pallet, a slash of 5 leaves the recorded 50 in the reserve. -/
theorem backed_runs_sample : Backed ((sampleStaked 7).slash (sampleAccount 1) 5) := by
  have hkeeps : KeepsBacked (sampleStaked 7) (sampleSlash 5) := by
    intro _ m hm
    rw [sampleStaked_record] at hm
    obtain rfl := Option.some.inj hm
    decide
  exact (backed_runs (Book.currency_lawful UInt32 10) (sampleBook.set 1 1000 7)).1 _
    (((Lts.ReachesBy.refl _).tail trivial (sampleStaked_step 7)).tail hkeeps rfl)

/-- Account 1 stakes 50, of which account 2 slashes 30: the record still says 50. -/
theorem stake_not_backed :
    Lts.Reaches step (State.genesis sampleRuntime (sampleBook.set 1 1000 0))
      ((sampleStaked 0).slash (sampleAccount 1) 30) ∧
    sampleRuntime.currency.reserved ((sampleStaked 0).slash (sampleAccount 1) 30).ledger
      (sampleAccount 1) = 20 ∧
    ¬Backed ((sampleStaked 0).slash (sampleAccount 1) 30) := by
  refine ⟨((Lts.ReachesBy.refl _).tail trivial (sampleStaked_step 0)).tail
    (l := sampleSlash 30) trivial rfl, by decide, fun h => ?_⟩
  exact absurd (h (sampleAccount 1) _ (sampleStaked_record 0)) (by decide)

end PolkadotOracle.OcwPallet
