import PolkadotOracle.Ocw.Slash

/-! Staking neither creates nor destroys funds: the genesis hook makes the treasury, no call brings
it below the minimum balance, and so every imbalance that a slash takes reaches it. -/

namespace PolkadotOracle.OcwPallet

variable {T : Config}

/-- The treasury can take every deposit. -/
def TreasuryLives (s : State T) : Prop :=
  T.currency.minimumBalance ≤ T.currency.free s.ledger T.treasury

theorem treasuryLives_genesis (hlaws : T.currency.Lawful) (ledger : T.currency.Ledger) :
    TreasuryLives (State.genesis T ledger) := by
  show T.currency.minimumBalance ≤ T.currency.free (GenesisConfig.build T ledger) T.treasury
  unfold GenesisConfig.build
  simp only
  split
  · rw [hlaws.makeFreeBalanceBe ledger T.treasury _ le_rfl]
  · omega

/-- What a slash takes leaves the target's reserve and arrives at the treasury. -/
theorem slashLedger_free (hlaws : T.currency.Lawful) {s : State T} (hlives : TreasuryLives s)
    (mockTarget : T.AccountId) (slashAmount : Nat) :
    T.currency.free (s.slashLedger mockTarget slashAmount) T.treasury =
      T.currency.free s.ledger T.treasury +
        min slashAmount (T.currency.reserved s.ledger mockTarget) ∧
    ∀ a ≠ T.treasury, T.currency.free (s.slashLedger mockTarget slashAmount) a =
      T.currency.free s.ledger a := by
  have himbalance := (hlaws.slashReserved s.ledger mockTarget slashAmount).1
  constructor
  · rw [State.slashLedger, hlaws.resolveCreating, hlaws.slashReserved_free, himbalance]
    rw [hlaws.slashReserved_free]
    exact hlives
  · intro a ha
    have hframe := (hlaws.resolveCreating_frame
      (T.currency.slashReserved s.ledger mockTarget slashAmount).1.1 T.treasury
      (T.currency.slashReserved s.ledger mockTarget slashAmount).1.2).2 a ha
    exact hframe.1.trans (hlaws.slashReserved_free s.ledger mockTarget slashAmount a)

theorem slashLedger_total (hlaws : T.currency.Lawful) {s : State T} (hlives : TreasuryLives s)
    (mockTarget : T.AccountId) (slashAmount : Nat) :
    T.currency.total (s.slashLedger mockTarget slashAmount) = T.currency.total s.ledger := by
  have htaken := hlaws.total_slashReserved s.ledger mockTarget slashAmount
  have hmin : T.currency.minimumBalance ≤ T.currency.free
      (T.currency.slashReserved s.ledger mockTarget slashAmount).1.1 T.treasury := by
    rw [hlaws.slashReserved_free]
    exact hlives
  rw [State.slashLedger, hlaws.total_resolveCreating _ hmin]
  exact htaken

/-- A step that the treasury has not signed. -/
def NotByTreasury : Label T → Prop
  | .call (.signed who) _ => who ≠ T.treasury
  | _ => True

/-- The treasury lives and no funds have come or gone. -/
structure Conserves (s₀ s : State T) : Prop where
  lives : TreasuryLives s
  total : T.currency.total s.ledger = T.currency.total s₀.ledger

/-- A step that leaves the balances alone conserves them. -/
theorem Conserves.frame {s₀ s s' : State T} (h : Conserves s₀ s) (hledger : s'.ledger = s.ledger) :
    Conserves s₀ s' := by
  refine ⟨?_, by rw [hledger, h.total]⟩
  rw [TreasuryLives, hledger]
  exact h.lives

theorem Conserves.step {s₀ s s' : State T} {l : Label T} (h : Conserves s₀ s)
    (hlaws : T.currency.Lawful) (hsigner : NotByTreasury l) (hstep : step s l = some s') :
    Conserves s₀ s' := by
  rcases step_effect hstep with ⟨rfl, rfl⟩ | ⟨origin, c, rfl, heffect, -⟩
  · exact h.frame rfl
  · cases heffect with
    | @stake who stakeAmount ledger hnew hreserve =>
      obtain ⟨-, -, hsame⟩ := hlaws.reserve hreserve
      refine ⟨?_, (hlaws.total_reserve hreserve).trans h.total⟩
      show T.currency.minimumBalance ≤ T.currency.free ledger T.treasury
      rw [(hsame _ hsigner.symm).1]
      exact h.lives
    | @unStake who hstaked =>
      obtain ⟨-, -, hsame⟩ := unStake_ledger hlaws s who
      refine ⟨?_, (hlaws.total_unreserve s.ledger who _).trans h.total⟩
      rw [TreasuryLives, (hsame _ hsigner.symm).1]
      exact h.lives
    | @slash who mockTarget slashAmount hpasses =>
      obtain ⟨htreasury, -⟩ := slashLedger_free hlaws h.lives mockTarget slashAmount
      have hlives := h.lives
      refine ⟨?_, (slashLedger_total hlaws h.lives mockTarget slashAmount).trans h.total⟩
      show T.currency.minimumBalance ≤
        T.currency.free (s.slashLedger mockTarget slashAmount) T.treasury
      rw [TreasuryLives] at hlives
      omega
    | _ => exact h.frame rfl

/-- In every state that calls by others than the treasury reach from a genesis, the sum of all free
and reserved balances is that of the genesis; and a slash that returns moves the smaller of the
amount and the target's reserve from that reserve to the treasury's free balance, and changes no
other balance. -/
theorem funds_conserved (hlaws : T.currency.Lawful) (ledger : T.currency.Ledger) {s : State T}
    (h : Lts.ReachesBy step (fun _ l => NotByTreasury l) (State.genesis T ledger) s) :
    T.currency.total s.ledger = T.currency.total (State.genesis T ledger).ledger ∧
    ∀ who mockTarget slashAmount s',
      slash (.signed who) mockTarget slashAmount s = .ok () s' →
      T.currency.reserved s'.ledger mockTarget +
          min slashAmount (T.currency.reserved s.ledger mockTarget) =
        T.currency.reserved s.ledger mockTarget ∧
      T.currency.free s'.ledger T.treasury = T.currency.free s.ledger T.treasury +
        min slashAmount (T.currency.reserved s.ledger mockTarget) ∧
      (∀ a ≠ mockTarget, T.currency.reserved s'.ledger a = T.currency.reserved s.ledger a) ∧
      ∀ a ≠ T.treasury, T.currency.free s'.ledger a = T.currency.free s.ledger a := by
  have hconserves : Conserves (State.genesis T ledger) s := by
    refine h.invariant ⟨treasuryLives_genesis hlaws ledger, rfl⟩ ?_
    exact fun _ _ _ hinv hsigner hstep => hinv.step hlaws hsigner hstep
  refine ⟨hconserves.total, fun who mockTarget slashAmount s' hslash => ?_⟩
  have hpasses : s.Passes who slashAmount := by
    by_contra hnot
    rw [slash_refused hnot] at hslash
    contradiction
  rw [slash_passes hpasses] at hslash
  obtain ⟨-, rfl⟩ := EStateM.Result.ok.inj hslash
  obtain ⟨htaken, hreserved⟩ := slashLedger_reserved hlaws s mockTarget slashAmount
  obtain ⟨htreasury, hfree⟩ := slashLedger_free hlaws hconserves.lives mockTarget slashAmount
  exact ⟨htaken, htreasury, hreserved, hfree⟩

/-- Account 1 stakes 50 of which account 2 slashes 80: the treasury gets the 50. -/
theorem funds_conserved_sample :
    let s := sampleStaked 0
    let s' := s.slash (sampleAccount 1) 80
    sampleRuntime.currency.total s.ledger =
      sampleRuntime.currency.total (State.genesis sampleRuntime (sampleBook.set 1 1000 0)).ledger ∧
    sampleRuntime.currency.free s'.ledger (sampleAccount 0) = 10 + 50 := by
  have hsigner : sampleAccount 1 ≠ sampleRuntime.treasury := by decide
  have hrun : Lts.ReachesBy step (fun _ l => NotByTreasury l)
      (State.genesis sampleRuntime (sampleBook.set 1 1000 0)) (sampleStaked 0) :=
    (Lts.ReachesBy.refl _).tail
      (l := .call (.signed (sampleAccount 1)) (.stake 50)) hsigner rfl
  obtain ⟨htotal, hslash⟩ := funds_conserved (Book.currency_lawful UInt32 10) _ hrun
  have hpasses : (sampleStaked 0).Passes (sampleAccount 2) 80 := by decide
  exact ⟨htotal, (hslash (sampleAccount 2) (sampleAccount 1) 80 _ (slash_passes hpasses _)).2.1⟩

end PolkadotOracle.OcwPallet
