import PolkadotOracle.Ocw.Effect

/-! The rate limit of unsigned prices: whatever block number a call claims, its dispatch starts an
interval in which the validation accepts no other. -/

namespace PolkadotOracle.OcwPallet

variable {T : Config}

/-- The block number that an unsigned call claims. -/
def Call.claimed : Call T → Option Nat
  | .submitPriceUnsigned blockNumber _ => some blockNumber
  | .submitPriceUnsignedWithSignedPayload pricePayload _ => some pricePayload.blockNumber
  | _ => none

theorem validateTransactionParameters_accepts {s : State T} {blockNumber : Nat}
    {newPrice : UInt32} :
    (validateTransactionParameters s blockNumber newPrice).accepts = true ↔
      s.nextUnsignedAt ≤ blockNumber ∧ blockNumber ≤ s.blockNumber := by
  unfold validateTransactionParameters
  constructor
  · intro h
    split at h
    · contradiction
    split at h
    · contradiction
    omega
  · rintro ⟨hstale, hfuture⟩
    rw [if_neg (by omega), if_neg (by omega)]
    rfl

/-- What an accepted call claims is neither before the next interval nor after the block. -/
theorem validateUnsigned_window {s : State T} {c : Call T}
    (h : (validateUnsigned s c).accepts = true) :
    ∃ blockNumber, c.claimed = some blockNumber ∧ s.nextUnsignedAt ≤ blockNumber ∧
      blockNumber ≤ s.blockNumber := by
  cases c with
  | submitPriceUnsigned blockNumber price =>
    exact ⟨blockNumber, rfl, validateTransactionParameters_accepts.mp h⟩
  | submitPriceUnsignedWithSignedPayload payload signature =>
    simp only [validateUnsigned] at h
    split at h
    · contradiction
    · exact ⟨payload.blockNumber, rfl, validateTransactionParameters_accepts.mp h⟩
  | _ => contradiction

/-- All that a step does to the clock and to the next interval. -/
inductive ClockStep (s s' : State T) : Label T → Prop
  | other {l : Label T} (hl : ∀ c, l ≠ .call .none c)
      (hnext : s'.nextUnsignedAt = s.nextUnsignedAt) (hblock : s.blockNumber ≤ s'.blockNumber) :
      ClockStep s s' l
  | unsigned {c : Call T} (haccepts : (validateUnsigned s c).accepts = true)
      (hnext : s'.nextUnsignedAt = s.blockNumber + T.unsignedInterval)
      (hblock : s'.blockNumber = s.blockNumber) :
      ClockStep s s' (.call .none c)

theorem step_clock {s s' : State T} {l : Label T} (h : step s l = some s') :
    ClockStep s s' l := by
  rcases step_effect h with ⟨rfl, rfl⟩ | ⟨origin, c, rfl, heffect, haccepts⟩
  · exact .other (by simp) rfl (Nat.le_succ _)
  · cases heffect with
    | idle hslash hunsigned =>
      cases origin with
      | none =>
        have hrefused := hunsigned rfl
        rw [haccepts rfl] at hrefused
        contradiction
      | root => exact .other (by simp) rfl le_rfl
      | signed who => exact .other (by simp) rfl le_rfl
    | submitUnsigned => exact .unsigned (haccepts rfl) rfl rfl
    | _ => exact .other (by simp) rfl le_rfl

/-- The next interval does not start before the one that the validation looks at. -/
theorem ClockStep.next_le {s s' : State T} {l : Label T} (h : ClockStep s s' l) :
    s.nextUnsignedAt ≤ s'.nextUnsignedAt := by
  cases h with
  | other hl hnext hblock => omega
  | unsigned haccepts hnext hblock =>
    obtain ⟨blockNumber, -, hlow, hhigh⟩ := validateUnsigned_window haccepts
    omega

theorem nextUnsignedAt_mono {s s' : State T} (h : Lts.Reaches step s s') :
    s.nextUnsignedAt ≤ s'.nextUnsignedAt :=
  h.relates (R := fun s s' => s.nextUnsignedAt ≤ s'.nextUnsignedAt) (fun _ => le_rfl)
    (fun _ _ _ => Nat.le_trans) fun _ _ _ hstep => (step_clock hstep).next_le

/-! ### Runs with the blocks of their unsigned prices -/

/-- A state with the blocks at which unsigned calls have been dispatched, the last one at the
end. -/
structure PriceLog (T : Config) where
  state : State T
  dispatched : List Nat

/-- The block at which a step dispatches an unsigned call. -/
def State.dispatchedAt (s : State T) : Label T → List Nat
  | .call .none _ => [s.blockNumber]
  | _ => []

def logStep (x : PriceLog T) (l : Label T) : Option (PriceLog T) :=
  (step x.state l).map fun s => ⟨s, x.dispatched ++ x.state.dispatchedAt l⟩

/-- The dispatches keep the interval, and so will the next one. -/
structure Spaced (x : PriceLog T) : Prop where
  pairwise : x.dispatched.Pairwise fun c₁ c₂ => c₁ + T.unsignedInterval ≤ c₂
  next : ∀ c ∈ x.dispatched, c + T.unsignedInterval ≤ x.state.nextUnsignedAt

theorem Spaced.step {x x' : PriceLog T} {l : Label T} (hinv : Spaced x)
    (h : logStep x l = some x') : Spaced x' := by
  obtain ⟨s', hs', rfl⟩ := Option.map_eq_some_iff.mp h
  have hclock := step_clock hs'
  have hle := hclock.next_le
  cases hclock with
  | other hl hnext hblock =>
    have hnone : x.state.dispatchedAt l = [] := by
      cases l with
      | block => rfl
      | call origin c =>
        cases origin with
        | none => exact absurd rfl (hl c)
        | _ => rfl
    rw [hnone, List.append_nil]
    refine ⟨hinv.pairwise, fun c hc => ?_⟩
    exact Nat.le_trans (hinv.next c hc) hle
  | @unsigned c haccepts hnext hblock =>
    obtain ⟨blockNumber, -, hlow, hhigh⟩ := validateUnsigned_window haccepts
    refine ⟨?_, fun b hb => ?_⟩
    · refine List.pairwise_append.mpr ⟨hinv.pairwise, List.pairwise_singleton _ _, ?_⟩
      intro c₁ hc₁ c₂ hc₂
      obtain rfl := List.mem_singleton.mp hc₂
      have hspaced := hinv.next c₁ hc₁
      omega
    · rcases List.mem_append.mp hb with hb | hb
      · exact Nat.le_trans (hinv.next b hb) hle
      · obtain rfl := List.mem_singleton.mp hb
        exact Nat.le_of_eq hnext.symm

/-- The rate limit, in any run from any state: of two unsigned calls the later one is dispatched at
least an interval after the earlier one, `NextUnsignedAt` never decreases, and with an interval
that is not zero there is at most one in a block and no accepted call is accepted again. -/
theorem unsigned_rate_limit {s₀ : State T} {x : PriceLog T}
    (h : Lts.Reaches logStep ⟨s₀, []⟩ x) :
    (x.dispatched.Pairwise fun c₁ c₂ => c₁ + T.unsignedInterval ≤ c₂) ∧
    (∀ s, Lts.Reaches step x.state s → x.state.nextUnsignedAt ≤ s.nextUnsignedAt) ∧
    (0 < T.unsignedInterval → x.dispatched.Nodup ∧
      ∀ c s s', step x.state (.call .none c) = some s → Lts.Reaches step s s' →
        (validateUnsigned s' c).accepts = false) := by
  have hspaced : Spaced x := by
    refine h.invariant ⟨List.Pairwise.nil, by simp⟩ ?_
    exact fun _ _ _ hinv _ hstep => hinv.step hstep
  refine ⟨hspaced.pairwise, fun s hs => nextUnsignedAt_mono hs, fun hpos => ⟨?_, ?_⟩⟩
  · apply hspaced.pairwise.imp
    intro c₁ c₂ hle
    omega
  · intro c s s' hstep hrun
    have hmono := nextUnsignedAt_mono hrun
    cases step_clock hstep with
    | other hl => exact absurd rfl (hl c)
    | unsigned haccepts hnext hblock =>
      obtain ⟨blockNumber, hclaimed, hlow, hhigh⟩ := validateUnsigned_window haccepts
      by_contra hagain
      obtain ⟨blockNumber', hclaimed', hlow', -⟩ :=
        validateUnsigned_window (Bool.not_eq_false _ ▸ hagain)
      obtain rfl : blockNumber = blockNumber' := Option.some.inj (hclaimed.symm.trans hclaimed')
      omega

/-- Unsigned prices in the blocks 2 and 5, the first of which claims block 0. -/
def sampleCalls : List (Label sampleRuntime) :=
  [.block, .block, .call .none (.submitPriceUnsigned 0 7), .block, .block, .block,
    .call .none (.submitPriceUnsignedWithSignedPayload ⟨5, 9, ()⟩ true)]

theorem unsigned_rate_limit_sample :
    ∃ x, Lts.Reaches logStep ⟨State.genesis sampleRuntime Book.empty, []⟩ x ∧
      x.dispatched = [2, 5] ∧ (x.dispatched.Pairwise fun c₁ c₂ => c₁ + 3 ≤ c₂) ∧
      x.dispatched.Nodup := by
  have hrun : ((Lts.run logStep ⟨State.genesis sampleRuntime Book.empty, []⟩ sampleCalls).any
      fun x => x.dispatched = [2, 5]) = true := by decide
  obtain ⟨x, hx, hdispatched⟩ := Lts.reaches_of_run hrun
  obtain ⟨hpairwise, -, hpositive⟩ := unsigned_rate_limit hx
  exact ⟨x, hx, of_decide_eq_true hdispatched, hpairwise, (hpositive (by decide)).1⟩

end PolkadotOracle.OcwPallet
