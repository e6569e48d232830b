import PolkadotOracle.Lib.Register
import PolkadotOracle.Ocw.Prices

/-! What a run from genesis leaves in the storage of the ocw pallet: the price of each place, and
the URLs of each account. -/

namespace PolkadotOracle.OcwPallet

open Exec Frame Register Scale Text

variable {T : Config} {s s' : State T} {l : Label T} {ls : List (Label T)}

/-! ### The prices -/

/-- The price that a step of the chain brings. -/
def Label.price : Label T → Option UInt32
  | .call (.signed _) (.submitPrice price) => some price
  | .call .none (.submitPriceUnsigned _ price) => some price
  | .call .none (.submitPriceUnsignedWithSignedPayload pricePayload _) => some pricePayload.price
  | _ => none

theorem Label.price_eq_some {price : UInt32} (h : l.price = some price) :
    ∃ sub : Submission T, l = .call sub.origin sub.call ∧ sub.price = price := by
  unfold Label.price at h
  split at h
  case h_1 who price' => exact ⟨.submitPrice who price', rfl, Option.some.inj h⟩
  case h_2 blockNumber price' =>
    exact ⟨.submitPriceUnsigned blockNumber price', rfl, Option.some.inj h⟩
  case h_3 pricePayload signature =>
    exact ⟨.submitPriceUnsignedWithSignedPayload pricePayload signature, rfl, Option.some.inj h⟩
  case h_4 => contradiction

/-- Any step adds the price that it brings to the stored ones, and one that brings none leaves them
as they are. -/
theorem step_prices (hmax : 0 < T.maxPrices.toNat) (h : step s l = some s') :
    s'.prices.val =
      l.price.toList.foldl (Buffer.push T.maxPrices.toNat (priceSlot T)) s.prices.val := by
  cases hprice : l.price with
  | some price =>
    obtain ⟨sub, rfl, rfl⟩ := Label.price_eq_some hprice
    obtain ⟨t, hsubmit, hprices⟩ := submit_some hmax s sub
    have hcall : s.call sub.origin sub.call = some s' := by
      cases sub with
      | submitPrice who price => exact h
      | _ => exact (Option.ite_none_right_eq_some.mp h).2
    obtain rfl := Option.some.inj (hcall.symm.trans hsubmit)
    exact hprices
  | none =>
    rcases step_effect h with ⟨rfl, rfl⟩ | ⟨origin, c, rfl, heffect, haccepts⟩
    · rfl
    cases heffect with
    | submitPrice => contradiction
    | submitUnsigned =>
      have hvalid := haccepts rfl
      cases c with
      | submitPriceUnsigned => contradiction
      | submitPriceUnsignedWithSignedPayload => contradiction
      | _ => contradiction
    | _ => rfl

theorem run_prices (hmax : 0 < T.maxPrices.toNat) (h : Lts.run step s ls = some s') :
    s'.prices.val =
      (ls.filterMap Label.price).foldl (Buffer.push T.maxPrices.toNat (priceSlot T))
        s.prices.val := by
  induction ls generalizing s with
  | nil =>
    obtain rfl : s = s' := Option.some.inj h
    rfl
  | cons l ls ih =>
    obtain ⟨s₁, hstep, hrun⟩ := Option.bind_eq_some_iff.mp h
    rw [ih hrun, step_prices hmax hstep]
    cases hprice : l.price with
    | none => rw [List.filterMap_cons_none hprice]; rfl
    | some price => rw [List.filterMap_cons_some hprice]; rfl

/-- After any run from genesis each place holds the last of the prices for it that found all places
taken, and the price that was added there if there was none.  Which accounts and which of the calls
have brought the prices makes no difference, and neither do the other calls of the run. -/
theorem prices_contents (hmax : 0 < T.maxPrices.toNat) {ledger : T.currency.Ledger}
    (h : Lts.run step (State.genesis T ledger) ls = some s) {place : Nat}
    (hplace : place < T.maxPrices.toNat) :
    s.prices.val[place]? =
      (((ls.filterMap Label.price).drop T.maxPrices.toNat).filter
        (priceSlot T · = place)).getLast?.or (ls.filterMap Label.price)[place]? := by
  rw [run_prices hmax h]
  exact Buffer.getElem?_pushAll hplace (ls.filterMap Label.price)

/-- The prices of a run, among other calls, of which the last two find both places taken. -/
def sampleContents : List (Label twoPrices) :=
  [.block, .call (.signed (sampleAccount 1)) (.submitPrice 5),
    .call .none (.submitPriceUnsigned 1 6), .call (.signed (sampleAccount 1)) .testAcc,
    .call (.signed (sampleAccount 2)) (.submitPrice 8),
    .call (.signed (sampleAccount 1)) (.submitPrice 10)]

/-- The third price and the fourth one are for the first place, and the second one stays. -/
theorem prices_contents_sample : ∃ s, Lts.run step twoPricesGenesis sampleContents = some s ∧
    s.prices.val[0]? = some 10 ∧ s.prices.val[1]? = some 6 := by
  have hrun : (Lts.run step twoPricesGenesis sampleContents).isSome = true := by decide +kernel
  obtain ⟨s, hs⟩ := Option.isSome_iff_exists.mp hrun
  refine ⟨s, hs, ?_, ?_⟩
  · exact prices_contents (by decide) hs (by decide)
  · exact prices_contents (by decide) hs (by decide)

/-! ### The URLs -/

/-- The URL that a step submits for an account and a topic. -/
def Label.url (who : T.AccountId) (topicId : UInt32) : Label T → Option (BoundedVec 256)
  | .call (.signed who') (.submitApiUrl topicId' apiUrl) =>
    if who' = who ∧ topicId' = topicId then BoundedVec.tryFrom 256 (utf8 apiUrl) else none
  | _ => none

theorem submitApiUrl_call {who : T.AccountId} {topicId : UInt32} {apiUrl : Str}
    (h : s.call (.signed who) (.submitApiUrl topicId apiUrl) = some s') :
    ∃ url, BoundedVec.tryFrom 256 (utf8 apiUrl) = some url ∧
      s'.apiUrlStore = s.apiUrlStore.insert (who, topicId) url := by
  rw [State.call, Call.dispatch, submitApiUrl, bind_apply, ensureSignedOrRoot_signed] at h
  simp only [bind_apply] at h
  cases hurl : BoundedVec.tryFrom 256 (utf8 apiUrl) with
  | none => simp [hurl] at h
  | some url =>
    rw [hurl] at h
    obtain rfl := Option.some.inj h
    exact ⟨url, rfl, rfl⟩

theorem Label.url_submit (who : T.AccountId) (topicId : UInt32) (apiUrl : Str) :
    (Label.call (.signed who) (.submitApiUrl topicId apiUrl)).url who topicId =
      BoundedVec.tryFrom 256 (utf8 apiUrl) := if_pos ⟨rfl, rfl⟩

theorem Label.url_eq_some {who : T.AccountId} {topicId : UInt32} {url : BoundedVec 256}
    (h : l.url who topicId = some url) :
    ∃ apiUrl, l = .call (.signed who) (.submitApiUrl topicId apiUrl) ∧
      BoundedVec.tryFrom 256 (utf8 apiUrl) = some url := by
  unfold Label.url at h
  split at h
  case h_2 => contradiction
  case h_1 who' topicId' apiUrl =>
    split at h
    case isFalse => contradiction
    case isTrue hplace =>
      obtain ⟨rfl, rfl⟩ := hplace
      exact ⟨apiUrl, rfl, h⟩

/-- The URLs of an account for a topic are a register that its own submissions write. -/
theorem apiUrlStore_register (who : T.AccountId) (topicId : UInt32) :
    IsRegister (step (T := T)) (fun s => s.apiUrlStore.lookup (who, topicId)) (fun _ => True)
      (Label.url who topicId) where
  writes := by
    intro s l s' url hstep _ hurl
    obtain ⟨apiUrl, rfl, hfits⟩ := Label.url_eq_some hurl
    obtain ⟨url', hurl', hstore⟩ := submitApiUrl_call hstep
    obtain rfl := Option.some.inj (hfits.symm.trans hurl')
    rw [hstore]
    exact Finmap.lookup_insert _
  keeps := by
    intro s l s' hstep hnone
    rcases step_effect hstep with ⟨rfl, rfl⟩ | ⟨origin, c, rfl, heffect, -⟩
    · rfl
    cases heffect with
    | @submitApiUrl who' topicId' apiUrl =>
      obtain ⟨url, hurl, hstore⟩ := submitApiUrl_call hstep
      rw [hstore]
      apply Finmap.lookup_insert_of_ne
      intro hplace
      obtain ⟨rfl, rfl⟩ := Prod.mk.inj hplace
      have hwants := hnone trivial
      rw [Label.url_submit, hurl] at hwants
      contradiction
    | _ => rfl
  stable _ _ _ _ _ := trivial

/-- After any run from genesis, the URL of an account for a topic is the one that the account itself
has submitted last for the topic, and it is there as soon as the account has submitted one. -/
theorem apiUrl_last {ledger : T.currency.Ledger}
    (h : Lts.run step (State.genesis T ledger) ls = some s) (who : T.AccountId)
    (topicId : UInt32) (url : BoundedVec 256) :
    s.apiUrlStore.lookup (who, topicId) = some url ↔
      ∃ before apiUrl after, ls = before ++
        .call (.signed who) (.submitApiUrl topicId apiUrl) :: after ∧ url.val = utf8 apiUrl ∧
        ∀ apiUrl', .call (.signed who) (.submitApiUrl topicId apiUrl') ∉ after := by
  refine ((apiUrlStore_register who topicId).read_run_iff rfl h).trans ?_
  constructor
  · rintro ⟨before, l, after, s₁, rfl, -, -, hwants, hafter⟩
    obtain ⟨apiUrl, rfl, hfits⟩ := Label.url_eq_some hwants
    refine ⟨before, apiUrl, after, rfl, BoundedVec.tryFrom_eq_some.mp hfits, ?_⟩
    intro apiUrl' hmem
    -- A URL that does not fit would have ended the run.
    obtain ⟨s₂, s₃, hstep⟩ := Lts.step_of_mem_run h
      (List.mem_append_right _ (List.mem_cons_of_mem _ hmem))
    obtain ⟨url', hurl', -⟩ := submitApiUrl_call hstep
    have hnone := hafter _ hmem
    rw [Label.url_submit, hurl'] at hnone
    contradiction
  · rintro ⟨before, apiUrl, after, rfl, hfits, hafter⟩
    rw [Lts.run_append] at h
    obtain ⟨s₁, hbefore, -⟩ := Option.bind_eq_some_iff.mp h
    refine ⟨before, _, after, s₁, rfl, hbefore, trivial, ?_, ?_⟩
    · rw [Label.url_submit]
      exact BoundedVec.tryFrom_eq_some.mpr hfits
    · intro l' hmem
      by_contra hwants
      obtain ⟨url', hurl'⟩ := Option.ne_none_iff_exists'.mp hwants
      obtain ⟨apiUrl', rfl, -⟩ := Label.url_eq_some hurl'
      exact hafter apiUrl' hmem

/-- Two URLs of an account for a topic, and one of another account. -/
def sampleUrls : List (Label sampleRuntime) :=
  [.call (.signed (sampleAccount 1)) (.submitApiUrl 7 ['a']), .block,
    .call (.signed (sampleAccount 1)) (.submitApiUrl 7 ['b']),
    .call (.signed (sampleAccount 2)) (.submitApiUrl 7 ['c'])]

theorem apiUrl_last_sample : ∃ s, Lts.run step (State.genesis sampleRuntime Book.empty)
      sampleUrls = some s ∧
    s.apiUrlStore.lookup (sampleAccount 1, 7) = some ⟨utf8 ['b'], by decide⟩ := by
  have hrun : (Lts.run step (State.genesis sampleRuntime Book.empty) sampleUrls).isSome = true := by
    decide +kernel
  obtain ⟨s, hs⟩ := Option.isSome_iff_exists.mp hrun
  refine ⟨s, hs, (apiUrl_last hs _ _ _).mpr ?_⟩
  refine ⟨sampleUrls.take 2, ['b'], sampleUrls.drop 3, rfl, rfl, ?_⟩
  intro apiUrl' hmem
  obtain ⟨hwho, -⟩ := Label.call.inj (List.mem_singleton.mp hmem)
  have hdiffer : sampleAccount 1 ≠ sampleAccount 2 := by decide
  exact hdiffer (Frame.Origin.signed.inj hwho)

end PolkadotOracle.OcwPallet
