import PolkadotOracle.Pallet.Scripts

/-! Who can replace a stored script: any account that uploads other code under its name.  The
publisher is stored and never looked at. -/

namespace PolkadotOracle

open Exec Scale

variable {T : Config}

/-- A block, or a call that is not signed by `p`. -/
def ByOthers (p : T.AccountId) : ChainLabel T → Prop
  | .block _ => True
  | .call origin _ => ∀ who, origin = .signed who → who ≠ p

/-- An upload aimed at the entry `d` under `key` that fits and has other code than the entry. -/
def Replaces (key : BoundedVec T.maxScriptKeyLen.toNat) (d : ScriptDetail T) :
    ChainLabel T → Prop
  | .call (.signed _) (.uploadWasm name typ wasmCode scriptAbi) =>
    scriptKeyOf T (typ.tag ++ name) = key.val ∧
      Fits T (typ.tag ++ name) wasmCode scriptAbi ∧ wasmCode ≠ d.wasmCode.val
  | _ => False

/-- An upload, signed by another account than `p`, under the key of an entry. -/
def Targets (key : BoundedVec T.maxScriptKeyLen.toNat) (p : T.AccountId) : ChainLabel T → Prop
  | .call (.signed who) (.uploadWasm name typ _ _) =>
    who ≠ p ∧ scriptKeyOf T (typ.tag ++ name) = key.val
  | _ => False

/-- A step keeps the entry `d` under `key`, and is refused with `NotOwner` when it targets it. -/
structure Protected (key : BoundedVec T.maxScriptKeyLen.toNat) (d : ScriptDetail T) (s : State T)
    (l : ChainLabel T) : Prop where
  keeps : ∀ s', chainStep s l = some s' → s'.scriptStorage.lookup key = some d
  refuses : ∀ who name typ wasmCode scriptAbi,
    l = .call (.signed who) (.uploadWasm name typ wasmCode scriptAbi) →
    Targets key d.publisher l →
    uploadWasm (.signed who) name typ wasmCode scriptAbi s = .error (.module .notOwner) s

section Upload

variable {s : State T} {key : BoundedVec T.maxScriptKeyLen.toNat} {d : ScriptDetail T}
  {who : T.AccountId} {name : Str} {typ : ScriptType} {wasmCode scriptAbi : Bytes}

theorem Fits.key_eq (h : Fits T (typ.tag ++ name) wasmCode scriptAbi)
    (hkey : scriptKeyOf T (typ.tag ++ name) = key.val) : h.key.key = key :=
  Subtype.ext hkey

/-- Other code under the name of a stored script is stored, whoever uploads it. -/
theorem uploadWasm_replaces (hd : s.scriptStorage.lookup key = some d)
    (hkey : scriptKeyOf T (typ.tag ++ name) = key.val)
    (h : Fits T (typ.tag ++ name) wasmCode scriptAbi) (hcode : wasmCode ≠ d.wasmCode.val) :
    uploadWasm (.signed who) name typ wasmCode scriptAbi s = .ok () (h.store s who typ) := by
  rw [← h.key_eq hkey] at hd
  have hagain : uploadWasm (.signed who) name typ wasmCode scriptAbi s = _ :=
    uploadWasm_again h hd
  rw [hagain, if_neg]
  rintro ⟨-, hsame⟩
  exact hcode hsame.symm

/-- Any other upload aimed at a stored script is refused, because of its size or as a duplicate. -/
theorem uploadWasm_refused (who : T.AccountId) (hinv : ScriptInv s)
    (hd : s.scriptStorage.lookup key = some d) (hkey : scriptKeyOf T (typ.tag ++ name) = key.val)
    (hnot : ¬(Fits T (typ.tag ++ name) wasmCode scriptAbi ∧ wasmCode ≠ d.wasmCode.val)) :
    uploadWasm (.signed who) name typ wasmCode scriptAbi s = .error (.module .sizeTooBig) s ∨
    uploadWasm (.signed who) name typ wasmCode scriptAbi s =
      .error (.module .valAlreadyExist) s := by
  by_cases h : Fits T (typ.tag ++ name) wasmCode scriptAbi
  case neg => exact .inl (uploadWasm_tooBig h)
  have hcode : d.wasmCode.val = wasmCode := by
    by_contra hne
    exact hnot ⟨h, fun hsame => hne hsame.symm⟩
  have hname := hinv.name hkey.symm hd
  rw [← h.key_eq hkey] at hd
  have hagain : uploadWasm (.signed who) name typ wasmCode scriptAbi s = _ :=
    uploadWasm_again h hd
  rw [if_pos ⟨hname, hcode⟩] at hagain
  exact .inr hagain

/-- No upload aimed at a stored script is refused because of its signer. -/
theorem uploadWasm_ne_notOwner (who : T.AccountId) (hinv : ScriptInv s)
    (hd : s.scriptStorage.lookup key = some d)
    (hkey : scriptKeyOf T (typ.tag ++ name) = key.val) :
    uploadWasm (.signed who) name typ wasmCode scriptAbi s ≠ .error (.module .notOwner) s := by
  by_cases hreplaces : Fits T (typ.tag ++ name) wasmCode scriptAbi ∧ wasmCode ≠ d.wasmCode.val
  · have hstored : uploadWasm (.signed who) name typ wasmCode scriptAbi s = _ :=
      uploadWasm_replaces hd hkey hreplaces.1 hreplaces.2
    simp [hstored]
  · rcases uploadWasm_refused who hinv hd hkey hreplaces with hrefused | hrefused
    · simp [hrefused]
    · simp [hrefused]

end Upload

section Step

variable {s s' : State T} {l : ChainLabel T} {key : BoundedVec T.maxScriptKeyLen.toNat}
  {d : ScriptDetail T}

/-- A step that does not replace an entry leaves it as it is. -/
theorem chainStep_keeps (hinv : ScriptInv s) (hd : s.scriptStorage.lookup key = some d)
    (hstep : chainStep s l = some s') (hnot : ¬Replaces key d l) :
    s'.scriptStorage.lookup key = some d := by
  cases l with
  | block invulnerables =>
    obtain rfl := Option.some.inj hstep
    exact hd
  | call origin c =>
    obtain rfl := Option.some.inj hstep
    rcases call_scripts s origin c with
      ⟨hsame, -⟩ | ⟨who, name, typ, wasmCode, scriptAbi, h, rfl, rfl, hnew, hcall, -⟩
    · rw [hsame]
      exact hd
    · rw [hcall]
      by_cases hkey : scriptKeyOf T (typ.tag ++ name) = key.val
      · have hname := hinv.name hkey.symm hd
        have hcode : wasmCode = d.wasmCode.val := by
          by_contra hne
          exact hnot ⟨hkey, h, hne⟩
        rw [← h.key_eq hkey] at hd
        exact absurd ⟨hname, hcode.symm⟩ (hnew d hd)
      · have hne : key ≠ h.key.key := by
          rintro rfl
          exact hkey rfl
        exact (Finmap.lookup_insert_of_ne _ hne).trans hd

/-- What replaces an entry, and comes from another account, targets it. -/
theorem Replaces.targets {p : T.AccountId} (h : Replaces key d l) (hothers : ByOthers p l) :
    Targets key p l := by
  cases l with
  | block invulnerables => exact h.elim
  | call origin c =>
    cases origin with
    | root => exact h.elim
    | none => exact h.elim
    | signed who =>
      cases c with
      | uploadWasm name typ wasmCode scriptAbi => exact ⟨hothers who rfl, h.1⟩
      | _ => exact h.elim

/-- A step by others protects the entry exactly when it does not target it. -/
theorem protected_iff (hinv : ScriptInv s) (hd : s.scriptStorage.lookup key = some d)
    (hothers : ByOthers d.publisher l) :
    Protected key d s l ↔ ¬Targets key d.publisher l := by
  constructor
  · intro hprotected htargets
    cases l with
    | block invulnerables => exact htargets
    | call origin c =>
      cases origin with
      | root => exact htargets
      | none => exact htargets
      | signed who =>
        cases c with
        | uploadWasm name typ wasmCode scriptAbi =>
          exact uploadWasm_ne_notOwner who hinv hd htargets.2
            (hprotected.refuses who name typ wasmCode scriptAbi rfl htargets)
        | _ => exact htargets
  · intro hnot
    refine ⟨fun s' hstep => ?_, fun _ _ _ _ _ _ htargets => absurd htargets hnot⟩
    exact chainStep_keeps hinv hd hstep fun hreplaces => hnot (hreplaces.targets hothers)

/-- After a step that replaces an entry its publisher is the signer of the step. -/
theorem chainStep_replaces {p : T.AccountId} (hd : s.scriptStorage.lookup key = some d)
    (hstep : chainStep s l = some s') (hreplaces : Replaces key d l) (hothers : ByOthers p l) :
    ∃ d', s'.scriptStorage.lookup key = some d' ∧ d'.publisher ≠ p := by
  cases l with
  | block invulnerables => exact hreplaces.elim
  | call origin c =>
    obtain rfl := Option.some.inj hstep
    cases origin with
    | root => exact hreplaces.elim
    | none => exact hreplaces.elim
    | signed who =>
      cases c with
      | uploadWasm name typ wasmCode scriptAbi =>
        obtain ⟨hkey, h, hcode⟩ := hreplaces
        have hstored : uploadWasm (.signed who) name typ wasmCode scriptAbi s = _ :=
          uploadWasm_replaces hd hkey h hcode
        refine ⟨h.detail s who typ, ?_, hothers who rfl⟩
        rw [State.call, Call.dispatch, hstored, final_ok, ← h.key_eq hkey]
        exact h.store_lookup_same s who typ
      | _ => exact hreplaces.elim

/-- An entry that others have published stays one: what replaces it is theirs too. -/
theorem chainStep_others {p : T.AccountId} (hinv : ScriptInv s)
    (hd : ∃ d, s.scriptStorage.lookup key = some d ∧ d.publisher ≠ p)
    (hstep : chainStep s l = some s') (hothers : ByOthers p l) :
    ∃ d, s'.scriptStorage.lookup key = some d ∧ d.publisher ≠ p := by
  obtain ⟨d, hd, hpublisher⟩ := hd
  by_cases hreplaces : Replaces key d l
  · exact chainStep_replaces hd hstep hreplaces hothers
  · exact ⟨d, chainStep_keeps hinv hd hstep hreplaces, hpublisher⟩

theorem run_keeps (h : ChainReaches (State.genesis T) s)
    (hd : s.scriptStorage.lookup key = some d)
    (hrun : Lts.ReachesBy chainStep (fun _ l => ¬Replaces key d l) s s') :
    s'.scriptStorage.lookup key = some d := by
  have hboth : ChainReaches (State.genesis T) s' ∧ s'.scriptStorage.lookup key = some d := by
    refine Lts.ReachesBy.invariant (I := fun s₁ => ChainReaches (State.genesis T) s₁ ∧
      s₁.scriptStorage.lookup key = some d) hrun ⟨h, hd⟩ ?_
    rintro s₁ l s₂ ⟨hreached, hd₁⟩ hnot hstep
    exact ⟨Lts.ReachesBy.tail hreached trivial hstep,
      chainStep_keeps hreached.scriptInv hd₁ hstep hnot⟩
  exact hboth.2

theorem run_others {p : T.AccountId} (h : ChainReaches (State.genesis T) s)
    (hd : ∃ d, s.scriptStorage.lookup key = some d ∧ d.publisher ≠ p)
    (hrun : Lts.ReachesBy chainStep (fun _ l => ByOthers p l) s s') :
    ∃ d, s'.scriptStorage.lookup key = some d ∧ d.publisher ≠ p := by
  have hboth : ChainReaches (State.genesis T) s' ∧
      ∃ d, s'.scriptStorage.lookup key = some d ∧ d.publisher ≠ p := by
    refine Lts.ReachesBy.invariant (I := fun s₁ => ChainReaches (State.genesis T) s₁ ∧
      ∃ d, s₁.scriptStorage.lookup key = some d ∧ d.publisher ≠ p) hrun ⟨h, hd⟩ ?_
    rintro s₁ l s₂ ⟨hreached, hd₁⟩ hothers hstep
    exact ⟨Lts.ReachesBy.tail hreached trivial hstep,
      chainStep_others hreached.scriptInv hd₁ hstep hothers⟩
  exact hboth.2

theorem run_protected_iff {ls : List (ChainLabel T)} (h : ChainReaches (State.genesis T) s)
    (hd : s.scriptStorage.lookup key = some d) (hothers : ∀ l ∈ ls, ByOthers d.publisher l)
    (hrun : Lts.run chainStep s ls = some s') :
    Lts.Always chainStep (Protected key d) s ls ↔ ∀ l ∈ ls, ¬Targets key d.publisher l := by
  refine Lts.always_iff (I := fun s₁ => ChainReaches (State.genesis T) s₁ ∧
    s₁.scriptStorage.lookup key = some d) (D := ByOthers d.publisher) ?_ ?_ ⟨h, hd⟩ hothers hrun
  · rintro s₁ l ⟨hreached, hd₁⟩ hl
    exact protected_iff hreached.scriptInv hd₁ hl
  · rintro s₁ l s₂ ⟨hreached, -⟩ hprotected hstep
    exact ⟨Lts.ReachesBy.tail hreached trivial hstep, hprotected.keeps s₂ hstep⟩

end Step

/-- What happens to an entry that is stored in a state that any calls reach, when accounts other
than its publisher call the pallet.  In a run of theirs every step keeps the entry, and every upload
that targets it is refused with `NotOwner` and changes nothing, exactly when no step targets it.
The entry stays the same in every run in which no step replaces it; a step that replaces it is
final, whatever those accounts do next; and an upload that targets it fails exactly when it does not
replace it, never with `NotOwner`. -/
theorem publisher_runs {s : State T} (h : ChainReaches (State.genesis T) s)
    {key : BoundedVec T.maxScriptKeyLen.toNat} {d : ScriptDetail T}
    (hd : s.scriptStorage.lookup key = some d) :
    (∀ ls s', (∀ l ∈ ls, ByOthers d.publisher l) → Lts.run chainStep s ls = some s' →
      ((Lts.Always chainStep (Protected key d) s ls ∧ s'.scriptStorage.lookup key = some d) ↔
        ∀ l ∈ ls, ¬Targets key d.publisher l)) ∧
    (∀ s', Lts.ReachesBy chainStep (fun _ l => ByOthers d.publisher l ∧ ¬Replaces key d l) s s' →
      s'.scriptStorage.lookup key = some d) ∧
    (∀ s₁ l s₂ s', Lts.ReachesBy chainStep (fun _ l => ByOthers d.publisher l) s s₁ →
      s₁.scriptStorage.lookup key = some d → ByOthers d.publisher l → Replaces key d l →
      chainStep s₁ l = some s₂ →
      Lts.ReachesBy chainStep (fun _ l => ByOthers d.publisher l) s₂ s' →
      s'.scriptStorage.lookup key ≠ some d) ∧
    ∀ who name typ wasmCode scriptAbi, who ≠ d.publisher →
      scriptKeyOf T (typ.tag ++ name) = key.val →
      (uploadWasm (.signed who) name typ wasmCode scriptAbi s ≠
        .error (.module .notOwner) s) ∧
      ((∃ e, uploadWasm (.signed who) name typ wasmCode scriptAbi s = .error e s) ↔
        ¬Replaces key d (.call (.signed who) (.uploadWasm name typ wasmCode scriptAbi))) := by
  refine ⟨fun ls s' hothers hrun => ?_, fun s' hrun => ?_,
    fun s₁ l s₂ s' hrun₁ hd₁ hothers hreplaces hstep hrun₂ => ?_,
    fun who name typ wasmCode scriptAbi hwho hkey => ?_⟩
  · rw [← run_protected_iff h hd hothers hrun]
    refine ⟨And.left, fun halways => ⟨halways, ?_⟩⟩
    exact Lts.always_invariant (I := fun s => s.scriptStorage.lookup key = some d) hd
      (fun _ _ s' _ hprotected hstep => hprotected.keeps s' hstep) halways hrun
  · exact run_keeps h hd (hrun.mono fun _ _ hl => hl.2)
  · have hreached₂ : ChainReaches (State.genesis T) s₂ :=
      Lts.ReachesBy.tail (h.trans hrun₁.reaches) trivial hstep
    obtain ⟨d', hd', hpublisher⟩ :=
      run_others hreached₂ (chainStep_replaces hd₁ hstep hreplaces hothers) hrun₂
    rw [hd']
    intro hsame
    exact hpublisher (congrArg ScriptDetail.publisher (Option.some.inj hsame))
  · refine ⟨uploadWasm_ne_notOwner who h.scriptInv hd hkey, ?_⟩
    by_cases hreplaces : Fits T (typ.tag ++ name) wasmCode scriptAbi ∧ wasmCode ≠ d.wasmCode.val
    · have hstored : uploadWasm (.signed who) name typ wasmCode scriptAbi s = _ :=
        uploadWasm_replaces hd hkey hreplaces.1 hreplaces.2
      rw [hstored]
      simp [Replaces, hkey, hreplaces]
    · have hnot : ¬Replaces key d (.call (.signed who) (.uploadWasm name typ wasmCode scriptAbi)) :=
        fun hall => hreplaces hall.2
      rcases uploadWasm_refused who h.scriptInv hd hkey hreplaces with hrefused | hrefused
      · rw [hrefused]
        simp [hnot]
      · rw [hrefused]
        simp [hnot]

/-- The script that account 1 has uploaded. -/
def sampleDetail : ScriptDetail sampleRuntime :=
  ⟨(1 : UInt32), 0, sampleJob.wasmCode, sampleJob.wasmAbi, sampleRuntime.hashing [1, 2],
    sampleJob.scriptName, .executable, 0⟩

theorem sampleDetail_stored :
    sampleQueue.scriptStorage.lookup sampleKey = some sampleDetail := by decide

/-- Account 2 uploads a script of its own and requests the one of account 1. -/
def sampleOthers : List (ChainLabel sampleRuntime) :=
  [.call (.signed (2 : UInt32)) (.uploadWasm ['b'] .executable [1, 2] [7]),
    .call (.signed (2 : UInt32)) (.requestScriptExecution ['E', 'X', 'E', 'a'] none)]

theorem publisher_runs_sample : ∃ s, Lts.run chainStep sampleQueue sampleOthers = some s ∧
    Lts.Always chainStep (Protected sampleKey sampleDetail) sampleQueue sampleOthers ∧
    s.scriptStorage.lookup sampleKey = some sampleDetail := by
  refine ⟨_, rfl, ((publisher_runs sampleQueue_reached sampleDetail_stored).1 sampleOthers _ ?_
    rfl).mpr ?_⟩
  · have hother : ∀ c, ByOthers sampleDetail.publisher (.call (.signed (2 : UInt32)) c) := by
      rintro c who ⟨⟩
      show (2 : UInt32) ≠ 1
      decide
    simp [sampleOthers, hother]
  · have hkey : scriptKeyOf sampleRuntime (ScriptType.executable.tag ++ ['b']) ≠ sampleKey.val := by
      decide
    simp [sampleOthers, Targets, hkey]

/-- Account 2 replaces the script of account 1, and what it uploads with the same code is refused as
a duplicate. -/
theorem publisher_overwritten : ChainReaches (State.genesis _) sampleQueue ∧
    sampleQueue.scriptStorage.lookup sampleKey = some sampleDetail ∧
    sampleDetail.publisher = (1 : UInt32) ∧
    error (uploadWasm (.signed (2 : UInt32)) ['a'] .executable [9] [3] sampleQueue) = none ∧
    (sampleQueue.call (.signed (2 : UInt32))
      (.uploadWasm ['a'] .executable [9] [3])).scriptStorage.lookup sampleKey ≠
        some sampleDetail ∧
    error (uploadWasm (.signed (2 : UInt32)) ['a'] .executable [1, 2] [7] sampleQueue) =
      some (.module .valAlreadyExist) := by
  refine ⟨sampleQueue_reached, sampleDetail_stored, rfl, ?_, ?_, ?_⟩
  · decide
  · decide
  · decide

end PolkadotOracle
