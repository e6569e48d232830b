import PolkadotOracle.Offchain.Lists

/-! What the executor has given to its tasks, and what comes of it: every payload that is processed,
and every result on its way to the listener, goes back to a request that a task has been given. -/

namespace PolkadotOracle

open Scale Sequence

variable {T : Config}

/-- A task has been given the request `p` under its id. -/
def GivenTo (h : History) (p : RequestPayload) : Prop :=
  ∃ e ∈ h.given, e.1 = p.jobId.val ∧ e.2.bind RequestPayload.decode = some p

instance (h : History) (p : RequestPayload) : Decidable (GivenTo h p) :=
  inferInstanceAs (Decidable (∃ e ∈ h.given, _ ∧ _))

theorem GivenTo.mono {h h' : History} {p : RequestPayload} (hp : GivenTo h p)
    (hsub : h.given ⊆ h'.given) : GivenTo h' p := by
  obtain ⟨e, he, hid, hdecode⟩ := hp
  exact ⟨e, hsub he, hid, hdecode⟩

/-- The result is of a request that a task has been given. -/
def Answers (h : History) (res : JobResult) : Prop :=
  ∃ p, GivenTo h p ∧ res.jobId = p.jobId

theorem Answers.mono {h h' : History} {res : JobResult} (hres : Answers h res)
    (hsub : h.given ⊆ h'.given) : Answers h' res := by
  obtain ⟨p, hp, hid⟩ := hres
  exact ⟨p, hp.mono hsub, hid⟩

/-- A task works on what has been given. -/
def Task.Traced (h : History) : Task → Prop
  | .spawned (some record) => ∃ id, (id, some record) ∈ h.given
  | .processing payload => GivenTo h payload
  | .sending res => Answers h res
  | _ => True

theorem Task.Traced.mono {h h' : History} {t : Task} (ht : t.Traced h)
    (hsub : h.given ⊆ h'.given) : t.Traced h' := by
  cases t with
  | spawned encodedPayload =>
    cases encodedPayload with
    | none => trivial
    | some record =>
      obtain ⟨id, hid⟩ := ht
      exact ⟨id, hsub hid⟩
  | processing payload => exact GivenTo.mono ht hsub
  | sending res => exact Answers.mono ht hsub
  | ended => trivial

/-- Every result on its way to the listener answers a request that a task has been given. -/
structure GivenInv (chain : State T) (n : Node T) : Prop where
  given : ∀ id record, (id, some record) ∈ n.history.given → RecordOk chain id record
  tasks : ∀ t ∈ n.tasks, t.Traced n.history
  channel : ∀ res ∈ n.channel, Answers n.history res
  listener : ∀ res pc, n.listener = .writeRecord res pc → Answers n.history res

section GivenInv

variable {chain chain' : State T} {n n' : Node T}

theorem GivenInv.grow (h : GivenInv chain n) (hchain : ChainReaches chain chain') :
    GivenInv chain' n :=
  { h with given := fun id record hmem => (h.given id record hmem).grow hchain }

theorem GivenInv.requests (h : GivenInv chain n) {p : RequestPayload}
    (hp : GivenTo n.history p) : Requests chain p := by
  obtain ⟨⟨id, record⟩, hmem, hid, hdecode⟩ := hp
  obtain ⟨record, rfl, hdecode⟩ := Option.bind_eq_some_iff.mp hdecode
  exact ((h.given _ _ hmem).decode hdecode).1

theorem GivenInv.setTask (h : GivenInv chain n) (i : Nat) {t : Task}
    (ht : t.Traced n.history) : GivenInv chain { n with tasks := n.tasks.set i t } :=
  { h with
    tasks := fun t' ht' => (List.mem_or_eq_of_mem_set ht').elim (h.tasks t') (· ▸ ht) }

theorem GivenInv.move (h : GivenInv chain n) (hn : NodeInv chain n) {l : NodeLabel T}
    {calls : List Call} (hmove : NodeMove chain n l n' calls) : GivenInv chain n' := by
  cases hmove with
  | give i keyList hexec =>
    have hids := hn.executorAt hexec
    have hsub : n.history.given ⊆ n.history.given ++ [(i, n.db.get i)] :=
      List.subset_append_left _ _
    refine ⟨fun id record hmem => ?_, fun t ht => ?_,
      fun res hres => (h.channel res hres).mono hsub,
      fun res pc hlistener => (h.listener res pc hlistener).mono hsub⟩
    · rcases List.mem_append.mp hmem with hmem | hmem
      · exact h.given id record hmem
      · obtain ⟨rfl, hget⟩ := Prod.mk.inj (List.mem_singleton.mp hmem)
        exact hn.db.records _ record (hids _ List.mem_cons_self) hget.symm
    · rcases List.mem_append.mp ht with ht | ht
      · exact (h.tasks t ht).mono hsub
      · obtain rfl := List.mem_singleton.mp ht
        cases hget : n.db.get i with
        | none => trivial
        | some record => exact ⟨i, by simp⟩
  | drop i outcome => exact h.setTask i trivial
  | process i outcome record payload htask hdecode =>
    obtain ⟨id, hmem⟩ := h.tasks _ (List.mem_of_getElem? htask)
    have hid := ((h.given id record hmem).decode hdecode).2
    have hgiven : GivenTo n.history payload := ⟨_, hmem, hid.symm, hdecode⟩
    have hset := h.setTask i (t := .processing payload) hgiven
    exact { hset with }
  | produce i outcome payload res htask hres =>
    have hgiven : GivenTo n.history payload := h.tasks _ (List.mem_of_getElem? htask)
    have hset := h.setTask i (t := .sending res) ⟨payload, hgiven, hres⟩
    exact { hset with }
  | send i outcome res htask hroom =>
    have hres : Answers n.history res := h.tasks _ (List.mem_of_getElem? htask)
    refine { h.setTask i (t := .ended) trivial with channel := fun r hr => ?_ }
    rcases List.mem_append.mp hr with hr | hr
    · exact h.channel r hr
    · exact List.mem_singleton.mp hr ▸ hres
  | receive res channel hlistener hchannel =>
    have hall := h.channel
    rw [hchannel] at hall
    refine { h with
      channel := fun r hr => hall r (List.mem_cons_of_mem _ hr)
      listener := fun r pc hr => ?_ }
    obtain ⟨rfl, -⟩ := Listener.writeRecord.inj hr
    exact hall _ List.mem_cons_self
  | record res pc db write hlistener hwrite =>
    refine { h with listener := fun r pc' hr => ?_ }
    cases write with
    | running pc'' =>
      obtain ⟨rfl, -⟩ := Listener.writeRecord.inj hr
      exact h.listener _ pc hlistener
    | returned _ => cases hr
  | skip => exact { h with listener := fun r pc hr => by cases hr }
  | read => exact { h with listener := fun r pc hr => by cases hr }
  | appending => exact { h with listener := fun r pc hr => by cases hr }
  | append => exact { h with listener := fun r pc hr => by cases hr }
  | _ => exact { h with }

theorem GivenInv.boot (db : Db) (procesorKey : Option Public) (ranAt : Nat) :
    GivenInv chain (Node.boot db procesorKey ranAt : Node T) := by
  refine ⟨?_, ?_, ?_, ?_⟩ <;> simp [Node.boot]

end GivenInv

end PolkadotOracle
