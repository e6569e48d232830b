import PolkadotOracle.Offchain.Lists

/-! Restarts.  A node may stop at any moment and start again on its local storage: it loses its
runs, its executor, its tasks and its listener, and empties both lists. -/

namespace PolkadotOracle

variable {T : Config} {ι : Type}

/-! ### What a step produces -/

/-- The result that a step of a node produces. -/
def Node.produces (n : Node T) : NodeLabel T → Option JobResult
  | .task i outcome =>
    match n.tasks[i]? with
    | some (.processing payload) => outcome.map fun r => ⟨payload.jobId, r.1, r.2⟩
    | _ => none
  | _ => none

section Produces

variable {chain : State T} {n n' : Node T} {l : NodeLabel T} {calls : List Call}

theorem Node.produces_eq_some {res : JobResult} (h : n.produces l = some res) :
    ∃ i payload result extTime, l = .task i (some (result, extTime)) ∧
      n.tasks[i]? = some (.processing payload) ∧ res = ⟨payload.jobId, result, extTime⟩ := by
  cases l with
  | task i outcome =>
    simp only [Node.produces] at h
    split at h
    · rename_i payload htask
      obtain ⟨⟨result, extTime⟩, rfl, rfl⟩ := Option.map_eq_some_iff.mp h
      exact ⟨i, payload, result, extTime, rfl, htask, rfl⟩
    · contradiction
  | _ => contradiction

theorem Node.step_produced (h : n.step chain l = some (n', calls)) :
    n'.history.produced = n.history.produced ++ (n.produces l).toList := by
  have hmove := node_move h
  cases l with
  | task i outcome =>
    by_cases htask : ∃ payload, n.tasks[i]? = some (.processing payload)
    · obtain ⟨payload, htask⟩ := htask
      obtain ⟨rfl, -⟩ := by
        simpa only [Node.step, htask, Option.some.injEq, Prod.mk.injEq] using h
      cases outcome <;> simp [Node.produces, htask, processTask, History.afterTask]
    · have hnone : n.produces (.task i outcome) = none := by
        simp only [Node.produces]
        split
        · rename_i payload hprocessing
          exact absurd ⟨payload, hprocessing⟩ htask
        · rfl
      cases hmove with
      | produce _ _ payload _ hprocessing => exact absurd ⟨payload, hprocessing⟩ htask
      | _ => simp [hnone]
  | _ => cases hmove <;> simp [Node.produces]

end Produces

/-! ### The system with restarts -/

/-- A system whose nodes may start again, with the answers that their tasks have returned in all
their lives. -/
structure Deployment (T : Config) (ι : Type) where
  system : System T ι
  /-- The answers as the nodes' listeners write them.  No step reads it. -/
  answers : List (ι × ResponePayload)

/-- What moves a deployment: a step of the system, or the start of a node. -/
inductive Incident (T : Config) (ι : Type)
  | step (l : Label T ι)
  | restart (i : ι) (procesorKey : Option Public) (ranAt : Nat)

/-- The answer that a step of the system produces. -/
def System.answers (s : System T ι) : Label T ι → List (ι × ResponePayload)
  | .node i l =>
    ((s.nodes i).produces l).toList.map fun res => (i, res.respone (s.nodes i).procesorKey)
  | _ => []

/-- A condition on the steps, and none on restarts. -/
def Meets (C : System T ι → Label T ι → Prop) (d : Deployment T ι) : Incident T ι → Prop
  | .step l => C d.system l
  | .restart .. => True

instance (C : System T ι → Label T ι → Prop) [∀ s l, Decidable (C s l)] (d : Deployment T ι) :
    ∀ e, Decidable (Meets C d e)
  | .step l => inferInstanceAs (Decidable (C d.system l))
  | .restart .. => .isTrue trivial

section Deployment

variable [DecidableEq ι] {C : Deployment T ι → Incident T ι → Prop} {d₀ d : Deployment T ι}

def System.restart (s : System T ι) (i : ι) (procesorKey : Option Public) (ranAt : Nat) :
    System T ι :=
  { s with nodes := Function.update s.nodes i (Node.boot (s.nodes i).db procesorKey ranAt) }

def Deployment.step (d : Deployment T ι) : Incident T ι → Option (Deployment T ι)
  | .step l => (d.system.step l).map fun system => ⟨system, d.answers ++ d.system.answers l⟩
  | .restart i procesorKey ranAt =>
    some { d with system := d.system.restart i procesorKey ranAt }

/-- All that an incident can do. -/
inductive DeploymentMove (d : Deployment T ι) : Incident T ι → Deployment T ι → Prop
  | step (l : Label T ι) (system : System T ι) (hstep : d.system.step l = some system) :
      DeploymentMove d (.step l) ⟨system, d.answers ++ d.system.answers l⟩
  | restart (i : ι) (procesorKey : Option Public) (ranAt : Nat) :
      DeploymentMove d (.restart i procesorKey ranAt)
        { d with system := d.system.restart i procesorKey ranAt }

theorem deployment_move {d' : Deployment T ι} {e : Incident T ι} (h : d.step e = some d') :
    DeploymentMove d e d' := by
  cases e with
  | step l =>
    obtain ⟨system, hstep, rfl⟩ := Option.map_eq_some_iff.mp h
    exact .step l system hstep
  | restart i procesorKey ranAt =>
    obtain rfl := Option.some.inj h
    exact .restart i procesorKey ranAt

/-- What every step of the system keeps, and every start of a node, holds in every state. -/
theorem deployment_invariant {I : System T ι → Prop}
    (h : Lts.ReachesBy Deployment.step C d₀ d) (h₀ : I d₀.system)
    (hstep : ∀ s l s', I s → s.step l = some s' → I s')
    (hrestart : ∀ s i procesorKey ranAt, I s → I (s.restart i procesorKey ranAt)) :
    I d.system := by
  apply h.invariant (I := fun d => I d.system) h₀
  intro d e d' hd _ hnext
  cases deployment_move hnext with
  | step l system hl => exact hstep _ l _ hd hl
  | restart i procesorKey ranAt => exact hrestart _ i procesorKey ranAt hd

/-- A restart does not touch the chain. -/
theorem chainReaches_of_deployment (h : Lts.ReachesBy Deployment.step C d₀ d) :
    ChainReaches d₀.system.chain d.system.chain := by
  apply deployment_invariant (I := fun s => ChainReaches d₀.system.chain s.chain) h
  · exact ChainReaches.refl _
  · intro s l s' hs hstep
    exact Lts.ReachesBy.trans hs (system_move hstep).chain_reaches
  · intro s i procesorKey ranAt hs
    exact hs

/-- What holds of all nodes, when one of them has changed. -/
theorem forall_nodes_update {P : Node T → Prop} {nodes : ι → Node T} {i : ι} {n : Node T}
    (hn : P n) (h : ∀ j, P (nodes j)) : ∀ j, P (Function.update nodes i n j) :=
  (Function.forall_update_iff nodes fun _ n => P n).mpr ⟨hn, fun j _ => h j⟩

/-- The invariant of every node, which finds its records as its last life has left them. -/
theorem nodeInv_deployment (h₀ : Booted d₀.system)
    (h : Lts.ReachesBy Deployment.step C d₀ d) (i : ι) :
    NodeInv d.system.chain (d.system.nodes i) := by
  revert i
  apply deployment_invariant (I := fun s => ∀ i, NodeInv s.chain (s.nodes i)) h h₀.nodeInv
  · intro s l s' hs hstep i
    exact (hs i).reaches ((Lts.ReachesBy.refl s).tail (C := fun _ _ => True) trivial hstep)
  · intro s j procesorKey ranAt hs
    exact forall_nodes_update (NodeInv.boot (hs j).db.records procesorKey ranAt) hs

end Deployment

end PolkadotOracle
