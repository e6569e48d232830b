import PolkadotOracle.Offchain.Progress

/-! The results within one node: from the tasks through the bounded channel to the listener and its
list, none is lost or duplicated, and the tasks and the listener do not block each other. -/

namespace PolkadotOracle

open Scale Sequence

variable {T : Config} {ι : Type}

/-- The id of the result that a task is about to send. -/
def Task.sends : Task → Option Bytes
  | .sending res => some res.jobId.val
  | _ => none

/-- The ids of the results that the tasks of a node have produced since its start. -/
def Node.producedIds (n : Node T) : List Bytes := n.history.produced.map fun res => res.jobId.val

/-- Each produced result is listed or will be, or its task is about to send it. -/
def Accounted (n : Node T) : Prop :=
  n.producedIds.Perm (n.results ++ n.tasks.filterMap Task.sends)

/-- A step of the listener, or of a task that has not ended. -/
def Node.works (n : Node T) : NodeLabel T → Bool
  | .task i _ => (n.tasks[i]?).any (· ≠ .ended)
  | .listener => true
  | _ => false

def Node.work (chain : State T) (n : Node T) (l : NodeLabel T) : Option (Node T) :=
  if n.works l then (n.step chain l).map Prod.fst else none

/-- How many steps a task and the listener take for the result of the task. -/
def Task.rank : Task → Nat
  | .spawned _ => 9
  | .processing _ => 8
  | .sending _ => 7
  | .ended => 0

def Node.rank (n : Node T) : Nat :=
  (n.tasks.map Task.rank).sum + (n.listener.rank + 6 * n.channel.length)

section Tasks

variable {chain : State T} {n n' : Node T} {calls : List Call} {i : Nat} {task : Task}
  {outcome : Option (Vec × UInt32)}

/-- A task sends its result when the channel has room, or moves on. -/
theorem Node.step_task (h : n.step chain (.task i outcome) = some (n', calls)) :
    ∃ task, n.tasks[i]? = some task ∧
      ((∃ res, task = .sending res ∧ n' = { n with
          channel := n.channel ++ [res]
          tasks := n.tasks.set i .ended }) ∨
        task.sends = none ∧ n' = { n with
          tasks := n.tasks.set i (processTask outcome task)
          history := n.history.afterTask (processTask outcome task) }) := by
  cases htask : n.tasks[i]? with
  | none => simp [Node.step, htask] at h
  | some task =>
    refine ⟨task, rfl, ?_⟩
    cases task with
    | sending res =>
      simp only [Node.step, htask] at h
      split at h
      · obtain ⟨rfl, -⟩ := Prod.mk.inj (Option.some.inj h)
        exact .inl ⟨res, rfl, rfl⟩
      · contradiction
    | _ =>
      obtain ⟨rfl, -⟩ := by
        simpa only [Node.step, htask, Option.some.injEq, Prod.mk.injEq] using h
      exact .inr ⟨rfl, rfl⟩

theorem History.afterTask_produced (h : History) (task : Task) :
    (h.afterTask task).produced.map (fun res => res.jobId.val) =
      h.produced.map (fun res => res.jobId.val) ++ task.sends.toList := by
  cases task <;> simp [History.afterTask, Task.sends]

theorem History.afterTask_finished (h : History) (task : Task) :
    (h.afterTask task).finished = h.finished := by
  cases task <;> rfl

/-- What the tasks send after one of them has moved on. -/
theorem sends_set (htask : n.tasks[i]? = some task) (task' : Task) :
    (task.sends.toList ++ (n.tasks.set i task').filterMap Task.sends).Perm
      (task'.sends.toList ++ n.tasks.filterMap Task.sends) := by
  have hperm := (cons_set_perm htask task').filterMap Task.sends
  cases hsends : task.sends <;> cases hsends' : task'.sends <;>
    simpa [List.filterMap_cons, hsends, hsends'] using hperm

end Tasks

section Work

variable {chain : State T} {n n' : Node T} {l : NodeLabel T} {calls : List Call}

theorem Accounted.boot (db : Db) (procesorKey : Option Public) (ranAt : Nat) :
    Accounted (Node.boot (T := T) db procesorKey ranAt) := by
  simp [Accounted, Node.boot, Node.producedIds, Node.results, Listener.current]

/-- No step loses a result or brings one twice. -/
theorem Accounted.step (h : Accounted n) (hstep : n.step chain l = some (n', calls)) :
    Accounted n' := by
  cases l with
  | task i outcome =>
    obtain ⟨task, htask, ⟨res, rfl, rfl⟩ | ⟨hsends, rfl⟩⟩ := Node.step_task hstep
    · have hperm := sends_set htask .ended
      simp only [Task.sends, Option.toList_some, Option.toList_none, List.nil_append,
        List.singleton_append] at hperm
      have hmoved : Node.results { n with
          channel := n.channel ++ [res]
          tasks := n.tasks.set i .ended } = n.results ++ [res.jobId.val] := by
        simp [Node.results]
      rw [Accounted, hmoved, List.append_assoc]
      exact h.trans (hperm.symm.append_left _)
    · have hperm := sends_set htask (processTask outcome task)
      rw [hsends, Option.toList_none, List.nil_append] at hperm
      have hproduced := n.history.afterTask_produced (processTask outcome task)
      have hresults : Node.results { n with
          tasks := n.tasks.set i (processTask outcome task)
          history := n.history.afterTask (processTask outcome task) } = n.results := by
        simp [Node.results, History.afterTask_finished]
      rw [Accounted, Node.producedIds, hproduced, hresults]
      refine (h.append_right _).trans ?_
      rw [List.append_assoc]
      exact (List.perm_append_comm.trans hperm.symm).append_left _
  | listener =>
    have hmove := node_move hstep
    have hsame := hmove.listener_rank.2
    have hrest : n'.tasks = n.tasks ∧ n'.producedIds = n.producedIds := by
      cases hmove <;> exact ⟨rfl, rfl⟩
    rw [Accounted, hsame, hrest.1, hrest.2]
    exact h
  | executor =>
    cases node_move hstep with
    | give i keyList hexec =>
      simpa [Accounted, Node.producedIds, Node.results, List.filterMap_cons, Task.sends] using h
    | _ => exact h
  | _ => cases node_move hstep <;> exact h

end Work

end PolkadotOracle
