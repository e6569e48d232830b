import PolkadotOracle.Lib.Exec

/-! Calls of pallets, whatever their storage and their errors: who makes a call, how it stops, and
the checks that it makes. -/

namespace Frame

open Exec

inductive Origin (AccountId : Type)
  | root
  | signed (who : AccountId)
  | none

/-- Why a call stops: an error that it returns, or a panic. -/
inductive Fault (Error : Type)
  | badOrigin
  | module (error : Error)
  | panic (message : String)
deriving DecidableEq, Repr

variable {AccountId Error σ α : Type}

def ensureSigned : Origin AccountId → EStateM (Fault Error) σ AccountId
  | .signed who => pure who
  | _ => throw .badOrigin

def ensureNone : Origin AccountId → EStateM (Fault Error) σ Unit
  | .none => pure ()
  | _ => throw .badOrigin

/-- The signer, or nothing for the root. -/
def ensureSignedOrRoot : Origin AccountId → EStateM (Fault Error) σ (Option AccountId)
  | .root => pure none
  | .signed who => pure (some who)
  | .none => throw .badOrigin

def ensure (p : Prop) [Decidable p] (error : Error) : EStateM (Fault Error) σ Unit :=
  if p then pure () else throw (.module error)

/-- The value, or the given fault when there is none. -/
def orFault (fault : Fault Error) : Option α → EStateM (Fault Error) σ α
  | some a => pure a
  | none => throw fault

section Apply

variable (s : σ)

@[simp] theorem ensureSigned_signed (who : AccountId) :
    (ensureSigned (.signed who) : EStateM (Fault Error) σ AccountId) s = .ok who s := rfl

@[simp] theorem ensureNone_none :
    (ensureNone (.none : Origin AccountId) : EStateM (Fault Error) σ Unit) s = .ok () s := rfl

@[simp] theorem ensureSignedOrRoot_signed (who : AccountId) :
    (ensureSignedOrRoot (.signed who) : EStateM (Fault Error) σ (Option AccountId)) s =
      .ok (some who) s := rfl

@[simp] theorem ensure_apply (p : Prop) [Decidable p] (error : Error) :
    (ensure p error : EStateM (Fault Error) σ Unit) s =
      if p then .ok () s else .error (.module error) s := by
  unfold ensure
  split <;> rfl

@[simp] theorem orFault_some (fault : Fault Error) (a : α) :
    (orFault fault (some a) : EStateM (Fault Error) σ α) s = .ok a s := rfl

@[simp] theorem orFault_none (fault : Fault Error) :
    (orFault fault none : EStateM (Fault Error) σ α) s = .error fault s := rfl

end Apply

/-- The fault is an error that the call returns. -/
def Returned (e : Fault Error) : Prop := ∀ message, e ≠ .panic message

section Returned

theorem returned_module (error : Error) : Returned (.module error) := by
  intro message
  simp

theorem returned_badOrigin : Returned (.badOrigin : Fault Error) := by
  intro message
  simp

theorem ensureSigned_errors (origin : Origin AccountId) :
    ErrorsIn Returned (ensureSigned origin : EStateM (Fault Error) σ AccountId) := by
  cases origin with
  | signed who => exact errorsIn_pure who
  | root => exact errorsIn_throw returned_badOrigin
  | none => exact errorsIn_throw returned_badOrigin

theorem ensureNone_errors (origin : Origin AccountId) :
    ErrorsIn Returned (ensureNone origin : EStateM (Fault Error) σ Unit) := by
  cases origin with
  | none => exact errorsIn_pure ()
  | root => exact errorsIn_throw returned_badOrigin
  | signed who => exact errorsIn_throw returned_badOrigin

theorem ensure_errors (p : Prop) [Decidable p] (error : Error) :
    ErrorsIn Returned (ensure p error : EStateM (Fault Error) σ Unit) := by
  unfold ensure
  split
  · exact errorsIn_pure ()
  · exact errorsIn_throw (returned_module error)

theorem orFault_errors (error : Error) (a : Option α) :
    ErrorsIn Returned (orFault (.module error) a : EStateM (Fault Error) σ α) := by
  cases a with
  | some a => exact errorsIn_pure a
  | none => exact errorsIn_throw (returned_module error)

end Returned

end Frame
