import Bole.Refs.Store
import Bole.Repo.Graph

/-!
The repository (`src/repo/mod.rs`): its stores, its hooks and its audit trail.
-/

namespace Bole

/-! ### The audit trail -/

/-- `AuditDecision`. -/
inductive AuditDecision where
  | allowed
  | denied (reason : String)
  | approvalRequired (needed : ℕ) (reason : String)
deriving DecidableEq

/-- `AuditEvent::TimelineAdvance`. -/
structure AuditEvent where
  timeline : String
  actor : Option String
  oldHead : ObjectId
  newHead : ObjectId
  decision : AuditDecision
deriving DecidableEq

/-! ### The repository -/

/-- `Repository`.  The audit trail is what the installed sink has been given, if there is
one. -/
structure Repository where
  objects : ObjectStore
  refs : RefStore
  acls : AclBackend
  hooks : List HookSpec
  audit : Option (List AuditEvent)

/-- The object a ref points at. -/
def Ref.target : Ref → ObjectId
  | .tag t => t.target
  | .timeline t => t.head

namespace Repository

/-- `Repository::memory`. -/
def memory : Repository where
  objects := ⟨.memory ∅⟩
  refs := ⟨∅⟩
  acls := .shipped [] [] []
  hooks := []
  audit := none

/-- `audit`. -/
def record (r : Repository) (event : Option AuditEvent) : Repository :=
  match r.audit, event with
  | some log, some e => { r with audit := some (log ++ [e]) }
  | _, _ => r

/-- The targets of all refs, in the order of the listing. -/
def refTargets (r : Repository) : List ObjectId :=
  (r.refs.list "").filterMap fun n => (r.refs.get n).map Ref.target

end Repository

end Bole
