import Bole.Acl.Rules

/-!
Clearances and the credential they make up (`src/acl/clearance.rs`, `src/acl/mod.rs`).

* `canRead_of_extends`: granting clearances takes no reading right away;
* `exists_grants_of_canWrite`: whoever may write holds a clearance that grants it.
-/

namespace Bole

/-- `Capability`: a set of flags. -/
structure Capability where
  bits : UInt8
deriving DecidableEq

namespace Capability

/-- `READ`. -/
def read : Capability := ⟨0b01⟩

/-- `WRITE`. -/
def write : Capability := ⟨0b10⟩

/-- `READ | WRITE`. -/
def readWrite : Capability := ⟨0b11⟩

/-- `contains`. -/
def contains (a b : Capability) : Bool := decide (a.bits &&& b.bits = b.bits)

end Capability

/-- `ResourceRef`: the resource being checked. -/
structure ResourceRef where
  kind : ResourceKind
  name : String
deriving DecidableEq

/-- `ClearanceScope`: the kind and the glob a clearance is restricted to. -/
structure ClearanceScope where
  kind : ResourceKind
  glob : String
deriving DecidableEq

/-- `Clearance`. -/
structure Clearance where
  ceiling : Label
  cap : Capability
  scope : Option ClearanceScope
deriving DecidableEq

/-- `ClearanceSet`. -/
structure ClearanceSet where
  clearances : List Clearance
  confined : Bool
deriving DecidableEq

/-- `scope_applies`. -/
def scopeApplies (scope : Option ClearanceScope) (r : ResourceRef) : Bool :=
  match scope with
  | none => true
  | some s => decide (s.kind = r.kind) && globMatches s.glob r.name

/-- `Accessor`. -/
structure Accessor where
  lattice : LabelLattice
  rules : LabelRuleSet
  clearances : ClearanceSet
  actor : Option String

namespace Accessor

/-- `Accessor::new`. -/
def new : Accessor := ⟨.twoPoint, ⟨[]⟩, ⟨[], false⟩, none⟩

/-- `Accessor::from_parts`. -/
def fromParts (lattice : LabelLattice) (rules : LabelRuleSet) (clearances : ClearanceSet) :
    Accessor := ⟨lattice, rules, clearances, none⟩

/-- `Accessor::privileged`. -/
def privileged : Accessor :=
  ⟨.twoPoint, ⟨[]⟩, ⟨[⟨LabelLattice.twoPoint.top, .read, none⟩], false⟩, none⟩

/-- The lowering of `with_path_role` and `with_timeline_role`: a protecting rule, and a
clearance with the scope of the role. -/
def withRole (a : Accessor) (kind : ResourceKind) (glob : String) (cap : Capability) : Accessor :=
  { a with
    rules := ⟨a.rules.rules ++ [⟨kind, glob, .protected_⟩]⟩
    clearances := { a.clearances with
      clearances := a.clearances.clearances ++ [⟨.protected_, cap, some ⟨kind, glob⟩⟩] } }

/-- `with_path_role`. -/
def withPathRole (a : Accessor) (glob : String) (cap : Capability) : Accessor :=
  a.withRole .path glob cap

/-- `with_timeline_role`. -/
def withTimelineRole (a : Accessor) (pattern : String) (cap : Capability) : Accessor :=
  a.withRole .timeline pattern cap

/-- `has_write_capability`. -/
def hasWriteCapability (a : Accessor) : Bool :=
  a.clearances.clearances.any fun c => c.cap.contains .write

/-- Whether one clearance grants a capability on a resource with the given label. -/
def grants (a : Accessor) (cap : Capability) (label : Label) (r : ResourceRef) (c : Clearance) :
    Bool :=
  c.cap.contains cap && scopeApplies c.scope r && a.lattice.dominates c.ceiling label

/-- `can_read`. -/
def canRead (a : Accessor) (label : Label) (r : ResourceRef) : Bool :=
  a.clearances.clearances.any (a.grants .read label r)

/-- `can_write`: a confined actor writes only at its own level. -/
def canWrite (a : Accessor) (label : Label) (r : ResourceRef) : Bool :=
  if !(a.clearances.clearances.any (a.grants .write label r)) then false
  else if a.clearances.confined then
    a.clearances.clearances.any fun c =>
      a.grants .write label r c && !a.lattice.strictlyDominates c.ceiling label
  else true

/-- `a` holds every clearance of `b`, over the same lattice. -/
def Extends (a b : Accessor) : Prop :=
  a.lattice = b.lattice ∧ b.clearances.clearances ⊆ a.clearances.clearances

/-- **Granting clearances takes no reading right away.** -/
lemma canRead_of_extends {a b : Accessor} (h : a.Extends b) {label : Label} {r : ResourceRef}
    (hb : b.canRead label r = true) : a.canRead label r = true := by
  obtain ⟨hl, hsub⟩ := h
  rw [canRead, List.any_eq_true] at hb ⊢
  obtain ⟨c, hc, hg⟩ := hb
  refine ⟨c, hsub hc, ?_⟩
  rw [grants] at hg ⊢
  rw [hl]
  exact hg

/-- Whoever may write holds a clearance that grants it. -/
lemma exists_grants_of_canWrite {a : Accessor} {label : Label} {r : ResourceRef}
    (h : a.canWrite label r = true) :
    ∃ c ∈ a.clearances.clearances, a.grants .write label r c = true := by
  rw [← List.any_eq_true]
  by_contra hn
  rw [Bool.not_eq_true] at hn
  simp [canWrite, hn] at h

end Accessor

end Bole
