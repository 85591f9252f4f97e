import Bole.Acl.Accessor

/-!
The trace of an access decision: `eval_cap` and `explain` of `src/acl/mod.rs`.

The trace goes through the terms of `can_read` and `can_write` on its own.

* `evalCap_read`, `evalCap_write`: its verdict is theirs.
-/

namespace Bole

/-- `render_scope`. -/
def renderScope (scope : Option ClearanceScope) : Option String :=
  scope.map fun s =>
    match s.kind with
    | .path => "path:" ++ s.glob
    | .timeline => "timeline:" ++ s.glob
    | .secret => "secret:" ++ s.glob

/-- `ClearanceEval`. -/
structure ClearanceEval where
  ceiling : Label
  scope : Option String
  scopeApplies : Bool
  grantsCapability : Bool
  dominates : Bool
  strictlyDominates : Bool
  decisive : Bool
deriving DecidableEq

/-- The three terms that qualify a clearance. -/
def ClearanceEval.qualifies (e : ClearanceEval) : Bool :=
  e.grantsCapability && e.scopeApplies && e.dominates

/-- `CapabilityTrace`. -/
structure CapabilityTrace where
  allowed : Bool
  confinedWriteDownBlock : Bool
  clearances : List ClearanceEval
deriving DecidableEq

/-- The first clearance that qualifies is marked. -/
def markDecisive : List ClearanceEval → List ClearanceEval
  | [] => []
  | e :: rest =>
      if e.qualifies then { e with decisive := true } :: rest else e :: markDecisive rest

namespace Accessor

/-- How a clearance fares. -/
def evalClearance (a : Accessor) (label : Label) (r : ResourceRef) (cap : Capability)
    (c : Clearance) : ClearanceEval where
  ceiling := c.ceiling
  scope := renderScope c.scope
  scopeApplies := Bole.scopeApplies c.scope r
  grantsCapability := c.cap.contains cap
  dominates := a.lattice.dominates c.ceiling label
  strictlyDominates := a.lattice.strictlyDominates c.ceiling label
  decisive := false

/-- The verdict and whether the confinement made it, from how the clearances fare. -/
def capVerdict (a : Accessor) (cap : Capability) (evals : List ClearanceEval) : Bool × Bool :=
  if !evals.any ClearanceEval.qualifies then (false, false)
  else if cap.contains .write && a.clearances.confined then
    if !evals.any fun e => e.qualifies && !e.strictlyDominates then (false, true)
    else (true, false)
  else (true, false)

/-- `eval_cap`. -/
def evalCap (a : Accessor) (label : Label) (r : ResourceRef) (cap : Capability) :
    CapabilityTrace :=
  let evals := a.clearances.clearances.map (a.evalClearance label r cap)
  let (allowed, block) := a.capVerdict cap evals
  ⟨allowed, block, if allowed then markDecisive evals else evals⟩

/-- `explain`. -/
def explain (a : Accessor) (label : Label) (r : ResourceRef) : CapabilityTrace × CapabilityTrace :=
  (a.evalCap label r .read, a.evalCap label r .write)

variable {a : Accessor} {label : Label} {r : ResourceRef} {cap : Capability}

lemma any_qualifies : (a.clearances.clearances.map (a.evalClearance label r cap)).any
      ClearanceEval.qualifies = a.clearances.clearances.any (a.grants cap label r) := by
  rw [List.any_map]
  rfl

/-- **The trace of a read ends with the verdict of `can_read`.** -/
lemma evalCap_read (a : Accessor) (label : Label) (r : ResourceRef) :
    (a.evalCap label r .read).allowed = a.canRead label r := by
  have hread : Capability.read.contains .write = false := by decide
  simp only [evalCap, capVerdict, any_qualifies, hread, Bool.false_and, Bool.false_eq_true,
    if_false, canRead]
  cases a.clearances.clearances.any (a.grants .read label r) with
  | true => rfl
  | false => rfl

/-- **The trace of a write ends with the verdict of `can_write`.** -/
lemma evalCap_write (a : Accessor) (label : Label) (r : ResourceRef) :
    (a.evalCap label r .write).allowed = a.canWrite label r := by
  have hwrite : Capability.write.contains .write = true := by decide
  have hlevel : ((a.clearances.clearances.map (a.evalClearance label r .write)).any fun e =>
      e.qualifies && !e.strictlyDominates) = a.clearances.clearances.any fun c =>
        a.grants .write label r c && !a.lattice.strictlyDominates c.ceiling label := by
    rw [List.any_map]
    rfl
  simp only [evalCap, capVerdict, any_qualifies, hlevel, hwrite, Bool.true_and, canWrite]
  cases a.clearances.clearances.any (a.grants .write label r) with
  | false => rfl
  | true =>
      cases a.clearances.confined with
      | false => rfl
      | true =>
          cases a.clearances.clearances.any fun c =>
            a.grants .write label r c && !a.lattice.strictlyDominates c.ceiling label with
          | false => rfl
          | true => rfl

end Accessor

end Bole
