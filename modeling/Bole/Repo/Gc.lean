import Bole.Postcard
import Bole.Repo.Policy

/-!
Garbage collection (`Repository::gc` in `src/repo/mod.rs`).

The mark phase follows the edges of snapshots, trees and overlays.  Negotiation also follows
those of policy roots, to the lattice, the rules and the parent root.

* `GcComplete`: what is reached along the edges of negotiation is marked or young, and the
  sweep can rewrite what is marked;
* `gc_keeps_reachable_iff`: a collection that returns `Ok` keeps what negotiation reaches
  exactly then;
* `marked_of_no_policy`: where no policy root is reached, everything reached is marked.
-/

namespace Bole

open Traverse

namespace Repository

/-- The roots of a collection: the ones it is given, then the ref targets. -/
def gcRoots (r : Repository) (extraRoots : List ObjectId) : List ObjectId :=
  extraRoots ++ r.refTargets

/-- `gc`. -/
def gc (L : Linked) (r : Repository) (extraRoots : List ObjectId) (graceSecs now : ℕ) :
    Result ℕ × Repository :=
  match markReachable L r.objects (r.gcRoots extraRoots) with
  | .error e => (.error e, r)
  | .ok reachable =>
      let (removed, objects) := r.objects.sweep L reachable graceSecs now
      (removed, { r with objects := objects })

/-- `x` is reached from the roots along the edges the mark phase follows. -/
def Marked (L : Linked) (r : Repository) (extraRoots : List ObjectId) : ObjectId → Prop :=
  ReachVia L r.objects markEdges (fun _ => false) (r.gcRoots extraRoots)

/-- Every stored object that negotiation reaches is marked, or loose and young; and the marked
objects can be rewritten. -/
structure GcComplete (L : Linked) (r : Repository) (extraRoots : List ObjectId)
    (graceSecs now : ℕ) : Prop where
  marked : ∀ x b, Closure L r.objects (r.gcRoots extraRoots) x →
    r.objects.getRaw L x = .ok (some b) →
    r.Marked L extraRoots x ∨ r.objects.Young graceSecs now x
  rewritten : ∀ marked : Finset ObjectId, (∀ x, x ∈ marked ↔ r.Marked L extraRoots x) →
    r.objects.RewriteSafe L marked

variable {L : Linked} {r : Repository} {extraRoots : List ObjectId} {graceSecs now removed : ℕ}

/-- The mark phase follows no edge that negotiation does not. -/
lemma Marked.closure {x : ObjectId} (h : r.Marked L extraRoots x) :
    Closure L r.objects (r.gcRoots extraRoots) x := by
  refine Reach.mono (fun _ h => h) (fun _ h => h) (fun y _ z hz => ?_) h
  rw [outEdges] at hz ⊢
  cases ho : r.objects.object L y with
  | none => simp [ho] at hz
  | some obj =>
      simp only [ho] at hz ⊢
      exact markEdges_subset obj hz

/-- A collection that returns `Ok` is a sweep with the marked objects. -/
lemma gc_ok (h : (r.gc L extraRoots graceSecs now).1 = .ok removed) :
    ∃ marked : Finset ObjectId, (∀ x, x ∈ marked ↔ r.Marked L extraRoots x) ∧
      (r.objects.sweep L marked graceSecs now).1 = .ok removed ∧
      (r.gc L extraRoots graceSecs now).2.objects =
        (r.objects.sweep L marked graceSecs now).2 := by
  rw [gc] at h ⊢
  cases hm : markReachable L r.objects (r.gcRoots extraRoots) with
  | error e => simp [hm] at h
  | ok marked =>
      simp only [hm] at h ⊢
      exact ⟨marked, mem_markReachable hm, h, rfl⟩

/-- **A collection that returns `Ok` keeps what negotiation reaches from its roots exactly
when all of it is marked or young and the sweep can rewrite what is marked.** -/
theorem gc_keeps_reachable_iff (hwf : r.objects.WF L)
    (h : (r.gc L extraRoots graceSecs now).1 = .ok removed) :
    (∀ x b, Closure L r.objects (r.gcRoots extraRoots) x →
        r.objects.getRaw L x = .ok (some b) →
        (r.gc L extraRoots graceSecs now).2.objects.getRaw L x = .ok (some b)) ↔
      r.GcComplete L extraRoots graceSecs now := by
  obtain ⟨marked, hmarked, hsweep, hobjects⟩ := gc_ok h
  rw [hobjects]
  constructor
  · intro hkeeps
    -- the marked objects are kept, so the rewrite was safe and the sweep dropped the rest
    have hsafe : r.objects.RewriteSafe L marked :=
      ObjectStore.rewriteSafe_of_sweep hwf hsweep fun x hx b hb =>
        hkeeps x b ((hmarked x).mp hx).closure hb
    refine ⟨fun x b hx hb => ?_, fun marked' hmarked' => ?_⟩
    · by_contra hn
      rw [← hmarked x] at hn
      exact ObjectStore.sweep_drops hwf hsweep hn b (hkeeps x b hx hb)
    · obtain rfl : marked' = marked := by
        ext x
        rw [hmarked', hmarked]
      exact hsafe
  · rintro ⟨hreach, hsafe⟩ x b hx hb
    refine ObjectStore.sweep_keeps hwf (hsafe marked hmarked) hsweep hb ?_
    rw [hmarked x]
    exact hreach x b hx hb

/-- Where no policy root is reached the two edge relations lead to the same objects. -/
lemma marked_of_no_policy
    (hno : ∀ y obj, r.objects.object L y = some obj → ∀ root, obj ≠ .policy (.root root))
    {x : ObjectId} (hx : Closure L r.objects (r.gcRoots extraRoots) x) :
    r.Marked L extraRoots x := by
  refine Reach.mono (fun _ h => h) (fun _ h => h) (fun y _ z hz => ?_) hx
  rw [outEdges] at hz ⊢
  cases ho : r.objects.object L y with
  | none => simp [ho] at hz
  | some obj =>
      simp only [ho] at hz ⊢
      rw [markEdges_eq (hno y obj ho)]
      exact hz

/-! ### A tagged tree -/

/-- A file, a tree that holds it, and a file nothing refers to. -/
def treeObjects : List Object :=
  [.blob (ascii "kept"),
    .tree ⟨(∅ : BTreeMap String TreeEntry).insert "a" ⟨Object.refId (.blob (ascii "kept")), .blob⟩⟩,
    .blob (ascii "garbage")]

/-- The crates with a codec for these objects. -/
def treeLinked : Linked := .over treeObjects

/-- An in-memory repository with a tag on the tree. -/
def treeRepo : Repository :=
  { memory with
    objects := .holding treeLinked treeObjects
    refs := ⟨(∅ : BTreeMap RefName Ref).insert ⟨"v1", RefName.valid_v1⟩
      (.tag ⟨Object.refId (treeObjects.getD 1 (.blob [])), 0, none⟩)⟩ }

lemma treeRepo_objects : treeRepo.objects = .holding treeLinked treeObjects := by
  rw [treeRepo]

/-- A collection of it deletes one object, and nothing that the tag reaches. -/
theorem gc_keeps_tagged_tree :
    (treeRepo.gc treeLinked [] 0 0).1 = .ok 1 ∧
      ∀ x b, Closure treeLinked treeRepo.objects (treeRepo.gcRoots []) x →
        treeRepo.objects.getRaw treeLinked x = .ok (some b) →
        (treeRepo.gc treeLinked [] 0 0).2.objects.getRaw treeLinked x =
          .ok (some b) := by
  have hgc : (treeRepo.gc treeLinked [] 0 0).1 = .ok 1 := by decide +kernel
  have hwf : treeRepo.objects.WF treeLinked := by
    rw [treeRepo_objects]
    exact ObjectStore.holding_wf treeLinked treeObjects
  refine ⟨hgc, (gc_keeps_reachable_iff hwf hgc).mpr ⟨fun x b hx _ => Or.inl ?_, fun _ _ => ?_⟩⟩
  · refine marked_of_no_policy (fun y obj hobj root => ?_) hx
    have hmem := ObjectStore.mem_of_object_over hobj
    simp only [treeObjects, List.mem_cons, List.not_mem_nil, or_false] at hmem
    rcases hmem with rfl | rfl | rfl <;> simp
  · rw [treeRepo_objects]
    exact ObjectStore.holding_rewriteSafe treeLinked treeObjects _

/-! ### A pinned policy root -/

/-- The lattice of a policy. -/
def policyLattice : Object := .policy (.lattice .twoPoint)

/-- Its rules. -/
def policyRules : Object := .policy (.ruleSet ⟨[]⟩)

def policyLatticeId : ObjectId := policyLattice.refId

/-- The root that names both. -/
def policyRootObject : Object :=
  .policy (.root ⟨policyLatticeId, policyRules.refId, none, []⟩)

def policyRootId : ObjectId := policyRootObject.refId

def policyObjects : List Object := [policyLattice, policyRules, policyRootObject]

/-- The crates with a codec for these objects. -/
def policyLinked : Linked := .over policyObjects

/-- An in-memory repository after the lattice and the rules are stored and the root is
pinned. -/
def policyRepo : Repository :=
  { memory with
    objects := .holding policyLinked policyObjects
    refs := ⟨(∅ : BTreeMap RefName Ref).insert policyRootRef (.tag ⟨policyRootId, 0, none⟩)⟩ }

lemma policyRepo_objects : policyRepo.objects = .holding policyLinked policyObjects := by
  rw [policyRepo]

lemma policyRepo_wf : policyRepo.objects.WF policyLinked := by
  rw [policyRepo_objects]
  exact ObjectStore.holding_wf policyLinked policyObjects

lemma policyRepo_gc : (policyRepo.gc policyLinked [] 0 0).1 = .ok 2 := by decide +kernel

/-- The lattice of a pinned policy root is deleted by the first collection. -/
theorem gc_deletes_policy_lattice :
    ¬ ∀ (L : Linked) (r : Repository) (extraRoots : List ObjectId) (graceSecs now removed : ℕ),
      r.objects.WF L → (r.gc L extraRoots graceSecs now).1 = .ok removed →
      ∀ x b, Closure L r.objects (r.gcRoots extraRoots) x →
        r.objects.getRaw L x = .ok (some b) →
        ∃ b', (r.gc L extraRoots graceSecs now).2.objects.getRaw L x = .ok (some b') := by
  intro h
  have hroot : Closure policyLinked policyRepo.objects (policyRepo.gcRoots []) policyRootId :=
    .root (by decide +kernel) rfl
  have hlattice : Closure policyLinked policyRepo.objects (policyRepo.gcRoots [])
      policyLatticeId := .step hroot (by decide +kernel) rfl
  obtain ⟨b, hb⟩ := h policyLinked policyRepo [] 0 0 2 policyRepo_wf policyRepo_gc
    policyLatticeId (Postcard.object policyLattice) hlattice (by decide +kernel)
  have hgone : (policyRepo.gc policyLinked [] 0 0).2.objects.getRaw policyLinked
      policyLatticeId = .ok none := by decide +kernel
  rw [hgone] at hb
  cases hb

end Repository

end Bole
