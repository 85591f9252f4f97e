import Bole.Repo.Gc

/-!
The health of the object graph (`scan_object_health` in `src/repo/mod.rs`).

* `closurePresent_eq`: the check of a push and the scan of a ref walk alike;
* `missingBelow_of_ok`: what a scan of one ref finds;
* `scanObjectHealth_exact`: what is reported of each ref.
-/

namespace Bole

open Traverse

/-- The visit of `scan_object_health`: a missing object ends the loop. -/
def healthVisit (L : Linked) (s : ObjectStore) (id : ObjectId) :
    Except (Result ObjectId) (List ObjectId × List ObjectId) :=
  match s.get L id with
  | .error e => .error (.error e)
  | .ok none => .error (.ok id)
  | .ok (some obj) => .ok (childEdges obj, [])

/-- The loop below one target: the first missing object that it comes to. -/
def missingBelow (L : Linked) (s : ObjectStore) (target : ObjectId) : Result (Option ObjectId) :=
  match traverse (fun _ => false) (healthVisit L s) (edgeFuel L s childEdges [target]) [target] ∅ []
    with
  | .error r => r.map some
  | .ok (some _) => .ok none
  | .ok none => .error (.panic "out of fuel")

namespace Repository

/-- The loop over the refs. -/
def scanRefs (L : Linked) (r : Repository) : List RefName → List RefName →
    List (RefName × ObjectId) → Result (List RefName × List (RefName × ObjectId))
  | [], dangling, broken => .ok (dangling, broken)
  | name :: rest, dangling, broken =>
      match r.refs.get name with
      | none => r.scanRefs L rest dangling broken
      | some v =>
          match missingBelow L r.objects v.target with
          | .error e => .error e
          | .ok none => r.scanRefs L rest dangling broken
          | .ok (some m) =>
              if m = v.target then r.scanRefs L rest (dangling ++ [name]) broken
              else r.scanRefs L rest dangling (broken ++ [(name, m)])

/-- `scan_object_health`. -/
def scanObjectHealth (L : Linked) (r : Repository) :
    Result (List RefName × List (RefName × ObjectId)) :=
  r.scanRefs L (r.refs.list "") [] []

end Repository

variable {L : Linked} {s : ObjectStore} {target : ObjectId}

/-! ### One target -/

/-- **Both loops walk alike**: a closure is present exactly if the scan finds nothing missing. -/
theorem closurePresent_eq (L : Linked) (s : ObjectStore) (target : ObjectId) :
    closurePresent L s target = (missingBelow L s target).map Option.isNone := by
  have hvisit : ∀ id, presentVisit L s id =
      (healthVisit L s id).mapError fun r => r.map fun _ => false := by
    intro id
    rw [presentVisit, healthVisit]
    cases s.get L id with
    | error e => rfl
    | ok o => cases o <;> rfl
  rw [closurePresent, missingBelow, traverse_mapError _ hvisit]
  cases traverse (fun _ => false) (healthVisit L s) (edgeFuel L s childEdges [target]) [target] ∅ []
    with
  | error r => cases r <;> rfl
  | ok o => cases o <;> rfl

lemma pushes_healthVisit : pushes (healthVisit L s) = outEdges L s childEdges := by
  funext id
  rw [pushes, healthVisit, outEdges, ObjectStore.object]
  cases s.get L id with
  | error e => rfl
  | ok o => cases o <;> rfl

/-- What the loop finds is missing, and in the closure. -/
lemma missingBelow_some {m : ObjectId} (h : missingBelow L s target = .ok (some m)) :
    Closure L s [target] m ∧ s.get L m = .ok none := by
  rw [missingBelow] at h
  split at h
  · next r ht =>
      obtain ⟨x, hx, hv⟩ := traverse_exit ht
      rw [pushes_healthVisit] at hx
      rw [healthVisit] at hv
      split at hv
      · cases hv
        cases h
      · next hget =>
          cases hv
          cases h
          exact ⟨hx, hget⟩
      · cases hv
  · cases h
  · cases h

/-- Where the loop finds nothing, every object of the closure reads. -/
lemma missingBelow_none (h : missingBelow L s target = .ok none) {x : ObjectId}
    (hx : Closure L s [target] x) : ∃ obj, s.get L x = .ok (some obj) := by
  have hpresent : closurePresent L s target = .ok true := by
    rw [closurePresent_eq, h]
    rfl
  obtain ⟨obj, hobj⟩ := Option.isSome_iff_exists.mp (closurePresent_true hpresent x hx)
  exact ⟨obj, ObjectStore.object_eq_some.mp hobj⟩

/-- Where something else is found missing, the target is there: it is looked at first. -/
lemma target_of_missingBelow {m : ObjectId} (h : missingBelow L s target = .ok (some m))
    (hne : m ≠ target) : ∃ obj, s.get L target = .ok (some obj) := by
  have hfirst : ∀ r, healthVisit L s target = .error r → r.map some = .ok (some m) := by
    intro r hr
    have hexit : Traverse.traverse (fun _ => false) (healthVisit L s)
        (edgeFuel L s childEdges [target]) [target] ∅ [] = .error r := by
      rw [edgeFuel, List.length_singleton, Nat.add_comm, Traverse.traverse, if_neg (by simp), hr]
    rw [missingBelow, hexit] at h
    exact h
  cases hget : s.get L target with
  | error e =>
      have hvisit := hfirst (.error e) (by rw [healthVisit, hget])
      cases hvisit
  | ok o =>
      cases o with
      | none =>
          have hvisit := hfirst (.ok target) (by rw [healthVisit, hget])
          exact absurd (Option.some.inj (Except.ok.inj hvisit)).symm hne
      | some obj => exact ⟨obj, rfl⟩

/-- A target that is missing is what is found. -/
lemma missingBelow_target (hget : s.get L target = .ok none) {found : Option ObjectId}
    (h : missingBelow L s target = .ok found) : found = some target := by
  cases found with
  | none =>
      obtain ⟨obj, hobj⟩ := missingBelow_none h (.root (List.mem_singleton_self _) rfl)
      rw [hget] at hobj
      cases hobj
  | some m =>
      by_contra hne
      obtain ⟨obj, hobj⟩ := target_of_missingBelow h fun heq => hne (congrArg some heq)
      rw [hget] at hobj
      cases hobj

/-! ### All refs -/

namespace Repository

variable {r : Repository} {n : RefName} {v : Ref}

/-- The loop reports each of the refs at most once, after those that it started with. -/
lemma scanRefs_ok {names dangling dangling' : List RefName}
    {broken broken' : List (RefName × ObjectId)}
    (h : r.scanRefs L names dangling broken = .ok (dangling', broken')) :
    (∃ found, dangling' = dangling ++ found ∧ found.Sublist names) ∧
      ∃ found, broken' = broken ++ found ∧ (found.map Prod.fst).Sublist names := by
  induction names generalizing dangling broken with
  | nil =>
      cases h
      exact ⟨⟨[], by simp, .slnil⟩, [], by simp, .slnil⟩
  | cons name rest ih =>
      have hpass (h : r.scanRefs L rest dangling broken = .ok (dangling', broken')) :
          (∃ found, dangling' = dangling ++ found ∧ found.Sublist (name :: rest)) ∧
            ∃ found, broken' = broken ++ found ∧
              (found.map Prod.fst).Sublist (name :: rest) := by
        obtain ⟨⟨d, hd, hsub⟩, b, hb, hsub'⟩ := ih h
        exact ⟨⟨d, hd, hsub.cons _⟩, b, hb, hsub'.cons _⟩
      rw [scanRefs] at h
      split at h
      · exact hpass h
      · split at h
        · cases h
        · exact hpass h
        · next m _ =>
            split_ifs at h
            · obtain ⟨⟨d, rfl, hsub⟩, b, hb, hsub'⟩ := ih h
              exact ⟨⟨name :: d, by simp, hsub.cons_cons _⟩, b, hb, hsub'.cons _⟩
            · obtain ⟨⟨d, hd, hsub⟩, b, rfl, hsub'⟩ := ih h
              exact ⟨⟨d, hd, hsub.cons _⟩, (name, m) :: b, by simp, hsub'.cons_cons _⟩

/-- **What the loop reports** of the refs with the given names. -/
lemma mem_scanRefs {names dangling dangling' : List RefName}
    {broken broken' : List (RefName × ObjectId)}
    (h : r.scanRefs L names dangling broken = .ok (dangling', broken')) :
    (∀ n ∈ names, ∀ v, r.refs.get n = some v →
        ∃ found, missingBelow L r.objects v.target = .ok found) ∧
      (∀ n, n ∈ dangling' ↔ n ∈ dangling ∨ n ∈ names ∧ ∃ v, r.refs.get n = some v ∧
        missingBelow L r.objects v.target = .ok (some v.target)) ∧
      ∀ n m, (n, m) ∈ broken' ↔ (n, m) ∈ broken ∨ n ∈ names ∧ ∃ v, r.refs.get n = some v ∧
        missingBelow L r.objects v.target = .ok (some m) ∧ m ≠ v.target := by
  induction names generalizing dangling broken with
  | nil =>
      cases h
      simp
  | cons name rest ih =>
      rw [scanRefs] at h
      cases hv : r.refs.get name with
      | none =>
          rw [hv] at h
          obtain ⟨hfound, hd, hb⟩ := ih h
          refine ⟨?_, fun n => ?_, fun n m => ?_⟩ <;> grind
      | some v =>
          rw [hv] at h
          dsimp only at h
          cases hm : missingBelow L r.objects v.target with
          | error e =>
              rw [hm] at h
              cases h
          | ok found =>
              rw [hm] at h
              cases found with
              | none =>
                  obtain ⟨hfound, hd, hb⟩ := ih h
                  refine ⟨?_, fun n => ?_, fun n m => ?_⟩ <;> grind
              | some m =>
                  dsimp only at h
                  split_ifs at h with heq
                  · obtain ⟨hfound, hd, hb⟩ := ih h
                    refine ⟨?_, fun n => ?_, fun n m => ?_⟩ <;> grind
                  · obtain ⟨hfound, hd, hb⟩ := ih h
                    refine ⟨?_, fun n => ?_, fun n m => ?_⟩ <;> grind

/-- **The scan is exact.**  A ref is dangling exactly if its target is missing, and broken exactly
if its target is there and some object of the closure is not; nothing is said of it exactly if the
closure is found present.  Nothing is said twice, and what is named is missing. -/
theorem scanObjectHealth_exact {dangling : List RefName} {broken : List (RefName × ObjectId)}
    (h : r.scanObjectHealth L = .ok (dangling, broken)) :
    dangling.Nodup ∧ (broken.map Prod.fst).Nodup ∧
      (∀ n, n ∈ dangling ↔ ∃ v, r.refs.get n = some v ∧ r.objects.get L v.target = .ok none) ∧
      (∀ n, (∃ m, (n, m) ∈ broken) ↔ ∃ v, r.refs.get n = some v ∧
        (∃ obj, r.objects.get L v.target = .ok (some obj)) ∧
          ∃ x, Closure L r.objects [v.target] x ∧ r.objects.get L x = .ok none) ∧
      (∀ n m, (n, m) ∈ broken → ∃ v, r.refs.get n = some v ∧ Closure L r.objects [v.target] m ∧
        r.objects.get L m = .ok none) ∧
      ∀ n v, r.refs.get n = some v →
        ((n ∉ dangling ∧ ∀ m, (n, m) ∉ broken) ↔
          closurePresent L r.objects v.target = .ok true) := by
  obtain ⟨⟨d, hd, hsub⟩, b, hb, hsub'⟩ := scanRefs_ok h
  obtain ⟨hfound, hdangling, hbroken⟩ := mem_scanRefs h
  rw [List.nil_append] at hd hb
  have hnodup := r.refs.nodup_list ""
  simp only [List.not_mem_nil, false_or] at hdangling hbroken
  have hlisted : ∀ n v, r.refs.get n = some v → n ∈ r.refs.list "" := fun n v hv =>
    RefStore.mem_list.mpr ⟨⟨v, hv⟩, rfl⟩
  refine ⟨hd ▸ hnodup.sublist hsub, hb ▸ hnodup.sublist hsub', fun n => ?_, fun n => ?_,
    fun n m hm => ?_, fun n v hv => ?_⟩
  · rw [hdangling]
    constructor
    · rintro ⟨-, v, hv, hmissing⟩
      exact ⟨v, hv, (missingBelow_some hmissing).2⟩
    · rintro ⟨v, hv, hget⟩
      obtain ⟨found, hf⟩ := hfound n (hlisted n v hv) v hv
      exact ⟨hlisted n v hv, v, hv, by rw [hf, missingBelow_target hget hf]⟩
  · constructor
    · rintro ⟨m, hm⟩
      obtain ⟨-, v, hv, hmissing, hne⟩ := (hbroken n m).mp hm
      obtain ⟨hclosure, hget⟩ := missingBelow_some hmissing
      exact ⟨v, hv, target_of_missingBelow hmissing hne, m, hclosure, hget⟩
    · rintro ⟨v, hv, ⟨obj, hobj⟩, x, hx, hget⟩
      obtain ⟨found, hf⟩ := hfound n (hlisted n v hv) v hv
      cases found with
      | none =>
          obtain ⟨obj', hobj'⟩ := missingBelow_none hf hx
          rw [hget] at hobj'
          cases hobj'
      | some m =>
          refine ⟨m, (hbroken n m).mpr ⟨hlisted n v hv, v, hv, hf, ?_⟩⟩
          rintro rfl
          rw [(missingBelow_some hf).2] at hobj
          cases hobj
  · obtain ⟨-, v, hv, hmissing, -⟩ := (hbroken n m).mp hm
    exact ⟨v, hv, missingBelow_some hmissing⟩
  · obtain ⟨found, hf⟩ := hfound n (hlisted n v hv) v hv
    rw [closurePresent_eq, hf]
    cases found with
    | none =>
        refine iff_of_true ⟨fun hn => ?_, fun m hm => ?_⟩ rfl
        · obtain ⟨-, w, hw, hmissing⟩ := (hdangling n).mp hn
          obtain rfl := Option.some.inj (hw.symm.trans hv)
          rw [hf] at hmissing
          cases hmissing
        · obtain ⟨-, w, hw, hmissing, -⟩ := (hbroken n m).mp hm
          obtain rfl := Option.some.inj (hw.symm.trans hv)
          rw [hf] at hmissing
          cases hmissing
    | some m =>
        refine iff_of_false ?_ (by simp [Except.map])
        rintro ⟨hn, hb⟩
        by_cases heq : m = v.target
        · exact hn ((hdangling n).mpr ⟨hlisted n v hv, v, hv, heq ▸ hf⟩)
        · exact hb m ((hbroken n m).mpr ⟨hlisted n v hv, v, hv, hf, heq⟩)

end Repository

/-! ### A ref of each kind -/

namespace Health

def file : Object := .blob (ascii "hi")
def lost : Object := .blob (ascii "lost")

/-- A tree with one file. -/
def treeOf (o : Object) : Object :=
  .tree ⟨(∅ : BTreeMap String TreeEntry).insert "a" ⟨o.refId, .blob⟩⟩

def objects : List Object := [file, lost, treeOf file, treeOf lost]

/-- Everything is stored but the lost file. -/
def store : ObjectStore :=
  ⟨.memory ((∅ : BTreeMap ObjectId Bytes).insertMany
    ([file, treeOf file, treeOf lost].map fun o => (o.refId, Postcard.object o)))⟩

def main : RefName := ⟨"main", RefName.valid_main⟩
def feature : RefName := ⟨"feature", RefName.valid_feature⟩
def tag : RefName := ⟨"v1", RefName.valid_v1⟩

/-- A ref on a whole tree, one on a torn one, and one on the lost file. -/
def repo : Repository :=
  { Repository.memory with
    objects := store
    refs := ⟨(((∅ : BTreeMap RefName Ref).insert main (.tag ⟨(treeOf file).refId, 0, none⟩)).insert
      feature (.tag ⟨(treeOf lost).refId, 0, none⟩)).insert tag (.tag ⟨lost.refId, 0, none⟩)⟩ }

lemma evaluated : (repo.scanObjectHealth (.over objects) = .ok ([tag], [(feature, lost.refId)])) ∧
    repo.refs.get main = some (.tag ⟨(treeOf file).refId, 0, none⟩) ∧
    main ∉ [tag] ∧ ∀ p ∈ [(feature, lost.refId)], p.1 ≠ main := by
  decide +kernel

end Health

open Health in
/-- Of the three refs the whole one is not reported, and its closure is present. -/
theorem scanObjectHealth_main :
    closurePresent (.over objects) repo.objects (treeOf file).refId = .ok true := by
  obtain ⟨hscan, hmain, hdangling, hbroken⟩ := evaluated
  exact ((Repository.scanObjectHealth_exact hscan).2.2.2.2.2 main _ hmain).mp
    ⟨hdangling, fun m hm => hbroken _ hm rfl⟩

end Bole
