import Bole.Repo.GitRoundTrip
import Bole.Repo.ImportSystem

/-!
The order of a history for git exchange: `collect_topo` of `src/repo/git_projection.rs`,
`topo_commits` and the loop over `translate_commit` of `src/repo/git_import.rs`.

* `isPostOrder_topoCommits`, `topoCommits_ok_iff`: the commits that the heads reach, each once,
  parents first, exactly where all of them can be read;
* `parentsFound_of_isPostOrder`: in such an order every commit finds its parents translated;
* `history_ordered`: **both searches put parents first**, and no translation is without a parent.
-/

namespace Bole

open PostOrder

variable {L : Linked} {repo : Repository} {starts : List ObjectId} {g : GitRepo}
  {mtime : Option ℕ} {dryRun : Bool} {heads : List GitId}

/-! ### The commits of a git repository -/

/-- A commit and one of its parents. -/
def CommitParent (g : GitRepo) (x p : GitId) : Prop := p ∈ commitParents g x

/-- A commit and one it descends from. -/
def CommitDescends (g : GitRepo) : GitId → GitId → Prop :=
  Relation.ReflTransGen (CommitParent g)

lemma topoCommits_eq_ok {fuel : ℕ} {ordered : List GitId} :
    topoCommits g fuel heads = .ok ordered ↔
      postOrder (unseenParents g) fuel (heads.reverse.map (·, false)) [] [] =
        .ok (some ordered) := by
  rw [topoCommits, topoLoop_eq, ← List.map_reverse]
  split <;> simp_all

/-- **What the heads descend from, parents first.** -/
theorem isPostOrder_topoCommits (hacyclic : ∀ x, ¬ Relation.TransGen (CommitParent g) x x)
    {fuel : ℕ} {ordered : List GitId} (h : topoCommits g fuel heads = .ok ordered) :
    IsPostOrder (CommitParent g) heads ordered := by
  have hpost : IsPostOrder (Edge (commitParents g)) heads.reverse ordered :=
    postOrder_isPostOrder hacyclic (fun _ _ _ hys => pushes_unseenParents hys)
      (topoCommits_eq_ok.mp h)
  obtain ⟨hnodup, hmem, hsorted⟩ := hpost
  refine ⟨hnodup, fun x => ?_, hsorted⟩
  rw [hmem]
  simp only [List.mem_reverse]
  rfl

/-- A commit of the order was read. -/
lemma read_of_mem_topoCommits {fuel : ℕ} {ordered : List GitId}
    (h : topoCommits g fuel heads = .ok ordered) {x : GitId} (hx : x ∈ ordered) :
    ∃ c, g.findObject x >>= GitObject.tryIntoCommit = .ok c := by
  have hpushed := push_of_mem_postOrder ?_ ?_ (topoCommits_eq_ok.mp h) x hx
  · obtain ⟨seen, ys, hys⟩ := hpushed
    cases hc : g.findObject x >>= GitObject.tryIntoCommit with
    | ok c => exact ⟨c, rfl⟩
    | error msg =>
        rw [unseenParents, hc] at hys
        cases hys
  · simp
  · simp

/-- **The search succeeds** exactly where every commit can be read. -/
theorem topoCommits_ok_iff (hacyclic : ∀ x, ¬ Relation.TransGen (CommitParent g) x x)
    (hfinite : {x | ∃ r ∈ heads, CommitDescends g r x}.Finite) :
    ∃ turns, ∀ fuel, turns ≤ fuel → ((∃ ordered, topoCommits g fuel heads = .ok ordered) ↔
      ∀ r ∈ heads, ∀ x, CommitDescends g r x →
        ∃ c, g.findObject x >>= GitObject.tryIntoCommit = .ok c) := by
  have hmem : ∀ x, x ∈ hfinite.toFinset ↔ ∃ r ∈ heads, CommitDescends g r x := by simp
  refine ⟨2 * heads.length + ∑ x ∈ hfinite.toFinset, 2 * parentCount g x, fun fuel hfuel => ?_⟩
  constructor
  · rintro ⟨ordered, h⟩ r hr x hpath
    exact read_of_mem_topoCommits h
      (((isPostOrder_topoCommits hacyclic h).mem_iff x).mpr ⟨r, hr, hpath⟩)
  · intro hread
    have hclosed : ∀ x ∈ hfinite.toFinset, ∀ p ∈ commitParents g x, p ∈ hfinite.toFinset := by
      intro x hx p hp
      obtain ⟨r, hr, hpath⟩ := (hmem x).mp hx
      exact (hmem p).mpr ⟨r, hr, hpath.tail hp⟩
    rcases topoCommits_cases hclosed (fun x hx => (hmem x).mpr ⟨x, hx, .refl⟩) hfuel with
      ⟨ordered, h, -⟩ | ⟨e, x, hx, -, he⟩
    · exact ⟨ordered, h⟩
    · obtain ⟨r, hr, hpath⟩ := (hmem x).mp hx
      obtain ⟨c, hc⟩ := hread r hr x hpath
      rw [hc] at he
      cases he

/-! ### The loop over the commits -/

/-- What is recorded stays recorded. -/
def IdentityMap.Covers (m m' : IdentityMap) : Prop :=
  ∀ y, (m.boleForGit y).isSome → (m'.boleForGit y).isSome

lemma IdentityMap.Covers.trans {a b c : IdentityMap} (h : a.Covers b) (h' : b.Covers c) :
    a.Covers c := fun y hy => h' y (h y hy)

variable {x : GitId} {t t' : Translation}

/-- The end of a translation records, if it succeeds. -/
lemma Translation.write_covers {obj : Object} {count : ImportSummary → ImportSummary}
    {r : Result ObjectId} (h : t.write L mtime dryRun x obj count = (r, t')) :
    t.map.Covers t'.map ∧ ((∃ id, r = .ok id) → (t'.map.boleForGit x).isSome) := by
  rw [Translation.write] at h
  split at h
  · obtain ⟨rfl, rfl⟩ := Prod.mk.inj h
    exact ⟨fun _ hy => hy, nofun⟩
  · obtain ⟨rfl, rfl⟩ := Prod.mk.inj h
    refine ⟨fun y hy => ?_, fun _ => ?_⟩
    · dsimp only
      rw [IdentityMap.boleForGit_insert]
      split_ifs
      · rfl
      · exact hy
    · dsimp only
      rw [IdentityMap.boleForGit_insert, if_pos rfl]
      rfl

lemma translateBlob_covers {r : Result ObjectId}
    (h : translateBlob L g mtime dryRun x t = (r, t')) : t.map.Covers t'.map := by
  rw [translateBlob] at h
  split at h
  · obtain ⟨-, rfl⟩ := Prod.mk.inj h
    exact fun _ hy => hy
  · split at h
    · obtain ⟨-, rfl⟩ := Prod.mk.inj h
      exact fun _ hy => hy
    · exact (Translation.write_covers h).1

lemma translateEntries_covers {subtree : GitId → Translation → Result ObjectId × Translation}
    (hsub : ∀ y u r u', subtree y u = (r, u') → u.map.Covers u'.map)
    {entries : List (Except String GitEntry)} {acc : BTreeMap String TreeEntry}
    {r : Result (BTreeMap String TreeEntry)}
    (h : translateEntries L g mtime dryRun subtree entries acc t = (r, t')) :
    t.map.Covers t'.map := by
  induction entries generalizing acc t with
  | nil =>
      obtain ⟨-, rfl⟩ := Prod.mk.inj h
      exact fun _ hy => hy
  | cons e rest ih =>
      cases e with
      | error msg =>
          obtain ⟨-, rfl⟩ := Prod.mk.inj h
          exact fun _ hy => hy
      | ok entry =>
          rw [translateEntries] at h
          cases hmode : entry.mode with
          | commit =>
              simp only [hmode] at h
              exact ih h
          | tree =>
              simp only [hmode] at h
              split at h
              · next u hu =>
                  obtain ⟨-, rfl⟩ := Prod.mk.inj h
                  exact hsub _ _ _ _ hu
              · next u hu => exact (hsub _ _ _ _ hu).trans (ih h)
          | blob =>
              simp only [hmode] at h
              split at h
              · next u hu =>
                  obtain ⟨-, rfl⟩ := Prod.mk.inj h
                  exact translateBlob_covers hu
              · next u hu => exact (translateBlob_covers hu).trans (ih h)

lemma translateTree_covers {depth : ℕ} {r : Result ObjectId}
    (h : translateTree L g mtime dryRun depth x t = (r, t')) : t.map.Covers t'.map := by
  induction depth generalizing x t r t' with
  | zero =>
      obtain ⟨-, rfl⟩ := Prod.mk.inj h
      exact fun _ hy => hy
  | succ depth ih =>
      rw [translateTree] at h
      split at h
      · obtain ⟨-, rfl⟩ := Prod.mk.inj h
        exact fun _ hy => hy
      · split at h
        · obtain ⟨-, rfl⟩ := Prod.mk.inj h
          exact fun _ hy => hy
        · split at h
          · next u hu =>
              obtain ⟨-, rfl⟩ := Prod.mk.inj h
              exact translateEntries_covers (fun _ _ _ _ hv => ih hv) hu
          · next u hu =>
              have hentries := translateEntries_covers (fun _ _ _ _ hv => ih hv) hu
              exact hentries.trans (Translation.write_covers h).1

/-- A commit that is translated is recorded. -/
lemma translateCommit_covers {depth : ℕ} {r : Result ObjectId}
    (h : translateCommit L g mtime dryRun depth x t = (r, t')) :
    t.map.Covers t'.map ∧ ((∃ id, r = .ok id) → (t'.map.boleForGit x).isSome) := by
  rw [translateCommit] at h
  split at h
  · next existing hrecorded =>
      obtain ⟨-, rfl⟩ := Prod.mk.inj h
      exact ⟨fun _ hy => hy, fun _ => by rw [hrecorded]; rfl⟩
  have hfailed : ∀ {e : Error} {u : Translation}, t.map.Covers u.map → (.error e, u) = (r, t') →
      t.map.Covers t'.map ∧ ((∃ id, r = .ok id) → (t'.map.boleForGit x).isSome) := by
    rintro e u hu h
    obtain ⟨rfl, rfl⟩ := Prod.mk.inj h
    refine ⟨hu, fun hok => ?_⟩
    obtain ⟨id, hok⟩ := hok
    cases hok
  split at h
  · exact hfailed (fun _ hy => hy) h
  split at h
  · exact hfailed (fun _ hy => hy) h
  split at h
  · next u hu => exact hfailed (translateTree_covers hu) h
  next u hu =>
  split at h
  · exact hfailed (translateTree_covers hu) h
  split at h
  · exact hfailed (translateTree_covers hu) h
  obtain ⟨hcovers, hrecorded⟩ := Translation.write_covers h
  exact ⟨(translateTree_covers hu).trans hcovers, hrecorded⟩

/-- What the loop has passed is recorded. -/
lemma translateCommits_covers {depth : ℕ} {commits : List GitId}
    (h : translateCommits L g mtime dryRun depth commits t = (.ok (), t')) :
    t.map.Covers t'.map ∧ ∀ y ∈ commits, (t'.map.boleForGit y).isSome := by
  induction commits generalizing t with
  | nil =>
      obtain ⟨-, rfl⟩ := Prod.mk.inj h
      exact ⟨fun _ hy => hy, fun y hy => absurd hy List.not_mem_nil⟩
  | cons y rest ih =>
      rw [translateCommits] at h
      split at h
      · cases h
      · next id u hu =>
          obtain ⟨hcovers, hrecorded⟩ := translateCommit_covers hu
          obtain ⟨hrest, hall⟩ := ih h
          refine ⟨hcovers.trans hrest, fun z hz => ?_⟩
          rcases List.mem_cons.mp hz with rfl | hz
          · exact hrest z (hrecorded ⟨id, rfl⟩)
          · exact hall z hz

/-- Where `translate_commit` looks the parents up, at any turn of the loop, all are translated. -/
def ParentsFound (L : Linked) (g : GitRepo) (mtime : Option ℕ) (dryRun : Bool) (depth : ℕ)
    (ordered : List GitId) (t : Translation) : Prop :=
  ∀ before x after t₁ commit treeOid root u, ordered = before ++ x :: after →
    translateCommits L g mtime dryRun depth before t = (.ok (), t₁) →
    g.findObject x >>= GitObject.tryIntoCommit = .ok commit → commit.treeId = .ok treeOid →
    translateTree L g mtime dryRun depth treeOid t₁ = (.ok root, u) →
      ∃ parents, translateParents u.map commit.parentIds = .ok parents

lemma translateParents_ok {m : IdentityMap} {pids : List GitId}
    (h : ∀ p ∈ pids, (m.boleForGit p).isSome) :
    ∃ parents, translateParents m pids = .ok parents := by
  induction pids with
  | nil => exact ⟨[], rfl⟩
  | cons p rest ih =>
      obtain ⟨id, hid⟩ := Option.isSome_iff_exists.mp (h p List.mem_cons_self)
      obtain ⟨parents, hparents⟩ := ih fun q hq => h q (List.mem_cons_of_mem _ hq)
      refine ⟨id :: parents, ?_⟩
      rw [translateParents, hid, hparents]
      rfl

/-- **No commit is without a translated parent** in an order that has parents first. -/
theorem parentsFound_of_isPostOrder {ordered : List GitId}
    (h : IsPostOrder (CommitParent g) heads ordered) (depth : ℕ) (t : Translation) :
    ParentsFound L g mtime dryRun depth ordered t := by
  intro before x after t₁ commit treeOid root u hsplit hbefore hcommit _ htree
  refine translateParents_ok fun p hp => translateTree_covers htree p ?_
  have hparent : CommitParent g x p := by
    rw [CommitParent, commitParents, hcommit]
    exact hp
  exact (translateCommits_covers hbefore).2 p (h.sorted before x after hsplit p hparent)

/-- **The order of a history.**  On snapshots without cycles, among them missing ones and repeated
parents, `collect_topo` succeeds exactly if all that the starts reach can be read, with each
reached id once and parents first.  The same holds of `topo_commits` on finitely many commits, and
then the loop over its result finds every parent translated. -/
theorem history_ordered (hsnapshots : ∀ x, ¬ Relation.TransGen (Parent L repo.objects) x x)
    (hcommits : ∀ x, ¬ Relation.TransGen (CommitParent g) x x)
    (hfinite : {x | ∃ r ∈ heads, CommitDescends g r x}.Finite) :
    (((∃ ordered, collectTopo L repo.objects starts = .ok ordered) ↔
        ∀ r ∈ starts, ∀ x, Descends L repo.objects r x → ∃ o, repo.objects.get L x = .ok o) ∧
      ∀ ordered, collectTopo L repo.objects starts = .ok ordered →
        IsPostOrder (Parent L repo.objects) starts ordered) ∧
    (∃ turns, ∀ fuel, turns ≤ fuel → ((∃ ordered, topoCommits g fuel heads = .ok ordered) ↔
      ∀ r ∈ heads, ∀ x, CommitDescends g r x →
        ∃ c, g.findObject x >>= GitObject.tryIntoCommit = .ok c)) ∧
    ∀ fuel ordered, topoCommits g fuel heads = .ok ordered →
      IsPostOrder (CommitParent g) heads ordered ∧
        ∀ mtime dryRun depth t, ParentsFound L g mtime dryRun depth ordered t := by
  refine ⟨⟨collectTopo_ok_iff hsnapshots, fun ordered h => isPostOrder_collectTopo hsnapshots h⟩,
    topoCommits_ok_iff hcommits hfinite, fun fuel ordered h => ?_⟩
  have hordered := isPostOrder_topoCommits hcommits h
  exact ⟨hordered, fun mtime dryRun depth t => parentsFound_of_isPostOrder hordered depth t⟩

/-! ### Two commits and their snapshots -/

namespace ImportSystem

/-- A repository with the two snapshots. -/
def historyRepo : Repository :=
  { Repository.memory with objects := .holding linked objects }

lemma history_parents :
    snapshotParents linked historyRepo.objects second.refId = .ok [first.refId] ∧
      snapshotParents linked historyRepo.objects first.refId = .ok [] := by
  decide +kernel

lemma get_of_snapshotParents {id : ObjectId} {ids : List ObjectId}
    (h : snapshotParents linked historyRepo.objects id = .ok ids) :
    ∃ o, historyRepo.objects.get linked id = .ok o := by
  cases hget : historyRepo.objects.get linked id with
  | ok o => exact ⟨o, rfl⟩
  | error e =>
      rw [snapshotParents_eq_error.mpr hget] at h
      cases h

/-- Only the first has children here, and it has no parents. -/
lemma parent_history {x y : ObjectId} (h : Parent linked historyRepo.objects x y) :
    x ≠ first.refId ∧ y = first.refId := by
  refine ⟨?_, ?_⟩
  · rintro rfl
    obtain ⟨ys, hys, hy⟩ := edge_snapshotParents.mpr h
    rw [← Except.ok.inj (history_parents.2.symm.trans hys)] at hy
    cases hy
  · obtain ⟨snap, hsnap, hy⟩ := h
    have hmem := ObjectStore.mem_of_object_over hsnap
    simp only [objects, List.mem_cons, List.not_mem_nil, or_false, file, tree, first, second,
      reduceCtorEq, false_or, Object.snapshot.injEq] at hmem
    rcases hmem with rfl | rfl
    · cases hy
    · exact List.mem_singleton.mp hy

lemma commitParent_git {x p : GitId} (h : CommitParent (git secondId) x p) :
    x ≠ firstId ∧ p = firstId := by
  rw [CommitParent, commitParents, git] at h
  dsimp only at h
  cases ho : findObject x with
  | error e =>
      rw [ho] at h
      cases h
  | ok o =>
      rw [ho] at h
      obtain ⟨rfl, rfl⟩ | ⟨rfl, rfl⟩ | ⟨rfl, rfl⟩ | ⟨rfl, rfl⟩ := findObject_cases ho
      · cases h
      · cases h
      · cases h
      · exact ⟨by decide, List.mem_singleton.mp h⟩

/-- A relation into one node that has no successor has no cycles. -/
lemma acyclic_of_single {α : Type} {r : α → α → Prop} {a : α} (h : ∀ x y, r x y → x ≠ a ∧ y = a)
    (x : α) : ¬ Relation.TransGen r x x := by
  intro hpath
  obtain ⟨y, hxy, -⟩ := Relation.TransGen.head'_iff.mp hpath
  obtain ⟨z, -, hzx⟩ := Relation.TransGen.tail'_iff.mp hpath
  exact (h x y hxy).1 (h z x hzx).2

/-- Both histories are ordered. -/
theorem history_ordered_second :
    (∃ ordered, collectTopo linked historyRepo.objects [second.refId] = .ok ordered ∧
      IsPostOrder (Parent linked historyRepo.objects) [second.refId] ordered) ∧
    ∃ fuel ordered, topoCommits (git secondId) fuel [secondId] = .ok ordered ∧
      IsPostOrder (CommitParent (git secondId)) [secondId] ordered ∧
        ParentsFound linked (git secondId) none false 8 ordered
          ⟨historyRepo.objects, .new, .default⟩ := by
  have hreached : ∀ {α : Type} {r : α → α → Prop} {a b x : α}, (∀ x y, r x y → x ≠ a ∧ y = a) →
      Relation.ReflTransGen r b x → x = b ∨ x = a := by
    intro α r a b x h hpath
    rcases Relation.ReflTransGen.cases_tail hpath with rfl | ⟨y, -, hyx⟩
    · exact Or.inl rfl
    · exact Or.inr (h y x hyx).2
  have hfinite : {x | ∃ r ∈ [secondId], CommitDescends (git secondId) r x}.Finite := by
    refine Set.Finite.subset (Set.toFinite {secondId, firstId}) ?_
    rintro x ⟨r, hr, hpath⟩
    obtain rfl := List.mem_singleton.mp hr
    exact hreached (fun x p => commitParent_git) hpath
  obtain ⟨⟨htopo, hordered⟩, ⟨turns, hcommits⟩, hfound⟩ :=
    history_ordered (acyclic_of_single fun x y => parent_history)
      (acyclic_of_single fun x p => commitParent_git) hfinite
  refine ⟨?_, ?_⟩
  · obtain ⟨ordered, h⟩ := htopo.mpr fun r hr x hpath => by
      obtain rfl := List.mem_singleton.mp hr
      obtain ⟨hsecond, hfirst⟩ := history_parents
      rcases hreached (fun x y => parent_history) hpath with rfl | rfl
      · exact get_of_snapshotParents hsecond
      · exact get_of_snapshotParents hfirst
    exact ⟨ordered, h, hordered ordered h⟩
  · obtain ⟨ordered, h⟩ := (hcommits turns le_rfl).mpr fun r hr x hpath => by
      obtain rfl := List.mem_singleton.mp hr
      rcases hreached (fun x p => commitParent_git) hpath with rfl | rfl
      · exact ⟨commit [firstId], rfl⟩
      · exact ⟨commit [], rfl⟩
    obtain ⟨hpost, hparents⟩ := hfound turns ordered h
    exact ⟨turns, ordered, h, hpost, hparents none false 8 _⟩

end ImportSystem

end Bole
