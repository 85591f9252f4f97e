import Bole.Refs.Refine
import Bole.Repo.GitProjection

/-!
An export into a new git repository (`src/repo/git_projection.rs`).

* `Commits`, `exportedRefs`: the commits of the snapshots that are visited, and the refs on them;
* `projectImpl_ok_iff`: the export succeeds when everything that it visits can be read and no
  exported name is a directory of another (`Exportable`);
* `exported_of_projectImpl`: what it leaves behind (`Exported`).
-/

namespace Bole

open FileTree

/-! ### What is exported -/

section Exported

variable (L : Linked) (repo : Repository) (visible : List RefName)

/-- A timeline that is shown descends from the object, or points at it. -/
def Visited (x : ObjectId) : Prop :=
  ∃ n ∈ visible, ∃ T, repo.refs.get n = some (.timeline T) ∧ Descends L repo.objects T.head x

/-- A timeline that becomes a branch. -/
structure ExportedTimeline (n : RefName) (T : Timeline) : Prop where
  shown : n ∈ visible
  timeline : repo.refs.get n = some (.timeline T)
  snapshot : ∃ snap, repo.objects.getSnapshot L T.head = .ok (some snap)

/-- A tag that becomes one. -/
structure ExportedTag (n : RefName) (t : Tag) : Prop where
  shown : n ∈ visible
  tag : repo.refs.get n = some (.tag t)
  visited : Visited L repo visible t.target
  snapshot : ∃ snap, repo.objects.getSnapshot L t.target = .ok (some snap)

/-- The export succeeds: all that it visits can be read, and no name of a branch is a directory of
another, nor one of a tag. -/
structure Exportable (L : Linked) (repo : Repository) (accessor : Accessor)
    (visible : List RefName) (lattice : LabelLattice) (rules : LabelRuleSet) : Prop where
  shows : repo.listRefsFiltered "" accessor = .ok visible
  readsLattice : repo.acls.getLattice = .ok lattice
  readsRules : repo.acls.getLabelRuleset = .ok rules
  projectable : ∀ x, Visited L repo visible x →
    Projectable L repo.objects lattice rules accessor x
  timelines : ∀ m T n T', ExportedTimeline L repo visible m T →
    ExportedTimeline L repo visible n T' → ¬ FileTree.Above m.segments n.segments
  tags : ∀ m t n t', ExportedTag L repo visible m t → ExportedTag L repo visible n t' →
    ¬ FileTree.Above m.segments n.segments

end Exported

variable {L : Linked} {gix : Gix} {repo : Repository} {accessor : Accessor}
  {visible : List RefName} {lattice : LabelLattice} {rules : LabelRuleSet}

lemma mem_timelineHeads {refs : RefStore} {n : RefName} {head : ObjectId} :
    (n, head) ∈ timelineHeads refs visible ↔
      n ∈ visible ∧ ∃ T, refs.get n = some (.timeline T) ∧ T.head = head := by
  rw [timelineHeads, List.mem_filterMap]
  constructor
  · rintro ⟨m, hm, h⟩
    split at h
    · next T hT =>
        cases h
        exact ⟨hm, T, hT, rfl⟩
    · cases h
  · rintro ⟨hn, T, hT, rfl⟩
    exact ⟨n, hn, by rw [hT]⟩

lemma visited_iff {x : ObjectId} : Visited L repo visible x ↔
    ∃ r ∈ (timelineHeads repo.refs visible).map Prod.snd, Descends L repo.objects r x := by
  rw [Visited]
  constructor
  · rintro ⟨n, hn, T, hT, hpath⟩
    exact ⟨T.head, List.mem_map.mpr ⟨(n, T.head), mem_timelineHeads.mpr ⟨hn, T, hT, rfl⟩, rfl⟩,
      hpath⟩
  · rintro ⟨r, hr, hpath⟩
    obtain ⟨⟨n, head⟩, hmem, rfl⟩ := List.mem_map.mp hr
    obtain ⟨hn, T, hT, rfl⟩ := mem_timelineHeads.mp hmem
    exact ⟨n, hn, T, hT, hpath⟩

lemma ExportedTimeline.visited {n : RefName} {T : Timeline}
    (h : ExportedTimeline L repo visible n T) : Visited L repo visible T.head :=
  ⟨n, h.shown, T, h.timeline, .refl⟩

lemma projectCommits_eq_ok {req : ProjectRequest} {idMap : BTreeMap ObjectId GitId}
    {written : List GitData} :
    projectCommits L gix req repo = (.ok (visible, idMap), written) ↔
      ∃ ordered lattice rules, repo.listRefsFiltered "" req.accessor = .ok visible ∧
        collectTopo L repo.objects ((timelineHeads repo.refs visible).map Prod.snd) = .ok ordered ∧
        repo.acls.getLattice = .ok lattice ∧ repo.acls.getLabelRuleset = .ok rules ∧
        projectSnapshots L gix repo.objects lattice rules req.accessor ordered ∅ =
          (.ok idMap, written) := by
  rw [projectCommits]
  cases hshows : repo.listRefsFiltered "" req.accessor with
  | error e => simp
  | ok names =>
    cases htopo : collectTopo L repo.objects ((timelineHeads repo.refs names).map Prod.snd) with
    | error e =>
        simp only [htopo, Prod.mk.injEq, reduceCtorEq, false_and, Except.ok.injEq, false_iff]
        rintro ⟨ordered, lattice, rules, rfl, h, -⟩
        rw [htopo] at h
        cases h
    | ok ordered =>
      cases hlattice : repo.acls.getLattice with
      | error e => simp [htopo]
      | ok lattice =>
        cases hrules : repo.acls.getLabelRuleset with
        | error e => simp [htopo]
        | ok rules =>
          cases hproject : projectSnapshots L gix repo.objects lattice rules req.accessor ordered ∅
            with
          | mk result data =>
            cases result with
            | error e =>
                simp only [htopo, hproject, Prod.mk.injEq, reduceCtorEq, false_and, Except.ok.injEq,
                  false_iff]
                rintro ⟨ordered', lattice', rules', rfl, h, rfl, rfl, h'⟩
                rw [htopo] at h
                cases h
                rw [hproject] at h'
                cases h'
            | ok m =>
                simp only [htopo, hproject, Prod.mk.injEq, Except.ok.injEq]
                constructor
                · rintro ⟨⟨rfl, rfl⟩, rfl⟩
                  exact ⟨ordered, lattice, rules, rfl, htopo, rfl, rfl, hproject⟩
                · rintro ⟨ordered', lattice', rules', rfl, h, rfl, rfl, h'⟩
                  rw [htopo] at h
                  cases h
                  rw [hproject] at h'
                  cases h'
                  exact ⟨⟨rfl, rfl⟩, rfl⟩

section Acyclic

variable (hacyclic : ∀ x, ¬ Relation.TransGen (Parent L repo.objects) x x)

include hacyclic

/-- The search for the snapshots succeeds where all of them can be read. -/
lemma collectTopo_ok_iff {starts : List ObjectId} :
    (∃ ordered, collectTopo L repo.objects starts = .ok ordered) ↔
      ∀ r ∈ starts, ∀ x, Descends L repo.objects r x → ∃ o, repo.objects.get L x = .ok o := by
  constructor
  · rintro ⟨ordered, h⟩ r hr x hpath
    exact get_of_mem_collectTopo h ((mem_collectTopo hacyclic h).mpr ⟨r, hr, hpath⟩)
  · intro h
    rcases collectTopo_cases L repo.objects starts with hok | ⟨e, r, hr, x, hpath, he⟩
    · exact hok
    · obtain ⟨o, ho⟩ := h r hr x hpath
      rw [ho] at he
      cases he

/-- What passes 2 and 3 find: the commits of the snapshots that are visited, each written, with its
parents among them. -/
structure Commits (L : Linked) (gix : Gix) (repo : Repository) (accessor : Accessor)
    (visible : List RefName) (lattice : LabelLattice) (rules : LabelRuleSet)
    (idMap : BTreeMap ObjectId GitId) (written : List GitData) : Prop where
  commit : ∀ (x : ObjectId) (c : GitId), idMap[x]? = some c ↔ Visited L repo visible x ∧
    CommitOf L gix repo.objects lattice rules accessor x c
  complete : ∀ x, Visited L repo visible x →
    ∀ snap, repo.objects.getSnapshot L x = .ok (some snap) → ∃ c, idMap[x]? = some c
  written : ∀ (x : ObjectId) (c : GitId), idMap[x]? = some c → ∃ tree parents identity message,
    c = gix.hash .commit (encodeCommit tree parents identity message) ∧
      (.commit, encodeCommit tree parents identity message) ∈ written ∧
      ∀ p ∈ parents, ∃ y : ObjectId, idMap[y]? = some p

/-- **Passes 2 and 3 succeed** where all that is visited can be read. -/
lemma projectCommits_ok_iff {req : ProjectRequest} :
    (∃ idMap written, projectCommits L gix req repo = (.ok (visible, idMap), written)) ↔
      repo.listRefsFiltered "" req.accessor = .ok visible ∧
        ∃ lattice rules, repo.acls.getLattice = .ok lattice ∧
          repo.acls.getLabelRuleset = .ok rules ∧
          ∀ x, Visited L repo visible x →
            Projectable L repo.objects lattice rules req.accessor x := by
  have hordered : ∀ {ordered}, collectTopo L repo.objects
      ((timelineHeads repo.refs visible).map Prod.snd) = .ok ordered →
      ∀ x, x ∈ ordered ↔ Visited L repo visible x := by
    intro ordered htopo x
    rw [mem_collectTopo hacyclic htopo, visited_iff]
  constructor
  · rintro ⟨idMap, written, h⟩
    obtain ⟨ordered, lattice, rules, hshows, htopo, hlattice, hrules, hproject⟩ :=
      projectCommits_eq_ok.mp h
    refine ⟨hshows, lattice, rules, hlattice, hrules, fun x hx => ?_⟩
    exact projectSnapshots_ok_iff.mp ⟨idMap, congrArg Prod.fst hproject⟩ x
      ((hordered htopo x).mpr hx)
  · rintro ⟨hshows, lattice, rules, hlattice, hrules, hall⟩
    obtain ⟨ordered, htopo⟩ := (collectTopo_ok_iff hacyclic).mpr fun r hr x hpath =>
      (hall x (visited_iff.mpr ⟨r, hr, hpath⟩)).reads
    have hproject : ∃ m, (projectSnapshots L gix repo.objects lattice rules req.accessor
        ordered ∅).1 = .ok m :=
      projectSnapshots_ok_iff.mpr fun x hx => hall x ((hordered htopo x).mp hx)
    obtain ⟨idMap, hproject⟩ := hproject
    exact ⟨idMap, _, projectCommits_eq_ok.mpr ⟨ordered, lattice, rules, hshows, htopo, hlattice,
      hrules, Prod.ext hproject rfl⟩⟩

/-- **What they find.** -/
lemma commits_of_projectCommits {req : ProjectRequest} {idMap : BTreeMap ObjectId GitId}
    {written : List GitData} (hlattice : repo.acls.getLattice = .ok lattice)
    (hrules : repo.acls.getLabelRuleset = .ok rules)
    (h : projectCommits L gix req repo = (.ok (visible, idMap), written)) :
    Commits L gix repo req.accessor visible lattice rules idMap written := by
  obtain ⟨ordered, lattice', rules', hshows, htopo, hlattice', hrules', hproject⟩ :=
    projectCommits_eq_ok.mp h
  obtain rfl : lattice = lattice' := Except.ok.inj (hlattice.symm.trans hlattice')
  obtain rfl : rules = rules' := Except.ok.inj (hrules.symm.trans hrules')
  have hordered : ∀ x, x ∈ ordered ↔ Visited L repo visible x := by
    intro x
    rw [mem_collectTopo hacyclic htopo, visited_iff]
  have hprojected : Projected L gix repo.objects lattice rules req.accessor ordered idMap
      written := by
    have hrun := projectSnapshots_projected .empty (fun before id after hsplit p hp => ?_) hproject
    · simpa using hrun
    · simpa using collectTopo_sorted hacyclic htopo hsplit hp
  refine ⟨fun x c => ⟨fun hc => ?_, ?_⟩, fun x hx => hprojected.complete x ((hordered x).mpr hx),
    hprojected.written⟩
  · obtain ⟨hmem, hcommit⟩ := hprojected.commit x c hc
    exact ⟨(hordered x).mp hmem, hcommit⟩
  · rintro ⟨hx, hcommit⟩
    obtain ⟨snap, hsnap⟩ := hcommit.snapshot
    obtain ⟨c', hc'⟩ := hprojected.complete x ((hordered x).mpr hx) snap hsnap
    rw [hc', hcommit.unique (hprojected.commit x c' hc').2]

end Acyclic

/-! ### The refs that are exported -/

/-- The directory of the branches. -/
def headsDir : List Char := ['h', 'e', 'a', 'd', 's']

/-- The directory of the tags. -/
def tagsDir : List Char := ['t', 'a', 'g', 's']

/-- A name is put below a directory of `refs`. -/
lemma gitRefPath_below {pfx : String} {kind : List Char}
    (hpfx : pfx.toList = refsDir ++ '/' :: (kind ++ ['/'])) (hkind : kind.splitOn '/' = [kind])
    (n : RefName) : gitRefPath (pfx ++ n.asStr) = refsDir :: kind :: n.segments := by
  have hrefs : refsDir.splitOn '/' = [refsDir] := rfl
  have hlist : (pfx ++ n.asStr).toList = refsDir ++ '/' :: (kind ++ '/' :: n.name.toList) := by
    rw [String.toList_append, hpfx]
    simp [RefName.asStr]
  rw [gitRefPath, hlist, List.splitOn_append_cons_self, List.splitOn_append_cons_self, hrefs, hkind]
  rfl

lemma gitRefPath_heads (n : RefName) :
    gitRefPath ("refs/heads/" ++ n.asStr) = refsDir :: headsDir :: n.segments :=
  gitRefPath_below rfl rfl n

lemma gitRefPath_tags (n : RefName) :
    gitRefPath ("refs/tags/" ++ n.asStr) = refsDir :: tagsDir :: n.segments :=
  gitRefPath_below rfl rfl n

/-- The ref of a tag whose target has the commit. -/
def tagLooseRef (gix : Gix) (n : RefName) (t : Tag) (c : GitId) : LooseRef :=
  match t.message with
  | none => ⟨"refs/tags/" ++ n.asStr, c, []⟩
  | some msg =>
      let tagBytes := encodeTag c n.asStr (tagIdentity t) msg
      ⟨"refs/tags/" ++ n.asStr, gix.hash .tag tagBytes, [(.tag, tagBytes)]⟩

lemma path_tagLooseRef (gix : Gix) (n : RefName) (t : Tag) (c : GitId) :
    (tagLooseRef gix n t c).path = refsDir :: tagsDir :: n.segments := by
  rw [LooseRef.path, ← gitRefPath_tags, tagLooseRef]
  split <;> rfl

/-- The refs of passes 4 and 5. -/
def exportedRefs (gix : Gix) (refs : RefStore) (visible : List RefName)
    (idMap : BTreeMap ObjectId GitId) : List LooseRef :=
  (timelineHeads refs visible).filterMap (branchRef idMap) ++
    visible.filterMap (tagRef gix refs idMap)

section ExportedRefs

variable {refs : RefStore} {idMap : BTreeMap ObjectId GitId}

lemma branchRef_eq_some {timeline : RefName × ObjectId} {r : LooseRef} :
    branchRef idMap timeline = some r ↔ ∃ c : GitId, idMap[timeline.2]? = some c ∧
      r = ⟨"refs/heads/" ++ timeline.1.asStr, c, []⟩ := by
  rw [branchRef, Option.map_eq_some_iff]
  simp only [eq_comm]

lemma tagRef_eq_some {n : RefName} {r : LooseRef} :
    tagRef gix refs idMap n = some r ↔ ∃ t, refs.get n = some (.tag t) ∧
      ∃ c : GitId, idMap[t.target]? = some c ∧ r = tagLooseRef gix n t c := by
  rw [tagRef]
  split
  · next t ht =>
      rw [ht, Option.map_eq_some_iff]
      constructor
      · rintro ⟨c, hc, rfl⟩
        exact ⟨t, rfl, c, hc, rfl⟩
      · rintro ⟨t', ht', c, hc, rfl⟩
        cases ht'
        exact ⟨c, hc, rfl⟩
  · next hno =>
      simp only [reduceCtorEq, false_iff, not_exists, not_and]
      exact fun t ht => absurd ht (hno t)

lemma mem_exportedRefs {r : LooseRef} : r ∈ exportedRefs gix refs visible idMap ↔
    (∃ n ∈ visible, ∃ T, refs.get n = some (.timeline T) ∧
      ∃ c : GitId, idMap[T.head]? = some c ∧ r = ⟨"refs/heads/" ++ n.asStr, c, []⟩) ∨
    ∃ n ∈ visible, ∃ t, refs.get n = some (.tag t) ∧
      ∃ c : GitId, idMap[t.target]? = some c ∧ r = tagLooseRef gix n t c := by
  rw [exportedRefs, List.mem_append, List.mem_filterMap, List.mem_filterMap]
  refine or_congr ?_ (exists_congr fun n => and_congr_right fun _ => tagRef_eq_some)
  constructor
  · rintro ⟨⟨n, head⟩, hmem, h⟩
    obtain ⟨hn, T, hT, rfl⟩ := mem_timelineHeads.mp hmem
    exact ⟨n, hn, T, hT, branchRef_eq_some.mp h⟩
  · rintro ⟨n, hn, T, hT, h⟩
    exact ⟨(n, T.head), mem_timelineHeads.mpr ⟨hn, T, hT, rfl⟩, branchRef_eq_some.mpr h⟩

/-- Every exported ref is a branch or a tag. -/
lemma path_of_mem_exportedRefs {r : LooseRef} (hr : r ∈ exportedRefs gix refs visible idMap) :
    ∃ kind, ∃ n : RefName, r.path = refsDir :: kind :: n.segments := by
  rcases mem_exportedRefs.mp hr with ⟨n, -, T, -, c, -, rfl⟩ | ⟨n, -, t, -, c, -, rfl⟩
  · exact ⟨headsDir, n, gitRefPath_heads n⟩
  · exact ⟨tagsDir, n, path_tagLooseRef gix n t c⟩

lemma nodup_listRefsFiltered {names : List RefName}
    (h : repo.listRefsFiltered "" accessor = .ok names) : names.Nodup := by
  simp only [Repository.listRefsFiltered, Result.bind_eq_ok] at h
  obtain ⟨lattice, -, rules, -, h⟩ := h
  cases h
  exact (repo.refs.nodup_list "").filter _

lemma nodup_timelineHeads (hvisible : visible.Nodup) :
    ((timelineHeads refs visible).map Prod.fst).Nodup := by
  refine List.pairwise_map.mpr (List.pairwise_filterMap.mpr (hvisible.imp ?_))
  intro a b hne x hx y hy heq
  refine hne ?_
  split at hx
  · split at hy
    · cases hx
      cases hy
      exact heq
    · cases hy
  · cases hx

/-- Different names are exported to different paths. -/
lemma nodup_exportedRefs (hvisible : visible.Nodup) :
    ((exportedRefs gix refs visible idMap).map LooseRef.path).Nodup := by
  rw [exportedRefs, List.map_append, List.nodup_append]
  refine ⟨?_, ?_, ?_⟩
  · refine List.pairwise_map.mpr (List.pairwise_filterMap.mpr ?_)
    refine (List.pairwise_map.mp (nodup_timelineHeads hvisible)).imp fun hne r hr s hs heq => hne ?_
    obtain ⟨c, -, rfl⟩ := branchRef_eq_some.mp hr
    obtain ⟨c', -, rfl⟩ := branchRef_eq_some.mp hs
    simp only [LooseRef.path, gitRefPath_heads, List.cons.injEq, true_and] at heq
    exact RefName.segments_injective heq
  · refine List.pairwise_map.mpr (List.pairwise_filterMap.mpr (hvisible.imp ?_))
    intro m n hne r hr s hs heq
    obtain ⟨t, -, c, -, rfl⟩ := tagRef_eq_some.mp hr
    obtain ⟨t', -, c', -, rfl⟩ := tagRef_eq_some.mp hs
    simp only [path_tagLooseRef, List.cons.injEq, true_and] at heq
    exact hne (RefName.segments_injective heq)
  · intro p hp q hq heq
    obtain ⟨r, hr, rfl⟩ := List.mem_map.mp hp
    obtain ⟨s, hs, rfl⟩ := List.mem_map.mp hq
    obtain ⟨timeline, -, hbranch⟩ := List.mem_filterMap.mp hr
    obtain ⟨n, -, htag⟩ := List.mem_filterMap.mp hs
    obtain ⟨c, -, rfl⟩ := branchRef_eq_some.mp hbranch
    obtain ⟨t, -, c', -, rfl⟩ := tagRef_eq_some.mp htag
    rw [LooseRef.path, gitRefPath_heads, path_tagLooseRef] at heq
    exact absurd (List.cons.inj (List.cons.inj heq).2).1 (by decide)

/-- In a new repository no ref is blocked. -/
lemma not_blocked_initBare (gix : Gix) (kind : List Char) (n : RefName) :
    ¬ Blocked (refsDir :: kind :: n.segments) gix.initBare := by
  rw [blocked_iff]
  rintro (hdir | ⟨q, hq, text, htext⟩)
  · have hlen := gix.init_dirs _ hdir
    have hpos := List.length_pos_iff.mpr n.segments_ne_nil
    rw [List.length_cons] at hlen
    omega
  · cases q with
    | nil => cases htext
    | cons x q =>
        obtain ⟨rfl, -⟩ := above_cons.mp hq
        rw [gix.init_refs q] at htext
        cases htext

end ExportedRefs

/-! ### The export into a new directory -/

section Fresh

variable {idMap : BTreeMap ObjectId GitId} {d d' : GitDir}

/-- Pass 6 changes `HEAD` only. -/
lemma writeHead_ok (idMap : BTreeMap ObjectId GitId) (heads : List (RefName × ObjectId))
    {files : GitFiles} (hfree : ¬ Blocked [headFile] files) :
    ∃ files', writeHead idMap heads files = .ok files' ∧
      ∀ q, q ≠ [headFile] → lookup q files' = lookup q files := by
  rw [writeHead]
  split
  · exact ⟨files, rfl, fun _ _ => rfl⟩
  · next branchName _ _ =>
      obtain ⟨files', hwrite⟩ := (write_ok_iff ("ref: refs/heads/" ++ branchName.asStr ++ "\n")
        _ _).mpr hfree
      rw [hwrite]
      exact ⟨files', rfl, fun q hq => by rw [lookup_write hwrite, if_neg hq]⟩

lemma projectRefs_eq_ok : projectRefs gix repo visible idMap d = (.ok (), d') ↔
    ∃ e, writeLooseRefs (exportedRefs gix repo.refs visible idMap) d = (.ok (), e) ∧
      ∃ files, writeHead idMap (timelineHeads repo.refs visible) e.files = .ok files ∧
        d' = { e with files := files } := by
  rw [exportedRefs, writeLooseRefs_append, projectRefs]
  cases writeLooseRefs ((timelineHeads repo.refs visible).filterMap (branchRef idMap)) d with
  | mk result b =>
      cases result with
      | error e => simp
      | ok u =>
          dsimp only
          cases writeLooseRefs (visible.filterMap (tagRef gix repo.refs idMap)) b with
          | mk result e =>
              cases result with
              | error e' => simp
              | ok u =>
                  dsimp only
                  constructor
                  · intro h
                    cases hhead : writeHead idMap (timelineHeads repo.refs visible) e.files with
                    | error e' =>
                        rw [hhead] at h
                        cases h
                    | ok files =>
                        rw [hhead] at h
                        cases h
                        exact ⟨e, rfl, files, hhead, rfl⟩
                  · rintro ⟨e', heq, files, hhead, rfl⟩
                    cases heq
                    rw [hhead]

/-- After the refs, `HEAD` is still no directory. -/
lemma not_blocked_head (hfiles : d.files = gix.initBare)
    (h : writeLooseRefs (exportedRefs gix repo.refs visible idMap) d = (.ok (), d')) :
    ¬ Blocked [headFile] d'.files := by
  rw [blocked_writeLooseRefs h, hfiles, blocked_iff]
  rintro ((hdir | ⟨q, hq, text, htext⟩) | ⟨r, hr, habove⟩)
  · exact gix.init_head hdir
  · cases q with
    | nil => cases htext
    | cons x q => exact not_above_nil (above_cons.mp hq).2
  · obtain ⟨kind, n, hpath⟩ := path_of_mem_exportedRefs hr
    rw [hpath, above_cons, above_cons] at habove
    exact absurd (habove.elim (·.1) (·.1.symm)) (by decide)

/-- Passes 4 to 6 succeed in a new repository when no name is a directory of another. -/
lemma projectRefs_ok_iff (hfiles : d.files = gix.initBare) :
    (∃ d', projectRefs gix repo visible idMap d = (.ok (), d')) ↔
      ∀ r ∈ exportedRefs gix repo.refs visible idMap,
        ∀ s ∈ exportedRefs gix repo.refs visible idMap, ¬ FileTree.Above r.path s.path := by
  have hfree : ∀ r ∈ exportedRefs gix repo.refs visible idMap, ¬ Blocked r.path d.files := by
    intro r hr
    obtain ⟨kind, n, hpath⟩ := path_of_mem_exportedRefs hr
    rw [hpath, hfiles]
    exact not_blocked_initBare gix kind n
  have hok : (writeLooseRefs (exportedRefs gix repo.refs visible idMap) d).1 = .ok () ↔ _ :=
    writeLooseRefs_ok_iff
  constructor
  · rintro ⟨d', h⟩
    obtain ⟨e, hwrites, -⟩ := projectRefs_eq_ok.mp h
    exact (hok.mp (congrArg Prod.fst hwrites)).2
  · intro h
    have hwrites := hok.mpr ⟨hfree, h⟩
    obtain ⟨files, hhead, -⟩ := writeHead_ok idMap (timelineHeads repo.refs visible)
      (not_blocked_head hfiles (Prod.ext hwrites rfl))
    exact ⟨_, projectRefs_eq_ok.mpr ⟨_, Prod.ext hwrites rfl, files, hhead, rfl⟩⟩

/-- What they leave behind: the objects of the tags, and a file for each ref. -/
lemma projectRefs_leaves (hvisible : visible.Nodup) (hfiles : d.files = gix.initBare)
    (h : projectRefs gix repo visible idMap d = (.ok (), d')) :
    d'.written = d.written ++ (exportedRefs gix repo.refs visible idMap).flatMap LooseRef.data ∧
      ∀ p text, lookup (refsDir :: p) d'.files = some text ↔
        ∃ r ∈ exportedRefs gix repo.refs visible idMap,
          r.path = refsDir :: p ∧ looseRefText r.sha = text := by
  obtain ⟨e, hwrites, files, hhead, rfl⟩ := projectRefs_eq_ok.mp h
  obtain ⟨files', hhead', hkeep⟩ := writeHead_ok idMap (timelineHeads repo.refs visible)
    (not_blocked_head hfiles hwrites)
  obtain rfl : files = files' := Except.ok.inj (hhead.symm.trans hhead')
  have hdata := written_writeLooseRefs hwrites
  refine ⟨hdata, fun p text => ?_⟩
  have hne : refsDir :: p ≠ [headFile] := fun heq =>
    absurd (List.cons.inj heq).1 (by decide)
  rw [hkeep _ hne, lookup_writeLooseRefs hwrites (nodup_exportedRefs hvisible), hfiles,
    gix.init_refs p]
  simp

end Fresh

/-! ### Exports that succeed -/

section Succeeds

variable {idMap : BTreeMap ObjectId GitId} {written : List GitData}

lemma Commits.timeline_iff
    (h : Commits L gix repo accessor visible lattice rules idMap written) {n : RefName}
    {T : Timeline} : ExportedTimeline L repo visible n T ↔ n ∈ visible ∧
      repo.refs.get n = some (.timeline T) ∧ ∃ c : GitId, idMap[T.head]? = some c := by
  constructor
  · intro hT
    obtain ⟨snap, hsnap⟩ := hT.snapshot
    exact ⟨hT.shown, hT.timeline, h.complete T.head hT.visited snap hsnap⟩
  · rintro ⟨hn, hT, c, hc⟩
    exact ⟨hn, hT, ((h.commit _ c).mp hc).2.snapshot⟩

lemma Commits.tag_iff
    (h : Commits L gix repo accessor visible lattice rules idMap written) {n : RefName}
    {t : Tag} : ExportedTag L repo visible n t ↔
      n ∈ visible ∧ repo.refs.get n = some (.tag t) ∧ ∃ c : GitId, idMap[t.target]? = some c := by
  constructor
  · intro ht
    obtain ⟨snap, hsnap⟩ := ht.snapshot
    exact ⟨ht.shown, ht.tag, h.complete t.target ht.visited snap hsnap⟩
  · rintro ⟨hn, ht, c, hc⟩
    obtain ⟨hvisited, hcommit⟩ := (h.commit _ c).mp hc
    exact ⟨hn, ht, hvisited, hcommit.snapshot⟩

/-- A branch and a tag are never in each other's way, so the refs are free of each other when the
branches are and the tags are. -/
lemma Commits.free_iff (h : Commits L gix repo accessor visible lattice rules idMap written) :
    (∀ r ∈ exportedRefs gix repo.refs visible idMap,
      ∀ s ∈ exportedRefs gix repo.refs visible idMap, ¬ FileTree.Above r.path s.path) ↔
    (∀ m T n T', ExportedTimeline L repo visible m T → ExportedTimeline L repo visible n T' →
      ¬ FileTree.Above m.segments n.segments) ∧
    ∀ m t n t', ExportedTag L repo visible m t → ExportedTag L repo visible n t' →
      ¬ FileTree.Above m.segments n.segments := by
  constructor
  · intro hfree
    constructor
    · intro m T n T' hm hn habove
      obtain ⟨hm, hT, c, hc⟩ := h.timeline_iff.mp hm
      obtain ⟨hn, hT', c', hc'⟩ := h.timeline_iff.mp hn
      refine hfree _ (mem_exportedRefs.mpr (.inl ⟨m, hm, T, hT, c, hc, rfl⟩))
        _ (mem_exportedRefs.mpr (.inl ⟨n, hn, T', hT', c', hc', rfl⟩)) ?_
      rw [LooseRef.path, LooseRef.path, gitRefPath_heads, gitRefPath_heads, above_cons, above_cons]
      exact ⟨rfl, rfl, habove⟩
    · intro m t n t' hm hn habove
      obtain ⟨hm, ht, c, hc⟩ := h.tag_iff.mp hm
      obtain ⟨hn, ht', c', hc'⟩ := h.tag_iff.mp hn
      refine hfree _ (mem_exportedRefs.mpr (.inr ⟨m, hm, t, ht, c, hc, rfl⟩))
        _ (mem_exportedRefs.mpr (.inr ⟨n, hn, t', ht', c', hc', rfl⟩)) ?_
      rw [path_tagLooseRef, path_tagLooseRef, above_cons, above_cons]
      exact ⟨rfl, rfl, habove⟩
  · rintro ⟨htimelines, htags⟩ r hr s hs habove
    rcases mem_exportedRefs.mp hr with ⟨m, hm, T, hT, c, hc, rfl⟩ | ⟨m, hm, t, ht, c, hc, rfl⟩ <;>
      rcases mem_exportedRefs.mp hs with
        ⟨n, hn, T', hT', c', hc', rfl⟩ | ⟨n, hn, t', ht', c', hc', rfl⟩
    · rw [LooseRef.path, LooseRef.path, gitRefPath_heads, gitRefPath_heads, above_cons,
        above_cons] at habove
      exact htimelines m T n T' (h.timeline_iff.mpr ⟨hm, hT, c, hc⟩)
        (h.timeline_iff.mpr ⟨hn, hT', c', hc'⟩) habove.2.2
    · rw [LooseRef.path, gitRefPath_heads, path_tagLooseRef, above_cons, above_cons] at habove
      exact absurd habove.2.1 (by decide)
    · rw [path_tagLooseRef, LooseRef.path, gitRefPath_heads, above_cons, above_cons] at habove
      exact absurd habove.2.1 (by decide)
    · rw [path_tagLooseRef, path_tagLooseRef, above_cons, above_cons] at habove
      exact htags m t n t' (h.tag_iff.mpr ⟨hm, ht, c, hc⟩)
        (h.tag_iff.mpr ⟨hn, ht', c', hc'⟩) habove.2.2

/-- A call of `project_to_git_mapped` whose sidecar can be read and written. -/
structure ProjectRequest.Mapped (req : ProjectRequest) : Prop where
  mapped : req.mapped = true
  load : req.load = .ok ()
  save : req.save = .ok ()

lemma projectImpl_eq_ok {req : ProjectRequest} (hreq : req.Mapped) {sidecar : IdentityMap}
    {t' : GitTarget} : projectImpl L gix req repo ⟨none, sidecar⟩ = (.ok (), t') ↔
      ∃ visible idMap written d, projectCommits L gix req repo = (.ok (visible, idMap), written) ∧
        projectRefs gix repo visible idMap ⟨written, gix.initBare⟩ = (.ok (), d) ∧
        t' = ⟨some d, recordCommits req idMap sidecar⟩ := by
  rw [projectImpl]
  simp only [openTarget, hreq.mapped, hreq.load, hreq.save, List.nil_append, if_true]
  cases projectCommits L gix req repo with
  | mk result written =>
      cases result with
      | error e => simp
      | ok found =>
          obtain ⟨visible, idMap⟩ := found
          dsimp only
          constructor
          · intro h
            cases hrefs : projectRefs gix repo visible idMap ⟨written, gix.initBare⟩ with
            | mk result d =>
                rw [hrefs] at h
                cases result with
                | error e => cases h
                | ok u =>
                    cases h
                    exact ⟨visible, idMap, written, d, rfl, hrefs, rfl⟩
          · rintro ⟨visible', idMap', written', d, heq, hrefs, rfl⟩
            cases heq
            rw [hrefs]

/-- What an export into a new repository leaves there. -/
structure Exported (L : Linked) (gix : Gix) (repo : Repository) (accessor : Accessor)
    (visible : List RefName) (lattice : LabelLattice) (rules : LabelRuleSet)
    (idMap : BTreeMap ObjectId GitId) (d : GitDir) : Prop where
  commits : Commits L gix repo accessor visible lattice rules idMap d.written
  data : ∀ r ∈ exportedRefs gix repo.refs visible idMap, ∀ e ∈ r.data, e ∈ d.written
  refs : ∀ p text, lookup (refsDir :: p) d.files = some text ↔
    ∃ r ∈ exportedRefs gix repo.refs visible idMap,
      r.path = refsDir :: p ∧ looseRefText r.sha = text

section Acyclic

variable (hacyclic : ∀ x, ¬ Relation.TransGen (Parent L repo.objects) x x)

include hacyclic

/-- **An export into a new repository succeeds** exactly when the repository is exportable. -/
theorem projectImpl_ok_iff {req : ProjectRequest} (hreq : req.Mapped) {sidecar : IdentityMap} :
    (∃ t', projectImpl L gix req repo ⟨none, sidecar⟩ = (.ok (), t')) ↔
      ∃ visible lattice rules, Exportable L repo req.accessor visible lattice rules := by
  constructor
  · rintro ⟨t', h⟩
    obtain ⟨visible, idMap, written, d, hcommits, hrefs, -⟩ := (projectImpl_eq_ok hreq).mp h
    obtain ⟨hshows, lattice, rules, hlattice, hrules, hall⟩ :=
      (projectCommits_ok_iff hacyclic).mp ⟨idMap, written, hcommits⟩
    have hfound := commits_of_projectCommits hacyclic hlattice hrules hcommits
    obtain ⟨htimelines, htags⟩ := hfound.free_iff.mp ((projectRefs_ok_iff rfl).mp ⟨d, hrefs⟩)
    exact ⟨visible, lattice, rules, hshows, hlattice, hrules, hall, htimelines, htags⟩
  · rintro ⟨visible, lattice, rules, h⟩
    have hcommits : ∃ idMap written,
        projectCommits L gix req repo = (.ok (visible, idMap), written) :=
      (projectCommits_ok_iff hacyclic).mpr
        ⟨h.shows, lattice, rules, h.readsLattice, h.readsRules, h.projectable⟩
    obtain ⟨idMap, written, hcommits⟩ := hcommits
    have hfound := commits_of_projectCommits hacyclic h.readsLattice h.readsRules hcommits
    obtain ⟨d, hrefs⟩ := (projectRefs_ok_iff (d := ⟨written, gix.initBare⟩) rfl).mpr
      (hfound.free_iff.mpr ⟨h.timelines, h.tags⟩)
    exact ⟨_, (projectImpl_eq_ok hreq).mpr
      ⟨visible, idMap, written, d, hcommits, hrefs, rfl⟩⟩

/-- **What it leaves behind.** -/
theorem exported_of_projectImpl {req : ProjectRequest} (hreq : req.Mapped)
    {sidecar : IdentityMap} {t' : GitTarget}
    (hexport : Exportable L repo req.accessor visible lattice rules)
    (h : projectImpl L gix req repo ⟨none, sidecar⟩ = (.ok (), t')) :
    ∃ idMap d, t' = ⟨some d, recordCommits req idMap sidecar⟩ ∧
      Exported L gix repo req.accessor visible lattice rules idMap d := by
  obtain ⟨visible', idMap, written, d, hcommits, hrefs, rfl⟩ := (projectImpl_eq_ok hreq).mp h
  obtain ⟨ordered, lattice', rules', hshows, -⟩ := projectCommits_eq_ok.mp hcommits
  obtain rfl : visible = visible' := Except.ok.inj (hexport.shows.symm.trans hshows)
  have hfound := commits_of_projectCommits hacyclic hexport.readsLattice hexport.readsRules hcommits
  obtain ⟨hwritten, hfiles⟩ :=
    projectRefs_leaves (nodup_listRefsFiltered hexport.shows) rfl hrefs
  refine ⟨idMap, d, rfl, ⟨hfound.commit, hfound.complete, fun x c hc => ?_⟩, fun r hr e he => ?_,
    hfiles⟩
  · obtain ⟨tree, parents, identity, message, hsha, hmem, hall⟩ := hfound.written x c hc
    exact ⟨tree, parents, identity, message, hsha,
      hwritten ▸ List.mem_append_left _ hmem, hall⟩
  · rw [hwritten]
    exact List.mem_append_right _ (List.mem_flatMap.mpr ⟨r, hr, he⟩)

end Acyclic

end Succeeds

end Bole
