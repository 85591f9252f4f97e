import Bole.Repo.GitExport
import Bole.Repo.RefNames

/-!
Importing what was exported (`src/repo/git_projection.rs`, `src/repo/git_import.rs`).

The sidecar takes a commit to one snapshot.  The snapshots that an export visits may share a
commit: those that differ in what the accessor does not see, in a parent that is no snapshot, or
in a line break at the end of the message.

* `GitReadsBack`: what `gix` reads from an export;
* `translatePasses_exported`: no commit of an export is translated;
* `importBranch_same`, `importTag_same`: a ref that is imported on its own head stays;
* `roundTrip_iff`: **the round trip keeps the heads and the tag targets** exactly when the export
  succeeds and no snapshot shares its commit with the head of an exported timeline.
-/

namespace Bole

open FileTree PostOrder

variable {L : Linked} {gix : Gix} {repo : Repository} {accessor : Accessor}
  {visible : List RefName} {lattice : LabelLattice} {rules : LabelRuleSet} {g : GitRepo}

/-! ### The sidecar -/

/-- Of the snapshots that become a commit the last one is recorded. -/
lemma boleForGit_foldl {l : List (ObjectId × GitId)} {m : IdentityMap} {c : GitId}
    (h : ∃ x, (x, c) ∈ l) : ∃ x, (x, c) ∈ l ∧
      (l.foldl (fun m e => m.insert e.2 e.1) m).boleForGit c = some x := by
  induction l using List.reverseRecOn with
  | nil =>
      obtain ⟨x, hx⟩ := h
      cases hx
  | append_singleton l e ih =>
      rw [List.foldl_append, List.foldl_cons, List.foldl_nil, IdentityMap.boleForGit_insert]
      split_ifs with hc
      · exact ⟨e.1, by simp [hc], rfl⟩
      · obtain ⟨x, hx⟩ := h
        rcases List.mem_append.mp hx with hx | hx
        · obtain ⟨y, hy, hrecorded⟩ := ih ⟨x, hx⟩
          exact ⟨y, List.mem_append_left _ hy, hrecorded⟩
        · rw [List.mem_singleton] at hx
          exact absurd (congrArg Prod.snd hx) hc

/-- A commit is recorded with a snapshot that becomes it. -/
lemma recorded_of_commit {req : ProjectRequest} (hperm : ∀ l, (req.iter l).Perm l)
    {idMap : BTreeMap ObjectId GitId} {sidecar : IdentityMap} {x : ObjectId} {c : GitId}
    (h : idMap[x]? = some c) : ∃ y : ObjectId, idMap[y]? = some c ∧
      (recordCommits req idMap sidecar).boleForGit c = some y := by
  have hmem : ∀ y : ObjectId, (y, c) ∈ req.iter idMap.toList ↔ idMap[y]? = some c := fun y => by
    rw [(hperm _).mem_iff, Std.ExtTreeMap.mem_toList_iff_getElem?_eq_some]
  obtain ⟨y, hy, hrecorded⟩ := boleForGit_foldl (m := sidecar) ⟨x, (hmem x).mpr h⟩
  exact ⟨y, (hmem y).mp hy, hrecorded⟩

/-- The iteration that ends with the entry. -/
def endingWith (e : ObjectId × GitId) (l : List (ObjectId × GitId)) : List (ObjectId × GitId) :=
  if e ∈ l then l.erase e ++ [e] else l

lemma perm_endingWith (e : ObjectId × GitId) (l : List (ObjectId × GitId)) :
    (endingWith e l).Perm l := by
  rw [endingWith]
  split_ifs with he
  · exact (List.perm_append_singleton e _).trans (List.perm_cons_erase he).symm
  · exact .refl l

/-- Any of the snapshots that become a commit may be recorded. -/
lemma recorded_endingWith {req : ProjectRequest} {idMap : BTreeMap ObjectId GitId}
    {sidecar : IdentityMap} {x : ObjectId} {c : GitId} (hiter : req.iter = endingWith (x, c))
    (h : idMap[x]? = some c) : (recordCommits req idMap sidecar).boleForGit c = some x := by
  have hmem : (x, c) ∈ idMap.toList := Std.ExtTreeMap.mem_toList_iff_getElem?_eq_some.mpr h
  rw [recordCommits, hiter, endingWith, if_pos hmem, List.foldl_append, List.foldl_cons,
    List.foldl_nil, IdentityMap.boleForGit_insert, if_pos rfl]

/-! ### Names -/

/-- The names seen were sanitized to themselves. -/
def SeenSame (seen : BTreeMap String String) : Prop := ∀ s t : String, seen[s]? = some t → t = s

lemma SeenSame.empty : SeenSame ∅ := by
  intro s t h
  simp at h

lemma SeenSame.insert {seen : BTreeMap String String} (h : SeenSame seen) (s : String) :
    SeenSame (seen.insert s s) := by
  intro s' t ht
  rw [Std.ExtTreeMap.getElem?_insert] at ht
  split_ifs at ht with heq
  · rw [← Std.LawfulEqOrd.eq_of_compare heq, Option.some.inj ht]
  · exact h s' t ht

lemma sanitizedRef_asStr {seen : BTreeMap String String} (h : SeenSame seen) (n : RefName) :
    sanitizedRef n.asStr seen = .ok (n, seen.insert n.asStr n.asStr) := by
  have hnamed : sanitizedRef.named n.asStr seen n.asStr =
      .ok (n, seen.insert n.asStr n.asStr) := by
    have hnew : RefName.new n.asStr = .ok n := by
      rw [RefName.new]
      exact dif_pos n.valid
    rw [sanitizedRef.named, hnew]
  rw [sanitizedRef, sanitizeRefName_asStr]
  dsimp only
  split
  · next prev hprev =>
      rw [h _ _ hprev]
      simpa using hnamed
  · exact hnamed

/-! ### The commits that an import visits -/

/-- The parents of a commit that are not seen, the last one in front. -/
def unseenParents (g : GitRepo) (seen : List GitId) (id : GitId) : Result (List GitId) :=
  (gitResult (g.findObject id >>= GitObject.tryIntoCommit)).map fun commit =>
    (commit.parentIds.filter fun pid => decide (pid ∉ seen)).reverse

lemma topoLoop_eq (g : GitRepo) (fuel : ℕ) (stack : List (GitId × Bool))
    (visited result : List GitId) : topoLoop g fuel stack visited result =
      match postOrder (unseenParents g) fuel stack visited result with
      | .error e => .error e
      | .ok (some l) => .ok l
      | .ok none => .error (.panic "out of fuel") := by
  induction fuel generalizing stack visited result with
  | zero =>
      cases stack with
      | nil => rfl
      | cons e rest => rfl
  | succ fuel ih =>
      match stack with
      | [] => rfl
      | (id, true) :: rest =>
          rw [topoLoop, postOrder]
          exact ih _ _ _
      | (id, false) :: rest =>
          rw [topoLoop, postOrder, unseenParents]
          split_ifs with hvisited
          · exact ih _ _ _
          · cases gitResult (g.findObject id >>= GitObject.tryIntoCommit) with
            | error e => rfl
            | ok commit =>
                simp only [Except.map, ← List.map_reverse]
                exact ih _ _ _

/-- The commits can be read, and their parents are among them. -/
def CommitsClosed (g : GitRepo) (U : Finset GitId) : Prop :=
  ∀ x ∈ U, ∃ o c, g.findObject x = .ok o ∧ o.tryIntoCommit = .ok c ∧ ∀ p ∈ c.parentIds, p ∈ U

/-- The number of the parents of a commit. -/
def parentCount (g : GitRepo) (id : GitId) : ℕ :=
  ((g.findObject id >>= GitObject.tryIntoCommit).toOption.elim [] GitCommit.parentIds).length

/-- The parents of a commit that can be read. -/
def commitParents (g : GitRepo) (id : GitId) : List GitId :=
  (g.findObject id >>= GitObject.tryIntoCommit).toOption.elim [] GitCommit.parentIds

lemma pushes_unseenParents {seen ys : List GitId} {x : GitId}
    (h : unseenParents g seen x = .ok ys) : Pushes (commitParents g) seen x ys := by
  rw [unseenParents] at h
  cases hc : g.findObject x >>= GitObject.tryIntoCommit with
  | error msg =>
      rw [hc] at h
      cases h
  | ok c =>
      rw [hc] at h
      obtain rfl := Except.ok.inj h
      refine ⟨fun y hy => ?_, fun y hy => ?_⟩
      · rw [commitParents, hc]
        exact List.mem_of_mem_filter (List.mem_reverse.mp hy)
      · rw [commitParents, hc] at hy
        by_cases hseen : y ∈ seen
        · exact Or.inr hseen
        · exact Or.inl (List.mem_reverse.mpr (List.mem_filter.mpr ⟨hy, by simpa using hseen⟩))

lemma unseenParents_eq_error {seen : List GitId} {x : GitId} {e : Error}
    (h : unseenParents g seen x = .error e) :
    gitResult (g.findObject x >>= GitObject.tryIntoCommit) = .error e := by
  rw [unseenParents] at h
  cases hc : gitResult (g.findObject x >>= GitObject.tryIntoCommit) with
  | error e' =>
      rw [hc] at h
      exact congrArg Except.error (Except.error.inj h)
  | ok c =>
      rw [hc] at h
      cases h

/-- **The search ends**, with an order or with a commit that cannot be read. -/
lemma topoCommits_cases {U : Finset GitId} (hU : ∀ x ∈ U, ∀ p ∈ commitParents g x, p ∈ U)
    {fuel : ℕ} {heads : List GitId} (hheads : ∀ x ∈ heads, x ∈ U)
    (hfuel : 2 * heads.length + ∑ x ∈ U, 2 * parentCount g x ≤ fuel) :
    (∃ ordered, topoCommits g fuel heads = .ok ordered ∧ ∀ x ∈ ordered, x ∈ U) ∨
      ∃ e, ∃ x ∈ U, topoCommits g fuel heads = .error e ∧
        gitResult (g.findObject x >>= GitObject.tryIntoCommit) = .error e := by
  have hpush : ∀ seen x ys, x ∈ U → unseenParents g seen x = .ok ys →
      ys.length ≤ parentCount g x ∧ ∀ y ∈ ys, y ∈ U := by
    intro seen x ys hx hys
    refine ⟨?_, fun y hy => hU x hx y ((pushes_unseenParents hys).edge y hy)⟩
    rw [unseenParents] at hys
    rw [parentCount]
    cases hc : g.findObject x >>= GitObject.tryIntoCommit with
    | error msg =>
        rw [hc] at hys
        cases hys
    | ok c =>
        rw [hc] at hys
        obtain rfl := Except.ok.inj hys
        rw [List.length_reverse]
        exact List.length_filter_le _ _
  have hstack : ∀ e ∈ (heads.map (·, false)).reverse, e.1 ∈ U := by
    intro e he
    obtain ⟨x, hx, rfl⟩ := List.mem_map.mp (List.mem_reverse.mp he)
    exact hheads x hx
  have hwork : work (parentCount g) U (heads.map (·, false)).reverse [] ≤ fuel := by
    rw [work, ← List.map_reverse, weight_fresh, List.length_reverse]
    refine le_trans (Nat.add_le_add_left (Finset.sum_le_sum_of_subset ?_) _) hfuel
    exact Finset.filter_subset _ _
  rw [topoCommits, topoLoop_eq]
  rcases postOrder_closed hpush hstack (fun x hx => absurd hx List.not_mem_nil) hwork with
    ⟨l, hl, hmem⟩ | ⟨e, hl, seen, x, hx, he⟩
  · rw [hl]
    exact Or.inl ⟨l, rfl, hmem⟩
  · rw [hl]
    exact Or.inr ⟨e, x, hx, rfl, unseenParents_eq_error he⟩

/-- **Among commits that are closed** the search from any heads ends. -/
lemma topoCommits_ok {U : Finset GitId} (hU : CommitsClosed g U) {fuel : ℕ} {heads : List GitId}
    (hheads : ∀ x ∈ heads, x ∈ U)
    (hfuel : 2 * heads.length + ∑ x ∈ U, 2 * parentCount g x ≤ fuel) :
    ∃ ordered, topoCommits g fuel heads = .ok ordered ∧ ∀ x ∈ ordered, x ∈ U := by
  have hread : ∀ x ∈ U, ∃ c, g.findObject x >>= GitObject.tryIntoCommit = .ok c ∧
      ∀ p ∈ c.parentIds, p ∈ U := by
    intro x hx
    obtain ⟨o, c, ho, hc, hparents⟩ := hU x hx
    exact ⟨c, Result.bind_eq_ok.mpr ⟨o, ho, hc⟩, hparents⟩
  refine (topoCommits_cases (fun x hx p hp => ?_) hheads hfuel).resolve_right ?_
  · obtain ⟨c, hc, hparents⟩ := hread x hx
    rw [commitParents, hc] at hp
    exact hparents p hp
  · rintro ⟨e, x, hx, -, he⟩
    obtain ⟨c, hc, -⟩ := hread x hx
    rw [hc] at he
    cases he

/-- Commits that are recorded are passed over. -/
lemma translateCommits_recorded {mtime : Option ℕ} {dryRun : Bool} {depth : ℕ}
    {commits : List GitId} {t : Translation}
    (h : ∀ x ∈ commits, ∃ id, t.map.boleForGit x = some id) :
    ∃ summary, translateCommits L g mtime dryRun depth commits t =
      (.ok (), { t with summary := summary }) := by
  induction commits generalizing t with
  | nil => exact ⟨t.summary, rfl⟩
  | cons x rest ih =>
      obtain ⟨id, hid⟩ := h x List.mem_cons_self
      rw [translateCommits, translateCommit, hid]
      exact ih fun y hy => h y (List.mem_cons_of_mem _ hy)

/-! ### The refs that an import lists -/

/-- A ref that is listed as a branch. -/
def listedBranch (selected : List String) (r : GitReference) : Option (String × GitId) :=
  (stripPrefix "refs/heads/" r.name).bind fun short =>
    if selected = [] ∨ short ∈ selected then r.peelToId.toOption.map (short, ·) else none

/-- A ref that is listed as a tag. -/
def listedTag (r : GitReference) : Option (String × GitId) :=
  if (stripPrefix "refs/heads/" r.name).isSome then none
  else (stripPrefix "refs/tags/" r.name).bind fun short => r.peelToId.toOption.map (short, ·)

/-- A listing whose refs can all be peeled is collected. -/
lemma collectRefs_ok {selected : List String} {listing : List GitReference} {acc : GitRefs}
    (h : ∀ r ∈ listing, ∃ id, r.peelToId = .ok id) :
    collectRefs selected (listing.map .ok) acc =
      .ok ⟨acc.branches ++ listing.filterMap (listedBranch selected),
        acc.tags ++ listing.filterMap listedTag⟩ := by
  induction listing generalizing acc with
  | nil => simp [collectRefs]
  | cons r rest ih =>
      obtain ⟨target, htarget⟩ := h r List.mem_cons_self
      have hrest : ∀ acc : GitRefs, collectRefs selected (rest.map .ok) acc =
          .ok ⟨acc.branches ++ rest.filterMap (listedBranch selected),
            acc.tags ++ rest.filterMap listedTag⟩ :=
        fun acc => ih fun s hs => h s (List.mem_cons_of_mem _ hs)
      rw [List.map_cons, collectRefs, htarget]
      dsimp only
      cases hheads : stripPrefix "refs/heads/" r.name with
      | some short =>
          have htag : listedTag r = none := by simp [listedTag, hheads]
          dsimp only
          split_ifs with hselected
          · have hbranch : listedBranch selected r = some (short, target) := by
              simp [listedBranch, hheads, hselected, htarget, Except.toOption]
            rw [hrest, List.filterMap_cons_some hbranch, List.filterMap_cons_none htag]
            simp
          · have hbranch : listedBranch selected r = none := by
              simp [listedBranch, hheads, hselected]
            rw [hrest, List.filterMap_cons_none hbranch, List.filterMap_cons_none htag]
      | none =>
          have hbranch : listedBranch selected r = none := by simp [listedBranch, hheads]
          dsimp only
          cases htags : stripPrefix "refs/tags/" r.name with
          | some short =>
              have htag : listedTag r = some (short, target) := by
                simp [listedTag, hheads, htags, htarget, Except.toOption]
              dsimp only
              rw [hrest, List.filterMap_cons_none hbranch, List.filterMap_cons_some htag]
              simp
          | none =>
              have htag : listedTag r = none := by simp [listedTag, hheads, htags]
              dsimp only
              rw [hrest, List.filterMap_cons_none hbranch, List.filterMap_cons_none htag]

lemma listedBranch_eq_some {selected : List String} {r : GitReference} {short : String}
    {id : GitId} : listedBranch selected r = some (short, id) ↔
      stripPrefix "refs/heads/" r.name = some short ∧ (selected = [] ∨ short ∈ selected) ∧
        r.peelToId = .ok id := by
  rw [listedBranch]
  cases stripPrefix "refs/heads/" r.name with
  | none => simp
  | some s =>
      cases hpeel : r.peelToId with
      | error msg => simp [Except.toOption]
      | ok id' =>
          simp only [Option.bind_some, Except.toOption, Option.map_some, Option.some.injEq,
            Except.ok.injEq]
          constructor
          · intro h
            split_ifs at h with hselected
            cases h
            exact ⟨rfl, hselected, rfl⟩
          · rintro ⟨rfl, hselected, rfl⟩
            rw [if_pos hselected]

lemma stripPrefix_of_listedTag {r : GitReference} {short : String} {id : GitId}
    (h : listedTag r = some (short, id)) :
    stripPrefix "refs/tags/" r.name = some short ∧ r.peelToId = .ok id := by
  rw [listedTag] at h
  split_ifs at h
  obtain ⟨s, hs, h⟩ := Option.bind_eq_some_iff.mp h
  obtain ⟨id', hpeel, heq⟩ := Option.map_eq_some_iff.mp h
  cases heq
  refine ⟨hs, ?_⟩
  cases hr : r.peelToId with
  | error msg =>
      rw [hr] at hpeel
      cases hpeel
  | ok id' =>
      rw [hr] at hpeel
      rw [Option.some.inj hpeel]

/-! ### Reading back -/

/-- What a written commit or tag peels to: itself, or the commit that it names. -/
inductive Peels (gix : Gix) (d : GitDir) : GitId → GitId → Prop where
  | commit {bytes : Bytes} : (.commit, bytes) ∈ d.written →
      Peels gix d (gix.hash .commit bytes) (gix.hash .commit bytes)
  | tag {bytes : Bytes} {name tagger message : String} : (.commit, bytes) ∈ d.written →
      (.tag, encodeTag (gix.hash .commit bytes) name tagger message) ∈ d.written →
      Peels gix d (gix.hash .tag (encodeTag (gix.hash .commit bytes) name tagger message))
        (gix.hash .commit bytes)

/-- `gix` reads back what was written: it lists the refs that have files, peels them, and decodes
the commits and the tags. -/
structure GitReadsBack (gix : Gix) (d : GitDir) (g : GitRepo) (listing : List GitReference) :
    Prop where
  references : g.references = .ok (listing.map .ok)
  lists : ∀ name, (∃ r ∈ listing, r.name = name) ↔
    ∃ p text, gitRefPath name = refsDir :: p ∧ lookup (gitRefPath name) d.files = some text
  peels : ∀ r ∈ listing, ∀ sha id,
    lookup (gitRefPath r.name) d.files = some (looseRefText sha) → Peels gix d sha id →
      r.peelToId = .ok id
  points : ∀ name p sha, gitRefPath name = refsDir :: p →
    lookup (refsDir :: p) d.files = some (looseRefText sha) → g.directTarget name = some sha
  commits : ∀ tree parents identity message,
    (.commit, encodeCommit tree parents identity message) ∈ d.written → ∃ o c,
      g.findObject (gix.hash .commit (encodeCommit tree parents identity message)) = .ok o ∧
        o.tryIntoCommit = .ok c ∧ c.parentIds = parents ∧ o.tag = none
  tags : ∀ c name tagger message, (.tag, encodeTag c name tagger message) ∈ d.written → ∃ o t,
    g.findObject (gix.hash .tag (encodeTag c name tagger message)) = .ok o ∧ o.tag = some (.ok t)

lemma looseRefText_injective {a b : GitId} (h : looseRefText a = looseRefText b) : a = b := by
  have hlist : a.toHex.toList ++ "\n".toList = b.toHex.toList ++ "\n".toList := by
    rw [← String.toList_append, ← String.toList_append]
    exact congrArg String.toList h
  have hhex := List.append_cancel_right hlist
  rw [GitId.toHex, GitId.toHex, String.toList_ofList, String.toList_ofList] at hhex
  cases a
  cases b
  exact congrArg GitId.mk (Digest.flatMap_hexByte_injective hhex)

lemma gitRefPath_injective {a b : String} (h : gitRefPath a = gitRefPath b) : a = b := by
  refine String.toList_injective ?_
  have ha : ['/'].intercalate (gitRefPath a) = a.toList := List.intercalate_splitOn '/'
  have hb : ['/'].intercalate (gitRefPath b) = b.toList := List.intercalate_splitOn '/'
  rw [← ha, ← hb, h]

section ReadBack

variable {idMap : BTreeMap ObjectId GitId} {d : GitDir} {listing : List GitReference}

/-- A commit that was written peels to itself. -/
lemma Exported.peels_commit (h : Exported L gix repo accessor visible lattice rules idMap d)
    {x : ObjectId} {c : GitId} (hc : idMap[x]? = some c) : Peels gix d c c := by
  obtain ⟨tree, parents, identity, message, rfl, hmem, -⟩ := h.commits.written x c hc
  exact .commit hmem

/-- A tag that was written peels to the commit of its target. -/
lemma Exported.peels_tag (h : Exported L gix repo accessor visible lattice rules idMap d)
    {n : RefName} {t : Tag} {c : GitId}
    (hr : tagLooseRef gix n t c ∈ exportedRefs gix repo.refs visible idMap)
    (hc : idMap[t.target]? = some c) : Peels gix d (tagLooseRef gix n t c).sha c := by
  have hdata := h.data _ hr
  rw [tagLooseRef] at hdata ⊢
  split at hdata
  · exact h.peels_commit hc
  · next msg hmessage =>
      obtain ⟨tree, parents, identity, message, rfl, hmem, -⟩ := h.commits.written _ c hc
      exact .tag hmem (hdata _ (List.mem_singleton.mpr rfl))

/-- A ref that is listed is one that was exported. -/
lemma GitReadsBack.exported_of_mem (hg : GitReadsBack gix d g listing)
    (h : Exported L gix repo accessor visible lattice rules idMap d) {r : GitReference}
    (hr : r ∈ listing) : ∃ s ∈ exportedRefs gix repo.refs visible idMap,
      s.refName = r.name ∧ ∀ id, Peels gix d s.sha id → r.peelToId = .ok id := by
  obtain ⟨p, text, hpath, htext⟩ := (hg.lists r.name).mp ⟨r, hr, rfl⟩
  rw [hpath] at htext
  obtain ⟨s, hs, hspath, rfl⟩ := (h.refs p text).mp htext
  have hname : s.refName = r.name := gitRefPath_injective (hspath.trans hpath.symm)
  refine ⟨s, hs, hname, fun id hpeels => hg.peels r hr s.sha id ?_ hpeels⟩
  rwa [hpath]

/-- A ref that was exported is listed. -/
lemma GitReadsBack.mem_of_exported (hg : GitReadsBack gix d g listing)
    (h : Exported L gix repo accessor visible lattice rules idMap d) {s : LooseRef}
    (hs : s ∈ exportedRefs gix repo.refs visible idMap) : ∃ r ∈ listing, r.name = s.refName := by
  obtain ⟨kind, n, hpath⟩ := path_of_mem_exportedRefs hs
  refine (hg.lists s.refName).mpr ⟨kind :: n.segments, looseRefText s.sha, hpath, ?_⟩
  have hlookup := (h.refs (kind :: n.segments) (looseRefText s.sha)).mpr ⟨s, hs, hpath, rfl⟩
  rw [← hpath] at hlookup
  exact hlookup

/-- **What is listed**: the branches on the commits of their heads, the tags on those of their
targets. -/
lemma GitReadsBack.listed (hg : GitReadsBack gix d g listing)
    (h : Exported L gix repo accessor visible lattice rules idMap d) {r : GitReference}
    (hr : r ∈ listing) :
    (∃ n T, ∃ c : GitId, ExportedTimeline L repo visible n T ∧ idMap[T.head]? = some c ∧
      r.name = "refs/heads/" ++ n.asStr ∧ r.peelToId = .ok c) ∨
    ∃ n t, ∃ c : GitId, ExportedTag L repo visible n t ∧ idMap[t.target]? = some c ∧
      r.name = "refs/tags/" ++ n.asStr ∧ r.peelToId = .ok c := by
  obtain ⟨s, hs, hname, hpeel⟩ := hg.exported_of_mem h hr
  rcases mem_exportedRefs.mp hs with ⟨n, hn, T, hT, c, hc, rfl⟩ | ⟨n, hn, t, ht, c, hc, rfl⟩
  · exact .inl ⟨n, T, c, h.commits.timeline_iff.mpr ⟨hn, hT, c, hc⟩, hc, hname.symm,
      hpeel c (h.peels_commit hc)⟩
  · refine .inr ⟨n, t, c, h.commits.tag_iff.mpr ⟨hn, ht, c, hc⟩, hc, hname.symm.trans ?_,
      hpeel c (h.peels_tag hs hc)⟩
    rw [tagLooseRef]
    split <;> rfl

/-- A branch is listed on the commit of its head. -/
lemma GitReadsBack.listed_timeline (hg : GitReadsBack gix d g listing)
    (h : Exported L gix repo accessor visible lattice rules idMap d) {n : RefName} {T : Timeline}
    {c : GitId} (hT : ExportedTimeline L repo visible n T) (hc : idMap[T.head]? = some c) :
    ∃ r ∈ listing, r.name = "refs/heads/" ++ n.asStr ∧ r.peelToId = .ok c := by
  have hs : (⟨"refs/heads/" ++ n.asStr, c, []⟩ : LooseRef) ∈
      exportedRefs gix repo.refs visible idMap :=
    mem_exportedRefs.mpr (.inl ⟨n, hT.shown, T, hT.timeline, c, hc, rfl⟩)
  obtain ⟨r, hr, hname⟩ := hg.mem_of_exported h hs
  refine ⟨r, hr, hname, ?_⟩
  have hpath : gitRefPath r.name = refsDir :: headsDir :: n.segments := by
    rw [hname, gitRefPath_heads]
  rcases hg.listed h hr with ⟨n', T', c', hT', hc', hname', hpeel⟩ | ⟨n', t, c', -, -, hname', -⟩
  · rw [hname', gitRefPath_heads] at hpath
    obtain rfl : n' = n := RefName.segments_injective (List.cons.inj (List.cons.inj hpath).2).2
    have hget := hT'.timeline.symm.trans hT.timeline
    cases hget
    rwa [Option.some.inj (hc.symm.trans hc')]
  · rw [hname', gitRefPath_tags] at hpath
    exact absurd (List.cons.inj (List.cons.inj hpath).2).1 (by decide)

/-- A name that was stripped was exported under it. -/
lemma stripPrefix_append {pfx : String} {n : RefName} {short : String}
    (h : stripPrefix pfx (pfx ++ n.asStr) = some short) : short = n.asStr := by
  have hlist := stripPrefix_eq_some.mp h
  rw [String.toList_append] at hlist
  exact (String.toList_injective (List.append_cancel_left hlist)).symm

/-- A name does not start with two prefixes that differ in their first letters. -/
lemma stripPrefix_other {pfx other s short : String} {k : ℕ} (hpfx : k ≤ pfx.toList.length)
    (hother : k ≤ other.toList.length) (hne : other.toList.take k ≠ pfx.toList.take k) :
    stripPrefix pfx (other ++ s) ≠ some short := by
  intro h
  have hlist := stripPrefix_eq_some.mp h
  rw [String.toList_append] at hlist
  have htake := congrArg (List.take k) hlist
  rw [List.take_append_of_le_length hother, List.take_append_of_le_length hpfx] at htake
  exact hne htake

/-- The branches of an import are the exported timelines, on the commits of their heads. -/
lemma GitReadsBack.timeline_of_branch (hg : GitReadsBack gix d g listing)
    (h : Exported L gix repo accessor visible lattice rules idMap d) {selected : List String}
    {short : String} {id : GitId} (hmem : (short, id) ∈ listing.filterMap (listedBranch selected)) :
    ∃ n T, ExportedTimeline L repo visible n T ∧ idMap[T.head]? = some id ∧ short = n.asStr := by
  obtain ⟨r, hr, hbranch⟩ := List.mem_filterMap.mp hmem
  obtain ⟨hstrip, -, hpeel⟩ := listedBranch_eq_some.mp hbranch
  rcases hg.listed h hr with ⟨n, T, c, hT, hc, hname, hpeel'⟩ | ⟨n, t, c, -, -, hname, -⟩
  · rw [hname] at hstrip
    obtain rfl := Except.ok.inj (hpeel.symm.trans hpeel')
    exact ⟨n, T, hT, hc, stripPrefix_append hstrip⟩
  · rw [hname] at hstrip
    exact absurd hstrip (stripPrefix_other (k := 6) (by decide) (by decide) (by decide))

/-- The tags of an import are the exported tags, on the commits of their targets. -/
lemma GitReadsBack.tag_of_tag (hg : GitReadsBack gix d g listing)
    (h : Exported L gix repo accessor visible lattice rules idMap d)
    {short : String} {id : GitId} (hmem : (short, id) ∈ listing.filterMap listedTag) :
    ∃ n t, ExportedTag L repo visible n t ∧ idMap[t.target]? = some id ∧ short = n.asStr := by
  obtain ⟨r, hr, htag⟩ := List.mem_filterMap.mp hmem
  obtain ⟨hstrip, hpeel⟩ := stripPrefix_of_listedTag htag
  rcases hg.listed h hr with ⟨n, T, c, -, -, hname, -⟩ | ⟨n, t, c, ht, hc, hname, hpeel'⟩
  · rw [hname] at hstrip
    exact absurd hstrip (stripPrefix_other (k := 6) (by decide) (by decide) (by decide))
  · rw [hname] at hstrip
    obtain rfl := Except.ok.inj (hpeel.symm.trans hpeel')
    exact ⟨n, t, ht, hc, stripPrefix_append hstrip⟩

/-- The commits that were written. -/
def exportedCommits (idMap : BTreeMap ObjectId GitId) : Finset GitId :=
  (idMap.toList.map Prod.snd).toFinset

lemma mem_exportedCommits {c : GitId} :
    c ∈ exportedCommits idMap ↔ ∃ x : ObjectId, idMap[x]? = some c := by
  simp [exportedCommits, Std.ExtTreeMap.mem_toList_iff_getElem?_eq_some]

lemma GitReadsBack.commitsClosed (hg : GitReadsBack gix d g listing)
    (h : Exported L gix repo accessor visible lattice rules idMap d) :
    CommitsClosed g (exportedCommits idMap) := by
  intro c hc
  obtain ⟨x, hx⟩ := mem_exportedCommits.mp hc
  obtain ⟨tree, parents, identity, message, rfl, hmem, hparents⟩ := h.commits.written x c hx
  obtain ⟨o, commit, ho, hcommit, hids, -⟩ := hg.commits tree parents identity message hmem
  refine ⟨o, commit, ho, hcommit, fun p hp => ?_⟩
  rw [hids] at hp
  exact mem_exportedCommits.mpr (hparents p hp)

/-- Every commit that was written is recorded, with a snapshot that became it. -/
def Recorded (idMap : BTreeMap ObjectId GitId) (sidecar : IdentityMap) : Prop :=
  ∀ (x : ObjectId) (c : GitId), idMap[x]? = some c →
    ∃ y : ObjectId, idMap[y]? = some c ∧ sidecar.boleForGit c = some y

/-- The turns that the search for the commits takes. -/
def importBound (g : GitRepo) (listing : List GitReference) (idMap : BTreeMap ObjectId GitId) : ℕ :=
  2 * listing.length + ∑ x ∈ exportedCommits idMap, 2 * parentCount g x

/-- **No commit of an export is translated.** -/
lemma translatePasses_exported (hg : GitReadsBack gix d g listing)
    (h : Exported L gix repo accessor visible lattice rules idMap d) {sidecar : IdentityMap}
    (hrecorded : Recorded idMap sidecar) {ireq : ImportRequest}
    (hfuel : importBound g listing idMap ≤ ireq.fuel) :
    ∃ summary, translatePasses L ireq g ⟨repo, sidecar⟩ =
      (.ok ⟨listing.filterMap (listedBranch ireq.opts.branches), listing.filterMap listedTag⟩,
        ⟨repo.objects, sidecar, summary⟩) := by
  have hpeel : ∀ r ∈ listing, ∃ id, r.peelToId = .ok id := by
    intro r hr
    rcases hg.listed h hr with ⟨n, T, c, -, -, -, hpeel⟩ | ⟨n, t, c, -, -, -, hpeel⟩
    · exact ⟨c, hpeel⟩
    · exact ⟨c, hpeel⟩
  have hcollect : collectRefs ireq.opts.branches (listing.map .ok) ⟨[], []⟩ =
      .ok ⟨[] ++ listing.filterMap (listedBranch ireq.opts.branches),
        [] ++ listing.filterMap listedTag⟩ := collectRefs_ok hpeel
  have hheads : ∀ x ∈ (listing.filterMap (listedBranch ireq.opts.branches)).map Prod.snd,
      x ∈ exportedCommits idMap := by
    intro x hx
    obtain ⟨⟨short, id⟩, hmem, rfl⟩ := List.mem_map.mp hx
    obtain ⟨n, T, -, hc, -⟩ := hg.timeline_of_branch h hmem
    exact mem_exportedCommits.mpr ⟨T.head, hc⟩
  have hturns : 2 * ((listing.filterMap (listedBranch ireq.opts.branches)).map Prod.snd).length +
      ∑ x ∈ exportedCommits idMap, 2 * parentCount g x ≤ ireq.fuel := by
    refine le_trans (Nat.add_le_add_right (Nat.mul_le_mul_left 2 ?_) _) hfuel
    rw [List.length_map]
    exact List.length_filterMap_le _ _
  obtain ⟨ordered, htopo, hordered⟩ := topoCommits_ok (hg.commitsClosed h) hheads hturns
  have hskip : ∃ summary, translateCommits L g ireq.mtime ireq.opts.dryRun ireq.fuel ordered
      ⟨repo.objects, sidecar, .default⟩ = (.ok (), ⟨repo.objects, sidecar, summary⟩) :=
    translateCommits_recorded fun x hx => by
      obtain ⟨y, hy⟩ := mem_exportedCommits.mp (hordered x hx)
      obtain ⟨id, -, hid⟩ := hrecorded y x hy
      exact ⟨id, hid⟩
  obtain ⟨summary, hskip⟩ := hskip
  refine ⟨summary, ?_⟩
  have hrefs : gitResult (g.references >>= fun l => collectRefs ireq.opts.branches l ⟨[], []⟩) =
      .ok ⟨listing.filterMap (listedBranch ireq.opts.branches), listing.filterMap listedTag⟩ := by
    rw [hg.references]
    exact congrArg gitResult hcollect
  rw [translatePasses]
  simp only [hrefs, htopo, hskip]

/-- The object that an exported tag points at can be decoded. -/
lemma GitReadsBack.annotatedTagMeta_ok (hg : GitReadsBack gix d g listing)
    (h : Exported L gix repo accessor visible lattice rules idMap d) {n : RefName} {t : Tag}
    {c : GitId} (ht : ExportedTag L repo visible n t) (hc : idMap[t.target]? = some c)
    {x : ObjectId} (hx : ∃ o, repo.objects.get L x = .ok o) :
    ∃ found, annotatedTagMeta L g repo.objects n.asStr x = .ok found := by
  have hr : tagLooseRef gix n t c ∈ exportedRefs gix repo.refs visible idMap :=
    mem_exportedRefs.mpr (.inr ⟨n, ht.shown, t, ht.tag, c, hc, rfl⟩)
  have hdirect : g.directTarget ("refs/tags/" ++ n.asStr) = some (tagLooseRef gix n t c).sha := by
    exact hg.points _ _ _ (gitRefPath_tags n)
      ((h.refs _ _).mpr ⟨_, hr, path_tagLooseRef gix n t c, rfl⟩)
  -- it is a commit or a tag
  have hobject : ∃ o, g.findObject (tagLooseRef gix n t c).sha = .ok o ∧
      (o.tag = none ∨ ∃ tag, o.tag = some (.ok tag)) := by
    have hdata := h.data _ hr
    rw [tagLooseRef] at hdata ⊢
    split at hdata
    · obtain ⟨tree, parents, identity, message, rfl, hmem, -⟩ := h.commits.written _ c hc
      obtain ⟨o, commit, ho, -, -, hnone⟩ := hg.commits tree parents identity message hmem
      exact ⟨o, ho, .inl hnone⟩
    · obtain ⟨o, tag, ho, htag⟩ := hg.tags _ _ _ _ (hdata _ (List.mem_singleton.mpr rfl))
      exact ⟨o, ho, .inr ⟨tag, htag⟩⟩
  obtain ⟨o, ho, htag⟩ := hobject
  obtain ⟨obj, hobj⟩ := hx
  rw [annotatedTagMeta, hdirect]
  simp only [Option.bind_some, ho, Except.toOption]
  rcases htag with htag | ⟨tag, htag⟩
  · rw [htag, hobj]
    dsimp only
    split <;> simp_all
  · rw [htag]
    exact ⟨_, rfl⟩

end ReadBack

/-! ### The refs that are imported -/

section Imports

variable {opts : ImportOptions} {objects : ObjectStore} {map : IdentityMap} {p : RefPass}
  {n : RefName} {c : GitId}

/-- A timeline that is imported on its own head stays. -/
lemma importBranch_same (hseen : SeenSame p.seen) {T : Timeline}
    (hT : p.refs.get n = some (.timeline T)) (hc : map.boleForGit c = some T.head) :
    importBranch L opts objects map n.asStr c p =
      (.ok (), { p with seen := p.seen.insert n.asStr n.asStr }) := by
  have hmeet : findCommonAncestor L objects T.head T.head = .ok (some T.head) := by
    rw [findCommonAncestor, if_pos rfl]
  rw [importBranch, sanitizedRef_asStr hseen]
  simp only [hc, RefStore.getTimeline, hT, hmeet, ne_eq, not_true_eq_false, and_false, if_false]

/-- A tag that is there stays. -/
lemma importTag_same (hseen : SeenSame p.seen) {t : Tag} (ht : p.refs.get n = some (.tag t))
    (hfound : ∀ x, map.boleForGit c = some x →
      ∃ found, annotatedTagMeta L g objects n.asStr x = .ok found) :
    importTag L g objects map n.asStr c p =
      (.ok (), { p with seen := p.seen.insert n.asStr n.asStr }) := by
  rw [importTag, sanitizedRef_asStr hseen]
  dsimp only
  rw [translateTag]
  cases hc : map.boleForGit c with
  | none => rfl
  | some x =>
      obtain ⟨⟨message, createdAt⟩, hx⟩ := hfound x hc
      simp only [hx, RefStore.getTag, ht]

/-- A loop whose turns succeed and keep an invariant. -/
lemma refLoop_ok {turn : String → GitId → RefPass → Result Unit × RefPass}
    {P : RefPass → Prop} {list : List (String × GitId)}
    (hturn : ∀ e ∈ list, ∀ p, P p → ∃ p', turn e.1 e.2 p = (.ok (), p') ∧ P p') (hp : P p) :
    ∃ p', refLoop turn list p = (.ok (), p') ∧ P p' := by
  induction list generalizing p with
  | nil => exact ⟨p, rfl, hp⟩
  | cons e rest ih =>
      obtain ⟨q, hq, hPq⟩ := hturn e List.mem_cons_self p hp
      obtain ⟨short, id⟩ := e
      rw [refLoop, hq]
      exact ih (fun e he => hturn e (List.mem_cons_of_mem _ he)) hPq

/-- A ref is set by a write, and the others stay. -/
lemma get_of_readWrite {s t : RefStore} {op : RefOp} {v : Option Ref}
    (hv : op.next (s.get op.name) = .ok (some v)) (h : s.readWrite op = (.ok (), t)) :
    t.get op.name = v := by
  rw [RefStore.readWrite, hv] at h
  obtain rfl := (Prod.mk.inj h).2
  have hmap := congrFun (RefStore.map_write s (op.name, v)) op.name
  rwa [Function.update_self] at hmap

/-- **A branch that is imported is on the recorded snapshot of its commit.** -/
lemma importBranch_head (hseen : SeenSame p.seen) {x : ObjectId} (hc : map.boleForGit c = some x)
    {p' : RefPass} (h : importBranch L opts objects map n.asStr c p = (.ok (), p')) :
    SeenSame p'.seen ∧ ∃ T, p'.refs.get n = some (.timeline T) ∧ T.head = x := by
  rw [importBranch, sanitizedRef_asStr hseen] at h
  simp only [hc] at h
  cases hget : p.refs.getTimeline n with
  | error e =>
      rw [hget] at h
      cases h
  | ok found =>
      rw [hget] at h
      cases found with
      | none =>
          dsimp only at h
          split at h
          · cases h
          · next refs hcreate =>
              cases h
              refine ⟨hseen.insert _, ⟨x, opts.timelinePolicy, 0, "persistent", none⟩, ?_, rfl⟩
              refine get_of_readWrite ?_ hcreate
              have hnone : p.refs.get n = none := by
                rw [RefStore.getTimeline] at hget
                split at hget <;> simp_all
              simp [RefOp.next, RefOp.name, hnone]
      | some T =>
          have hT := RefStore.getTimeline_eq_some.mp hget
          dsimp only at h
          split at h
          · cases h
          next ancestor _ =>
          split_ifs at h with hff hne
          · cases h
          · split at h
            · cases h
            · next refs hadvance =>
                cases h
                refine ⟨hseen.insert _, { T with head := x }, ?_, rfl⟩
                refine get_of_readWrite ?_ hadvance
                simp [RefOp.next, RefOp.name, hT]
          · cases h
            exact ⟨hseen.insert _, T, hT, not_not.mp hne⟩

/-- No tag takes the place of a ref. -/
lemma importTag_keeps {short : String} {v : Ref} (h : p.refs.get n = some v) :
    (importTag L g objects map short c p).2.refs.get n = some v := by
  rw [importTag]
  split
  · exact h
  next name seen _ =>
  rw [translateTag]
  split
  · exact h
  next x _ =>
  split
  · exact h
  next message createdAt _ =>
  split
  · exact h
  · exact h
  · next hget =>
      have hnone : p.refs.get name = none := by
        rw [RefStore.getTag] at hget
        split at hget <;> simp_all
      have hkeep : (p.refs.createTag name x message createdAt).2.get n = some v := by
        have hmap := congrFun (RefStore.map_write p.refs
          (name, some (.tag ⟨x, createdAt, message⟩))) n
        have hne : n ≠ name := by
          rintro rfl
          rw [hnone] at h
          cases h
        rw [Function.update_of_ne hne] at hmap
        rw [RefStore.createTag, RefStore.readWrite]
        simp only [RefOp.name, RefOp.next, hnone, Option.isSome_none, Bool.false_eq_true, if_false]
        exact hmap.trans h
      split
      · next heq =>
          rw [heq] at hkeep
          exact hkeep
      · next heq =>
          rw [heq] at hkeep
          exact hkeep

/-- What the turns keep the loop keeps. -/
lemma refLoop_keeps {turn : String → GitId → RefPass → Result Unit × RefPass}
    {P : RefPass → Prop} (hturn : ∀ short id p, P p → P (turn short id p).2)
    {list : List (String × GitId)} (hp : P p) : P (refLoop turn list p).2 := by
  induction list generalizing p with
  | nil => exact hp
  | cons e rest ih =>
      obtain ⟨short, id⟩ := e
      have hnext := hturn short id p hp
      rw [refLoop]
      split
      · next heq =>
          rw [heq] at hnext
          exact hnext
      · next heq =>
          rw [heq] at hnext
          exact ih hnext

/-- What each turn that succeeds makes, given an invariant of the turns, the loop makes when there
is a turn. -/
lemma refLoop_makes {turn : String → GitId → RefPass → Result Unit × RefPass}
    {P Q : RefPass → Prop} {list : List (String × GitId)} (hne : list ≠ [])
    (hturn : ∀ e ∈ list, ∀ p p', P p → turn e.1 e.2 p = (.ok (), p') → P p' ∧ Q p')
    (hp : P p) {p' : RefPass} (h : refLoop turn list p = (.ok (), p')) : Q p' := by
  induction list generalizing p with
  | nil => exact absurd rfl hne
  | cons e rest ih =>
      obtain ⟨short, id⟩ := e
      rw [refLoop] at h
      split at h
      · cases h
      · next q hq =>
          obtain ⟨hP, hQ⟩ := hturn _ List.mem_cons_self p q hp hq
          cases rest with
          | nil =>
              cases h
              exact hQ
          | cons e rest =>
              exact ih (List.cons_ne_nil _ _)
                (fun e he => hturn e (List.mem_cons_of_mem _ he)) hP h

end Imports

section Same

variable {idMap : BTreeMap ObjectId GitId} {d : GitDir} {listing : List GitReference}
  {sidecar : IdentityMap}

/-- The head of every branch is the snapshot that its commit is recorded with. -/
def HeadsRecorded (L : Linked) (repo : Repository) (visible : List RefName)
    (idMap : BTreeMap ObjectId GitId) (sidecar : IdentityMap) : Prop :=
  ∀ n T, ExportedTimeline L repo visible n T → ∀ c : GitId, idMap[T.head]? = some c →
    sidecar.boleForGit c = some T.head

/-- **An import leaves the refs as they are** where the heads are recorded. -/
lemma importRefs_same (hg : GitReadsBack gix d g listing)
    (h : Exported L gix repo accessor visible lattice rules idMap d)
    (hreads : ∀ (x : ObjectId) (c : GitId), idMap[x]? = some c → ∃ o, repo.objects.get L x = .ok o)
    (hrecorded : Recorded idMap sidecar) (hheads : HeadsRecorded L repo visible idMap sidecar)
    (opts : ImportOptions) (summary : ImportSummary) :
    ∃ p, importRefs L opts g
        ⟨listing.filterMap (listedBranch opts.branches), listing.filterMap listedTag⟩
        ⟨repo.objects, sidecar, summary⟩ repo.refs = (.ok (), p) ∧ p.refs = repo.refs := by
  have hbranch : ∀ e ∈ listing.filterMap (listedBranch opts.branches), ∀ p : RefPass,
      (SeenSame p.seen ∧ p.refs = repo.refs) →
      ∃ p', importBranch L opts repo.objects sidecar e.1 e.2 p = (.ok (), p') ∧
        SeenSame p'.seen ∧ p'.refs = repo.refs := by
    rintro ⟨short, c⟩ hmem p ⟨hseen, hrefs⟩
    obtain ⟨n, T, hT, hc, rfl⟩ := hg.timeline_of_branch h hmem
    exact ⟨_, importBranch_same hseen (hrefs ▸ hT.timeline) (hheads n T hT c hc),
      hseen.insert _, hrefs⟩
  have htag : ∀ e ∈ listing.filterMap listedTag, ∀ p : RefPass,
      (SeenSame p.seen ∧ p.refs = repo.refs) →
      ∃ p', importTag L g repo.objects sidecar e.1 e.2 p = (.ok (), p') ∧
        SeenSame p'.seen ∧ p'.refs = repo.refs := by
    rintro ⟨short, c⟩ hmem p ⟨hseen, hrefs⟩
    obtain ⟨n, t, ht, hc, rfl⟩ := hg.tag_of_tag h hmem
    refine ⟨_, importTag_same hseen (hrefs ▸ ht.tag) fun x hx => ?_, hseen.insert _, hrefs⟩
    obtain ⟨y, hy, hyc⟩ := hrecorded _ c hc
    obtain rfl := Option.some.inj (hx.symm.trans hyc)
    exact hg.annotatedTagMeta_ok h ht hc (hreads x c hy)
  obtain ⟨p, hbranches, hseen, hrefs⟩ := refLoop_ok
    (P := fun p => SeenSame p.seen ∧ p.refs = repo.refs) (p := ⟨repo.refs, summary, ∅⟩)
    hbranch ⟨SeenSame.empty, rfl⟩
  obtain ⟨q, htags, -, hrefs'⟩ := refLoop_ok
    (P := fun p => SeenSame p.seen ∧ p.refs = repo.refs) htag ⟨hseen, hrefs⟩
  refine ⟨q, ?_, hrefs'⟩
  rw [importRefs]
  simp only [hbranches, htags]

/-- A call of `git_import` without force and without a file of label rules, whose sidecar can be
read and written. -/
structure ImportRequest.Plain (ireq : ImportRequest) (g : GitRepo) : Prop where
  git : ireq.git = .ok g
  load : ireq.load = .ok ()
  save : ireq.save = .ok ()
  force : ireq.opts.force = false
  labelRuleset : ireq.opts.labelRuleset = none

lemma gitImport_same (hg : GitReadsBack gix d g listing)
    (h : Exported L gix repo accessor visible lattice rules idMap d)
    (hreads : ∀ (x : ObjectId) (c : GitId), idMap[x]? = some c → ∃ o, repo.objects.get L x = .ok o)
    (hrecorded : Recorded idMap sidecar) (hheads : HeadsRecorded L repo visible idMap sidecar)
    {ireq : ImportRequest} (hplain : ireq.Plain g)
    (hfuel : importBound g listing idMap ≤ ireq.fuel) :
    ∃ summary s', gitImport L ireq ⟨repo, sidecar⟩ = (.ok summary, s') ∧
      s'.repo.refs = repo.refs := by
  obtain ⟨summary, hpasses⟩ := translatePasses_exported hg h hrecorded hfuel
  obtain ⟨p, hp, hrefs⟩ := importRefs_same hg h hreads hrecorded hheads ireq.opts summary
  rw [gitImport]
  simp only [hplain.git, hplain.load, hpasses]
  split_ifs with hdry
  · exact ⟨_, _, rfl, rfl⟩
  · simp only [hp, importRules, hplain.labelRuleset, hplain.save]
    exact ⟨_, _, rfl, hrefs⟩

end Same

/-! ### The round trip -/

/-- **Export then import**: into a new repository, with the same sidecar and without force, both
succeed and no head and no target of a tag changes. -/
def RoundTrips (L : Linked) (gix : Gix) (repo : Repository) (accessor : Accessor) : Prop :=
  ∀ (req : ProjectRequest) (sidecar : IdentityMap), req.accessor = accessor → req.Mapped →
    (∀ l, (req.iter l).Perm l) →
    ∃ d sidecar', projectImpl L gix req repo ⟨none, sidecar⟩ = (.ok (), ⟨some d, sidecar'⟩) ∧
      ∃ g, gix.open_ d = .ok g ∧ ∃ bound, ∀ ireq : ImportRequest, ireq.Plain g →
        bound ≤ ireq.fuel → ∃ summary s', gitImport L ireq ⟨repo, sidecar'⟩ = (.ok summary, s') ∧
          ∀ n, (s'.repo.refs.get n).map Ref.target = (repo.refs.get n).map Ref.target

/-- No snapshot that is visited shares its commit with the head of an exported timeline. -/
def Unshared (L : Linked) (gix : Gix) (repo : Repository) (accessor : Accessor)
    (visible : List RefName) (lattice : LabelLattice) (rules : LabelRuleSet) : Prop :=
  ∀ n T, ExportedTimeline L repo visible n T → ∀ x, Visited L repo visible x → ∀ c,
    CommitOf L gix repo.objects lattice rules accessor T.head c →
    CommitOf L gix repo.objects lattice rules accessor x c → x = T.head

section RoundTrip

variable (hacyclic : ∀ x, ¬ Relation.TransGen (Parent L repo.objects) x x)
  (hgix : ∀ req sidecar d sidecar', req.accessor = accessor → req.Mapped →
    projectImpl L gix req repo ⟨none, sidecar⟩ = (.ok (), ⟨some d, sidecar'⟩) →
    ∃ g listing, gix.open_ d = .ok g ∧ GitReadsBack gix d g listing)

include hacyclic hgix

/-- Where no commit is shared the round trip is a no-op. -/
lemma roundTrips_of_unshared (hexport : Exportable L repo accessor visible lattice rules)
    (hunshared : Unshared L gix repo accessor visible lattice rules) :
    RoundTrips L gix repo accessor := by
  rintro req sidecar rfl hreq hperm
  have hproject : ∃ t', projectImpl L gix req repo ⟨none, sidecar⟩ = (.ok (), t') :=
    (projectImpl_ok_iff hacyclic hreq).mpr ⟨visible, lattice, rules, hexport⟩
  obtain ⟨t', hproject⟩ := hproject
  obtain ⟨idMap, d, rfl, h⟩ := exported_of_projectImpl hacyclic hreq hexport hproject
  obtain ⟨g, listing, hopen, hg⟩ := hgix req sidecar d _ rfl hreq hproject
  have hrecorded : Recorded idMap (recordCommits req idMap sidecar) :=
    fun x c hc => recorded_of_commit hperm hc
  have hheads : HeadsRecorded L repo visible idMap (recordCommits req idMap sidecar) := by
    intro n T hT c hc
    obtain ⟨y, hy, hyc⟩ := hrecorded T.head c hc
    obtain ⟨hvisited, hcommit⟩ := (h.commits.commit y c).mp hy
    rw [hyc, hunshared n T hT y hvisited c ((h.commits.commit _ c).mp hc).2 hcommit]
  have hreads : ∀ (x : ObjectId) (c : GitId), idMap[x]? = some c →
      ∃ o, repo.objects.get L x = .ok o := fun x c hc =>
    (hexport.projectable x ((h.commits.commit x c).mp hc).1).reads
  refine ⟨d, _, hproject, g, hopen, importBound g listing idMap, fun ireq hplain hfuel => ?_⟩
  obtain ⟨summary, s', himport, hrefs⟩ :=
    gitImport_same hg h hreads hrecorded hheads hplain hfuel
  exact ⟨summary, s', himport, fun n => by rw [hrefs]⟩

omit hacyclic hgix in
/-- An import of one branch alone that succeeds puts its timeline on the recorded snapshot. -/
lemma head_of_gitImport {idMap : BTreeMap ObjectId GitId} {d : GitDir}
    {listing : List GitReference} {sidecar : IdentityMap} (hg : GitReadsBack gix d g listing)
    (h : Exported L gix repo accessor visible lattice rules idMap d)
    (hrecorded : Recorded idMap sidecar) {n : RefName} {T : Timeline} {c : GitId}
    (hT : ExportedTimeline L repo visible n T) (hc : idMap[T.head]? = some c) {x : ObjectId}
    (hx : sidecar.boleForGit c = some x) {ireq : ImportRequest} (hplain : ireq.Plain g)
    (hbranches : ireq.opts.branches = [n.asStr]) (hdry : ireq.opts.dryRun = false)
    (hfuel : importBound g listing idMap ≤ ireq.fuel) {summary : ImportSummary} {s' : Importer}
    (himport : gitImport L ireq ⟨repo, sidecar⟩ = (.ok summary, s')) :
    ∃ T', s'.repo.refs.get n = some (.timeline T') ∧ T'.head = x := by
  obtain ⟨counts, hpasses⟩ := translatePasses_exported hg h hrecorded hfuel
  -- what is selected is the one branch
  have hbranch : ∀ e ∈ listing.filterMap (listedBranch ireq.opts.branches), e = (n.asStr, c) := by
    rintro ⟨short, id⟩ hmem
    obtain ⟨m, T', hT', hid, hshort⟩ := hg.timeline_of_branch h hmem
    obtain ⟨r, hr, hlisted⟩ := List.mem_filterMap.mp hmem
    have hselected := (listedBranch_eq_some.mp hlisted).2.1
    rw [hbranches] at hselected
    have hname : short = n.asStr := by simpa using hselected
    obtain rfl : m = n := RefName.ext' (hshort.symm.trans hname)
    cases hT'.timeline.symm.trans hT.timeline
    rw [hname, Option.some.inj (hid.symm.trans hc)]
  have hne : listing.filterMap (listedBranch ireq.opts.branches) ≠ [] := by
    obtain ⟨r, hr, hname, hpeel⟩ := hg.listed_timeline h hT hc
    refine List.ne_nil_of_mem (List.mem_filterMap.mpr ⟨r, hr, listedBranch_eq_some.mpr
      ⟨?_, .inr (hbranches ▸ List.mem_singleton.mpr rfl), hpeel⟩⟩)
    rw [hname, stripPrefix_eq_some, String.toList_append]
  rw [gitImport] at himport
  simp only [hplain.git, hplain.load, hpasses, hdry, Bool.false_eq_true, if_false, importRules,
    hplain.labelRuleset, hplain.save] at himport
  split at himport
  · cases himport
  next p hp =>
  obtain ⟨-, rfl⟩ := Prod.mk.inj himport
  rw [importRefs] at hp
  split at hp
  · cases hp
  next q hq =>
  obtain ⟨T', hT', hhead⟩ := refLoop_makes hne (P := fun p => SeenSame p.seen)
    (fun e he p p' hseen hturn => by
      rw [hbranch e he] at hturn
      exact importBranch_head hseen hx hturn) SeenSame.empty hq
  have hkeep : (refLoop (importTag L g repo.objects sidecar) (listing.filterMap listedTag)
      q).2.refs.get n = some (.timeline T') :=
    refLoop_keeps (P := fun p => p.refs.get n = some (.timeline T'))
      (fun _ _ _ => importTag_keeps) hT'
  rw [hp] at hkeep
  exact ⟨T', hkeep, hhead⟩

/-- Where a commit is shared with the head of a timeline, the other snapshot may be recorded. -/
lemma unshared_of_roundTrips (hexport : Exportable L repo accessor visible lattice rules)
    (hround : RoundTrips L gix repo accessor) :
    Unshared L gix repo accessor visible lattice rules := by
  intro n T hT x hx c hhead hcommit
  let req : ProjectRequest := ⟨accessor, true, .ok (), .ok (), endingWith (x, c)⟩
  have hreq : req.Mapped := ⟨rfl, rfl, rfl⟩
  obtain ⟨d, sidecar', hproject, g, hopen, bound, himports⟩ :=
    hround req .new rfl hreq (perm_endingWith (x, c))
  obtain ⟨idMap, d', heq, h⟩ := exported_of_projectImpl hacyclic hreq hexport hproject
  cases heq
  obtain ⟨g', listing, hopen', hg⟩ := hgix req _ _ _ rfl hreq hproject
  cases hopen.symm.trans hopen'
  have hxc : idMap[x]? = some c := (h.commits.commit x c).mpr ⟨hx, hcommit⟩
  have hTc : idMap[T.head]? = some c := (h.commits.commit _ c).mpr ⟨hT.visited, hhead⟩
  let ireq : ImportRequest := ⟨.ok g, .ok (), .ok (),
    ⟨[n.asStr], .unrestricted, none, false, false⟩, none, max bound (importBound g listing idMap),
    fun acls _ => .ok acls⟩
  have hplain : ireq.Plain g := ⟨rfl, rfl, rfl, rfl, rfl⟩
  obtain ⟨summary, s', himport, hsame⟩ := himports ireq hplain (le_max_left _ _)
  obtain ⟨T', hT', rfl⟩ := head_of_gitImport hg h
    (fun x c hc => recorded_of_commit (perm_endingWith _) hc) hT hTc
    (recorded_endingWith rfl hxc) hplain rfl rfl (le_max_right _ _) himport
  have htarget := hsame n
  rw [hT', hT.timeline] at htarget
  exact Option.some.inj htarget

/-- **The round trip is a no-op** exactly when the export succeeds and no snapshot that it visits
shares its commit with the head of an exported timeline. -/
theorem roundTrip_iff : RoundTrips L gix repo accessor ↔ ∃ visible lattice rules,
    Exportable L repo accessor visible lattice rules ∧
      Unshared L gix repo accessor visible lattice rules := by
  constructor
  · intro hround
    let req : ProjectRequest := ⟨accessor, true, .ok (), .ok (), id⟩
    have hreq : req.Mapped := ⟨rfl, rfl, rfl⟩
    obtain ⟨d, sidecar', hproject, -⟩ := hround req .new rfl hreq fun l => .refl l
    obtain ⟨visible, lattice, rules, hexport⟩ := (projectImpl_ok_iff hacyclic hreq).mp
      ⟨_, hproject⟩
    exact ⟨visible, lattice, rules, hexport, unshared_of_roundTrips hacyclic hgix hexport hround⟩
  · rintro ⟨visible, lattice, rules, hexport, hunshared⟩
    exact roundTrips_of_unshared hacyclic hgix hexport hunshared

end RoundTrip

/-! ### A file that is not shown -/

/-- A tree, the same tree with a file more, and a snapshot of each, alike in all else. -/
def noteObjects : List Object :=
  let file : Object := .blob [104, 105]
  let plain : BTreeMap String TreeEntry := (∅ : BTreeMap String TreeEntry).insert "a"
    ⟨file.refId, .blob⟩
  let keyed := plain.insert "key" ⟨file.refId, .blob⟩
  [file, .tree ⟨plain⟩, .tree ⟨keyed⟩,
    .snapshot ⟨(Object.tree ⟨plain⟩).refId, [], "ada", 1, "m"⟩,
    .snapshot ⟨(Object.tree ⟨keyed⟩).refId, [], "ada", 1, "m"⟩]

def noteLinked : Linked := .over noteObjects

def noteSnapshot : ObjectId := (noteObjects.getD 3 (.blob [])).refId

def keyedSnapshot : ObjectId := (noteObjects.getD 4 (.blob [])).refId

def mainLine : RefName := ⟨"main", RefName.valid_main⟩

def featureLine : RefName := ⟨"feature", RefName.valid_feature⟩

def lineAt (head : ObjectId) : Ref := .timeline ⟨head, .unrestricted, 0, "persistent", none⟩

/-- The main line on the plain snapshot. -/
def mainRefs : RefStore := ⟨(∅ : BTreeMap RefName Ref).insert mainLine (lineAt noteSnapshot)⟩

/-- And another line on the snapshot with the file more. -/
def bothRefs : RefStore := ⟨mainRefs.refs.insert featureLine (lineAt keyedSnapshot)⟩

/-- The file that the trees differ in is protected. -/
def noteRepo (refs : RefStore) : Repository :=
  { Repository.memory with
    objects := .holding noteLinked noteObjects
    refs := refs
    acls := .shipped ["key"] [] [] }

/-- The ids that git gives to the file, the tree and the commit. -/
def noteBlobId : GitId :=
  ⟨[0x32, 0xf9, 0x5c, 0x0d, 0x12, 0x44, 0xa7, 0x8b, 0x2b, 0xe1, 0xba, 0xb8, 0xde, 0x17, 0x90, 0x6f,
    0xab, 0xb2, 0xc4, 0xa8]⟩

def noteTreeId : GitId :=
  ⟨[0xf3, 0x33, 0x0b, 0xb1, 0x88, 0xe4, 0x5b, 0x11, 0xb3, 0x2c, 0xba, 0x79, 0x18, 0xa7, 0xd8, 0xcc,
    0x7c, 0x15, 0xd9, 0xed]⟩

def noteCommitId : GitId :=
  ⟨[0x8f, 0xff, 0x97, 0x69, 0x4a, 0x5d, 0x56, 0x2d, 0x0a, 0x4b, 0x66, 0x4e, 0x3d, 0x68, 0x69, 0x32,
    0x42, 0xde, 0x77, 0x6e]⟩

def noteCommit : Bytes := encodeCommit noteTreeId [] "ada <bole@local> 1 +0000" "m"

/-- The hash on what is written here. -/
def noteHash (kind : GitKind) (bytes : Bytes) : GitId :=
  if (kind, bytes) = (.blob, [104, 105]) then noteBlobId
  else if (kind, bytes) = (.tree, encodeTree [("a", false, noteBlobId)]) then noteTreeId
  else if (kind, bytes) = (.commit, noteCommit) then noteCommitId
  else ⟨bytes⟩

lemma noteHash_commit : noteHash .commit noteCommit = noteCommitId := by
  have hblob : (GitKind.commit, noteCommit) ≠ (.blob, [104, 105]) := fun h => by
    cases congrArg Prod.fst h
  have htree : (GitKind.commit, noteCommit) ≠ (.tree, encodeTree [("a", false, noteBlobId)]) :=
    fun h => by cases congrArg Prod.fst h
  rw [noteHash, if_neg hblob, if_neg htree, if_pos rfl]

/-- A new repository. -/
def noteBare : GitFiles := fun name =>
  if name = headFile then some (.file "ref: refs/heads/main\n")
  else if name = refsDir then some (.dir bareRefs) else none
where
  /-- No branches and no tags. -/
  bareRefs : GitFiles := fun kind =>
    if kind = headsDir ∨ kind = tagsDir then some (.dir emptyDir) else none

/-- The refs that are looked for. -/
def noteListing (d : GitDir) : List GitReference :=
  (["refs/heads/main", "refs/heads/feature"].filter fun name =>
    (lookup (gitRefPath name) d.files).isSome).map (⟨·, .ok noteCommitId⟩)

/-- The commit as it is read. -/
def noteObject : GitObject where
  data := noteCommit
  tryIntoCommit := .ok ⟨.ok noteTreeId, [], .ok ⟨"ada", "bole@local", 1⟩,
    .ok ⟨"ada", "bole@local", 1⟩, "m\n"⟩
  tryIntoTree := .error "not a tree"
  tag := none

def noteReader (d : GitDir) : GitRepo where
  references := .ok ((noteListing d).map .ok)
  findObject id := if id = noteCommitId then .ok noteObject else .error "not found"
  directTarget name := if (lookup (gitRefPath name) d.files).isSome then some noteCommitId else none

lemma noteBare_refsDir : noteBare refsDir = some (.dir noteBare.bareRefs) := by
  rw [noteBare, if_neg (by decide), if_pos rfl]

lemma bareRefs_eq_some {kind : List Char} {node : Node (List Char) String}
    (h : noteBare.bareRefs kind = some node) : node = .dir emptyDir := by
  rw [noteBare.bareRefs] at h
  split_ifs at h
  exact (Option.some.inj h).symm

lemma noteBare_refs (p : List (List Char)) : lookup (refsDir :: p) noteBare = none := by
  rw [Option.eq_none_iff_forall_ne_some]
  intro text htext
  rcases lookup_cons.mp htext with ⟨-, hfile⟩ | ⟨e, hdir, htext⟩
  · rw [noteBare_refsDir] at hfile
    cases hfile
  · rw [noteBare_refsDir] at hdir
    cases hdir
    cases p with
    | nil => cases htext
    | cons kind q =>
        rcases lookup_cons.mp htext with ⟨-, hfile⟩ | ⟨e, hdir, htext⟩
        · cases bareRefs_eq_some hfile
        · cases bareRefs_eq_some hdir
          simp at htext

lemma noteBare_dirs (p : List (List Char)) (h : IsDir (refsDir :: p) noteBare) : p.length ≤ 1 := by
  obtain ⟨e, hdir, h⟩ := isDir_cons.mp h
  rw [noteBare_refsDir] at hdir
  cases hdir
  cases p with
  | nil => exact Nat.zero_le 1
  | cons kind q =>
      obtain ⟨e, hdir, h⟩ := isDir_cons.mp h
      cases bareRefs_eq_some hdir
      rw [isDir_emptyDir.mp h]
      exact le_rfl

lemma noteBare_head : ¬ IsDir [headFile] noteBare := by
  intro h
  obtain ⟨e, hdir, -⟩ := isDir_cons.mp h
  rw [noteBare, if_pos rfl] at hdir
  cases hdir

def noteGix : Gix where
  hash := noteHash
  initBare := noteBare
  open_ d := .ok (noteReader d)
  init_refs := noteBare_refs
  init_dirs := noteBare_dirs
  init_head := noteBare_head

lemma noteGix_hash : noteGix.hash = noteHash := rfl

def noteRequest : ProjectRequest := ⟨.new, true, .ok (), .ok (), id⟩

/-- Both lines are exported on one commit. -/
lemma projectCommits_both :
    (projectCommits noteLinked noteGix noteRequest (noteRepo bothRefs)).1.map
      (fun found => (found.1, found.2[noteSnapshot]?, found.2[keyedSnapshot]?)) =
        .ok ([featureLine, mainLine], some noteCommitId, some noteCommitId) ∧
    ∀ e ∈ (projectCommits noteLinked noteGix noteRequest (noteRepo bothRefs)).2,
      e.1 ≠ .tag ∧ (e.1 = .commit → e.2 = noteCommit) := by
  decide +kernel

/-- No snapshot here has parents. -/
lemma not_parent_note {refs : RefStore} (x y : ObjectId) :
    ¬ Parent noteLinked (noteRepo refs).objects x y := by
  rintro ⟨snap, hsnap, hy⟩
  have hall : ∀ o ∈ noteObjects, ∀ s, o = .snapshot s → s.parents = [] := by
    simp only [noteObjects, List.mem_cons, List.not_mem_nil, or_false]
    rintro o (rfl | rfl | rfl | rfl | rfl) s hs <;> cases hs <;> rfl
  have hmem := ObjectStore.mem_of_object_over hsnap
  rw [hall _ hmem snap rfl] at hy
  cases hy

lemma acyclic_note {refs : RefStore} (x : ObjectId) :
    ¬ Relation.TransGen (Parent noteLinked (noteRepo refs).objects) x x := by
  intro h
  obtain ⟨y, hxy, -⟩ := Relation.TransGen.head'_iff.mp h
  exact not_parent_note x y hxy

lemma projectCommits_accessor {req req' : ProjectRequest} (h : req.accessor = req'.accessor) :
    projectCommits L gix req repo = projectCommits L gix req' repo := by
  rw [projectCommits, projectCommits, h]

/-- **The crate reads back** what is written here: lines, all on the one commit. -/
lemma noteGix_readsBack {refs : RefStore}
    (hrefs : ∀ n v, refs.get n = some v →
      (n = mainLine ∨ n = featureLine) ∧ ∃ T, v = .timeline T)
    (hwritten : ∀ e ∈ (projectCommits noteLinked noteGix noteRequest (noteRepo refs)).2,
      e.1 ≠ .tag ∧ (e.1 = .commit → e.2 = noteCommit))
    (req : ProjectRequest) (sidecar : IdentityMap) (d : GitDir) (sidecar' : IdentityMap)
    (haccessor : req.accessor = .new) (hreq : req.Mapped)
    (h : projectImpl noteLinked noteGix req (noteRepo refs) ⟨none, sidecar⟩ =
      (.ok (), ⟨some d, sidecar'⟩)) :
    ∃ g listing, noteGix.open_ d = .ok g ∧ GitReadsBack noteGix d g listing := by
  obtain ⟨visible, idMap, written, d', hcommits, hproject, heq⟩ := (projectImpl_eq_ok hreq).mp h
  cases heq
  obtain ⟨ordered, lattice, rules, hshows, -, hlattice, hrules, -⟩ :=
    projectCommits_eq_ok.mp hcommits
  have hfound := commits_of_projectCommits acyclic_note hlattice hrules hcommits
  obtain ⟨hdata, hfiles⟩ := projectRefs_leaves (nodup_listRefsFiltered hshows) rfl hproject
  have hline : ∀ r ∈ exportedRefs noteGix refs visible idMap, r.data = [] ∧
      (r.refName = "refs/heads/main" ∨ r.refName = "refs/heads/feature") ∧
      ∃ x : ObjectId, idMap[x]? = some r.sha := by
    intro r hr
    rcases mem_exportedRefs.mp hr with ⟨n, -, T, hT, c, hc, rfl⟩ | ⟨n, -, t, ht, -⟩
    · refine ⟨rfl, ?_, T.head, hc⟩
      rcases (hrefs n _ hT).1 with rfl | rfl
      · exact .inl rfl
      · exact .inr rfl
    · obtain ⟨-, T, hv⟩ := hrefs n _ ht
      cases hv
  have hwrites : ∀ e ∈ d.written, e.1 ≠ .tag ∧ (e.1 = .commit → e.2 = noteCommit) := by
    intro e he
    rw [hdata] at he
    rcases List.mem_append.mp he with he | he
    · refine hwritten e ?_
      have hsame : projectCommits noteLinked noteGix noteRequest (noteRepo refs) =
          projectCommits noteLinked noteGix req (noteRepo refs) :=
        projectCommits_accessor haccessor.symm
      rw [hsame, hcommits]
      exact he
    · obtain ⟨r, hr, he⟩ := List.mem_flatMap.mp he
      rw [(hline r hr).1] at he
      cases he
  have hhash : noteGix.hash .commit noteCommit = noteCommitId := by
    rw [noteGix_hash, noteHash_commit]
  have hsha : ∀ (x : ObjectId) (c : GitId), idMap[x]? = some c → c = noteCommitId := by
    intro x c hc
    obtain ⟨tree, parents, identity, message, hhashed, hmem, -⟩ := hfound.written x c hc
    have hbytes := (hwrites _ (by rw [hdata]; exact List.mem_append_left _ hmem)).2 rfl
    dsimp only at hbytes
    rw [hhashed, hbytes, hhash]
  have hfile : ∀ p text, lookup (refsDir :: p) d.files = some text →
      text = looseRefText noteCommitId ∧
        ∃ name ∈ ["refs/heads/main", "refs/heads/feature"], gitRefPath name = refsDir :: p := by
    intro p text htext
    obtain ⟨r, hr, hpath, rfl⟩ := (hfiles p text).mp htext
    obtain ⟨-, hname, x, hx⟩ := hline r hr
    rw [hsha x r.sha hx]
    exact ⟨rfl, r.refName, by simpa using hname, hpath⟩
  have hmain : ∃ p, gitRefPath "refs/heads/main" = refsDir :: p := ⟨_, rfl⟩
  have hfeature : ∃ p, gitRefPath "refs/heads/feature" = refsDir :: p := ⟨_, rfl⟩
  refine ⟨noteReader d, noteListing d, rfl, rfl, fun name => ⟨?_, ?_⟩, ?_, ?_, ?_, ?_⟩
  · rintro ⟨r, hr, rfl⟩
    obtain ⟨name, hname, rfl⟩ := List.mem_map.mp hr
    obtain ⟨hmem, hsome⟩ := List.mem_filter.mp hname
    obtain ⟨text, htext⟩ := Option.isSome_iff_exists.mp hsome
    obtain ⟨p, hp⟩ : ∃ p, gitRefPath name = refsDir :: p := by
      simp only [List.mem_cons, List.not_mem_nil, or_false] at hmem
      rcases hmem with rfl | rfl
      · exact hmain
      · exact hfeature
    exact ⟨p, text, hp, htext⟩
  · rintro ⟨p, text, hp, htext⟩
    rw [hp] at htext
    obtain ⟨-, name', hmem, hname'⟩ := hfile p text htext
    obtain rfl : name' = name := gitRefPath_injective (hname'.trans hp.symm)
    refine ⟨⟨name', .ok noteCommitId⟩, List.mem_map.mpr ⟨name', ?_, rfl⟩, rfl⟩
    refine List.mem_filter.mpr ⟨hmem, ?_⟩
    rw [hname', htext]
    rfl
  · intro r hr sha id _ hpeels
    obtain ⟨name, -, rfl⟩ := List.mem_map.mp hr
    cases hpeels with
    | @commit bytes hmem =>
        have hbytes := (hwrites (.commit, bytes) hmem).2 rfl
        dsimp only at hbytes
        rw [hbytes, hhash]
    | tag _ hmem => exact absurd rfl (hwrites _ hmem).1
  · intro name p sha hp htext
    obtain rfl : sha = noteCommitId := looseRefText_injective (hfile p _ htext).1
    simp only [noteReader, hp, htext, Option.isSome_some, if_true]
  · intro tree parents identity message hmem
    have hbytes := (hwrites (.commit, encodeCommit tree parents identity message) hmem).2 rfl
    dsimp only at hbytes
    have hparents : parents = [] := parents_of_encodeCommit (hbytes.trans noteCommit.eq_1)
    have hread : (noteReader d).findObject noteCommitId = .ok noteObject := by simp [noteReader]
    rw [hbytes, hhash, hparents]
    exact ⟨noteObject, _, hread, rfl, rfl, rfl⟩
  · intro c name tagger message hmem
    exact absurd rfl (hwrites _ hmem).1

/-- The lines of the repository. -/
lemma get_bothRefs {n : RefName} {v : Ref} (h : bothRefs.get n = some v) :
    (n = mainLine ∨ n = featureLine) ∧ ∃ T, v = .timeline T := by
  rw [RefStore.get, bothRefs, mainRefs, Std.ExtTreeMap.getElem?_insert,
    Std.ExtTreeMap.getElem?_insert] at h
  split_ifs at h with hfeature hmain
  · exact ⟨.inr (Std.LawfulEqOrd.eq_of_compare hfeature).symm, _, (Option.some.inj h).symm⟩
  · exact ⟨.inl (Std.LawfulEqOrd.eq_of_compare hmain).symm, _, (Option.some.inj h).symm⟩
  · simp at h

/-- **A round trip that does not keep a head.**  Two lines differ in a file that the accessor does
not see, so that they are exported on one commit. -/
theorem roundTrip_fails : ¬ RoundTrips noteLinked noteGix (noteRepo bothRefs) .new := by
  intro hround
  obtain ⟨hfound, hwritten⟩ := projectCommits_both
  have hgix := noteGix_readsBack (fun _ _ => get_bothRefs) hwritten
  obtain ⟨d, sidecar', hproject, -⟩ := hround noteRequest .new rfl ⟨rfl, rfl, rfl⟩ fun l => .refl l
  obtain ⟨visible, lattice, rules, hexport⟩ :=
    (projectImpl_ok_iff acyclic_note ⟨rfl, rfl, rfl⟩).mp ⟨_, hproject⟩
  have hunshared := unshared_of_roundTrips acyclic_note hgix hexport hround
  cases hcommits : projectCommits noteLinked noteGix noteRequest (noteRepo bothRefs) with
  | mk result written =>
      rw [hcommits] at hfound
      cases result with
      | error e => cases hfound
      | ok found =>
          obtain ⟨shown, idMap⟩ := found
          obtain ⟨hshown, hplain, hkeyed⟩ : shown = [featureLine, mainLine] ∧
              idMap[noteSnapshot]? = some noteCommitId ∧
              idMap[keyedSnapshot]? = some noteCommitId := by
            simpa [Except.map] using hfound
          obtain ⟨-, -, -, hshows, -⟩ := projectCommits_eq_ok.mp hcommits
          obtain rfl : visible = shown := Except.ok.inj (hexport.shows.symm.trans hshows)
          have hcommit := commits_of_projectCommits acyclic_note hexport.readsLattice
            hexport.readsRules hcommits
          have hline : ExportedTimeline noteLinked (noteRepo bothRefs) visible mainLine
              ⟨noteSnapshot, .unrestricted, 0, "persistent", none⟩ :=
            hcommit.timeline_iff.mpr ⟨by simp [hshown], by decide +kernel, noteCommitId, hplain⟩
          obtain ⟨hvisited, hkeyedCommit⟩ := (hcommit.commit _ _).mp hkeyed
          have hsame := hunshared mainLine _ hline keyedSnapshot hvisited noteCommitId
            ((hcommit.commit _ _).mp hplain).2 hkeyedCommit
          exact absurd hsame (by decide +kernel)

/-- Alone, the line is exported and imported again. -/
theorem roundTrip_main : RoundTrips noteLinked noteGix (noteRepo mainRefs) .new := by
  have hwritten : ∀ e ∈ (projectCommits noteLinked noteGix noteRequest (noteRepo mainRefs)).2,
      e.1 ≠ .tag ∧ (e.1 = .commit → e.2 = noteCommit) := by decide +kernel
  have hline : ∀ {n v}, mainRefs.get n = some v → n = mainLine ∧ v = lineAt noteSnapshot := by
    intro n v h
    rw [RefStore.get, mainRefs, Std.ExtTreeMap.getElem?_insert] at h
    split_ifs at h with hmain
    · exact ⟨(Std.LawfulEqOrd.eq_of_compare hmain).symm, (Option.some.inj h).symm⟩
    · simp at h
  have hgix := noteGix_readsBack
    (fun n v h => ⟨.inl (hline h).1, ⟨_, (hline h).2⟩⟩) hwritten
  have hproject : ∃ t', projectImpl noteLinked noteGix noteRequest (noteRepo mainRefs)
      ⟨none, .new⟩ = (.ok (), t') := by
    have hok : (projectImpl noteLinked noteGix noteRequest (noteRepo mainRefs)
        ⟨none, .new⟩).1.isOk = true := by decide +kernel
    generalize projectImpl noteLinked noteGix noteRequest (noteRepo mainRefs) ⟨none, .new⟩ = out
      at hok ⊢
    obtain ⟨result, t'⟩ := out
    cases result with
    | error e => cases hok
    | ok u => exact ⟨t', rfl⟩
  obtain ⟨visible, lattice, rules, hexport⟩ :=
    (projectImpl_ok_iff acyclic_note ⟨rfl, rfl, rfl⟩).mp hproject
  refine (roundTrip_iff acyclic_note hgix).mpr ⟨visible, lattice, rules, hexport, ?_⟩
  have hhead : ∀ n T, mainRefs.get n = some (.timeline T) → T.head = noteSnapshot := by
    intro n T h
    cases (hline h).2
    rfl
  -- what is visited is the head
  rintro n T hT x ⟨m, -, T', hT', hpath⟩ c - -
  rw [hhead m T' hT'] at hpath
  rw [hhead n T hT.timeline]
  rcases Relation.ReflTransGen.cases_head hpath with heq | ⟨y, hxy, -⟩
  · exact heq.symm
  · exact absurd hxy (not_parent_note _ _)

end Bole
