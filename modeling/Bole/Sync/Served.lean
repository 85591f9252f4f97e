import Bole.Refs.Paths
import Bole.Sync.Fetch

/-!
The served refs over either backend: `list_refs_filtered`, `list_refs_served` and `ref_served` of
`src/repo/mod.rs`, with `get` and `list` of `src/refs/memory.rs` and `src/refs/disk.rs`.

* `RefFiles`: a tree of ref files as a disk has it;
* `mem_listed`: either backend lists the names that it can read, of the asked beginning;
* `served_agrees`: **the lookup serves what the listing serves**, and every listing is a part of
  it.
-/

namespace Bole

open FileTree

/-! ### Backends -/

/-- The files below `refs/`: directories are finite, and no entry has a slash in its name. -/
structure RefFiles where
  tree : RefTree
  small : Small (.dir tree)
  names : ∀ path r, FileTree.lookup path tree = some r → ∀ segment ∈ path, '/' ∉ segment

/-- `RefBackend`; the one on disk with the order in which the system lists directories. -/
inductive RefBackend where
  | memory (store : RefStore)
  | disk (files : RefFiles) (reader : Reader (List Char) Ref)

namespace RefBackend

/-- `get`. -/
def get : RefBackend → RefName → Result (Option Ref)
  | memory store, n => .ok (store.get n)
  | disk files _, n => files.tree.get n

/-- `list`. -/
def list : RefBackend → String → List RefName
  | memory store, pfx => store.list pfx
  | disk files reader, pfx => files.tree.list reader pfx

end RefBackend

/-- Every tree that calls lead to is such a tree. -/
def RefFiles.ofRepresents {t : RefTree} {s : RefStore} {h : RefHistory} (hrep : Represents t s h) :
    RefFiles where
  tree := t
  small := hrep.small
  names path r hr segment hseg := by
    obtain ⟨n, rfl, -⟩ := (hrep.files path r).mp hr
    exact RefName.slash_notMem hseg

section Listing

variable {n : RefName} {pfx : String}

/-- What a file of a disk is listed as has its path. -/
lemma refOfPath_eq_some {path : List (List Char)} (hne : path ≠ [])
    (hslash : ∀ segment ∈ path, '/' ∉ segment) :
    refOfPath pfx path = some n ↔ path = n.segments ∧ n.startsWith pfx = true := by
  constructor
  · intro h
    have hsplit : (['/'].intercalate path).splitOn '/' = path :=
      List.splitOn_intercalate '/' hslash hne
    have hname : n.asStr = String.ofList (['/'].intercalate path) := by
      rw [refOfPath] at h
      split_ifs at h
      cases hnew : RefName.new (String.ofList (['/'].intercalate path)) with
      | error e => simp [hnew, Except.toOption] at h
      | ok n' =>
          rw [hnew] at h
          obtain rfl := Option.some.inj h
          exact RefName.asStr_of_new hnew
    have hpath : path = n.segments := by
      rw [RefName.segments, show n.name = n.asStr from rfl, hname, String.toList_ofList, hsplit]
    refine ⟨hpath, ?_⟩
    rw [hpath, RefName.refOfPath_segments] at h
    split_ifs at h with hpfx
    exact hpfx
  · rintro ⟨rfl, hpfx⟩
    rw [RefName.refOfPath_segments]
    exact if_pos hpfx

/-- **Either backend lists what it can read.** -/
lemma RefBackend.mem_list (b : RefBackend) :
    n ∈ b.list pfx ↔ (∃ r, b.get n = .ok (some r)) ∧ n.startsWith pfx = true := by
  cases b with
  | memory store =>
      rw [list, RefStore.mem_list]
      simp only [get, Except.ok.injEq, RefName.startsWith]
  | disk files reader =>
      have hread : (∃ r, files.tree.get n = .ok (some r)) ↔
          ∃ r, FileTree.lookup n.segments files.tree = some r := by
        refine exists_congr fun r => ⟨RefTree.get_eq_ok, fun h => ?_⟩
        rw [FileTree.lookup] at h
        split at h
        · next hr => rw [RefTree.get, hr, h]
        · cases h
      rw [list, RefTree.list, List.mem_mergeSort, List.mem_filterMap]
      simp only [get]
      rw [hread]
      constructor
      · rintro ⟨path, hwalk, hpath⟩
        obtain ⟨⟨r, hr⟩, -⟩ := (mem_walk files.small).mp hwalk
        have hne : path ≠ [] := by
          rintro rfl
          simp at hr
        obtain ⟨rfl, hpfx⟩ := (refOfPath_eq_some hne (files.names path r hr)).mp hpath
        exact ⟨⟨r, hr⟩, hpfx⟩
      · rintro ⟨⟨r, hr⟩, hpfx⟩
        refine ⟨n.segments, (mem_walk files.small).mpr ⟨⟨r, hr⟩, fun _ => RefName.not_hidden⟩, ?_⟩
        exact (refOfPath_eq_some n.segments_ne_nil (files.names _ r hr)).mpr ⟨rfl, hpfx⟩

/-- A listing has each name once. -/
lemma RefBackend.nodup_list (b : RefBackend) (pfx : String) : (b.list pfx).Nodup := by
  cases b with
  | memory store => exact store.nodup_list pfx
  | disk files reader =>
      have hproper : ∀ path ∈ walkNode reader hidden (.dir files.tree),
          path ≠ [] ∧ ∀ segment ∈ path, '/' ∉ segment := by
        intro path hwalk
        obtain ⟨⟨r, hr⟩, -⟩ := (mem_walk files.small).mp hwalk
        refine ⟨?_, files.names path r hr⟩
        rintro rfl
        simp at hr
      rw [list, RefTree.list, List.Perm.nodup_iff (List.mergeSort_perm _ _), List.Nodup,
        List.pairwise_filterMap]
      refine (nodup_walk files.small).imp_of_mem fun hp hq hne n hn n' hn' heq => hne ?_
      obtain ⟨hpne, hpslash⟩ := hproper _ hp
      obtain ⟨hqne, hqslash⟩ := hproper _ hq
      rw [((refOfPath_eq_some hpne hpslash).mp hn).1, ((refOfPath_eq_some hqne hqslash).mp hn').1,
        heq]

end Listing

/-! ### Served refs -/

namespace RefBackend

open Repository

/-- `list_refs_filtered`. -/
def listRefsFiltered (refs : RefBackend) (acls : AclBackend) (pfx : String) (accessor : Accessor) :
    Result (List RefName) := do
  let lattice ← acls.getLattice
  let rules ← acls.getLabelRuleset
  .ok ((refs.list pfx).filter fun n => timelineReadableWith lattice rules n accessor)

/-- `list_refs_served`. -/
def listRefsServed (refs : RefBackend) (acls : AclBackend) (pfx : String) (accessor : Accessor) :
    Result (List RefName) := do
  let names ← refs.listRefsFiltered acls pfx accessor
  .ok (names.filter fun n => !n.startsWith collabScopedPrefix)

/-- `ref_served`. -/
def refServed (refs : RefBackend) (acls : AclBackend) (name : RefName) (accessor : Accessor) :
    Result Bool :=
  if name.startsWith collabScopedPrefix then .ok false
  else do
    let lattice ← acls.getLattice
    let rules ← acls.getLabelRuleset
    let found ← refs.get name
    .ok (timelineReadableWith lattice rules name accessor && found.isSome)

section Served

variable {refs : RefBackend} {acls : AclBackend} {accessor : Accessor} {n : RefName} {pfx : String}

/-- In memory these are the functions of the repository. -/
lemma memory_served (r : Repository) :
    (memory r.refs).listRefsServed r.acls pfx accessor = r.listRefsServed pfx accessor ∧
      (memory r.refs).refServed r.acls n accessor = r.refServed n accessor :=
  ⟨rfl, rfl⟩

/-- What the lookup says of a name, where the labels can be read. -/
lemma refServed_iff {lattice : LabelLattice} {rules : LabelRuleSet}
    (hlat : acls.getLattice = .ok lattice) (hrules : acls.getLabelRuleset = .ok rules) :
    refs.refServed acls n accessor = .ok true ↔ n.startsWith collabScopedPrefix = false ∧
      timelineReadableWith lattice rules n accessor = true ∧ ∃ r, refs.get n = .ok (some r) := by
  rw [refServed]
  cases n.startsWith collabScopedPrefix with
  | true => simp
  | false =>
      simp only [Bool.false_eq_true, if_false, Result.bind_eq_ok, hlat, hrules, Except.ok.injEq,
        exists_eq_left', Bool.and_eq_true, Option.isSome_iff_exists, true_and]
      constructor
      · rintro ⟨found, hfound, hread, r, rfl⟩
        exact ⟨hread, r, hfound⟩
      · rintro ⟨hread, r, hr⟩
        exact ⟨_, hr, hread, r, rfl⟩

/-- The labels can be read, or every listing fails and no name is served. -/
lemma labels_cases (refs : RefBackend) (acls : AclBackend) (accessor : Accessor) :
    (∃ lattice rules, acls.getLattice = .ok lattice ∧ acls.getLabelRuleset = .ok rules) ∨
      ∃ e, (∀ pfx, refs.listRefsServed acls pfx accessor = .error e) ∧
        ∀ n, refs.refServed acls n accessor ≠ .ok true := by
  have hserved : ∀ n, refs.refServed acls n accessor = .ok true →
      ∃ lattice rules, acls.getLattice = .ok lattice ∧ acls.getLabelRuleset = .ok rules := by
    intro n hn
    rw [refServed] at hn
    split_ifs at hn
    · cases hn
    · obtain ⟨lattice, hlat, hn⟩ := Result.bind_eq_ok.mp hn
      obtain ⟨rules, hrules, -⟩ := Result.bind_eq_ok.mp hn
      exact ⟨lattice, rules, hlat, hrules⟩
  by_cases hlabels :
      ∃ lattice rules, acls.getLattice = .ok lattice ∧ acls.getLabelRuleset = .ok rules
  · exact .inl hlabels
  · obtain ⟨e, he⟩ : ∃ e, ∀ pfx, refs.listRefsServed acls pfx accessor = .error e := by
      simp only [listRefsServed, listRefsFiltered]
      cases hlat : acls.getLattice with
      | error e => exact ⟨e, fun _ => rfl⟩
      | ok lattice =>
          cases hrules : acls.getLabelRuleset with
          | error e => exact ⟨e, fun _ => rfl⟩
          | ok rules => exact absurd ⟨lattice, rules, hlat, hrules⟩ hlabels
    exact .inr ⟨e, he, fun n hn => hlabels (hserved n hn)⟩

/-- Where the labels can be read, a listing has the served names of its beginning. -/
lemma listRefsServed_eq {lattice : LabelLattice} {rules : LabelRuleSet}
    (hlat : acls.getLattice = .ok lattice) (hrules : acls.getLabelRuleset = .ok rules) :
    ∃ names, refs.listRefsServed acls pfx accessor = .ok names ∧ names.Nodup ∧
      ∀ n, n ∈ names ↔
        refs.refServed acls n accessor = .ok true ∧ n.startsWith pfx = true := by
  refine ⟨((refs.list pfx).filter fun n => timelineReadableWith lattice rules n accessor).filter
    fun n => !n.startsWith collabScopedPrefix, ?_, ((refs.nodup_list pfx).filter _).filter _,
    fun n => ?_⟩
  · rw [listRefsServed, listRefsFiltered, hlat, hrules]
    rfl
  · rw [List.mem_filter, List.mem_filter, refs.mem_list, refServed_iff hlat hrules,
      Bool.not_eq_true']
    tauto

/-- **The lookup agrees with the listing.**  A name is served exactly when it is in the listing of
everything; and for every beginning the listing has the served names that begin so, each once.  Or
the labels cannot be read: then every listing fails, and nothing is served. -/
theorem served_agrees (refs : RefBackend) (acls : AclBackend) (accessor : Accessor) :
    (∀ n, refs.refServed acls n accessor = .ok true ↔
      ∃ names, refs.listRefsServed acls "" accessor = .ok names ∧ n ∈ names) ∧
    ((∀ pfx, ∃ names, refs.listRefsServed acls pfx accessor = .ok names ∧ names.Nodup ∧
        ∀ n, n ∈ names ↔
          refs.refServed acls n accessor = .ok true ∧ n.startsWith pfx = true) ∨
      ∃ e, (∀ pfx, refs.listRefsServed acls pfx accessor = .error e) ∧
        ∀ n, refs.refServed acls n accessor ≠ .ok true) := by
  rcases refs.labels_cases acls accessor with ⟨lattice, rules, hlat, hrules⟩ | ⟨e, he, hserved⟩
  · have hlist : ∀ pfx, ∃ names, refs.listRefsServed acls pfx accessor = .ok names ∧
        names.Nodup ∧ ∀ n, n ∈ names ↔
          refs.refServed acls n accessor = .ok true ∧ n.startsWith pfx = true :=
      fun pfx => listRefsServed_eq hlat hrules
    refine ⟨fun n => ?_, .inl hlist⟩
    have hempty : n.startsWith "" = true := by simp [RefName.startsWith_iff]
    obtain ⟨names, hnames, -, hmem⟩ := hlist ""
    simp only [hnames, Except.ok.injEq, exists_eq_left', hmem, hempty, and_true]
  · refine ⟨fun n => ?_, .inr ⟨e, he, hserved⟩⟩
    simp [he, hserved n]

end Served

end RefBackend

end Bole
