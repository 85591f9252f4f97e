import Bole.Lib.Run
import Bole.Postcard
import Bole.Repo.GitImport

/-!
Runs of imports of an evolving git repository, deletions of refs and garbage collections
(`src/repo/git_import.rs`, `Repository::gc` in `src/repo/mod.rs`).

An import skips every object that its sidecar records.  A collection knows nothing of the
sidecar.

* `gitImport_complete`: one import, from any state whose records still stand for what they did;
* `import_run_complete`: in every run whose imports all start so, the refs that an import makes
  have complete closures;
* `import_after_gc_incomplete`: an import after a deletion and a collection.
-/

namespace Bole

open Transition

/-- The refs that an import is about. -/
def selectedRefs (req : ImportRequest) (g : GitRepo) : Result GitRefs :=
  gitResult (g.references >>= fun listing => collectRefs req.opts.branches listing ⟨[], []⟩)

/-- The git objects that an import comes to from its roots: it does not look into an object that
is recorded. -/
inductive Meets (g : GitRepo) (m : IdentityMap) (roots : List GitId) : GitId → Prop where
  | root {x : GitId} : x ∈ roots → Meets g m roots x
  | inner {x y : GitId} : Meets g m roots x → m.boleForGit x = none → y ∈ g.children x →
      Meets g m roots y

/-- The recorded ids that the import comes to still have their whole closures. -/
def RecordsStand (L : Linked) (req : ImportRequest) (s : Importer) : Prop :=
  ∀ g refs, req.git = .ok g → selectedRefs req g = .ok refs →
    ∀ x id, Meets g s.sidecar refs.roots x → s.sidecar.boleForGit x = some id →
      Complete L s.repo.objects id

/-- What is asked of git, of the crates and of the store: no git object is below itself, and the
objects that the import writes can be told apart and read back. -/
def ImportSound (L : Linked) (req : ImportRequest) (s : Importer) : Prop :=
  ∀ g refs t, req.git = .ok g → translatePasses L req g s = (.ok refs, t) →
    (∃ rank, g.Ranked rank) ∧ s.repo.objects.Faithful L {obj | ∃ x, Translates g t.map x obj}

/-- Every ref of the second state that the first does not have is on a complete closure. -/
def NewRefsComplete (L : Linked) (s s' : Importer) : Prop :=
  ∀ n v, s'.repo.refs.get n = some v → s.repo.refs.get n ≠ some v →
    Complete L s'.repo.objects v.target

variable {L : Linked} {req : ImportRequest} {s s' : Importer}

/-- The passes that translate, when they return. -/
lemma translatePasses_eq_ok {g : GitRepo} {refs : GitRefs} {t : Translation}
    (h : translatePasses L req g s = (.ok refs, t)) :
    selectedRefs req g = .ok refs ∧ ∃ ordered,
      translateCommits L g req.mtime req.opts.dryRun req.fuel ordered
        ⟨s.repo.objects, s.sidecar, .default⟩ = (.ok (), t) := by
  rw [translatePasses] at h
  split at h
  · cases h
  next refs' hrefs =>
  split at h
  · cases h
  next ordered _ =>
  split at h
  · cases h
  · next t' ht =>
      obtain ⟨hr, rfl⟩ := Prod.mk.inj h
      obtain rfl := Except.ok.inj hr
      exact ⟨hrefs, ordered, ht⟩

/-- What an import that returns `Ok` does. -/
lemma gitImport_eq_ok {summary : ImportSummary} (h : gitImport L req s = (.ok summary, s')) :
    ∃ g refs t, req.git = .ok g ∧ translatePasses L req g s = (.ok refs, t) ∧
      s'.repo.objects = t.objects ∧
      (s'.repo.refs = s.repo.refs ∨ req.opts.dryRun = false ∧
        s'.repo.refs = (importRefs L req.opts g refs t s.repo.refs).2.refs) := by
  rw [gitImport] at h
  split at h
  · cases h
  next g hg =>
  split at h
  · cases h
  split at h
  · cases h
  next refs t ht =>
  refine ⟨g, refs, t, hg, ht, ?_⟩
  dsimp only at h
  split_ifs at h with hdry
  · obtain ⟨-, rfl⟩ := Prod.mk.inj h
    exact ⟨rfl, Or.inl rfl⟩
  · split at h
    · cases h
    next p hp =>
    split at h
    · cases h
    split at h
    · cases h
    obtain ⟨-, rfl⟩ := Prod.mk.inj h
    exact ⟨rfl, Or.inr ⟨by simpa using hdry, by rw [hp]⟩⟩

/-- **One import.**  Where the records it comes to stand, the refs it makes are on complete
closures. -/
theorem gitImport_complete {summary : ImportSummary} (hsound : ImportSound L req s)
    (hrecords : RecordsStand L req s) (h : gitImport L req s = (.ok summary, s')) :
    NewRefsComplete L s s' := by
  intro n v hv hnew
  obtain ⟨g, refs, t, hg, ht, hobjects, hrefs | ⟨hdry, hrefs⟩⟩ := gitImport_eq_ok h
  · rw [hrefs] at hv
    exact absurd hv hnew
  obtain ⟨⟨rank, hrank⟩, hfaithful⟩ := hsound g refs t hg ht
  obtain ⟨hselected, ordered, hcommits⟩ := translatePasses_eq_ok ht
  rw [hdry] at hcommits
  have hrec := translateCommits_recording hrank hcommits
  obtain ⟨-, hcomplete⟩ := hrec.complete (G := {x | Meets g s.sidecar refs.roots x})
    (fun x hx hnone y hy => hx.inner hnone hy) (.refl _) hfaithful
    fun x hx id hid => hrecords g refs hg hselected x id hx hid
  rw [hrefs] at hv
  rcases importRefs_target hv with hold | ⟨y, hy, hid⟩
  · exact absurd hold hnew
  · rw [hobjects]
    exact hcomplete y (.root hy) v.target hid

/-! ### Runs -/

/-- What is done with the repository. -/
inductive ImportOp where
  | gitImport (req : ImportRequest)
  | deleteRef (name : RefName)
  | gc (extraRoots : List ObjectId) (graceSecs now : ℕ)

/-- One step. -/
def Importer.perform (L : Linked) (s : Importer) : ImportOp → Importer
  | .gitImport req => (Bole.gitImport L req s).2
  | .deleteRef name => { s with repo := { s.repo with refs := (s.repo.refs.deleteRef name).2 } }
  | .gc extraRoots graceSecs now => { s with repo := (s.repo.gc L extraRoots graceSecs now).2 }

/-- The step as a relation. -/
def ImportStep (L : Linked) (s : Importer) (op : ImportOp) (s' : Importer) : Prop :=
  s' = s.perform L op

/-- **Imports leave complete history** in every run whose imports all start with records that
stand: after each of them that returns `Ok`, the timelines and tags it made or advanced have
their whole closures. -/
theorem import_run_complete {s₀ s₁ : Importer} {steps : List (Importer × ImportOp)}
    (hrun : Run (ImportStep L) s₀ steps s₁)
    (hsound : ∀ p ∈ steps, ∀ req, p.2 = .gitImport req → ImportSound L req p.1)
    (hrecords : ∀ p ∈ steps, ∀ req, p.2 = .gitImport req → RecordsStand L req p.1) :
    ∀ p ∈ steps, ∀ req summary, p.2 = .gitImport req → (gitImport L req p.1).1 = .ok summary →
      ∃ pre post s, Run (ImportStep L) s₀ pre p.1 ∧ ImportStep L p.1 p.2 s ∧
        Run (ImportStep L) s post s₁ ∧ NewRefsComplete L p.1 s := by
  intro p hp req summary hop hok
  obtain ⟨pre, post, s, hpre, hstep, hpost⟩ := hrun.split hp
  refine ⟨pre, post, s, hpre, hstep, hpost, ?_⟩
  rw [hop] at hstep
  exact gitImport_complete (hsound p hp req hop) (hrecords p hp req hop) (Prod.ext hok hstep.symm)

/-! ### A git repository with two commits -/

namespace ImportSystem

/-- A file, the tree that names it, and two commits of that tree, by their ids. -/
def fileId : GitId := ⟨[1]⟩
def treeId : GitId := ⟨[2]⟩
def firstId : GitId := ⟨[3]⟩
def secondId : GitId := ⟨[4]⟩

def author : GitSignature := ⟨"A", "a@b", 7⟩

/-- A commit with the given parents. -/
def commit (parents : List GitId) : GitCommit :=
  ⟨.ok treeId, parents, .ok author, .ok author, "m"⟩

def entries : List (Except String GitEntry) := [.ok ⟨.blob, "a", fileId⟩]

/-- The objects; `none` is the text of a failed conversion. -/
def findObject (x : GitId) : Except String GitObject :=
  if x = fileId then .ok ⟨ascii "hi", .error "none", .error "none", none⟩
  else if x = treeId then .ok ⟨ascii "tree", .error "none", .ok entries, none⟩
  else if x = firstId then .ok ⟨ascii "one", .ok (commit []), .error "none", none⟩
  else if x = secondId then .ok ⟨ascii "two", .ok (commit [firstId]), .error "none", none⟩
  else .error "none"

/-- The repository while its branch is on the given commit. -/
def git (head : GitId) : GitRepo :=
  ⟨.ok [.ok ⟨"refs/heads/main", .ok head⟩], findObject, fun _ => none⟩

/-- What becomes of the objects, and what the other ones are when they are read as blobs. -/
def file : Object := .blob (ascii "hi")
def tree : Object := .tree ⟨(∅ : BTreeMap String TreeEntry).insert "a" ⟨file.refId, .blob⟩⟩
def first : Object := .snapshot (commitSnapshot (commit []) author tree.refId [])
def second : Object := .snapshot (commitSnapshot (commit [firstId]) author tree.refId [first.refId])

def objects : List Object :=
  [file, tree, first, second, .blob (ascii "tree"), .blob (ascii "one"), .blob (ascii "two")]

/-- The crates with a codec for these objects. -/
def linked : Linked := .over objects

/-- An import of the branch. -/
def request (head : GitId) : ImportRequest :=
  ⟨.ok (git head), .ok (), .ok (), ⟨[], .unrestricted, none, false, false⟩, none, 8,
    fun acls _ => .ok acls⟩

/-- Nothing has been imported. -/
def start : Importer := ⟨.memory, .new⟩

def mainName : RefName := ⟨"main", RefName.valid_main⟩

/-- The first commit has been imported. -/
def imported : Importer := (gitImport linked (request firstId) start).2

/-- The timeline has been deleted, and what it was on collected. -/
def collected : Importer :=
  (imported.perform linked (.deleteRef mainName)).perform linked (.gc [] 0 0)

lemma collected_ok : (gitImport linked (request firstId) collected).1 =
    .ok ⟨0, 0, 0, 1, 0, 0, 1⟩ := by decide +kernel

/-- The timeline is made again, on a snapshot that is not there. -/
lemma collected_incomplete :
    ¬ NewRefsComplete linked collected (gitImport linked (request firstId) collected).2 := by
  have hnew : (gitImport linked (request firstId) collected).2.repo.refs.get mainName =
      some (.timeline ⟨first.refId, .unrestricted, 0, "persistent", none⟩) := by decide +kernel
  have hold : collected.repo.refs.get mainName = none := by decide +kernel
  have hgone : (gitImport linked (request firstId) collected).2.repo.objects.getRaw linked
      first.refId = .ok none := by decide +kernel
  intro h
  refine not_complete_of_missing hgone (h mainName _ hnew ?_)
  rw [hold]
  simp

/-- The objects of the repository, by cases. -/
lemma findObject_cases {x : GitId} {o : GitObject} (h : findObject x = .ok o) :
    (x = fileId ∧ o = ⟨ascii "hi", .error "none", .error "none", none⟩) ∨
      (x = treeId ∧ o = ⟨ascii "tree", .error "none", .ok entries, none⟩) ∨
      (x = firstId ∧ o = ⟨ascii "one", .ok (commit []), .error "none", none⟩) ∨
      x = secondId ∧ o = ⟨ascii "two", .ok (commit [firstId]), .error "none", none⟩ := by
  rw [findObject] at h
  split_ifs at h with h1 h2 h3 h4
  · exact Or.inl ⟨h1, (Except.ok.inj h).symm⟩
  · exact Or.inr (Or.inl ⟨h2, (Except.ok.inj h).symm⟩)
  · exact Or.inr (Or.inr (Or.inl ⟨h3, (Except.ok.inj h).symm⟩))
  · exact Or.inr (Or.inr (Or.inr ⟨h4, (Except.ok.inj h).symm⟩))

/-- An import of the repository writes none but these objects. -/
lemma mem_objects {head : GitId} {m : IdentityMap} {x : GitId} {obj : Object}
    (hm : [fileId, treeId, firstId].map m.idOf = [file.refId, tree.refId, first.refId])
    (h : Translates (git head) m x obj) : obj ∈ objects := by
  simp only [List.map_cons, List.map_nil, List.cons.injEq, and_true] at hm
  obtain ⟨hfile, htree, hfirst⟩ := hm
  cases h with
  | @blob o ho =>
      obtain ⟨-, rfl⟩ | ⟨-, rfl⟩ | ⟨-, rfl⟩ | ⟨-, rfl⟩ := findObject_cases ho <;>
        simp [objects, file]
  | @tree o es ho hes _ =>
      obtain ⟨-, rfl⟩ | ⟨-, rfl⟩ | ⟨-, rfl⟩ | ⟨-, rfl⟩ := findObject_cases ho
      · cases hes
      · obtain rfl : entries = es := Except.ok.inj hes
        have htree : Object.tree ⟨entries.foldl (addEntry m.idOf) ∅⟩ = tree := by
          rw [tree, ← hfile]
          rfl
        rw [htree]
        simp [objects]
      · cases hes
      · cases hes
  | @commit o c root author' ho hc hroot hauthor _ =>
      have hsnapshot : ∀ parents : List GitId, c = commit parents →
          commitSnapshot c author' (m.idOf root) (c.parentIds.map m.idOf) =
            commitSnapshot (commit parents) author tree.refId (parents.map m.idOf) := by
        rintro parents rfl
        obtain rfl : treeId = root := Except.ok.inj hroot
        obtain rfl : author = author' := Except.ok.inj hauthor
        rw [htree]
        rfl
      obtain ⟨-, rfl⟩ | ⟨-, rfl⟩ | ⟨-, rfl⟩ | ⟨-, rfl⟩ := findObject_cases ho
      · cases hc
      · cases hc
      · rw [hsnapshot [] (Except.ok.inj hc).symm]
        simp [objects, first]
      · rw [hsnapshot [firstId] (Except.ok.inj hc).symm, List.map_cons, hfirst]
        simp [objects, second]

/-- Each object is above those it names. -/
lemma git_ranked (head : GitId) : (git head).Ranked fun x => (x.bytes.headD 0).toNat := by
  intro x y hy
  have hfind : (git head).findObject x = findObject x := rfl
  rw [GitRepo.children, hfind] at hy
  cases ho : findObject x with
  | error e =>
      rw [ho] at hy
      cases hy
  | ok o =>
      rw [ho] at hy
      obtain ⟨rfl, rfl⟩ | ⟨rfl, rfl⟩ | ⟨rfl, rfl⟩ | ⟨rfl, rfl⟩ := findObject_cases ho
      · cases hy
      · obtain rfl : y = fileId := by simpa [Except.toOption, treeChildren, entries] using hy
        decide
      · obtain rfl : y = treeId := by
          simpa [Except.toOption, commitChildren, commit] using hy
        decide
      · obtain rfl | rfl : y = treeId ∨ y = firstId := by
          simpa [Except.toOption, commitChildren, commit] using hy
        · decide
        · decide

/-- What an import of the repository asks for, checked on the records it ends with. -/
lemma sound {head : GitId} {s : Importer}
    (hm : [fileId, treeId, firstId].map
      (translatePasses linked (request head) (git head) s).2.map.idOf =
        [file.refId, tree.refId, first.refId])
    (hheld : ∀ o ∈ objects, s.repo.objects.exists_ o.refId = .ok true →
      s.repo.objects.getRaw linked o.refId = .ok (some (Postcard.object o))) :
    ImportSound linked (request head) s := by
  intro g refs t hg ht
  obtain rfl : git head = g := Except.ok.inj hg
  refine ⟨⟨_, git_ranked head⟩, (ObjectStore.faithful_over (by decide +kernel) (by decide +kernel)
    hheld).mono ?_⟩
  rintro obj ⟨x, hx⟩
  rw [ht] at hm
  exact mem_objects hm hx

/-- A repository with an empty sidecar has no records. -/
lemma start_stand : RecordsStand linked (request firstId) start := by
  intro g refs _ _ x id _ hid
  cases hid

/-- The records of the first import stand when the second comes to them. -/
lemma imported_stand : RecordsStand linked (request secondId) imported := by
  have hroots : (selectedRefs (request secondId) (git secondId)).map GitRefs.roots =
      .ok [secondId] := by decide +kernel
  have hsecond : imported.sidecar.boleForGit secondId = none := by decide +kernel
  have htree : imported.sidecar.boleForGit treeId = some tree.refId := by decide +kernel
  have hfirst : imported.sidecar.boleForGit firstId = some first.refId := by decide +kernel
  have hclosure : closurePresent linked imported.repo.objects tree.refId = .ok true ∧
      closurePresent linked imported.repo.objects first.refId = .ok true := by decide +kernel
  intro g refs hg hrefs x id hmeets hid
  obtain rfl : git secondId = g := Except.ok.inj hg
  rw [hrefs] at hroots
  have hchildren : ∀ y ∈ (git secondId).children secondId, y = treeId ∨ y = firstId := by
    decide +kernel
  have hx : x = secondId ∨ x = treeId ∨ x = firstId := by
    clear hid
    induction hmeets with
    | root hx =>
        rw [Except.ok.inj hroots] at hx
        exact Or.inl (List.mem_singleton.mp hx)
    | @inner x y _ hnone hy ih =>
        -- of the three only the new commit is not recorded
        rcases ih with rfl | rfl | rfl
        · exact Or.inr (hchildren y hy)
        · rw [htree] at hnone
          cases hnone
        · rw [hfirst] at hnone
          cases hnone
  rcases hx with rfl | rfl | rfl
  · rw [hsecond] at hid
    cases hid
  · rw [htree] at hid
    obtain rfl := Option.some.inj hid
    exact closurePresent_true hclosure.1
  · rw [hfirst] at hid
    obtain rfl := Option.some.inj hid
    exact closurePresent_true hclosure.2

end ImportSystem

open ImportSystem in
/-- A branch that moves on is imported twice: the second import translates the new commit and
finds the rest in its records. -/
theorem import_run_complete_twice :
    ∃ steps s, Run (ImportStep linked) start steps s ∧
      (imported, .gitImport (request secondId)) ∈ steps ∧
      (gitImport linked (request secondId) imported).1 = .ok ⟨0, 0, 1, 0, 1, 0, 1⟩ ∧
      ∃ pre post s', Run (ImportStep linked) start pre imported ∧
        ImportStep linked imported (.gitImport (request secondId)) s' ∧
        Run (ImportStep linked) s' post s ∧ NewRefsComplete linked imported s' := by
  have hok : (gitImport linked (request secondId) imported).1 = .ok ⟨0, 0, 1, 0, 1, 0, 1⟩ := by
    decide +kernel
  have hsound : ImportSound linked (request firstId) start :=
    sound (by decide +kernel) (by decide +kernel)
  have hsound' : ImportSound linked (request secondId) imported :=
    sound (by decide +kernel) (by decide +kernel)
  have hstand := imported_stand
  have hstep : ImportStep linked start (.gitImport (request firstId)) imported := rfl
  obtain ⟨s, hs⟩ : ∃ s, imported = s := ⟨_, rfl⟩
  rw [hs] at hok hsound' hstand hstep ⊢
  have hrun : Run (ImportStep linked) start
      [(start, .gitImport (request firstId)), (s, .gitImport (request secondId))]
      (s.perform linked (.gitImport (request secondId))) :=
    .cons hstep (.cons rfl (.nil _))
  have hmem : ∀ p ∈ [(start, ImportOp.gitImport (request firstId)),
      (s, .gitImport (request secondId))], ∀ req, p.2 = .gitImport req →
      (req = request firstId ∧ p.1 = start) ∨ req = request secondId ∧ p.1 = s := by
    intro p hp req hreq
    simp only [List.mem_cons, List.not_mem_nil, or_false] at hp
    rcases hp with rfl | rfl
    · exact Or.inl ⟨(ImportOp.gitImport.inj hreq).symm, rfl⟩
    · exact Or.inr ⟨(ImportOp.gitImport.inj hreq).symm, rfl⟩
  have hlast : (s, ImportOp.gitImport (request secondId)) ∈
      [(start, ImportOp.gitImport (request firstId)),
        (s, .gitImport (request secondId))] := List.mem_cons_of_mem _ List.mem_cons_self
  refine ⟨_, _, hrun, hlast, hok, import_run_complete hrun (fun p hp req hreq => ?_)
    (fun p hp req hreq => ?_) _ hlast (request secondId) _ rfl hok⟩
  · rcases hmem p hp req hreq with ⟨rfl, h⟩ | ⟨rfl, h⟩
    · rw [h]
      exact hsound
    · rw [h]
      exact hsound'
  · rcases hmem p hp req hreq with ⟨rfl, h⟩ | ⟨rfl, h⟩
    · rw [h]
      exact start_stand
    · rw [h]
      exact hstand

open ImportSystem in
/-- **An import after a collection.**  A branch is imported, its timeline is deleted and what it
was on is collected; the next import returns `Ok` and makes the timeline again, on a snapshot
that is not there. -/
theorem import_after_gc_incomplete :
    ∃ steps s, Run (ImportStep linked) start steps s ∧
      ∃ p ∈ steps, ∃ req summary, p.2 = .gitImport req ∧
        (gitImport linked req p.1).1 = .ok summary ∧
        ¬ NewRefsComplete linked p.1 (gitImport linked req p.1).2 := by
  refine ⟨_, _, .cons (i := .gitImport (request firstId)) rfl
    (.cons (i := .deleteRef mainName) rfl (.cons (i := .gc [] 0 0) rfl
      (.cons (i := .gitImport (request firstId)) rfl (.nil _)))),
    (collected, .gitImport (request firstId)), by simp [collected, imported, Importer.perform],
    request firstId, _, rfl, collected_ok, collected_incomplete⟩

end Bole
