import Bole.Acl.Bounded
import Bole.Lib.Run
import Bole.Repo.Access

/-!
What a confined actor writes: `can_write` of `src/acl/mod.rs` over runs of `advance_timeline`.

* `canWrite_confined`: a confined actor writes at the ceiling of a clearance in scope only;
* `canWrite_of_unfit`: clearances that do not fit a resource enable no write to it;
* `advance_atLevel`: an advance that goes through touches resources at the actor's level only;
* `no_write_down`: **over a whole run**, whatever is at another level stays as it is.
-/

namespace Bole

/-! ### Clearances that fit -/

namespace Accessor

variable {a : Accessor} {label : Label} {res : ResourceRef}

/-- The label is the ceiling of a clearance that lets the actor write the resource. -/
def AtLevel (a : Accessor) (label : Label) (res : ResourceRef) : Prop :=
  ∃ c ∈ a.clearances.clearances, c.cap.contains .write = true ∧
    scopeApplies c.scope res = true ∧ c.ceiling = label

/-- What dominates and does not dominate strictly is equal. -/
lemma eq_of_not_strictlyDominates {l : LabelLattice} {x y : Label}
    (h : l.dominates x y = true) (hs : l.strictlyDominates x y = false) : x = y := by
  by_contra hne
  simp [LabelLattice.strictlyDominates, h, hne] at hs

/-- **A confined actor writes at its own level.** -/
lemma canWrite_confined (hconf : a.clearances.confined = true) :
    a.canWrite label res = true ↔ a.AtLevel label res := by
  constructor
  · intro h
    simp only [canWrite, hconf, if_true] at h
    split_ifs at h
    obtain ⟨c, hc, hgrant⟩ := List.any_eq_true.mp h
    simp only [grants, Bool.and_eq_true, Bool.not_eq_true'] at hgrant
    obtain ⟨⟨⟨hcap, hscope⟩, hdom⟩, hstrict⟩ := hgrant
    exact ⟨c, hc, hcap, hscope, eq_of_not_strictlyDominates hdom hstrict⟩
  · rintro ⟨c, hc, hcap, hscope, rfl⟩
    have hgrant : a.grants .write c.ceiling res c = true := by simp [grants, hcap, hscope]
    have hstrict : a.lattice.strictlyDominates c.ceiling c.ceiling = false := by
      simp [LabelLattice.strictlyDominates]
    have hany : a.clearances.clearances.any (a.grants .write c.ceiling res) = true :=
      List.any_eq_true.mpr ⟨c, hc, hgrant⟩
    have hlevel : (a.clearances.clearances.any fun c' =>
        a.grants .write c.ceiling res c' && !a.lattice.strictlyDominates c'.ceiling c.ceiling) =
          true := List.any_eq_true.mpr ⟨c, hc, by simp [hgrant, hstrict]⟩
    rw [canWrite, hany, hconf, hlevel]
    rfl

/-- The actor with more clearances. -/
def withClearances (a : Accessor) (extra : List Clearance) : Accessor :=
  { a with clearances := { a.clearances with
    clearances := a.clearances.clearances ++ extra } }

/-- The clearance is in scope and its ceiling is what the actor writes at: the label for a
confined actor, and what dominates it for any other. -/
def Fits (a : Accessor) (c : Clearance) (label : Label) (res : ResourceRef) : Prop :=
  scopeApplies c.scope res = true ∧
    if a.clearances.confined = true then c.ceiling = label
    else a.lattice.dominates c.ceiling label = true

/-- **Clearances that do not fit a resource** enable no write to it. -/
lemma canWrite_of_unfit {extra : List Clearance} (hunfit : ∀ c ∈ extra, ¬ a.Fits c label res)
    (h : (a.withClearances extra).canWrite label res = true) : a.canWrite label res = true := by
  cases hconf : a.clearances.confined with
  | true =>
      obtain ⟨c, hc, hcap, hscope, hceil⟩ :=
        (canWrite_confined (a := a.withClearances extra) hconf).mp h
      refine (canWrite_confined hconf).mpr ⟨c, ?_, hcap, hscope, hceil⟩
      refine (List.mem_append.mp hc).resolve_right fun hextra => hunfit c hextra ⟨hscope, ?_⟩
      rwa [if_pos hconf]
  | false =>
      obtain ⟨c, hc, hgrant⟩ := exists_grants_of_canWrite h
      have hparts := hgrant
      simp only [grants, Bool.and_eq_true] at hparts
      have hmem : c ∈ a.clearances.clearances := by
        refine (List.mem_append.mp hc).resolve_right fun hextra =>
          hunfit c hextra ⟨hparts.1.2, ?_⟩
        rw [if_neg (by simp [hconf])]
        exact hparts.2
      have hany : a.clearances.clearances.any (a.grants .write label res) = true :=
        List.any_eq_true.mpr ⟨c, hmem, hgrant⟩
      rw [canWrite, hany, hconf]
      rfl

end Accessor

/-! ### The labels of the two-point lattice -/

namespace LabelLattice

lemma mem_twoPoint {a : Label} : a ∈ twoPoint.labels ↔ a = .public_ ∨ a = .protected_ := by
  have hlist : twoPoint.labels.toList = [.protected_, .public_] := by decide +kernel
  rw [← Std.ExtTreeSet.mem_toList, hlist]
  simp [or_comm]

/-- A join is a label of the lattice, whatever is joined. -/
lemma twoPoint_join_cases (a b : Label) :
    twoPoint.join a b = .public_ ∨ twoPoint.join a b = .protected_ := by
  rw [join]
  cases hfind : (twoPoint.upperBounds a b).find? _ with
  | none => exact Or.inr twoPoint_top
  | some x =>
      exact mem_twoPoint.mp (mem_upperBounds.mp (List.mem_of_find?_eq_some hfind)).1

end LabelLattice

/-- Under any rules the label is one of the two. -/
lemma LabelRuleSet.labelFor_twoPoint_cases (rs : LabelRuleSet) (kind : ResourceKind)
    (name : String) :
    rs.labelFor .twoPoint kind name = .public_ ∨ rs.labelFor .twoPoint kind name = .protected_ := by
  have key : ∀ (rules : List LabelRule) (acc : Label), (acc = .public_ ∨ acc = .protected_) →
      rules.foldl (fun acc r => if r.kind = kind ∧ globMatches r.glob name
        then LabelLattice.twoPoint.join acc r.label else acc) acc = .public_ ∨
      rules.foldl (fun acc r => if r.kind = kind ∧ globMatches r.glob name
        then LabelLattice.twoPoint.join acc r.label else acc) acc = .protected_ := by
    intro rules
    induction rules with
    | nil => exact fun _ h => h
    | cons r rest ih =>
        intro acc hacc
        rw [List.foldl_cons]
        refine ih _ ?_
        split_ifs
        · exact LabelLattice.twoPoint_join_cases _ _
        · exact hacc
  exact key rs.rules _ (Or.inl LabelLattice.twoPoint_bottom)

/-- So the privileged walk shows every path. -/
lemma visible_privileged_twoPoint (rules : LabelRuleSet) (path : String) :
    visible .twoPoint rules .privileged path = true :=
  visible_iff.mpr (Or.inr (privileged_canRead.mpr (rules.labelFor_twoPoint_cases .path path)))

/-! ### The content of the timelines -/

/-- A file below a root has the path and the content. -/
def FileAt (L : Linked) (s : ObjectStore) (root : ObjectId) (path : String) (id : ObjectId) :
    Prop :=
  ∃ dir p t, Below L s root "" dir p ∧ s.getTree L dir = .ok (some t) ∧ (path, id) ∈ t.files p

lemma showsPath_iff {L : Linked} {s : ObjectStore} {root : ObjectId} {path : String} :
    ShowsPath L s root "" path ↔ ∃ id, FileAt L s root path id := by
  constructor
  · rintro ⟨dir, p, t, id, h⟩
    exact ⟨id, dir, p, t, h⟩
  · rintro ⟨id, dir, p, t, h⟩
    exact ⟨dir, p, t, id, h⟩

namespace Repository

/-- The snapshot has a file with the path and the content. -/
def SnapshotHas (L : Linked) (r : Repository) (head : ObjectId) (path : String) (id : ObjectId) :
    Prop :=
  ∃ snap, r.objects.getSnapshot L head = .ok (some snap) ∧ FileAt L r.objects snap.root path id

/-- The timeline has a file with the path and the content. -/
def TimelineHas (L : Linked) (r : Repository) (name : RefName) (path : String) (id : ObjectId) :
    Prop :=
  ∃ T, r.refs.get name = some (.timeline T) ∧ r.SnapshotHas L T.head path id

/-- What an actor asks for: a timeline, and the snapshot to advance it to. -/
structure Advance where
  name : RefName
  snapshot : ObjectId

/-- One call of `advance_timeline` by the actor. -/
def AdvanceStep (L : Linked) (a : Accessor) (r : Repository) (i : Advance) (r' : Repository) :
    Prop :=
  (r.advanceTimeline L i.name i.snapshot a).2 = r'

/-- A call changes no object and no ACL. -/
lemma advanceTimeline_keeps (L : Linked) (r : Repository) (a : Accessor) (i : Advance) :
    (r.advanceTimeline L i.name i.snapshot a).2.objects = r.objects ∧
      (r.advanceTimeline L i.name i.snapshot a).2.acls = r.acls := by
  have hrecord : ∀ (r : Repository) event, (r.record event).objects = r.objects ∧
      (r.record event).acls = r.acls := by
    intro r event
    unfold record
    split <;> exact ⟨rfl, rfl⟩
  rw [advanceTimeline, advanceTimelineExpecting]
  split
  · exact hrecord _ _
  · rw [commitAdvance]
    split
    · exact ⟨rfl, rfl⟩
    · exact hrecord _ _

/-- A call that fails changes no ref, and one that succeeds only its own. -/
lemma advanceTimeline_get (L : Linked) (r : Repository) (a : Accessor) (i : Advance)
    {n : RefName} (h : (r.advanceTimeline L i.name i.snapshot a).1 = .ok () → n ≠ i.name) :
    (r.advanceTimeline L i.name i.snapshot a).2.refs.get n = r.refs.get n := by
  rw [advanceTimeline, advanceTimelineExpecting] at h ⊢
  cases hc : r.checkAdvance L ⟨i.name, i.snapshot, none, a⟩ with
  | error refusal => exact congrArg (RefStore.get · n) (AdvanceCall.record_refs _ _)
  | ok timeline =>
      rw [hc] at h
      dsimp only at h ⊢
      rcases AdvanceCall.commitAdvance_cases r ⟨i.name, i.snapshot, none, a⟩ timeline with
        ⟨T, -, -, hok, -, hother⟩ | ⟨e, -, hrefs⟩
      · exact hother n (h hok)
      · rw [hrefs]

/-- A call that succeeds sets the head. -/
lemma advanceTimeline_head (L : Linked) (r : Repository) (a : Accessor) (i : Advance)
    (h : (r.advanceTimeline L i.name i.snapshot a).1 = .ok ()) :
    ∃ T, r.refs.get i.name = some (.timeline T) ∧
      (r.advanceTimeline L i.name i.snapshot a).2.refs.get i.name =
        some (.timeline { T with head := i.snapshot }) := by
  rw [advanceTimeline, advanceTimelineExpecting] at h ⊢
  cases hc : r.checkAdvance L ⟨i.name, i.snapshot, none, a⟩ with
  | error refusal =>
      rw [hc] at h
      cases h
  | ok timeline =>
      rw [hc] at h
      dsimp only at h ⊢
      rcases AdvanceCall.commitAdvance_cases r ⟨i.name, i.snapshot, none, a⟩ timeline with
        ⟨T, hT, -, -, hnew, -⟩ | ⟨e, herr, -⟩
      · exact ⟨T, hT, hnew⟩
      · rw [herr] at h
        cases h

/-! ### An advance -/

variable {L : Linked} {r r' : Repository} {a : Accessor} {rules : LabelRuleSet}

/-- The repository labels by the two-point lattice and the given rules. -/
def LabelledBy (r : Repository) (rules : LabelRuleSet) : Prop :=
  r.acls.getLattice = .ok .twoPoint ∧ r.acls.getLabelRuleset = .ok rules

/-- The actor is at the level of the timeline. -/
def TimelineAtLevel (a : Accessor) (rules : LabelRuleSet) (name : RefName) : Prop :=
  a.AtLevel (rules.labelForTimeline .twoPoint name.asStr) ⟨.timeline, name.asStr⟩

/-- The actor is at the level of the path. -/
def PathAtLevel (a : Accessor) (rules : LabelRuleSet) (path : String) : Prop :=
  a.AtLevel (rules.labelForPath .twoPoint path) ⟨.path, path⟩

/-- An advance touches the timeline, the paths of its old head, and those of its new one. -/
structure TouchesAtLevel (L : Linked) (r : Repository) (a : Accessor) (rules : LabelRuleSet)
    (i : Advance) : Prop where
  timeline : TimelineAtLevel a rules i.name
  old : ∀ path id, r.TimelineHas L i.name path id → PathAtLevel a rules path
  new : ∀ path id, r.SnapshotHas L i.snapshot path id → PathAtLevel a rules path

/-- **An advance that goes through touches resources at the actor's level only**: what is added,
changed or kept is in the new tree, and what is removed is in the old one. -/
theorem advance_atLevel {i : Advance} (hlabel : r.LabelledBy rules)
    (hconf : a.clearances.confined = true)
    (h : (r.advanceTimeline L i.name i.snapshot a).1 = .ok ()) : TouchesAtLevel L r a rules i := by
  obtain ⟨⟨lattice, rules', auditOld, paths⟩, T, registry, hprep, hread, hremoved, -, -⟩ :=
    advanceTimelineExpecting_ok_iff.mp h
  obtain ⟨hlat, hrules, -, hwrite, snap, hsnap, hwalk, hpaths⟩ := prepare_eq_ok.mp hprep
  obtain rfl : LabelLattice.twoPoint = lattice := Except.ok.inj (hlabel.1.symm.trans hlat)
  obtain rfl : rules = rules' := Except.ok.inj (hlabel.2.symm.trans hrules)
  have hwritten : ∀ path, a.canWrite (rules.labelForPath .twoPoint path) ⟨.path, path⟩ = true →
      PathAtLevel a rules path := fun path => (Accessor.canWrite_confined hconf).mp
  refine ⟨(Accessor.canWrite_confined hconf).mp hwrite, fun path id hold => ?_,
    fun path id hnew => ?_⟩
  · obtain ⟨T', hT', snap', hsnap', hfile⟩ := hold
    obtain rfl : T' = T := by
      have := (readTimeline_eq_ok.mp hread).1
      rw [hT'] at this
      cases this
      rfl
    obtain ⟨old, hold, hchecked⟩ := checkRemoved_eq_ok.mp hremoved
    rw [oldPaths, hsnap'] at hold
    have hmap : r.treeAsMap L snap'.root = .ok old := hold
    simp only [treeAsMap, hlabel.1, hlabel.2] at hmap
    have hmem : path ∈ old := (mem_walkTreeFiltered hmap).mpr
      ⟨visible_privileged_twoPoint rules path, showsPath_iff.mpr ⟨id, hfile⟩⟩
    refine hwritten path ?_
    by_cases hkept : path ∈ paths
    · exact hpaths path hkept
    · exact hchecked path hmem hkept
  · obtain ⟨snap', hsnap', hfile⟩ := hnew
    obtain rfl : snap = snap' := Option.some.inj (Except.ok.inj (hsnap.symm.trans hsnap'))
    refine hwritten path (hpaths path ?_)
    exact (mem_walkTreeFiltered hwalk).mpr
      ⟨visible_privileged_twoPoint rules path, showsPath_iff.mpr ⟨id, hfile⟩⟩

/-- What is at another level is at no timeline that an advance moves, before or after. -/
lemma advance_timelineHas {i : Advance} (hlabel : r.LabelledBy rules)
    (hconf : a.clearances.confined = true) (hstep : AdvanceStep L a r i r') {n : RefName}
    {path : String} (hpath : ¬ PathAtLevel a rules path) (id : ObjectId) :
    r'.TimelineHas L n path id ↔ r.TimelineHas L n path id := by
  obtain rfl := hstep
  have hsame : ∀ head, (r.advanceTimeline L i.name i.snapshot a).2.SnapshotHas L head path id ↔
      r.SnapshotHas L head path id := by
    intro head
    rw [SnapshotHas, (advanceTimeline_keeps L r a i).1]
    rfl
  by_cases hmoved : (r.advanceTimeline L i.name i.snapshot a).1 = .ok () ∧ n = i.name
  · obtain ⟨hok, rfl⟩ := hmoved
    have htouch := advance_atLevel hlabel hconf hok
    refine iff_of_false ?_ fun hold => hpath (htouch.old path id hold)
    rintro ⟨T', hT', hhas⟩
    obtain ⟨T, -, hnew⟩ := advance_replaces hok
    have hhead : T'.head = i.snapshot := by
      have := hT'.symm.trans hnew
      cases this
      rfl
    rw [hhead, hsame] at hhas
    exact hpath (htouch.new path id hhas)
  · have hget := advanceTimeline_get L r a i (n := n) fun hok hn => hmoved ⟨hok, hn⟩
    rw [TimelineHas, hget]
    exact exists_congr fun T => and_congr_right fun _ => hsame T.head

/-! ### Runs -/

open Transition

/-- The labels stay. -/
lemma LabelledBy.advance (h : r.LabelledBy rules) {i : Advance} (hstep : AdvanceStep L a r i r') :
    r'.LabelledBy rules := by
  obtain rfl := hstep
  rw [LabelledBy, (advanceTimeline_keeps L r a i).2]
  exact h

/-- **No write-down over whole runs.**  In every run of advances by a confined actor over the
two-point lattice, each one that goes through touches a timeline and paths at the actor's level
only; what is at another level is the same in every timeline before and after the run; and
clearances that do not fit a resource enable no write to it. -/
theorem no_write_down {steps : List (Repository × Advance)} (hlabel : r.LabelledBy rules)
    (hconf : a.clearances.confined = true) (hrun : Run (AdvanceStep L a) r steps r') :
    (∀ p ∈ steps, (p.1.advanceTimeline L p.2.name p.2.snapshot a).1 = .ok () →
        TouchesAtLevel L p.1 a rules p.2) ∧
      (∀ n path id, ¬ PathAtLevel a rules path →
        (r'.TimelineHas L n path id ↔ r.TimelineHas L n path id)) ∧
      ∀ (extra : List Clearance) label res, (∀ c ∈ extra, ¬ a.Fits c label res) →
        (a.withClearances extra).canWrite label res = true → a.canWrite label res = true := by
  refine ⟨?_, ?_, fun extra label res => Accessor.canWrite_of_unfit⟩
  · intro p hp hok
    obtain ⟨pre, post, u, hpre, -, -⟩ := hrun.split hp
    refine advance_atLevel ?_ hconf hok
    exact hpre.invariant (fun s => s.LabelledBy rules) (fun _ _ => True)
      (fun s i t hs _ hstep => hs.advance hstep) (fun _ _ => trivial) hlabel
  · intro n path id hpath
    induction hrun with
    | nil _ => rfl
    | cons hstep _ ih =>
        rw [ih (hlabel.advance hstep), advance_timelineHas hlabel hconf hstep hpath]

/-- A confined actor at two levels: it writes public timelines and protected secrets. -/
def confinedWriter : Accessor :=
  .fromParts .twoPoint ⟨[]⟩ ⟨[⟨.public_, .write, some ⟨.timeline, "**"⟩⟩,
    ⟨.protected_, .write, some ⟨.path, "secrets/**"⟩⟩], true⟩

/-- It adds a secret; no file beside the secrets is touched. -/
theorem no_write_down_secret :
    ((leakRepo ["secrets/**"]).advanceTimeline leakLinked AdvanceSystem.raceName (leakId 5)
        confinedWriter).1 = .ok () ∧
      TimelineAtLevel confinedWriter (derivedRules ["secrets/**"] [] []) AdvanceSystem.raceName ∧
      ∃ r', Run (AdvanceStep leakLinked confinedWriter) (leakRepo ["secrets/**"])
          [(leakRepo ["secrets/**"], ⟨AdvanceSystem.raceName, leakId 5⟩)] r' ∧
        ∀ n id, r'.TimelineHas leakLinked n "readme" id ↔
          (leakRepo ["secrets/**"]).TimelineHas leakLinked n "readme" id := by
  have hok : ((leakRepo ["secrets/**"]).advanceTimeline leakLinked AdvanceSystem.raceName
      (leakId 5) confinedWriter).1 = .ok () := by decide +kernel
  have hlabel : (leakRepo ["secrets/**"]).LabelledBy (derivedRules ["secrets/**"] [] []) :=
    ⟨rfl, rfl⟩
  have hrun : Run (AdvanceStep leakLinked confinedWriter) (leakRepo ["secrets/**"])
      [(leakRepo ["secrets/**"], ⟨AdvanceSystem.raceName, leakId 5⟩)] _ := .single rfl
  have hreadme : ¬ PathAtLevel confinedWriter (derivedRules ["secrets/**"] [] []) "readme" := by
    unfold PathAtLevel Accessor.AtLevel
    decide +kernel
  obtain ⟨htouch, hkept, -⟩ := no_write_down hlabel rfl hrun
  exact ⟨hok, (htouch _ (List.mem_singleton_self _) hok).timeline, _, hrun,
    fun n id => hkept n "readme" id hreadme⟩

end Repository

end Bole
