import Bole.Refs.Store

/-!
The ref backend on disk and the one in memory (`get`, `set`, `delete` and `list` of
`src/refs/disk.rs` and `src/refs/memory.rs`), under any sequence of calls.

A name with slashes is a path, so a ref stands in the way of the names below it, and the
directories that a name needs stay when the ref is deleted.

* `Represents`: the files of the tree are the refs of the map, and its directories are the
  parents of the names that were ever set;
* `blocked_iff`: the names that cannot be used are those below a ref and those above a name
  that was ever set;
* `mem_list`: a listing gives the refs with the asked beginning;
* `disk_refines_memory_iff`: the two backends give the same replies exactly when no call is on
  such a name.
-/

namespace Bole

open FileTree

/-! ### Listing on disk -/

/-- A name that the walk skips. -/
def hidden (segment : List Char) : Bool := segment.head? == some '.'

/-- What `walk_refs` adds for a file. -/
def refOfPath (pfx : String) (path : List (List Char)) : Option RefName :=
  let name := String.ofList (['/'].intercalate path)
  if pfx.toList.isPrefixOf name.toList then (RefName.new name).toOption else none

/-- `list`. -/
def RefTree.list (reader : Reader (List Char) Ref) (t : RefTree) (pfx : String) : List RefName :=
  ((walkNode reader hidden (.dir t)).filterMap (refOfPath pfx)).mergeSort
    fun a b => (compare a b).isLE

namespace RefName

lemma segments_ne_nil (n : RefName) : n.segments ≠ [] := List.splitOn_ne_nil _ _

/-- No segment of a name is hidden. -/
lemma not_hidden {n : RefName} {segment : List Char} (h : segment ∈ n.segments) :
    hidden segment = false := by
  obtain ⟨-, hdot, -⟩ := segment_rules h
  simpa [hidden] using hdot

lemma refOfPath_segments (pfx : String) (n : RefName) :
    refOfPath pfx n.segments =
      if pfx.toList.isPrefixOf n.asStr.toList then some n else none := by
  have hname : String.ofList (['/'].intercalate n.segments) = n.name := by
    rw [segments, List.intercalate_splitOn, String.ofList_toList]
  rw [refOfPath, hname, RefName.new, dif_pos n.valid]
  rfl

end RefName

/-! ### Calls -/

/-- A call of the backend; a listing comes with the order in which the system lists the
directories. -/
inductive BackendCall where
  | get (n : RefName)
  | set (n : RefName) (r : Ref)
  | delete (n : RefName)
  | list (pfx : String) (reader : Reader (List Char) Ref)

/-- What a call returns. -/
inductive BackendReply where
  | value (r : Option Ref)
  | done
  | names (l : List RefName)
deriving DecidableEq

/-- One call on disk. -/
def RefTree.call (t : RefTree) : BackendCall → Result BackendReply × RefTree
  | .get n => ((t.get n).map .value, t)
  | .set n r =>
      match t.set n r with
      | .ok t' => (.ok .done, t')
      | .error e => (.error e, t)
  | .delete n =>
      match t.delete n with
      | .ok t' => (.ok .done, t')
      | .error e => (.error e, t)
  | .list pfx reader => (.ok (.names (t.list reader pfx)), t)

/-- One call in memory. -/
def RefStore.call (s : RefStore) : BackendCall → Result BackendReply × RefStore
  | .get n => (.ok (.value (s.get n)), s)
  | .set n r => (.ok .done, s.write (n, some r))
  | .delete n => (.ok .done, s.write (n, none))
  | .list pfx _ => (.ok (.names (s.list pfx)), s)

/-- The replies to a sequence of calls. -/
def replies {σ : Type} (call : σ → BackendCall → Result BackendReply × σ) :
    List BackendCall → σ → List (Result BackendReply)
  | [], _ => []
  | c :: rest, s => (call s c).1 :: replies call rest (call s c).2

/-! ### Names that stand in each other's way -/

/-- The refs that were set and not deleted since, and all that were ever set. -/
structure RefHistory where
  live : Finset RefName
  ever : Finset RefName

/-- The name a call is on. -/
def BackendCall.name : BackendCall → Option RefName
  | .get n => some n
  | .set n _ => some n
  | .delete n => some n
  | .list _ _ => none

/-- The history after a write. -/
def RefHistory.write (h : RefHistory) (e : RefName × Option Ref) : RefHistory :=
  match e.2 with
  | some _ => ⟨insert e.1 h.live, insert e.1 h.ever⟩
  | none => ⟨h.live.erase e.1, h.ever⟩

/-- The history after a call. -/
def RefHistory.after (h : RefHistory) : BackendCall → RefHistory
  | .set n r => h.write (n, some r)
  | .delete n => h.write (n, none)
  | _ => h

/-- No ref lies on the way to the name, and the name does not lie on the way to one that was
ever set. -/
def RefHistory.Clear (h : RefHistory) (n : RefName) : Prop :=
  (∀ p ∈ h.live, ¬ Above p.segments n.segments) ∧ ∀ q ∈ h.ever, ¬ Above n.segments q.segments

/-- Every call is on a name that is clear when it is made. -/
def AllClear : List BackendCall → RefHistory → Prop
  | [], _ => True
  | c :: rest, h => (∀ n, c.name = some n → h.Clear n) ∧ AllClear rest (h.after c)

/-- **The tree stands for the map**: its files are the refs, and its directories the parents of
the names that were ever set. -/
structure Represents (t : RefTree) (s : RefStore) (h : RefHistory) : Prop where
  files : ∀ p r, FileTree.lookup p t = some r ↔ ∃ n : RefName, n.segments = p ∧ s.get n = some r
  dirs : ∀ p, IsDir p t ↔ p = [] ∨ ∃ n ∈ h.ever, Above p n.segments
  live : ∀ n, n ∈ h.live ↔ ∃ r, s.get n = some r
  small : Small (.dir t)

namespace Represents

variable {t t' : RefTree} {s : RefStore} {h : RefHistory} {n : RefName}

lemma empty : Represents emptyDir ⟨∅⟩ ⟨∅, ∅⟩ where
  files p r := by
    rw [lookup_emptyDir]
    constructor
    · intro hp
      cases hp
    · rintro ⟨n, -, hn⟩
      simp [RefStore.get] at hn
  dirs p := by simp [isDir_emptyDir]
  live n := by simp [RefStore.get]
  small := small_emptyDir

lemma lookup_eq (hrep : Represents t s h) (n : RefName) : t.lookup n = s.get n := by
  apply Option.ext
  intro r
  rw [RefTree.lookup, hrep.files]
  constructor
  · rintro ⟨m, hm, hr⟩
    rwa [RefName.segments_injective hm] at hr
  · exact fun hr => ⟨n, rfl, hr⟩

/-- **What stands in the way of a name.** -/
lemma blocked_iff (hrep : Represents t s h) (n : RefName) : t.Blocked n ↔ ¬ h.Clear n := by
  rw [RefTree.Blocked, FileTree.blocked_iff, hrep.dirs, RefHistory.Clear, not_and_or]
  push Not
  constructor
  · rintro ((hnil | ⟨q, hq, habove⟩) | ⟨p, habove, r, hr⟩)
    · exact absurd hnil n.segments_ne_nil
    · exact Or.inr ⟨q, hq, habove⟩
    · obtain ⟨m, rfl, hm⟩ := (hrep.files p r).mp hr
      exact Or.inl ⟨m, (hrep.live m).mpr ⟨r, hm⟩, habove⟩
  · rintro (⟨p, hp, habove⟩ | ⟨q, hq, habove⟩)
    · obtain ⟨r, hr⟩ := (hrep.live p).mp hp
      exact Or.inr ⟨p.segments, habove, r, (hrep.files _ r).mpr ⟨p, rfl, hr⟩⟩
    · exact Or.inl (Or.inr ⟨q, hq, habove⟩)

/-- **A write** keeps it so. -/
lemma applyEntry (hrep : Represents t s h) {e : RefName × Option Ref}
    (he : t.applyEntry e = .ok t') : Represents t' (s.write e) (h.write e) := by
  have hget : ∀ m, (s.write e).get m = if m = e.1 then e.2 else s.get m := by
    intro m
    have := congrFun (s.map_write e) m
    rwa [Function.update_apply] at this
  refine ⟨fun p r => ?_, fun p => ?_, fun m => ?_, RefTree.small_applyEntry hrep.small he⟩
  · rw [RefTree.files_applyEntry he]
    split_ifs with hp
    · subst hp
      constructor
      · intro hr
        exact ⟨e.1, rfl, by rw [hget, if_pos rfl, hr]⟩
      · rintro ⟨m, hm, hr⟩
        rwa [RefName.segments_injective hm, hget, if_pos rfl] at hr
    · rw [hrep.files]
      refine exists_congr fun m => and_congr_right fun hm => ?_
      rw [hget, if_neg]
      rintro rfl
      exact hp hm.symm
  · rw [RefTree.isDir_applyEntry he, hrep.dirs, RefHistory.write]
    cases he2 : e.2 with
    | none => simp
    | some r =>
        simp only [Option.isSome_some, true_and, Finset.exists_mem_insert]
        rw [or_assoc, or_comm (a := ∃ n ∈ h.ever, _)]
  · rw [hget, RefHistory.write]
    cases he2 : e.2 with
    | none =>
        rw [Finset.mem_erase, hrep.live]
        split_ifs with hm <;> simp [hm]
    | some r =>
        rw [Finset.mem_insert, hrep.live]
        split_ifs with hm <;> simp [hm]

/-! ### Listings -/

/-- The walk meets the refs there are, each once. -/
lemma walk_eq (hrep : Represents t s h) (reader : Reader (List Char) Ref) :
    ∃ names : List RefName, walkNode reader hidden (.dir t) = names.map RefName.segments ∧
      names.Nodup ∧ ∀ n, n ∈ names ↔ ∃ r, s.get n = some r := by
  have hrange : walkNode reader hidden (.dir t) ∈ Set.range (List.map RefName.segments) := by
    rw [Set.range_list_map]
    intro p hp
    obtain ⟨⟨r, hr⟩, -⟩ := (mem_walk hrep.small).mp hp
    obtain ⟨n, hn, -⟩ := (hrep.files p r).mp hr
    exact ⟨n, hn⟩
  obtain ⟨names, hnames⟩ := hrange
  refine ⟨names, hnames.symm, ?_, fun n => ?_⟩
  · have hnodup : (names.map RefName.segments).Nodup := hnames ▸ nodup_walk hrep.small
    exact hnodup.of_map _
  · rw [← List.mem_map_of_injective RefName.segments_injective, hnames, mem_walk hrep.small,
      and_iff_left fun x => RefName.not_hidden]
    refine exists_congr fun r => ?_
    rw [← hrep.lookup_eq]
    rfl

/-- **A listing on disk is the one in memory.** -/
lemma list_eq (hrep : Represents t s h) (reader : Reader (List Char) Ref) (pfx : String) :
    t.list reader pfx = s.list pfx := by
  obtain ⟨names, hwalk, hnodup, hmem⟩ := hrep.walk_eq reader
  have hfilter : (names.map RefName.segments).filterMap (refOfPath pfx) =
      names.filter fun n => pfx.toList.isPrefixOf n.asStr.toList := by
    rw [List.filterMap_map, ← List.filterMap_eq_filter]
    refine List.filterMap_congr fun n _ => ?_
    rw [Function.comp_apply, RefName.refOfPath_segments, Option.guard]
  rw [RefTree.list, hwalk, hfilter]
  have hperm : (names.filter fun n => pfx.toList.isPrefixOf n.asStr.toList).Perm (s.list pfx) :=
    (List.perm_ext_iff_of_nodup (hnodup.filter _) (s.nodup_list pfx)).mpr fun n => by
      rw [List.mem_filter, hmem, RefStore.mem_list]
  -- both are sorted, and their elements are the same
  have hsorted : ((names.filter fun n => pfx.toList.isPrefixOf n.asStr.toList).mergeSort
      fun a b => (compare a b).isLE).Pairwise fun a b => (compare a b).isLE = true := by
    refine List.pairwise_mergeSort (fun _ _ _ => Std.TransCmp.isLE_trans) (fun a b => ?_) _
    by_cases hab : (compare a b).isLE = true
    · simp [hab]
    · simp [Std.OrientedCmp.lt_of_not_isLE hab]
  have hkeys : (s.list pfx).Pairwise fun a b => (compare a b).isLE = true := by
    refine List.Pairwise.filter _ (Std.ExtTreeMap.ordered_keys.imp fun hab => ?_)
    simp [hab]
  refine List.Perm.eq_of_pairwise (fun a b _ _ hab hba => ?_) hsorted hkeys
    ((List.mergeSort_perm _ _).trans hperm)
  exact Std.LawfulEqOrd.eq_of_compare (Std.OrientedCmp.isLE_antisymm hab hba)

/-! ### Any sequence of calls -/

/-- **A call on a clear name** gives the same reply on both sides, and the tree still stands for
the map. -/
lemma call_of_clear (hrep : Represents t s h) {c : BackendCall}
    (hc : ∀ n, c.name = some n → h.Clear n) :
    (t.call c).1 = (s.call c).1 ∧ Represents (t.call c).2 (s.call c).2 (h.after c) := by
  have hfree : ∀ n, c.name = some n → ¬ t.Blocked n := fun n hn hb =>
    (hrep.blocked_iff n).mp hb (hc n hn)
  cases c with
  | get n =>
      refine ⟨?_, hrep⟩
      rw [RefTree.call, RefTree.get_of_not_blocked (hfree n rfl), hrep.lookup_eq]
      rfl
  | set n r =>
      obtain ⟨t', ht'⟩ : ∃ t', t.applyEntry (n, some r) = .ok t' :=
        RefTree.applyEntry_ok_iff.mpr (hfree n rfl)
      have hset : t.set n r = .ok t' := ht'
      rw [RefTree.call, hset]
      exact ⟨rfl, hrep.applyEntry ht'⟩
  | delete n =>
      obtain ⟨t', ht'⟩ : ∃ t', t.applyEntry (n, none) = .ok t' :=
        RefTree.applyEntry_ok_iff.mpr (hfree n rfl)
      have hdel : t.delete n = .ok t' := ht'
      rw [RefTree.call, hdel]
      exact ⟨rfl, hrep.applyEntry ht'⟩
  | list pfx reader =>
      refine ⟨?_, hrep⟩
      rw [RefTree.call, hrep.list_eq]
      rfl

/-- **A call on any other name** fails on disk. -/
lemma call_of_not_clear (hrep : Represents t s h) {c : BackendCall} {n : RefName}
    (hn : c.name = some n) (hc : ¬ h.Clear n) : (t.call c).1 ≠ (s.call c).1 := by
  have hb : t.Blocked n := (hrep.blocked_iff n).mpr hc
  have hfail : ∀ v, ∃ err, t.applyEntry (n, v) = .error err := by
    intro v
    cases he : t.applyEntry (n, v) with
    | error err => exact ⟨err, rfl⟩
    | ok t' => exact absurd hb (RefTree.applyEntry_ok_iff.mp ⟨t', he⟩)
  cases c with
  | get m =>
      obtain rfl : m = n := Option.some.inj hn
      obtain ⟨err, herr⟩ := hb
      rw [RefTree.call, RefTree.get, herr]
      simp [RefStore.call, Except.map]
  | set m r =>
      obtain rfl : m = n := Option.some.inj hn
      obtain ⟨err, herr⟩ := hfail (some r)
      rw [RefTree.call, show t.set m r = .error err from herr]
      simp [RefStore.call]
  | delete m =>
      obtain rfl : m = n := Option.some.inj hn
      obtain ⟨err, herr⟩ := hfail none
      rw [RefTree.call, show t.delete m = .error err from herr]
      simp [RefStore.call]
  | list pfx reader => cases hn

lemma replies_eq_iff (hrep : Represents t s h) (calls : List BackendCall) :
    replies RefTree.call calls t = replies RefStore.call calls s ↔ AllClear calls h := by
  induction calls generalizing t s h with
  | nil => simp [replies, AllClear]
  | cons c rest ih =>
      rw [replies, replies, AllClear, List.cons.injEq]
      by_cases hc : ∀ n, c.name = some n → h.Clear n
      · obtain ⟨hreply, hnext⟩ := hrep.call_of_clear hc
        rw [and_iff_right hreply, and_iff_right hc, ih hnext]
      · push Not at hc
        obtain ⟨n, hn, hblocked⟩ := hc
        constructor
        · exact fun heq => absurd heq.1 (hrep.call_of_not_clear hn hblocked)
        · exact fun hclear => absurd (hclear.1 n hn) hblocked

end Represents

/-- **The backend on disk replies as the one in memory** to a sequence of calls from empty exactly
when every call is on a name that no ref lies on the way to and that does not lie on the way to
a name that was ever set. -/
theorem disk_refines_memory_iff (calls : List BackendCall) :
    replies RefTree.call calls emptyDir = replies RefStore.call calls ⟨∅⟩ ↔
      AllClear calls ⟨∅, ∅⟩ :=
  Represents.empty.replies_eq_iff calls

/-- A ref is made and deleted, and then one is made whose name was a directory on the way to
it. -/
def reuseCalls : List BackendCall :=
  let tag : Ref := .tag ⟨⟨Digest.replicate 1⟩, 1, none⟩
  [.set ⟨"feature/x", by decide +kernel⟩ tag, .delete ⟨"feature/x", by decide +kernel⟩,
    .set ⟨"feature", RefName.valid_feature⟩ tag]

/-- **The directory that a deleted ref leaves is in the way of a new one.** -/
theorem reuse_fails_on_disk :
    replies RefTree.call reuseCalls emptyDir =
        [.ok .done, .ok .done, .error (.io .isADirectory)] ∧
      replies RefStore.call reuseCalls ⟨∅⟩ = [.ok .done, .ok .done, .ok .done] ∧
      replies RefTree.call reuseCalls emptyDir ≠ replies RefStore.call reuseCalls ⟨∅⟩ := by
  decide +kernel

end Bole
