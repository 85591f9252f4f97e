import Bole.Refs.Atomicity
import Bole.Refs.Recovery

/-!
One ref transaction, a crash at any point of it, and any number of recoveries, each of which may
crash itself (`apply_atomic` and `recover` of `src/refs/disk.rs`).

The journal holds absolute values, so replaying it again changes nothing.  But a name of the
plan can be a directory that deleted refs have left, and there the replay stops: again and
again, at the same entry.

* `Caught`: what lies between two steps of the replay;
* `Caught.replay`: a replay from there writes the entries in front of the first blocked name;
* `AfterCrash.run`, `AfterRecovery.run`: so does every recovery of a run, and once one has
  finished the later ones change nothing;
* `crash_atomic_iff`: recovery leaves all of the old or all of the new values exactly when the
  entries on one side of that name restate what the refs hold.
-/

namespace Bole

open FileTree Relation

/-! ### Crashes and recoveries -/

/-- No name of the plan is a directory on the way to another. -/
def Apart (plan : Plan) : Prop :=
  ∀ e ∈ plan, ∀ e' ∈ plan, ¬ Above e.1.segments e'.1.segments

instance (plan : Plan) : Decidable (Apart plan) :=
  inferInstanceAs (Decidable (∀ e ∈ plan, ∀ e' ∈ plan, ¬ (_ ∧ _)))

/-- One more recovery, finished or caught by a crash. -/
inductive RecoverStep : DiskRefBackend → DiskRefBackend → Prop where
  | finished (d : DiskRefBackend) : RecoverStep d d.recover.2
  | interrupted {d d' : DiskRefBackend} : RecoverPartial d.journals d.refs d' → RecoverStep d d'

/-- After a crash of the transaction and any number of recoveries, the next one leaves all of the
old or all of the new values, and later ones change nothing more. -/
def CrashAtomic (t : RefTree) (plan : Plan) : Prop :=
  ∀ d d', CommitPartial ⟨t, []⟩ plan d → ReflTransGen RecoverStep d d' →
    (d'.recover.2.refs.lookup = t.lookup ∨
        d'.recover.2.refs.lookup = RefMap.applyPlan t.lookup plan) ∧
      ∀ d'', ReflTransGen RecoverStep d'.recover.2 d'' →
        d''.refs.lookup = d'.recover.2.refs.lookup

/-- The entries in front of the first blocked name. -/
def RefTree.writable (t : RefTree) (plan : Plan) : Plan :=
  plan.takeWhile fun e => !decide (t.Blocked e.1)

/-- The entries from the first blocked name on. -/
def RefTree.stuck (t : RefTree) (plan : Plan) : Plan :=
  plan.dropWhile fun e => !decide (t.Blocked e.1)

variable {t u u' : RefTree} {plan done rest : Plan} {e : RefName × Option Ref}

lemma RefTree.writable_append_stuck (t : RefTree) (plan : Plan) :
    t.writable plan ++ t.stuck plan = plan := List.takeWhile_append_dropWhile

lemma RefTree.stuck_eq_nil : t.stuck plan = [] ↔ ∀ e ∈ plan, ¬ t.Blocked e.1 := by
  rw [stuck, List.dropWhile_eq_nil_iff]
  simp

/-- An entry is in front of the first blocked name if all up to it can be written. -/
lemma RefTree.mem_writable (hdone : ∀ e ∈ done, ¬ t.Blocked e.1) (he : ¬ t.Blocked e.1) :
    e ∈ t.writable (done ++ e :: rest) := by
  rw [writable, List.takeWhile_append_of_pos (by simpa using hdone),
    List.takeWhile_cons_of_pos (by simpa using he)]
  simp

/-! ### Between two steps -/

/-- A tree in which a replay can be caught: only entries in front of the first blocked name are
written, and the names are blocked that were. -/
structure Caught (t : RefTree) (plan : Plan) (u : RefTree) : Prop where
  outside : ∀ n, n ∉ (t.writable plan).map Prod.fst → u.lookup n = t.lookup n
  blocked : ∀ e ∈ plan, (u.Blocked e.1 ↔ t.Blocked e.1)

namespace Caught

lemma start (t : RefTree) (plan : Plan) : Caught t plan t := ⟨fun _ _ => rfl, fun _ _ => Iff.rfl⟩

/-- **Writing an entry** keeps it so: the names of the plan do not stand in each other's way. -/
lemma applyEntry (hu : Caught t plan u) (hapart : Apart plan) (he : e ∈ t.writable plan)
    (h : u.applyEntry e = .ok u') : Caught t plan u' where
  outside n hn := by
    have hne : n ≠ e.1 := by
      rintro rfl
      exact hn (List.mem_map_of_mem he)
    rw [RefTree.lookup_applyEntry h, Function.update_of_ne hne, hu.outside n hn]
  blocked e' he' := by
    have hmem : e ∈ plan := List.takeWhile_subset _ he
    rw [← hu.blocked e' he']
    refine blocked_congr ?_ fun q hq => ?_
    · rw [RefTree.isDir_applyEntry h, or_iff_left fun hdir => hapart e' he' e hmem hdir.2]
    · rw [RefTree.files_applyEntry h, if_neg]
      rintro rfl
      exact hapart e hmem e' he' hq

/-- Creating the parents of a name of the plan keeps it so. -/
lemma mkdirs (hu : Caught t plan u) (hapart : Apart plan) (he : e ∈ plan) :
    Caught t plan (u.mkdirs e.1) where
  outside n hn := by rw [RefTree.lookup_mkdirs, hu.outside n hn]
  blocked e' he' := by
    rw [← hu.blocked e' he']
    refine blocked_congr (isDir_mkdirs (hapart e' he' e he)) fun q _ => ?_
    exact FileTree.lookup_mkdirs _ _ _

/-- **An interrupted replay** keeps it so. -/
lemma ofPartial (hapart : Apart plan) (h : Partial rest u u') (hu : Caught t plan u)
    (hplan : plan = done ++ rest) (hdone : ∀ e ∈ done, ¬ t.Blocked e.1) : Caught t plan u' := by
  induction h generalizing done with
  | stop => exact hu
  | dirs e rest u => exact hu.mkdirs hapart (by simp [hplan])
  | @step e rest u u₁ u' happ _ ih =>
      have hfree : ¬ t.Blocked e.1 := fun hb =>
        RefTree.applyEntry_ok_iff.mp ⟨u₁, happ⟩ ((hu.blocked e (by simp [hplan])).mpr hb)
      have hmem : e ∈ t.writable plan := hplan ▸ RefTree.mem_writable hdone hfree
      have hnext : plan = (done ++ [e]) ++ rest := by simp [hplan]
      refine ih (hu.applyEntry hapart hmem happ) hnext fun e' he' => ?_
      rcases List.mem_append.mp he' with he' | he'
      · exact hdone e' he'
      · rw [List.mem_singleton.mp he']
        exact hfree

/-- **A replay** writes the entries in front of the first blocked name, and goes through when
there is none. -/
lemma applyPlan_rest (hapart : Apart plan) (i : ℕ) (hu : Caught t plan u)
    (hplan : plan = done ++ rest) (hdone : ∀ e ∈ done, ¬ t.Blocked e.1) :
    Caught t plan (applyPlan none rest i u).2 ∧
      (applyPlan none rest i u).2.lookup = RefMap.applyPlan u.lookup (t.writable rest) ∧
      ((applyPlan none rest i u).1 = .ok () ↔ t.stuck rest = []) := by
  induction rest generalizing u done i with
  | nil => exact ⟨hu, rfl, by simp [applyPlan, RefTree.stuck]⟩
  | cons e rest ih =>
      have he : e ∈ plan := by simp [hplan]
      have hfault : faultAt none i = none := rfl
      rw [applyPlan, hfault]
      dsimp only
      by_cases hb : t.Blocked e.1
      · cases happ : u.applyEntry e with
        | ok u₁ =>
            exact absurd ((hu.blocked e he).mpr hb) (RefTree.applyEntry_ok_iff.mp ⟨u₁, happ⟩)
        | error err =>
            rw [RefTree.writable, RefTree.stuck, List.takeWhile_cons_of_neg (by simpa using hb),
              List.dropWhile_cons_of_neg (by simpa using hb)]
            exact ⟨hu, rfl, by simp⟩
      · obtain ⟨u₁, happ⟩ := RefTree.applyEntry_ok_iff.mpr fun h => hb ((hu.blocked e he).mp h)
        have hmem : e ∈ t.writable plan := hplan ▸ RefTree.mem_writable hdone hb
        have hnext : plan = (done ++ [e]) ++ rest := by simp [hplan]
        obtain ⟨hcaught, hlookup, hok⟩ :=
          ih (i + 1) (hu.applyEntry hapart hmem happ) hnext fun e' he' => by
            rcases List.mem_append.mp he' with he' | he'
            · exact hdone e' he'
            · rw [List.mem_singleton.mp he']
              exact hb
        rw [happ]
        refine ⟨hcaught, ?_, ?_⟩
        · rw [hlookup, RefTree.lookup_applyEntry happ, RefTree.writable, RefTree.writable,
            List.takeWhile_cons_of_pos (by simpa using hb)]
          rfl
        · rw [hok, RefTree.stuck, RefTree.stuck, List.dropWhile_cons_of_pos (by simpa using hb)]

/-- Trees that differ on written entries only are the same after writing them. -/
lemma applyPlan_writable (hu : Caught t plan u) (hnodup : (plan.map Prod.fst).Nodup) :
    RefMap.applyPlan u.lookup (t.writable plan) = RefMap.applyPlan t.lookup (t.writable plan) := by
  have hpre : ((t.writable plan).map Prod.fst).Nodup :=
    hnodup.sublist ((List.takeWhile_sublist _).map _)
  funext n
  by_cases hn : n ∈ (t.writable plan).map Prod.fst
  · obtain ⟨p, hp, rfl⟩ := List.mem_map.mp hn
    rw [RefMap.applyPlan_of_mem hpre _ hp, RefMap.applyPlan_of_mem hpre _ hp]
  · rw [RefMap.applyPlan_of_not_mem _ hn, RefMap.applyPlan_of_not_mem _ hn, hu.outside n hn]

/-- The whole journal is replayed. -/
lemma replay (hu : Caught t plan u) (hapart : Apart plan) (hnodup : (plan.map Prod.fst).Nodup) :
    Caught t plan (applyPlan none plan 0 u).2 ∧
      (applyPlan none plan 0 u).2.lookup = RefMap.applyPlan t.lookup (t.writable plan) ∧
      ((applyPlan none plan 0 u).1 = .ok () ↔ t.stuck plan = []) := by
  have hplan : plan = [] ++ plan := rfl
  obtain ⟨hcaught, hlookup, hok⟩ := hu.applyPlan_rest hapart 0 hplan (by simp)
  exact ⟨hcaught, hlookup.trans (hu.applyPlan_writable hnodup), hok⟩

end Caught

/-! ### Runs -/

/-- A disk after a crash: the journal is there and a replay has been caught, or it is gone and
the values are the old ones or, where no name is blocked, the new ones. -/
def AfterCrash (t : RefTree) (plan : Plan) (d : DiskRefBackend) : Prop :=
  (d.journals = [plan] ∧ Caught t plan d.refs) ∨
    (d.journals = [] ∧ (d.refs.lookup = t.lookup ∨
      (t.stuck plan = [] ∧ d.refs.lookup = RefMap.applyPlan t.lookup (t.writable plan))))

/-- A disk after a recovery: a later one has nothing to change. -/
def AfterRecovery (t : RefTree) (plan : Plan) (m : RefMap) (d : DiskRefBackend) : Prop :=
  d.refs.lookup = m ∧ (d.journals = [] ∨
    (d.journals = [plan] ∧ Caught t plan d.refs ∧ m = RefMap.applyPlan t.lookup (t.writable plan)))

section Runs

variable {d d' : DiskRefBackend} {m : RefMap}

/-- A finished recovery of a journal. -/
lemma recover_journal (hapart : Apart plan) (hnodup : (plan.map Prod.fst).Nodup)
    (hj : d.journals = [plan]) (hd : Caught t plan d.refs) :
    Caught t plan d.recover.2.refs ∧
      d.recover.2.refs.lookup = RefMap.applyPlan t.lookup (t.writable plan) ∧
      ((d.recover.1 = .ok () ∧ d.recover.2.journals = [] ∧ t.stuck plan = []) ∨
        (d.recover.1 ≠ .ok () ∧ d.recover.2.journals = [plan] ∧ t.stuck plan ≠ [])) := by
  obtain ⟨hcaught, hlookup, hok⟩ := hd.replay hapart hnodup
  rw [DiskRefBackend.recover, hj, DiskRefBackend.recoverLoop]
  cases happ : applyPlan none plan 0 d.refs with
  | mk result u =>
      rw [happ] at hcaught hlookup hok
      cases result with
      | ok _ => exact ⟨hcaught, hlookup, Or.inl ⟨rfl, rfl, hok.mp rfl⟩⟩
      | error err =>
          refine ⟨hcaught, hlookup, Or.inr ⟨by simp, rfl, fun hstuck => ?_⟩⟩
          cases hok.mpr hstuck

lemma recover_of_nil (hj : d.journals = []) : d.recover = (.ok (), d) := by
  obtain ⟨refs, journals⟩ := d
  subst hj
  rfl

/-- An interrupted recovery of a journal: it is still there, or all of it has been replayed. -/
lemma interrupted_journal (hapart : Apart plan) (hnodup : (plan.map Prod.fst).Nodup)
    (hj : d.journals = [plan]) (hd : Caught t plan d.refs)
    (h : RecoverPartial d.journals d.refs d') :
    (d'.journals = [plan] ∧ Caught t plan d'.refs ∧ Partial plan d.refs d'.refs) ∨
      (d'.journals = [] ∧ t.stuck plan = [] ∧
        d'.refs.lookup = RefMap.applyPlan t.lookup (t.writable plan)) := by
  rw [hj] at h
  have hplan : plan = [] ++ plan := rfl
  cases h with
  | stop => exact Or.inl ⟨rfl, hd, .stop plan _⟩
  | within hp => exact Or.inl ⟨rfl, hd.ofPartial hapart hp hplan (by simp), hp⟩
  | next happ hrest =>
      cases hrest with
      | stop =>
          obtain ⟨-, hlookup, hok⟩ := hd.replay hapart hnodup
          rw [happ.applyPlan_eq] at hlookup hok
          exact Or.inr ⟨rfl, hok.mp rfl, hlookup⟩

lemma AfterCrash.of_commit (hapart : Apart plan) (hnodup : (plan.map Prod.fst).Nodup)
    (h : CommitPartial ⟨t, []⟩ plan d) : AfterCrash t plan d := by
  have hplan : plan = [] ++ plan := rfl
  cases h with
  | before => exact Or.inr ⟨rfl, Or.inl rfl⟩
  | within _ hp =>
      exact Or.inl ⟨rfl, (Caught.start t plan).ofPartial hapart hp hplan (by simp)⟩
  | after happ =>
      obtain ⟨-, hlookup, hok⟩ := (Caught.start t plan).replay hapart hnodup
      rw [happ.applyPlan_eq] at hlookup hok
      exact Or.inr ⟨rfl, Or.inr ⟨hok.mp rfl, hlookup⟩⟩

/-- **One recovery**, finished or not, keeps it so. -/
lemma AfterCrash.step (hapart : Apart plan) (hnodup : (plan.map Prod.fst).Nodup)
    (hd : AfterCrash t plan d) (h : RecoverStep d d') : AfterCrash t plan d' := by
  rcases hd with ⟨hj, hd⟩ | ⟨hj, hd⟩
  · cases h with
    | finished =>
        obtain ⟨hcaught, hlookup, ⟨-, hj', hstuck⟩ | ⟨-, hj', -⟩⟩ :=
          recover_journal hapart hnodup hj hd
        · exact Or.inr ⟨hj', Or.inr ⟨hstuck, hlookup⟩⟩
        · exact Or.inl ⟨hj', hcaught⟩
    | interrupted hp =>
        rcases interrupted_journal hapart hnodup hj hd hp with
          ⟨hj', hcaught, -⟩ | ⟨hj', hstuck, hlookup⟩
        · exact Or.inl ⟨hj', hcaught⟩
        · exact Or.inr ⟨hj', Or.inr ⟨hstuck, hlookup⟩⟩
  · cases h with
    | finished =>
        rw [recover_of_nil hj]
        exact Or.inr ⟨hj, hd⟩
    | interrupted hp =>
        rw [hj] at hp
        cases hp with
        | stop => exact Or.inr ⟨rfl, hd⟩

/-- **A run of recoveries** after a crash. -/
lemma AfterCrash.run (hapart : Apart plan) (hnodup : (plan.map Prod.fst).Nodup)
    (hd : AfterCrash t plan d) (h : ReflTransGen RecoverStep d d') : AfterCrash t plan d' := by
  induction h with
  | refl => exact hd
  | tail _ hstep ih => exact ih.step hapart hnodup hstep

/-- What a finished recovery leaves. -/
lemma AfterCrash.recover (hapart : Apart plan) (hnodup : (plan.map Prod.fst).Nodup)
    (hd : AfterCrash t plan d) :
    AfterRecovery t plan d.recover.2.refs.lookup d.recover.2 ∧
      (d.recover.2.refs.lookup = t.lookup ∨
        d.recover.2.refs.lookup = RefMap.applyPlan t.lookup (t.writable plan)) := by
  rcases hd with ⟨hj, hd⟩ | ⟨hj, hd⟩
  · obtain ⟨hcaught, hlookup, ⟨-, hj', -⟩ | ⟨-, hj', -⟩⟩ := recover_journal hapart hnodup hj hd
    · exact ⟨⟨rfl, Or.inl hj'⟩, Or.inr hlookup⟩
    · exact ⟨⟨rfl, Or.inr ⟨hj', hcaught, hlookup⟩⟩, Or.inr hlookup⟩
  · rw [recover_of_nil hj]
    exact ⟨⟨rfl, Or.inl hj⟩, hd.imp_right fun h => h.2⟩

/-- A replay over its own result changes nothing. -/
lemma Caught.replayed (hnodup : (plan.map Prod.fst).Nodup) (hu : Caught t plan u)
    (hu' : Caught t plan u') (hp : Partial plan u u')
    (hlookup : u.lookup = RefMap.applyPlan t.lookup (t.writable plan)) :
    u'.lookup = u.lookup := by
  have hpre : ((t.writable plan).map Prod.fst).Nodup :=
    hnodup.sublist ((List.takeWhile_sublist _).map _)
  funext n
  rcases hp.lookup n with h | h
  · exact h
  · by_cases hn : n ∈ (t.writable plan).map Prod.fst
    · -- an entry that is written has the value of the plan
      obtain ⟨p, hpmem, rfl⟩ := List.mem_map.mp hn
      have hin : p ∈ plan := List.takeWhile_subset _ hpmem
      have hval : u'.lookup p.1 = p.2 := by
        have := List.inj_on_of_nodup_map hnodup h hin rfl
        exact congrArg Prod.snd this
      rw [hval, hlookup, RefMap.applyPlan_of_mem hpre _ hpmem]
    · rw [hu'.outside n hn, hu.outside n hn]

/-- **A later recovery**, finished or not, changes nothing. -/
lemma AfterRecovery.step (hapart : Apart plan) (hnodup : (plan.map Prod.fst).Nodup)
    (hd : AfterRecovery t plan m d) (h : RecoverStep d d') : AfterRecovery t plan m d' := by
  obtain ⟨hlookup, hj | ⟨hj, hcaught, hm⟩⟩ := hd
  · cases h with
    | finished =>
        rw [recover_of_nil hj]
        exact ⟨hlookup, Or.inl hj⟩
    | interrupted hp =>
        rw [hj] at hp
        cases hp with
        | stop => exact ⟨hlookup, Or.inl rfl⟩
  · cases h with
    | finished =>
        obtain ⟨hcaught', hlookup', ⟨-, hj', -⟩ | ⟨-, hj', -⟩⟩ :=
          recover_journal hapart hnodup hj hcaught
        · exact ⟨hlookup'.trans hm.symm, Or.inl hj'⟩
        · exact ⟨hlookup'.trans hm.symm, Or.inr ⟨hj', hcaught', hm⟩⟩
    | interrupted hp =>
        rcases interrupted_journal hapart hnodup hj hcaught hp with
          ⟨hj', hcaught', hpart⟩ | ⟨hj', -, hlookup'⟩
        · have hsame := hcaught.replayed hnodup hcaught' hpart (hlookup.trans hm)
          exact ⟨hsame.trans hlookup, Or.inr ⟨hj', hcaught', hm⟩⟩
        · exact ⟨hlookup'.trans hm.symm, Or.inl hj'⟩

lemma AfterRecovery.run (hapart : Apart plan) (hnodup : (plan.map Prod.fst).Nodup)
    (hd : AfterRecovery t plan m d) (h : ReflTransGen RecoverStep d d') :
    AfterRecovery t plan m d' := by
  induction h with
  | refl => exact hd
  | tail _ hstep ih => exact ih.step hapart hnodup hstep

end Runs

/-! ### All or nothing -/

/-- The entries in front of the first blocked name give the old values when they restate them, and
the new ones when those behind it do. -/
lemma applyPlan_writable_iff (hnodup : (plan.map Prod.fst).Nodup) (m : RefMap) :
    (RefMap.applyPlan m (t.writable plan) = m ∨
        RefMap.applyPlan m (t.writable plan) = RefMap.applyPlan m plan) ↔
      (∀ e ∈ t.writable plan, m e.1 = e.2) ∨ ∀ e ∈ t.stuck plan, m e.1 = e.2 := by
  have hsplit := t.writable_append_stuck plan
  have hnodup' := hnodup
  rw [← hsplit, List.map_append] at hnodup'
  obtain ⟨hpre, hpost, hdisjoint⟩ := List.nodup_append'.mp hnodup'
  refine or_congr (RefMap.applyPlan_eq_self hpre) ?_
  have happ : RefMap.applyPlan m plan =
      RefMap.applyPlan (RefMap.applyPlan m (t.writable plan)) (t.stuck plan) := by
    rw [RefMap.applyPlan, RefMap.applyPlan, RefMap.applyPlan, ← List.foldl_append, hsplit]
  rw [happ, eq_comm, RefMap.applyPlan_eq_self hpost]
  refine forall_congr' fun e => forall_congr' fun he => ?_
  rw [RefMap.applyPlan_of_not_mem _ fun hin =>
    hdisjoint hin (List.mem_map_of_mem he)]

/-- **A ref transaction is all or nothing across crashes** exactly when the entries in front of
its first blocked name, or those from it on, restate what the refs hold; and every recovery
goes through exactly when no name is blocked. -/
theorem crash_atomic_iff (hnodup : (plan.map Prod.fst).Nodup) (hapart : Apart plan) :
    (CrashAtomic t plan ↔
        (∀ e ∈ t.writable plan, t.lookup e.1 = e.2) ∨ ∀ e ∈ t.stuck plan, t.lookup e.1 = e.2) ∧
      ((∀ d d', CommitPartial ⟨t, []⟩ plan d → ReflTransGen RecoverStep d d' →
          d'.recover.1 = .ok ()) ↔ ∀ e ∈ plan, ¬ t.Blocked e.1) := by
  -- a crash right after the journal is in place
  have hjournal : plan ≠ [] → CommitPartial ⟨t, []⟩ plan ⟨t, [plan]⟩ := fun hne =>
    .within hne (.stop plan t)
  have hafter : ∀ d d', CommitPartial ⟨t, []⟩ plan d → ReflTransGen RecoverStep d d' →
      AfterCrash t plan d' := fun d d' hd hrun =>
    (AfterCrash.of_commit hapart hnodup hd).run hapart hnodup hrun
  have hreplay := fun d : DiskRefBackend =>
    recover_journal (t := t) (d := d) hapart hnodup
  refine ⟨?_, ?_⟩
  · rw [← applyPlan_writable_iff hnodup]
    constructor
    · intro h
      by_cases hne : plan = []
      · subst hne
        exact Or.inl rfl
      · obtain ⟨hvals, -⟩ := h ⟨t, [plan]⟩ ⟨t, [plan]⟩ (hjournal hne) .refl
        rwa [(hreplay ⟨t, [plan]⟩ rfl (.start t plan)).2.1] at hvals
    · intro h d d' hd hrun
      obtain ⟨hrecovered, hvals⟩ := (hafter d d' hd hrun).recover hapart hnodup
      refine ⟨?_, fun d'' hrun' => (hrecovered.run hapart hnodup hrun').1⟩
      rcases hvals with hvals | hvals
      · exact Or.inl hvals
      · rwa [hvals]
  · rw [← RefTree.stuck_eq_nil]
    constructor
    · intro h
      by_cases hne : plan = []
      · subst hne
        rfl
      · have hok := h ⟨t, [plan]⟩ ⟨t, [plan]⟩ (hjournal hne) .refl
        obtain ⟨-, -, ⟨-, -, hstuck⟩ | ⟨hfail, -⟩⟩ := hreplay ⟨t, [plan]⟩ rfl (.start t plan)
        · exact hstuck
        · exact absurd hok hfail
    · intro hstuck d d' hd hrun
      rcases hafter d d' hd hrun with ⟨hj, hcaught⟩ | ⟨hj, -⟩
      · obtain ⟨-, -, ⟨hok, -⟩ | ⟨-, -, hno⟩⟩ := hreplay d' hj hcaught
        · exact hok
        · exact absurd hstuck hno
      · rw [recover_of_nil hj]

/-- A new ref and one in the place of a directory. -/
def leftPlan : Plan :=
  [(⟨"a", by decide⟩, some (RefSystem.stamp 1)), (⟨"f", by decide⟩, some (RefSystem.stamp 1))]

/-- Both go through where nothing is in the way. -/
theorem crash_atomic_empty : CrashAtomic emptyDir leftPlan := by
  refine (crash_atomic_iff (by decide) (by decide)).1.mpr (Or.inr fun e he => ?_)
  rw [RefTree.stuck_eq_nil.mpr (by decide)] at he
  cases he

/-- A ref is made in a directory and deleted. -/
def madeAndDeleted : Plan :=
  [(⟨"f/x", by decide⟩, some (RefSystem.stamp 0)), (⟨"f/x", by decide⟩, none)]

/-- No ref is left, and the directory is. -/
def leftTree : RefTree := (applyPlan none madeAndDeleted 0 emptyDir).2

lemma lookup_leftTree (n : RefName) : leftTree.lookup n = none := by
  have hok : (applyPlan none madeAndDeleted 0 emptyDir).1 = .ok () := by decide
  rw [leftTree]
  rcases applyPlan_cases none madeAndDeleted 0 emptyDir with
    ⟨t', hap, happ⟩ | ⟨pre, e, post, t₁, err, t', -, -, -, happ, -⟩
  · rw [happ, hap.lookup]
    simp only [RefMap.applyPlan, madeAndDeleted, List.foldl_cons, List.foldl_nil,
      Function.update_idem, Function.update_apply]
    split_ifs
    · rfl
    · exact lookup_emptyDir _
  · rw [happ] at hok
    cases hok

/-- **A directory that deleted refs have left splits a transaction for good.** -/
theorem crash_splits_transaction :
    (leftPlan.map Prod.fst).Nodup ∧ Apart leftPlan ∧ (∀ n, leftTree.lookup n = none) ∧
      ¬ CrashAtomic leftTree leftPlan := by
  refine ⟨by decide, by decide, lookup_leftTree, fun h => ?_⟩
  obtain ⟨hvals, -⟩ := h ⟨leftTree, [leftPlan]⟩ ⟨leftTree, [leftPlan]⟩
    (.within (by decide) (.stop _ _)) .refl
  rcases hvals with hvals | hvals
  · have ha := congrFun hvals ⟨"a", by decide⟩
    revert ha
    decide
  · have hf := congrFun hvals ⟨"f", by decide⟩
    revert hf
    decide

end Bole
