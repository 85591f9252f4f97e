import Bole.Postcard

/-!
What the grace window of a sweep protects (`put` of `src/store/mod.rs`, `src/store/packed.rs` and
`src/store/disk.rs`, and `sweep` of `src/store/packed.rs`).

The window is that of the loose file.  A write of what exists returns `Ok` and leaves the store as
it is: it makes no loose file of a packed object, and does not renew the time of a loose one.

* `young_putRaw`: after a write the object is young exactly when the write made its file, or when it
  was young before;
* `put_survives_iff`: only then does a sweep keep it, if the sweep does not reach it.
-/

namespace Bole

namespace ObjectStore

variable {L : Linked} {s t u w : ObjectStore} {id : ObjectId} {graceSecs now removed : ℕ}

/-- A write of the object now is protected: it is young already, or it does not exist on disk. -/
def Sheltered (s : ObjectStore) (graceSecs now : ℕ) (id : ObjectId) : Prop :=
  s.Young graceSecs now id ∨ (∃ p, s.backend = .packed p) ∧ s.exists_ id = .ok false

/-- A raw write of one id leaves the files of the others as they are. -/
lemma young_putRaw_other {b : Bytes} {mtime : Option ℕ}
    (hnew : s.exists_ (L.fromContent b) = .ok false) (hid : id ≠ L.fromContent b) :
    (s.putRaw L b mtime).2.Young graceSecs now id ↔ s.Young graceSecs now id := by
  rw [Young, Young]
  obtain ⟨-, ⟨m, hm, hb⟩ | ⟨p, hp, -, -, hb⟩⟩ := putRaw_backend mtime hnew
  · simp [hm, hb]
  · simp only [hp, hb, StorageBackend.packed.injEq, ↓existsAndEq, true_and,
      AList.lookup_insert_ne hid]

/-- **After a write** the object is young when the write made its file, and else when it was young
before. -/
lemma young_putRaw {b : Bytes} {mtime : ℕ} (hok : (s.putRaw L b (some mtime)).1 = .ok id)
    (hwithin : now < saturatingAdd mtime graceSecs) :
    (s.putRaw L b (some mtime)).2.Young graceSecs now id ↔ s.Sheltered graceSecs now id := by
  obtain rfl := putRaw_eq_ok hok
  rcases putRaw_cases hok with hnew | ⟨hold, hsame⟩
  · obtain ⟨-, ⟨m, hm, hb⟩ | ⟨p, hp, hloose, -, hb⟩⟩ := putRaw_backend (some mtime) hnew
    · simp [Young, Sheltered, hm, hb]
    · refine iff_of_true ⟨_, _, hb, AList.lookup_insert _, ?_⟩ (Or.inr ⟨⟨p, hp⟩, hnew⟩)
      exact decide_eq_true hwithin
  · rw [hsame, Sheltered, hold]
    simp

/-- Other writes make nothing that exists younger or older. -/
lemma Written.young {P : Bytes → Prop} (h : Written L P s t) (hid : s.exists_ id = .ok true) :
    t.Young graceSecs now id ↔ s.Young graceSecs now id := by
  induction h with
  | refl => rfl
  | @write t b mtime hwritten _ ih =>
      rw [← ih]
      rcases putRaw_new_or_same L t b mtime with he | hsame
      · refine young_putRaw_other he ?_
        rintro rfl
        rw [hwritten.exists_ hid] at he
        cases he
      · rw [hsame]

variable {obj : Object} {mtime : ℕ} {P : Bytes → Prop} {keep : Finset ObjectId} {b : Bytes}

/-- **A write in progress.**  An object is written within the grace window of a sweep, any others
after it, and then comes the sweep.  What the sweep reaches it keeps, if its rewrite is safe; what
it does not reach it keeps exactly when the write made the loose file, or found one that is itself
within the window. -/
theorem put_survives_iff (hwf : s.WF L) (hput : s.put L obj (some mtime) = (.ok id, t))
    (hwritten : Written L P t w) (hwithin : now < saturatingAdd mtime graceSecs)
    (hsweep : w.sweep L keep graceSecs now = (.ok removed, u)) :
    (id ∈ keep → w.RewriteSafe L keep → w.getRaw L id = .ok (some b) →
      u.getRaw L id = .ok (some b)) ∧
    (id ∉ keep → (u.getRaw L id = .ok (some b) ↔
      w.getRaw L id = .ok (some b) ∧ s.Sheltered graceSecs now id)) := by
  have hok : (s.put L obj (some mtime)).1 = .ok id := by rw [hput]
  obtain rfl : (s.put L obj (some mtime)).2 = t := by rw [hput]
  have hswept : (w.sweep L keep graceSecs now).1 = .ok removed := by rw [hsweep]
  obtain rfl : (w.sweep L keep graceSecs now).2 = u := by rw [hsweep]
  have hwft : (s.put L obj (some mtime)).2.WF L :=
    ((Written.refl s).put (P := fun _ => True) (by simp) _).wf hwf
  have hwfw : w.WF L := hwritten.wf hwft
  refine ⟨fun hin hsafe hget => sweep_keeps hwfw hsafe hswept hget (Or.inl hin), fun hout => ?_⟩
  rw [sweep_unkept hwfw hswept hout, hwritten.young (exists_put hok)]
  obtain ⟨data, hdata, rfl⟩ := put_eq_ok hok
  rw [put, hdata] at hok ⊢
  rw [young_putRaw hok hwithin]

/-! ### A draft -/

/-- A file. -/
def draft : Object := .blob (ascii "draft")

def draftLinked : Linked := Linked.over [draft]

/-- A disk store with nothing in it. -/
def emptyDisk : ObjectStore := ⟨.packed .empty⟩

lemma emptyDisk_wf : emptyDisk.WF draftLinked := wf_packed (PackedDiskBackend.empty_wf _)

/-- The draft, written at the time 1000. -/
def drafted : ObjectStore := (emptyDisk.put draftLinked draft (some 1000)).2

lemma drafted_wf : drafted.WF draftLinked :=
  ((Written.refl emptyDisk).put (P := fun _ => True) (by simp) _).wf emptyDisk_wf

/-- A sweep 50 seconds after its first write leaves it alone. -/
theorem put_survives_iff_drafted :
    (drafted.sweep draftLinked ∅ 100 1050).2.getRaw draftLinked draft.refId =
      .ok (some (Postcard.object draft)) := by
  have hid : (emptyDisk.put draftLinked draft (some 1000)).1 = .ok draft.refId := by
    decide +kernel
  have hput : emptyDisk.put draftLinked draft (some 1000) = (.ok draft.refId, drafted) :=
    Prod.ext hid rfl
  have hremoved : (drafted.sweep draftLinked ∅ 100 1050).1 = .ok 0 := by decide +kernel
  have hsweep : drafted.sweep draftLinked ∅ 100 1050 =
      (.ok 0, (drafted.sweep draftLinked ∅ 100 1050).2) := Prod.ext hremoved rfl
  have hwithin : 1050 < saturatingAdd 1000 100 := by decide
  obtain ⟨-, hout⟩ := put_survives_iff (b := Postcard.object draft) emptyDisk_wf hput
    (.refl (P := fun _ => True) drafted) hwithin hsweep
  refine (hout (by simp)).mpr ⟨?_, Or.inr ⟨⟨.empty, rfl⟩, ?_⟩⟩
  · decide +kernel
  · decide +kernel

/-- A second write, an hour later. -/
def redrafted : ObjectStore := (drafted.put draftLinked draft (some 4600)).2

/-- It finds the draft and leaves it as old as it was: a sweep in the same second deletes it. -/
theorem put_found_lost :
    ¬ ∀ (L : Linked) (s t u : ObjectStore) (obj : Object) (id : ObjectId) (keep : Finset ObjectId)
      (mtime graceSecs now removed : ℕ) (b : Bytes), s.WF L →
      s.put L obj (some mtime) = (.ok id, t) → now < saturatingAdd mtime graceSecs →
      t.sweep L keep graceSecs now = (.ok removed, u) →
      t.getRaw L id = .ok (some b) → u.getRaw L id = .ok (some b) := by
  intro h
  have hput : (drafted.put draftLinked draft (some 4600)).1 = .ok draft.refId := by
    decide +kernel
  have hsweep : (redrafted.sweep draftLinked ∅ 100 4600).1 = .ok 1 := by decide +kernel
  have hread : redrafted.getRaw draftLinked draft.refId = .ok (some (Postcard.object draft)) := by
    decide +kernel
  have hlost : (redrafted.sweep draftLinked ∅ 100 4600).2.getRaw draftLinked draft.refId =
      .ok none := by decide +kernel
  have hkept := h draftLinked drafted redrafted (redrafted.sweep draftLinked ∅ 100 4600).2 draft
    draft.refId ∅ 4600 100 4600 1 (Postcard.object draft) drafted_wf (Prod.ext hput rfl)
    (by decide) (Prod.ext hsweep rfl) hread
  rw [hlost] at hkept
  cases hkept

end ObjectStore

end Bole
