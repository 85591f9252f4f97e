import Bole.Postcard
import Bole.Repo.Basic

/-!
Copying a repository: `copy_objects`, `copy_refs` and `copy_to` of `src/repo/mod.rs`.

The objects are decoded and encoded again, and stored under the ids of the new bytes.  Bytes that
come from elsewhere need not be those that the codec writes: `put_raw` does not decode them, and
neither does `decode_pack`.

* `Plain`: what stores that were only written to are like;
* `copyObjects_keeps`, `canonical_of_copyObjects`: what a copy keeps of canonical bytes, and that
  it keeps all ids of no others;
* `get_copyRefs`: every ref is copied;
* `copy_preserves_iff`: a copy of everything that was ever written preserves the identity of the
  objects exactly when all the bytes are canonical.
-/

namespace Bole

open Traverse

/-! ### Copies -/

namespace ObjectStore

/-- The loop of `copy_objects`. -/
def copyLoop (L : Linked) (mtime : Option ℕ) (source : ObjectStore) :
    List ObjectId → ObjectStore → Result Unit × ObjectStore
  | [], dest => (.ok (), dest)
  | id :: rest, dest =>
      match source.get L id with
      | .error e => (.error e, dest)
      | .ok none => copyLoop L mtime source rest dest
      | .ok (some obj) =>
          match dest.put L obj mtime with
          | (.error e, dest) => (.error e, dest)
          | (.ok _, dest) => copyLoop L mtime source rest dest

/-- `copy_objects`. -/
def copyObjects (L : Linked) (mtime : Option ℕ) (source dest : ObjectStore) :
    Result Unit × ObjectStore :=
  copyLoop L mtime source source.list dest

/-- Every byte string of the store is what the codec writes for the object it reads from it. -/
def Canonical (L : Linked) (s : ObjectStore) : Prop :=
  ∀ id b, s.getRaw L id = .ok (some b) →
    ∃ obj, L.codec.deserialize b = .ok obj ∧ L.codec.serialize obj = .ok b

/-- The codec reads back what it writes of the objects of the store. -/
def RoundTrips (L : Linked) (s : ObjectStore) : Prop :=
  ∀ id obj b, s.get L id = .ok (some obj) → L.codec.serialize obj = .ok b →
    L.codec.deserialize b = .ok obj

/-- Bytes of the store and encodings of its objects that have the same id are the same. -/
def CollisionFree (L : Linked) (s : ObjectStore) : Prop :=
  ∀ id b id' obj c, s.getRaw L id = .ok (some b) → s.get L id' = .ok (some obj) →
    L.codec.serialize obj = .ok c → L.fromContent b = L.fromContent c → b = c

/-! ### Stores that were only written to -/

/-- A store nothing has been written to, in memory or on disk. -/
def Fresh (s : ObjectStore) : Prop := s.backend = .memory ∅ ∨ s.backend = .packed .empty

/-- A store without packs, all of whose files read and hash to their ids. -/
structure Plain (L : Linked) (s : ObjectStore) : Prop where
  wf : s.WF L
  unpacked : ∀ p, s.backend = .packed p → p.packs = []
  reads : ∀ id ∈ s.list, ∃ b, s.getRaw L id = .ok (some b)

variable {L : Linked} {s t : ObjectStore} {id : ObjectId} {mtime : Option ℕ}

lemma Fresh.list_eq (h : s.Fresh) : s.list = [] := by
  obtain ⟨backend⟩ := s
  rcases h with h | h
  · obtain rfl : backend = _ := h
    simp [list, StorageBackend.list]
  · obtain rfl : backend = _ := h
    refine List.eq_nil_iff_forall_not_mem.mpr fun x hx => ?_
    rw [list, StorageBackend.list, PackedDiskBackend.mem_list] at hx
    simp [PackedDiskBackend.empty] at hx

lemma Fresh.plain (h : s.Fresh) : s.Plain L where
  wf := by
    obtain ⟨backend⟩ := s
    rcases h with h | h
    · obtain rfl : backend = _ := h
      exact memory_wf L
    · obtain rfl : backend = _ := h
      exact wf_packed (PackedDiskBackend.empty_wf L.toCrates)
  unpacked p hp := by
    rcases h with h | h
    · rw [h] at hp
      cases hp
    · rw [h] at hp
      cases hp
      rfl
  reads id hid := by
    rw [h.list_eq] at hid
    cases hid

/-- Without packs, what exists is what is listed. -/
lemma exists_of_unpacked (h : ∀ p, s.backend = .packed p → p.packs = []) (id : ObjectId) :
    s.exists_ id = .ok (decide (id ∈ s.list)) := by
  obtain ⟨backend⟩ := s
  cases backend with
  | memory m =>
      rw [exists_, StorageBackend.exists_, list, StorageBackend.list, Except.ok.injEq,
        Bool.eq_iff_iff, Std.ExtTreeMap.contains_iff_mem, decide_eq_true_iff,
        Std.ExtTreeMap.mem_keys]
  | packed p =>
      have hp := h p rfl
      rw [exists_, StorageBackend.exists_, PackedDiskBackend.exists_, list, StorageBackend.list,
        DiskBackend.exists_]
      by_cases hl : id ∈ p.loose.files
      · simp [hl, PackedDiskBackend.mem_list]
      · simp [hl, PackedDiskBackend.mem_list, PackedDiskBackend.inAnyPack, hp,
          PackedDiskBackend.probe, bind, Except.bind]

lemma putRaw_of_unpacked {b : Bytes} (mtime : Option ℕ)
    (h : ∀ p, s.backend = .packed p → p.packs = [])
    (he : s.exists_ (L.fromContent b) = .ok false) :
    (s.putRaw L b mtime).1 = .ok (L.fromContent b) ∧
      ∀ p, (s.putRaw L b mtime).2.backend = .packed p → p.packs = [] := by
  obtain ⟨backend⟩ := s
  rw [putRaw, show backend.exists_ (L.fromContent b) = .ok false from he]
  cases backend with
  | memory m =>
      refine ⟨rfl, ?_⟩
      intro p hp
      cases hp
  | packed p =>
      have hnone : p.inAnyPack (L.fromContent b) = .ok none := by
        rw [PackedDiskBackend.inAnyPack, h p rfl]
        rfl
      simp only [StorageBackend.put, PackedDiskBackend.put, hnone, true_and]
      intro p' hp'
      cases hp'
      exact h p rfl

/-- **A write to such a store succeeds**, and lists its id. -/
lemma Plain.putRaw (h : s.Plain L) (b : Bytes) (mtime : Option ℕ) :
    (s.putRaw L b mtime).1 = .ok (L.fromContent b) ∧ (s.putRaw L b mtime).2.Plain L ∧
      ∀ x, x ∈ (s.putRaw L b mtime).2.list ↔ x ∈ s.list ∨ x = L.fromContent b := by
  have he := exists_of_unpacked h.unpacked (L.fromContent b)
  by_cases hlist : L.fromContent b ∈ s.list
  · rw [decide_eq_true hlist] at he
    rw [putRaw_found mtime he]
    refine ⟨rfl, h, fun x => (or_iff_left_of_imp ?_).symm⟩
    rintro rfl
    exact hlist
  · rw [decide_eq_false hlist] at he
    obtain ⟨hmem, hread⟩ := putRaw_new (L := L) mtime he
    obtain ⟨hwf, hkeep⟩ := putRaw_keeps h.wf b mtime
    obtain ⟨hok, hunpacked⟩ := putRaw_of_unpacked (L := L) (b := b) mtime h.unpacked he
    refine ⟨hok, ⟨hwf, hunpacked, fun x hx => ?_⟩, hmem⟩
    rcases (hmem x).mp hx with hx | rfl
    · obtain ⟨c, hc⟩ := h.reads x hx
      exact ⟨c, hkeep x c hc⟩
    · exact ⟨b, hread⟩

/-- So is a store of writes to a fresh one. -/
lemma Written.plain {P : Bytes → Prop} (hs : s.Plain L) (h : Written L P s t) : t.Plain L := by
  induction h with
  | refl => exact hs
  | write mtime _ _ ih => exact (ih.putRaw _ mtime).2.1

/-- What is read from writes to a fresh store was written. -/
lemma Written.of_fresh {P : Bytes → Prop} (hs : s.Fresh) (h : Written L P s t) {b : Bytes}
    (hb : t.getRaw L id = .ok (some b)) : P b := by
  rcases h.getRaw id with heq | ⟨-, c, hc, -, hnew⟩
  · rw [heq] at hb
    have hlist := listed_of_getRaw hb
    rw [hs.list_eq] at hlist
    cases hlist
  · rw [hnew] at hb
    cases hb
    exact hc

/-! ### The loop -/

variable {source dest : ObjectStore} {ids : List ObjectId}

/-- A copy writes what the codec makes of the source's objects. -/
lemma copyLoop_written (L : Linked) (mtime : Option ℕ) (source : ObjectStore) (ids : List ObjectId)
    (dest : ObjectStore) :
    Written L (fun b => ∃ id obj, source.get L id = .ok (some obj) ∧
      L.codec.serialize obj = .ok b) dest (copyLoop L mtime source ids dest).2 := by
  induction ids generalizing dest with
  | nil => exact .refl _
  | cons id rest ih =>
      rw [copyLoop]
      split
      · exact .refl _
      · exact ih dest
      · next obj hobj =>
          have hput : Written L (fun b => ∃ id obj, source.get L id = .ok (some obj) ∧
              L.codec.serialize obj = .ok b) dest (dest.put L obj mtime).2 :=
            (Written.refl dest).put (fun b hb => ⟨id, obj, hobj, hb⟩) mtime
          split
          · next e dest' hp =>
              rw [hp] at hput
              exact hput
          · next id' dest' hp =>
              rw [hp] at hput
              exact hput.trans (ih dest')

/-- A copy that succeeds has read every object. -/
lemma copyLoop_reads (h : (copyLoop L mtime source ids dest).1 = .ok ()) {id : ObjectId}
    (hid : id ∈ ids) : ∃ o, source.get L id = .ok o := by
  induction ids generalizing dest with
  | nil => cases hid
  | cons x rest ih =>
      rw [copyLoop] at h
      split at h
      · cases h
      · next hx =>
          rcases List.mem_cons.mp hid with rfl | hid
          · exact ⟨_, hx⟩
          · exact ih h hid
      · next obj hx =>
          rcases List.mem_cons.mp hid with rfl | hid
          · exact ⟨_, hx⟩
          · split at h
            · cases h
            · exact ih h hid

/-- **The ids of canonical bytes are copied.** -/
lemma copyLoop_lists (mtime : Option ℕ) (hdest : dest.Plain L)
    (hids : ∀ id ∈ ids, ∃ obj b, source.get L id = .ok (some obj) ∧
      L.codec.serialize obj = .ok b ∧ L.fromContent b = id) :
    (copyLoop L mtime source ids dest).1 = .ok () ∧
      ∀ id, id ∈ ids ∨ id ∈ dest.list → id ∈ (copyLoop L mtime source ids dest).2.list := by
  induction ids generalizing dest with
  | nil => exact ⟨rfl, fun id h => h.resolve_left (by simp)⟩
  | cons x rest ih =>
      obtain ⟨obj, b, hobj, hb, rfl⟩ := hids x List.mem_cons_self
      obtain ⟨hok, hplain, hlist⟩ := hdest.putRaw b mtime
      have hput : dest.put L obj mtime = (.ok (L.fromContent b), (dest.putRaw L b mtime).2) := by
        rw [put, hb]
        exact Prod.ext hok rfl
      obtain ⟨hrest, hall⟩ := ih hplain fun id hid => hids id (List.mem_cons_of_mem _ hid)
      rw [copyLoop, hobj]
      simp only [hput]
      refine ⟨hrest, fun id hid => hall id ?_⟩
      rw [hlist]
      rcases hid with hid | hid
      · rcases List.mem_cons.mp hid with rfl | hid
        · exact Or.inr (Or.inr rfl)
        · exact Or.inl hid
      · exact Or.inr (Or.inl hid)

/-- **Canonical objects are under their ids in the copy**, with the same bytes. -/
lemma copyObjects_keeps (mtime : Option ℕ) (hsource : source.Plain L) (hdest : dest.Fresh)
    (hcanonical : source.Canonical L) :
    (copyObjects L mtime source dest).1 = .ok () ∧ ∀ id ∈ source.list,
      (copyObjects L mtime source dest).2.exists_ id = .ok true ∧
      (copyObjects L mtime source dest).2.getRaw L id = source.getRaw L id := by
  have hwritten := copyLoop_written L mtime source source.list dest
  have hplain := hwritten.plain hdest.plain
  have hids : ∀ id ∈ source.list, ∃ obj b, source.get L id = .ok (some obj) ∧
      L.codec.serialize obj = .ok b ∧ L.fromContent b = id := by
    intro id hid
    obtain ⟨b, hb⟩ := hsource.reads id hid
    obtain ⟨obj, hobj, hser⟩ := hcanonical id b hb
    exact ⟨obj, b, get_eq_some.mpr ⟨b, hb, hobj⟩, hser, hsource.wf.addressed hb⟩
  obtain ⟨hok, hlists⟩ := copyLoop_lists mtime hdest.plain hids
  refine ⟨hok, fun id hid => ?_⟩
  have hlisted := hlists id (Or.inl hid)
  refine ⟨?_, ?_⟩
  · rw [copyObjects, exists_of_unpacked hplain.unpacked, decide_eq_true hlisted]
  · -- what is under the id was written for an object of the source, whose bytes it therefore is
    obtain ⟨c, hc⟩ := hplain.reads id hlisted
    obtain ⟨id', obj, hobj, hser⟩ := hwritten.of_fresh hdest hc
    obtain ⟨b, hb, hdec⟩ := get_eq_some.mp hobj
    obtain ⟨obj', hdec', hser'⟩ := hcanonical id' b hb
    obtain rfl : obj = obj' := Except.ok.inj (hdec.symm.trans hdec')
    obtain rfl : c = b := Except.ok.inj (hser.symm.trans hser')
    have hid' : id' = id := (hsource.wf.addressed hb).symm.trans (hplain.wf.addressed hc)
    rw [copyObjects, hc, ← hid', hb]

/-- **Where every id is in the copy, the bytes were canonical.** -/
lemma canonical_of_copyObjects (hsource : source.Plain L) (hdest : dest.Fresh)
    (hround : source.RoundTrips L) (hfree : source.CollisionFree L)
    (hok : (copyObjects L mtime source dest).1 = .ok ())
    (hids : ∀ id ∈ source.list, (copyObjects L mtime source dest).2.exists_ id = .ok true) :
    source.Canonical L := by
  intro id b hb
  have hid := listed_of_getRaw hb
  have hwritten := copyLoop_written L mtime source source.list dest
  have hplain := hwritten.plain hdest.plain
  obtain ⟨obj, hdec⟩ : ∃ obj, L.codec.deserialize b = .ok obj := by
    obtain ⟨o, ho⟩ := copyLoop_reads hok hid
    rw [get, show source.backend.get L id = .ok (some b) from hb, Result.bind_eq_ok] at ho
    obtain ⟨raw, hraw, ho⟩ := ho
    cases hraw
    obtain ⟨obj, hobj, -⟩ := Result.bind_eq_ok.mp ho
    exact ⟨obj, hobj⟩
  -- the bytes in the copy are an encoding, and have the id of the bytes in the source
  obtain ⟨c, hc⟩ := hplain.reads id (listed_of_exists (hids id hid))
  obtain ⟨id', obj', hobj', hser⟩ := hwritten.of_fresh hdest hc
  have hhash : L.fromContent b = L.fromContent c :=
    (hsource.wf.addressed hb).trans (hplain.wf.addressed hc).symm
  obtain rfl : b = c := hfree id b id' obj' c hb hobj' hser hhash
  obtain rfl : obj = obj' := Except.ok.inj (hdec.symm.trans (hround id' obj' b hobj' hser))
  exact ⟨obj, hdec, hser⟩

end ObjectStore

/-! ### Refs -/

namespace RefStore

/-- `set_raw`. -/
def setRaw (s : RefStore) (n : RefName) (v : Ref) : RefStore := ⟨s.refs.insert n v⟩

/-- The loop of `copy_refs`. -/
def copyLoop (source : RefStore) : List RefName → RefStore → RefStore
  | [], dest => dest
  | n :: rest, dest =>
      match source.get n with
      | some v => copyLoop source rest (dest.setRaw n v)
      | none => copyLoop source rest dest

/-- `copy_refs`. -/
def copyRefs (source dest : RefStore) : RefStore := copyLoop source (source.list "") dest

lemma get_setRaw (s : RefStore) (n m : RefName) (v : Ref) :
    (s.setRaw n v).get m = if n = m then some v else s.get m := by
  rw [setRaw, get, get, Std.ExtTreeMap.getElem?_insert]
  simp only [Std.LawfulEqOrd.compare_eq_iff_eq]

/-- What the loop has come to, or will come to, is copied. -/
lemma get_copyLoop {source dest : RefStore} {names : List RefName} {n : RefName} {v : Ref}
    (h : source.get n = some v) (hn : n ∈ names ∨ dest.get n = some v) :
    (copyLoop source names dest).get n = some v := by
  induction names generalizing dest with
  | nil => exact hn.resolve_left (by simp)
  | cons m rest ih =>
      rw [copyLoop]
      by_cases hm : m = n
      · subst hm
        rw [h]
        exact ih (Or.inr (by rw [get_setRaw, if_pos rfl]))
      · have hn' : n ∈ rest ∨ dest.get n = some v :=
          hn.imp_left (List.mem_of_ne_of_mem (Ne.symm hm))
        split
        · refine ih (hn'.imp_right fun hd => ?_)
          rw [get_setRaw, if_neg hm, hd]
        · exact ih hn'

/-- **Every ref is copied.** -/
lemma get_copyRefs {source : RefStore} (dest : RefStore) {n : RefName} {v : Ref}
    (h : source.get n = some v) : (copyRefs source dest).get n = some v :=
  get_copyLoop h (Or.inl (mem_list.mpr ⟨⟨v, h⟩, by simp⟩))

end RefStore

/-! ### Repositories -/

/-- The ways in which objects come into a repository, and changes of its refs. -/
inductive IngestOp where
  | put (obj : Object) (mtime : Option ℕ)
  | putRaw (canonical : Bytes) (mtime : Option ℕ)
  | land (pack : Bytes) (mtime : Option ℕ)
  | refs (refs : RefStore)

/-- The bytes that it stores. -/
def IngestOp.bytes (L : Linked) : IngestOp → List Bytes
  | .put obj _ =>
      match L.codec.serialize obj with
      | .ok b => [b]
      | .error _ => []
  | .putRaw canonical _ => [canonical]
  | .land pack _ =>
      match decodePack L.toCrates pack with
      | .ok objects => objects.map Prod.snd
      | .error _ => []
  | .refs _ => []

namespace Repository

/-- One of them; a pack that does not decode lands nothing. -/
def ingest (L : Linked) (r : Repository) : IngestOp → Repository
  | .put obj mtime => { r with objects := (r.objects.put L obj mtime).2 }
  | .putRaw canonical mtime => { r with objects := (r.objects.putRaw L canonical mtime).2 }
  | .land pack mtime =>
      match decodePack L.toCrates pack with
      | .error _ => r
      | .ok objects => { r with objects := (ObjectStore.land L mtime objects r.objects).2 }
  | .refs refs => { r with refs := refs }

/-- Any number of them. -/
def ingestAll (L : Linked) (r : Repository) (ops : List IngestOp) : Repository :=
  ops.foldl (ingest L) r

/-- `copy_to`. -/
def copyTo (L : Linked) (mtime : Option ℕ) (r dest : Repository) : Result Unit × Repository :=
  match ObjectStore.copyObjects L mtime r.objects dest.objects with
  | (.error e, objects) => (.error e, { dest with objects := objects })
  | (.ok (), objects) =>
      (.ok (), { dest with objects := objects, refs := RefStore.copyRefs r.refs dest.refs })

/-- Every object of the first repository is in the second one under the same id, and so is every
ref, with all that is below it. -/
structure CopyKeeps (L : Linked) (r t : Repository) : Prop where
  ids : ∀ id ∈ r.objects.list, t.objects.exists_ id = .ok true
  objects : ∀ id ∈ r.objects.list, t.objects.get L id = r.objects.get L id
  refs : ∀ n v, r.refs.get n = some v → t.refs.get n = some v
  complete : ∀ n v, r.refs.get n = some v → Complete L r.objects v.target →
    Complete L t.objects v.target

variable {L : Linked} {r dest : Repository} {mtime : Option ℕ}

/-- **A run of such steps writes their bytes.** -/
lemma ingestAll_written (L : Linked) (r : Repository) (ops : List IngestOp) :
    ObjectStore.Written L (fun b => ∃ op ∈ ops, b ∈ op.bytes L) r.objects
      (r.ingestAll L ops).objects := by
  induction ops generalizing r with
  | nil => exact .refl _
  | cons op rest ih =>
      have hstep : ObjectStore.Written L (fun b => b ∈ op.bytes L) r.objects
          (r.ingest L op).objects := by
        cases op with
        | put obj mtime =>
            refine (ObjectStore.Written.refl _).put (fun b hb => ?_) mtime
            simp [IngestOp.bytes, hb]
        | putRaw canonical mtime =>
            exact (ObjectStore.Written.refl _).write mtime List.mem_cons_self
        | land pack mtime =>
            rw [ingest, IngestOp.bytes]
            cases decodePack L.toCrates pack with
            | error e => exact .refl _
            | ok objects =>
                exact (ObjectStore.land_written L mtime _ _).mono fun b hb => List.mem_map.mpr hb
        | refs refs => exact .refl _
      refine (hstep.mono fun b hb => ⟨op, List.mem_cons_self, hb⟩).trans ((ih _).mono ?_)
      rintro b ⟨op', hop', hb⟩
      exact ⟨op', List.mem_cons_of_mem _ hop', hb⟩

/-- A store that was only given canonical bytes is canonical. -/
lemma ingestAll_canonical (hr : r.objects.Fresh) {ops : List IngestOp}
    (h : ∀ op ∈ ops, ∀ b ∈ op.bytes L,
      ∃ obj, L.codec.deserialize b = .ok obj ∧ L.codec.serialize obj = .ok b) :
    (r.ingestAll L ops).objects.Canonical L := by
  intro id b hb
  obtain ⟨op, hop, hmem⟩ := (ingestAll_written L r ops).of_fresh hr hb
  exact h op hop b hmem

/-- A copy that succeeds has copied the objects. -/
lemma copyTo_ok (h : (r.copyTo L mtime dest).1 = .ok ()) :
    (ObjectStore.copyObjects L mtime r.objects dest.objects).1 = .ok () ∧
      (r.copyTo L mtime dest).2.objects =
        (ObjectStore.copyObjects L mtime r.objects dest.objects).2 := by
  rw [copyTo] at h ⊢
  split at h
  · cases h
  · next objects hc =>
      rw [hc]
      exact ⟨rfl, rfl⟩

/-- **A copy of everything that was ever written preserves the identity of the objects exactly
when all their bytes are canonical.**  The codec reads back what it writes, and the bytes do not
collide. -/
theorem copy_preserves_iff (hr : r.objects.Fresh) (hdest : dest.objects.Fresh) (ops : List IngestOp)
    (hround : (r.ingestAll L ops).objects.RoundTrips L)
    (hfree : (r.ingestAll L ops).objects.CollisionFree L) :
    (((r.ingestAll L ops).copyTo L mtime dest).1 = .ok () ∧
        CopyKeeps L (r.ingestAll L ops) ((r.ingestAll L ops).copyTo L mtime dest).2) ↔
      (r.ingestAll L ops).objects.Canonical L := by
  have hplain := (ingestAll_written L r ops).plain hr.plain
  generalize r.ingestAll L ops = r' at *
  constructor
  · rintro ⟨hok, hkeeps⟩
    obtain ⟨hcopied, hobjects⟩ := copyTo_ok hok
    refine ObjectStore.canonical_of_copyObjects hplain hdest hround hfree hcopied fun id hid => ?_
    rw [← hobjects]
    exact hkeeps.ids id hid
  · intro hcanonical
    obtain ⟨hok, hkeeps⟩ := ObjectStore.copyObjects_keeps mtime hplain hdest hcanonical
    have hcopy : r'.copyTo L mtime dest = (.ok (), { dest with
        objects := (ObjectStore.copyObjects L mtime r'.objects dest.objects).2
        refs := RefStore.copyRefs r'.refs dest.refs }) := by
      rw [copyTo]
      split
      · next e objects hc =>
          rw [hc] at hok
          cases hok
      · next objects hc => rw [hc]
    rw [hcopy]
    have hobject : ∀ id ∈ r'.objects.list,
        (ObjectStore.copyObjects L mtime r'.objects dest.objects).2.get L id =
          r'.objects.get L id := fun id hid => ObjectStore.get_congr (hkeeps id hid).2
    refine ⟨rfl, ⟨fun id hid => (hkeeps id hid).1, hobject, fun n v hv => ?_,
      fun n v hv hcomplete => ?_⟩⟩
    · exact RefStore.get_copyRefs dest.refs hv
    · -- the closure is read alike in both stores
      have hagree : ∀ y, Closure L r'.objects [v.target] y →
          (ObjectStore.copyObjects L mtime r'.objects dest.objects).2.object L y =
            r'.objects.object L y := by
        intro y hy
        obtain ⟨obj, hobj⟩ := Option.isSome_iff_exists.mp (hcomplete y hy)
        rw [ObjectStore.object, hobject y (ObjectStore.listed_of_object hobj), ObjectStore.object]
      intro x hx
      have hx' := (closure_iff_of_agree hagree).mp hx
      rw [hagree x hx']
      exact hcomplete x hx'

/-! ### An object that is copied under another id -/

/-- The objects of the example. -/
def copiedObjects : List Object :=
  [.blob [], .tree ⟨(∅ : BTreeMap String TreeEntry).insert "a" ⟨(Object.blob []).refId, .blob⟩⟩]

def copyLinked : Linked := .front copiedObjects

/-- The empty blob, with a byte behind it. -/
def trailingBytes : Bytes := Postcard.object (.blob []) ++ [0]

def trailingId : ObjectId := copyLinked.fromContent trailingBytes

/-- A pack with these bytes, as the builder writes it. -/
def trailingPack : Bytes :=
  match PackBuilder.finish copyLinked.toCrates ⟨[(trailingId, trailingBytes)]⟩ with
  | .ok (pack, _, _) => pack
  | .error _ => []

def copyTag : RefName := ⟨"refs/tags/v1", by decide +kernel⟩

/-- The pack lands and is tagged. -/
def trailingOps : List IngestOp :=
  [.land trailingPack none,
    .refs ⟨(∅ : BTreeMap RefName Ref).insert copyTag (.tag ⟨trailingId, 0, none⟩)⟩]

/-- **The blob has moved to another id**, and its tag dangles in the copy. -/
theorem copy_moves_object :
    ((memory.ingestAll copyLinked trailingOps).objects.object copyLinked trailingId).isSome ∧
      ((memory.ingestAll copyLinked trailingOps).copyTo copyLinked none memory).1 = .ok () ∧
      ¬ CopyKeeps copyLinked (memory.ingestAll copyLinked trailingOps)
        ((memory.ingestAll copyLinked trailingOps).copyTo copyLinked none memory).2 := by
  refine ⟨by decide +kernel, by decide +kernel, fun h => ?_⟩
  have hlisted : trailingId ∈ (memory.ingestAll copyLinked trailingOps).objects.list := by
    decide +kernel
  have hgone : ((memory.ingestAll copyLinked trailingOps).copyTo copyLinked none
      memory).2.objects.exists_ trailingId = .ok false := by
    decide +kernel
  have hids := h.ids trailingId hlisted
  rw [hgone] at hids
  cases hids

/-- The same without the byte. -/
def exactOps : List IngestOp :=
  copiedObjects.map (fun o => .put o none) ++
    [.refs ⟨(∅ : BTreeMap RefName Ref).insert copyTag
      (.tag ⟨(copiedObjects.getLast (by simp [copiedObjects])).refId, 0, none⟩)⟩]

lemma copiedObjects_read {o : Object} (ho : o ∈ copiedObjects) :
    copyLinked.codec.deserialize (Postcard.object o) = .ok o := by
  refine Codec.front_reads ho fun o' ho' hpre => ?_
  simp only [copiedObjects, List.mem_cons, List.not_mem_nil, or_false] at ho ho'
  rcases ho with rfl | rfl
  · rcases ho' with rfl | rfl
    · rfl
    · exact absurd hpre (by decide +kernel)
  · rcases ho' with rfl | rfl
    · exact absurd hpre (by decide +kernel)
    · rfl

lemma exactOps_canonical : (memory.ingestAll copyLinked exactOps).objects.Canonical copyLinked := by
  refine ingestAll_canonical (Or.inl rfl) fun op hop b hb => ?_
  rcases List.mem_append.mp hop with hop | hop
  · obtain ⟨o, ho, rfl⟩ := List.mem_map.mp hop
    obtain rfl : b = Postcard.object o := List.mem_singleton.mp hb
    exact ⟨o, copiedObjects_read ho, rfl⟩
  · obtain rfl := List.mem_singleton.mp hop
    cases hb

lemma exactOps_collisionFree :
    (memory.ingestAll copyLinked exactOps).objects.CollisionFree copyLinked := by
  have hlisted : ∀ id ∈ (memory.ingestAll copyLinked exactOps).objects.list,
      ∀ o ∈ copiedObjects, copyLinked.fromContent (Postcard.object o) = id →
      (memory.ingestAll copyLinked exactOps).objects.getRaw copyLinked id =
        .ok (some (Postcard.object o)) := by
    decide +kernel
  intro id b id' obj c hb hobj hc hhash
  obtain rfl : Postcard.object obj = c := Except.ok.inj hc
  obtain ⟨data, -, hdata⟩ := ObjectStore.get_eq_some.mp hobj
  have hwf := ((ingestAll_written copyLinked memory exactOps).plain
    (ObjectStore.Fresh.plain (Or.inl rfl))).wf
  have hread := hlisted id (ObjectStore.listed_of_getRaw hb) obj (Codec.mem_of_front hdata)
    (hhash.symm.trans (hwf.addressed hb))
  rw [hb] at hread
  exact Option.some.inj (Except.ok.inj hread)

/-- Such objects are copied. -/
theorem copy_preserves_exact :
    ((memory.ingestAll copyLinked exactOps).copyTo copyLinked none memory).1 = .ok () ∧
      CopyKeeps copyLinked (memory.ingestAll copyLinked exactOps)
        ((memory.ingestAll copyLinked exactOps).copyTo copyLinked none memory).2 := by
  refine (copy_preserves_iff (Or.inl rfl) (Or.inl rfl) exactOps (fun id obj b hobj hb => ?_)
    exactOps_collisionFree).mpr exactOps_canonical
  obtain rfl : Postcard.object obj = b := Except.ok.inj hb
  obtain ⟨data, -, hdata⟩ := ObjectStore.get_eq_some.mp hobj
  exact copiedObjects_read (Codec.mem_of_front hdata)

end Repository

end Bole
