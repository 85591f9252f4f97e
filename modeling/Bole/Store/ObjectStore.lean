import Bole.Object
import Bole.Store.Sweep

/-!
The object store of a repository (`src/store/mod.rs`, `src/store/memory.rs`,
`src/store/backend.rs`) over either of its two backends.

* `listed_of_getRaw`, `exists_of_getRaw`: what reads is listed, and is there;
* `putRaw_keeps`, `getRaw_putRaw`: a raw write keeps the store well formed and every object in
  it, and adds at most its own;
* `Written`: the stores that writes of given bytes lead to;
* `sweep_keeps`, `sweep_drops`, `rewriteSafe_of_sweep`: what a sweep that returns `Ok` keeps;
* `Faithful`: what is asked of the crates and the store so that what is written reads back.
-/

namespace Bole

/-! ### Backends -/

/-- The backends of `Repository::memory` and `Repository::disk`. -/
inductive StorageBackend where
  | memory (store : BTreeMap ObjectId Bytes)
  | packed (store : PackedDiskBackend)

/-- The deleting loop of the default `sweep`: the number of objects removed, and the store. -/
def memSweep (reachable : Finset ObjectId) :
    List ObjectId → BTreeMap ObjectId Bytes → ℕ → ℕ × BTreeMap ObjectId Bytes
  | [], m, removed => (removed, m)
  | id :: rest, m, removed =>
      if id ∈ reachable then memSweep reachable rest m removed
      else memSweep reachable rest (m.erase id) (removed + 1)

namespace StorageBackend

/-- `get`. -/
def get (L : Linked) (s : StorageBackend) (id : ObjectId) : Result (Option Bytes) :=
  match s with
  | .memory m => .ok m[id]?
  | .packed p => p.get L.toCrates id

/-- `exists`. -/
def exists_ (s : StorageBackend) (id : ObjectId) : Result Bool :=
  match s with
  | .memory m => .ok (m.contains id)
  | .packed p => p.exists_ id

/-- `put`, at the time `mtime`. -/
def put (L : Linked) (s : StorageBackend) (id : ObjectId) (data : Bytes) (mtime : Option ℕ) :
    Result Unit × StorageBackend :=
  match s with
  | .memory m => (.ok (), .memory (m.insert id data))
  | .packed p => ((p.put L.toCrates id data mtime).1, .packed (p.put L.toCrates id data mtime).2)

/-- `list`. -/
def list (s : StorageBackend) : List ObjectId :=
  match s with
  | .memory m => m.keys
  | .packed p => p.list

/-- `sweep`: the default of the trait in memory, which knows no grace window. -/
def sweep (L : Linked) (s : StorageBackend) (reachable : Finset ObjectId) (graceSecs now : ℕ) :
    Result ℕ × StorageBackend :=
  match s with
  | .memory m =>
      let (removed, m') := memSweep reachable m.keys m 0
      (.ok removed, .memory m')
  | .packed p =>
      let (r, p') := p.sweep L.toCrates reachable graceSecs now
      (r, .packed p')

end StorageBackend

/-! ### The store -/

/-- `ObjectStore`. -/
structure ObjectStore where
  backend : StorageBackend

namespace ObjectStore

/-- `get_raw`. -/
def getRaw (L : Linked) (s : ObjectStore) (id : ObjectId) : Result (Option Bytes) :=
  s.backend.get L id

/-- `get`. -/
def get (L : Linked) (s : ObjectStore) (id : ObjectId) : Result (Option Object) := do
  match ← s.backend.get L id with
  | some data => do
      let obj ← L.codec.deserialize data
      .ok (some obj)
  | none => .ok none

/-- `exists`. -/
def exists_ (s : ObjectStore) (id : ObjectId) : Result Bool := s.backend.exists_ id

/-- `list`. -/
def list (s : ObjectStore) : List ObjectId := s.backend.list

/-- `put_raw`. -/
def putRaw (L : Linked) (s : ObjectStore) (canonical : Bytes) (mtime : Option ℕ) :
    Result ObjectId × ObjectStore :=
  let id := L.fromContent canonical
  match s.backend.exists_ id with
  | .error e => (.error e, s)
  | .ok true => (.ok id, s)
  | .ok false =>
      match s.backend.put L id canonical mtime with
      | (.error e, b) => (.error e, ⟨b⟩)
      | (.ok (), b) => (.ok id, ⟨b⟩)

/-- `put`. -/
def put (L : Linked) (s : ObjectStore) (obj : Object) (mtime : Option ℕ) :
    Result ObjectId × ObjectStore :=
  match L.codec.serialize obj with
  | .error e => (.error e, s)
  | .ok data => s.putRaw L data mtime

/-- The loop over a decoded pack that lands its objects. -/
def land (L : Linked) (mtime : Option ℕ) :
    List (ObjectId × Bytes) → ObjectStore → Result Unit × ObjectStore
  | [], s => (.ok (), s)
  | o :: rest, s =>
      match s.putRaw L o.2 mtime with
      | (.error e, s) => (.error e, s)
      | (.ok _, s) => land L mtime rest s

/-- `sweep`. -/
def sweep (L : Linked) (s : ObjectStore) (reachable : Finset ObjectId) (graceSecs now : ℕ) :
    Result ℕ × ObjectStore :=
  let (r, b) := s.backend.sweep L reachable graceSecs now
  (r, ⟨b⟩)

/-- The object a store holds under an id, when it can be read. -/
def object (L : Linked) (s : ObjectStore) (id : ObjectId) : Option Object :=
  match s.get L id with
  | .ok o => o
  | .error _ => none

variable {L : Linked} {s : ObjectStore} {id : ObjectId}

lemma get_eq_some {obj : Object} : s.get L id = .ok (some obj) ↔
    ∃ data, s.getRaw L id = .ok (some data) ∧ L.codec.deserialize data = .ok obj := by
  rw [get, Result.bind_eq_ok]
  constructor
  · rintro ⟨raw, hraw, h⟩
    cases raw with
    | none => cases h
    | some data =>
        simp only [Result.bind_eq_ok, Except.ok.injEq, Option.some.injEq] at h
        obtain ⟨o, ho, rfl⟩ := h
        exact ⟨data, hraw, ho⟩
  · rintro ⟨data, hraw, hd⟩
    refine ⟨some data, hraw, ?_⟩
    dsimp only
    rw [hd]
    rfl

lemma get_of_getRaw_none (h : s.getRaw L id = .ok none) : s.get L id = .ok none := by
  rw [getRaw] at h
  rw [get, h]
  rfl

/-- The object depends on the bytes only. -/
lemma get_congr {t : ObjectStore} (h : s.getRaw L id = t.getRaw L id) :
    s.get L id = t.get L id := by
  rw [getRaw, getRaw] at h
  rw [get, get, h]

lemma object_eq_some {obj : Object} : s.object L id = some obj ↔ s.get L id = .ok (some obj) := by
  rw [object]
  cases h : s.get L id with
  | error e => simp
  | ok o => simp

/-- **What reads is listed.** -/
lemma listed_of_getRaw {b : Bytes} (h : s.getRaw L id = .ok (some b)) : id ∈ s.list := by
  obtain ⟨backend⟩ := s
  rw [getRaw] at h
  rw [list]
  dsimp only at h ⊢
  cases backend with
  | memory m =>
      rw [StorageBackend.list, Std.ExtTreeMap.mem_keys, Std.ExtTreeMap.mem_iff_isSome_getElem?]
      rw [StorageBackend.get] at h
      simp [Except.ok.inj h]
  | packed p =>
      rw [StorageBackend.list, PackedDiskBackend.list, Std.ExtTreeSet.mem_toList,
        Std.ExtTreeSet.mem_ofList, List.contains_iff_mem]
      exact PackedDiskBackend.listed_of_get h

/-- **What reads is there.** -/
lemma exists_of_getRaw {b : Bytes} (h : s.getRaw L id = .ok (some b)) :
    s.exists_ id = .ok true := by
  obtain ⟨backend⟩ := s
  rw [getRaw] at h
  rw [exists_]
  dsimp only at h ⊢
  cases backend with
  | memory m =>
      rw [StorageBackend.get] at h
      rw [StorageBackend.exists_, Std.ExtTreeMap.contains_eq_isSome_getElem?, Except.ok.inj h]
      rfl
  | packed p => exact PackedDiskBackend.exists_of_get h

/-! ### Well-formed stores -/

/-- What the operations of the code keep: what reads under an id hashes to it, and a packed
store is in a state of `PackedDiskBackend.WF`. -/
structure WF (L : Linked) (s : ObjectStore) : Prop where
  memory : ∀ m, s.backend = .memory m →
    ∀ (id : ObjectId) (b : Bytes), m[id]? = some b → L.fromContent b = id
  packed : ∀ p, s.backend = .packed p → p.WF L.toCrates

lemma wf_memory {m : BTreeMap ObjectId Bytes}
    (h : ∀ (id : ObjectId) (b : Bytes), m[id]? = some b → L.fromContent b = id) :
    WF L ⟨.memory m⟩ where
  memory m' hm := by
    cases hm
    exact h
  packed p hp := by cases hp

lemma wf_packed {p : PackedDiskBackend} (h : p.WF L.toCrates) : WF L ⟨.packed p⟩ where
  memory m hm := by cases hm
  packed p' hp := by
    cases hp
    exact h

lemma memory_wf (L : Linked) : WF L ⟨.memory ∅⟩ := wf_memory (by simp)

/-- What reads under an id hashes to it. -/
lemma WF.addressed (hwf : s.WF L) {b : Bytes} (h : s.getRaw L id = .ok (some b)) :
    L.fromContent b = id := by
  obtain ⟨backend⟩ := s
  cases backend with
  | memory m => exact hwf.memory m rfl id b (Except.ok.inj h)
  | packed p => exact (hwf.packed p rfl).getAddressed h

/-- **A raw write keeps** the store well formed and every object in it. -/
lemma putRaw_keeps (hwf : s.WF L) (canonical : Bytes) (mtime : Option ℕ) :
    (s.putRaw L canonical mtime).2.WF L ∧
      ∀ id b, s.getRaw L id = .ok (some b) →
        (s.putRaw L canonical mtime).2.getRaw L id = .ok (some b) := by
  obtain ⟨backend⟩ := s
  cases backend with
  | memory m =>
      simp only [putRaw, StorageBackend.exists_, StorageBackend.put]
      cases hc : m.contains (L.fromContent canonical) with
      | true => exact ⟨hwf, fun _ _ h => h⟩
      | false =>
          have hnone : m[L.fromContent canonical]? = none := by
            rw [← Option.not_isSome_iff_eq_none, ← Std.ExtTreeMap.contains_eq_isSome_getElem?, hc]
            simp
          refine ⟨wf_memory fun id b h => ?_, fun id b h => ?_⟩
          · rw [Std.ExtTreeMap.getElem?_insert] at h
            split_ifs at h with he
            · rw [← Std.LawfulEqOrd.eq_of_compare he, ← Option.some.inj h]
            · exact hwf.memory m rfl id b h
          · have h' : m[id]? = some b := Except.ok.inj h
            have hne : compare (L.fromContent canonical) id ≠ .eq := by
              intro he
              rw [Std.LawfulEqOrd.eq_of_compare he, h'] at hnone
              cases hnone
            rw [getRaw, StorageBackend.get, Std.ExtTreeMap.getElem?_insert, if_neg hne, h']
  | packed p =>
      have hp := PackedDiskBackend.put_preserves (hwf.packed p rfl) canonical mtime
      simp only [putRaw, StorageBackend.exists_, StorageBackend.put]
      split
      · exact ⟨hwf, fun _ _ h => h⟩
      · exact ⟨hwf, fun _ _ h => h⟩
      · split
        · next b hb =>
            rw [← (Prod.mk.inj hb).2]
            exact ⟨wf_packed hp.1, hp.2⟩
        · next b hb =>
            rw [← (Prod.mk.inj hb).2]
            exact ⟨wf_packed hp.1, hp.2⟩

/-- A write returns the id of its bytes. -/
lemma putRaw_eq_ok {canonical : Bytes} {mtime : Option ℕ}
    (h : (s.putRaw L canonical mtime).1 = .ok id) : id = L.fromContent canonical := by
  rw [putRaw] at h
  split at h
  · cases h
  · exact (Except.ok.inj h).symm
  · split at h
    · cases h
    · exact (Except.ok.inj h).symm

lemma put_eq_ok {obj : Object} {mtime : Option ℕ} (h : (s.put L obj mtime).1 = .ok id) :
    ∃ b, L.codec.serialize obj = .ok b ∧ id = L.fromContent b := by
  rw [put] at h
  split at h
  · cases h
  · next data hdata => exact ⟨data, hdata, putRaw_eq_ok h⟩

/-- **What a raw write changes**: at most the read under the id of its bytes, from nothing to
them. -/
lemma getRaw_putRaw (L : Linked) (s : ObjectStore) (canonical : Bytes) (mtime : Option ℕ)
    (id : ObjectId) :
    (s.putRaw L canonical mtime).2.getRaw L id = s.getRaw L id ∨
      (s.getRaw L id = .ok none ∧ id = L.fromContent canonical ∧
        (s.putRaw L canonical mtime).2.getRaw L id = .ok (some canonical)) := by
  obtain ⟨backend⟩ := s
  cases backend with
  | memory m =>
      simp only [putRaw, StorageBackend.exists_, StorageBackend.put]
      cases hc : m.contains (L.fromContent canonical) with
      | true => exact Or.inl rfl
      | false =>
          by_cases hid : id = L.fromContent canonical
          · subst hid
            refine Or.inr ⟨?_, rfl, ?_⟩
            · have hnot : L.fromContent canonical ∉ m := by
                rw [← Std.ExtTreeMap.contains_iff_mem, hc]
                simp
              simpa [getRaw, StorageBackend.get] using hnot
            · simp [getRaw, StorageBackend.get]
          · left
            have hne : compare (L.fromContent canonical) id ≠ .eq := fun he =>
              hid (Std.LawfulEqOrd.eq_of_compare he).symm
            simp only [getRaw, StorageBackend.get, Std.ExtTreeMap.getElem?_insert, if_neg hne]
  | packed p =>
      simp only [putRaw, StorageBackend.exists_, StorageBackend.put, PackedDiskBackend.exists_,
        PackedDiskBackend.put]
      by_cases hl : p.loose.exists_ (L.fromContent canonical) = true
      · simp [hl]
      · have hnot : L.fromContent canonical ∉ p.loose.files := by
          simpa [DiskBackend.exists_] using hl
        cases hp : p.inAnyPack (L.fromContent canonical) with
        | error e => simp [hl, bind, Except.bind]
        | ok hit =>
            cases hit with
            | some x => simp [hl, bind, Except.bind]
            | none =>
                simp only [hl, Bool.false_eq_true, if_false, bind, Except.bind, Option.isSome_none,
                  DiskBackend.put, if_neg hnot]
                by_cases hid : id = L.fromContent canonical
                · subst hid
                  refine Or.inr ⟨?_, rfl, ?_⟩
                  · simp [getRaw, StorageBackend.get, PackedDiskBackend.get, DiskBackend.get,
                      AList.lookup_eq_none.mpr hnot, hp, bind, Except.bind]
                  · simp [getRaw, StorageBackend.get, PackedDiskBackend.get, DiskBackend.get,
                      L.zstd.decodeAll_encodeAll, bind, Except.bind]
                · left
                  exact PackedDiskBackend.get_congr_loose (AList.lookup_insert_ne hid)

/-- **What exists is listed.** -/
lemma listed_of_exists (h : s.exists_ id = .ok true) : id ∈ s.list := by
  obtain ⟨backend⟩ := s
  cases backend with
  | memory m =>
      rw [list, StorageBackend.list, Std.ExtTreeMap.mem_keys, ← Std.ExtTreeMap.contains_iff_mem]
      exact Except.ok.inj h
  | packed p =>
      rw [exists_, StorageBackend.exists_, PackedDiskBackend.exists_] at h
      rw [list, StorageBackend.list, PackedDiskBackend.mem_list]
      split_ifs at h with hl
      · exact Or.inl (by simpa [DiskBackend.exists_] using hl)
      · obtain ⟨hit, hhit, h⟩ := Result.bind_eq_ok.mp h
        obtain ⟨⟨stem, off, len⟩, rfl⟩ := Option.isSome_iff_exists.mp (Except.ok.inj h)
        obtain ⟨p, hp, -, hlook⟩ := PackedDiskBackend.probe_mem hhit
        refine Or.inr (List.mem_flatMap.mpr ⟨p, hp, ?_⟩)
        exact List.mem_map.mpr ⟨_, PackIndex.lookup_mem hlook, rfl⟩

/-- What becomes of the backend when what does not exist is written. -/
lemma putRaw_backend {canonical : Bytes} (mtime : Option ℕ)
    (hnew : s.exists_ (L.fromContent canonical) = .ok false) :
    (s.putRaw L canonical mtime).1 = .ok (L.fromContent canonical) ∧
      ((∃ m, s.backend = .memory m ∧ (s.putRaw L canonical mtime).2.backend =
          .memory (m.insert (L.fromContent canonical) canonical)) ∨
        ∃ p, s.backend = .packed p ∧ L.fromContent canonical ∉ p.loose.files ∧
          p.inAnyPack (L.fromContent canonical) = .ok none ∧
          (s.putRaw L canonical mtime).2.backend = .packed { p with loose :=
            ⟨p.loose.files.insert (L.fromContent canonical)
              ⟨L.zstd.encodeAll canonical, mtime⟩⟩ }) := by
  obtain ⟨backend⟩ := s
  have hput : ∀ b : StorageBackend,
      backend.put L (L.fromContent canonical) canonical mtime = (.ok (), b) →
      putRaw L ⟨backend⟩ canonical mtime = (.ok (L.fromContent canonical), ⟨b⟩) := by
    intro b hb
    rw [putRaw]
    simp only [show backend.exists_ (L.fromContent canonical) = .ok false from hnew, hb]
  cases backend with
  | memory m =>
      rw [hput _ rfl]
      exact ⟨rfl, Or.inl ⟨m, rfl, rfl⟩⟩
  | packed p =>
      rw [exists_, StorageBackend.exists_, PackedDiskBackend.exists_] at hnew
      split_ifs at hnew with hl
      · cases hnew
      obtain ⟨hit, hhit, hnone⟩ := Result.bind_eq_ok.mp hnew
      obtain rfl : hit = none := by simpa using hnone
      have hloose : L.fromContent canonical ∉ p.loose.files := by
        simpa [DiskBackend.exists_] using hl
      rw [hput (.packed
        { p with loose := p.loose.put L.toCrates (L.fromContent canonical) canonical mtime })
        (by simp only [StorageBackend.put, PackedDiskBackend.put, hhit])]
      refine ⟨rfl, Or.inr ⟨p, rfl, hloose, hhit, ?_⟩⟩
      simp only [DiskBackend.put, if_neg hloose]

/-- **A raw write of what does not exist** lists its id anew and reads back. -/
lemma putRaw_new {canonical : Bytes} (mtime : Option ℕ)
    (hnew : s.exists_ (L.fromContent canonical) = .ok false) :
    (∀ x, x ∈ (s.putRaw L canonical mtime).2.list ↔ x ∈ s.list ∨ x = L.fromContent canonical) ∧
      (s.putRaw L canonical mtime).2.getRaw L (L.fromContent canonical) =
        .ok (some canonical) := by
  rw [list, list, getRaw]
  obtain ⟨-, ⟨m, hm, hb⟩ | ⟨p, hp, -, -, hb⟩⟩ := putRaw_backend mtime hnew
  · rw [hm, hb]
    refine ⟨fun x => ?_, ?_⟩
    · simp only [StorageBackend.list, Std.ExtTreeMap.mem_keys, Std.ExtTreeMap.mem_insert,
        Std.LawfulEqOrd.compare_eq_iff_eq]
      rw [or_comm, eq_comm]
    · simp [StorageBackend.get]
  · rw [hp, hb]
    refine ⟨fun x => ?_, ?_⟩
    · simp only [StorageBackend.list, PackedDiskBackend.mem_list, AList.mem_insert]
      rw [or_assoc, or_comm]
    · simp [StorageBackend.get, PackedDiskBackend.get, DiskBackend.get,
        L.zstd.decodeAll_encodeAll, bind, Except.bind]

/-- Nothing else comes to exist by it. -/
lemma exists_putRaw {canonical : Bytes} (mtime : Option ℕ)
    (hnew : s.exists_ (L.fromContent canonical) = .ok false) (id : ObjectId) :
    (s.putRaw L canonical mtime).2.exists_ id =
      if id = L.fromContent canonical then .ok true else s.exists_ id := by
  rw [exists_, exists_]
  obtain ⟨-, ⟨m, hm, hb⟩ | ⟨p, hp, -, -, hb⟩⟩ := putRaw_backend mtime hnew
  · rw [hm, hb, StorageBackend.exists_, StorageBackend.exists_, Std.ExtTreeMap.contains_insert]
    by_cases hid : id = L.fromContent canonical
    · simp [hid]
    · simp [hid, Ne.symm hid]
  · rw [hp, hb, StorageBackend.exists_, StorageBackend.exists_, PackedDiskBackend.exists_,
      PackedDiskBackend.exists_, DiskBackend.exists_, DiskBackend.exists_]
    by_cases hid : id = L.fromContent canonical
    · simp [hid, AList.mem_insert]
    · simp only [AList.mem_insert, hid, false_or, if_false]
      rfl

/-- A raw write of what exists returns its id and does nothing. -/
lemma putRaw_found {canonical : Bytes} (mtime : Option ℕ)
    (h : s.exists_ (L.fromContent canonical) = .ok true) :
    s.putRaw L canonical mtime = (.ok (L.fromContent canonical), s) := by
  rw [exists_] at h
  rw [putRaw, h]

/-- A raw write to a store that does not answer does nothing either. -/
lemma putRaw_unanswered {canonical : Bytes} (mtime : Option ℕ) {e : Error}
    (h : s.exists_ (L.fromContent canonical) = .error e) :
    s.putRaw L canonical mtime = (.error e, s) := by
  rw [exists_] at h
  rw [putRaw, h]

/-- **A raw write does something** only where the store answers that nothing is there. -/
lemma putRaw_new_or_same (L : Linked) (s : ObjectStore) (canonical : Bytes) (mtime : Option ℕ) :
    s.exists_ (L.fromContent canonical) = .ok false ∨ (s.putRaw L canonical mtime).2 = s := by
  cases he : s.exists_ (L.fromContent canonical) with
  | error e => exact Or.inr (by rw [putRaw_unanswered mtime he])
  | ok found =>
      cases found with
      | true => exact Or.inr (by rw [putRaw_found mtime he])
      | false => exact Or.inl rfl

/-- What a raw write does, by what the store answers first. -/
lemma putRaw_cases {canonical : Bytes} {mtime : Option ℕ}
    (h : (s.putRaw L canonical mtime).1 = .ok id) :
    s.exists_ (L.fromContent canonical) = .ok false ∨
      s.exists_ (L.fromContent canonical) = .ok true ∧ (s.putRaw L canonical mtime).2 = s := by
  cases he : s.exists_ (L.fromContent canonical) with
  | error e =>
      rw [putRaw_unanswered mtime he] at h
      cases h
  | ok found =>
      cases found with
      | true => exact Or.inr ⟨rfl, by rw [putRaw_found mtime he]⟩
      | false => exact Or.inl rfl

/-- **A raw write of what is not listed** reads back, and lists nothing but its id. -/
lemma putRaw_unlisted {canonical : Bytes} {mtime : Option ℕ}
    (hnew : L.fromContent canonical ∉ s.list) (h : (s.putRaw L canonical mtime).1 = .ok id) :
    (s.putRaw L canonical mtime).2.getRaw L (L.fromContent canonical) = .ok (some canonical) := by
  rcases putRaw_cases h with he | ⟨he, -⟩
  · exact (putRaw_new mtime he).2
  · exact absurd (listed_of_exists he) hnew

/-- A raw write lists at most the id of its bytes anew. -/
lemma mem_list_putRaw {canonical : Bytes} {mtime : Option ℕ}
    (h : id ∈ (s.putRaw L canonical mtime).2.list) :
    id ∈ s.list ∨ id = L.fromContent canonical := by
  rcases putRaw_new_or_same L s canonical mtime with he | hsame
  · exact ((putRaw_new mtime he).1 id).mp h
  · exact Or.inl (hsame ▸ h)

/-! ### Sweeps -/

variable {keep : Finset ObjectId} {graceSecs now removed : ℕ}

/-- Whether a sweep with the given set has a safe rewrite; in memory nothing is rewritten. -/
structure RewriteSafe (L : Linked) (s : ObjectStore) (keep : Finset ObjectId) : Prop where
  packed : ∀ p, s.backend = .packed p → p.RewriteSafe L.toCrates keep

lemma rewriteSafe_of_memory {m : BTreeMap ObjectId Bytes} (h : s.backend = .memory m)
    (keep : Finset ObjectId) : s.RewriteSafe L keep where
  packed p hp := by
    rw [h] at hp
    cases hp

/-- A loose object inside the grace window; in memory there is none. -/
def Young (s : ObjectStore) (graceSecs now : ℕ) (id : ObjectId) : Prop :=
  ∃ p f, s.backend = .packed p ∧ p.loose.files.lookup id = some f ∧
    PackedDiskBackend.withinGrace f graceSecs now = true

lemma young_memory {m : BTreeMap ObjectId Bytes} : ¬ Young ⟨.memory m⟩ graceSecs now id := by
  rintro ⟨p, f, hp, -⟩
  cases hp

lemma young_packed {p : PackedDiskBackend} : Young ⟨.packed p⟩ graceSecs now id ↔
    ∃ f, p.loose.files.lookup id = some f ∧
      PackedDiskBackend.withinGrace f graceSecs now = true := by
  constructor
  · rintro ⟨p', f, hp, hf, hg⟩
    cases hp
    exact ⟨f, hf, hg⟩
  · rintro ⟨f, hf, hg⟩
    exact ⟨p, f, rfl, hf, hg⟩

/-- On disk the objects a sweep spares are those of its set and the young ones. -/
lemma spared_iff {p : PackedDiskBackend} : PackedDiskBackend.spared keep graceSecs now p.loose id ↔
    id ∈ keep ∨ Young ⟨.packed p⟩ graceSecs now id := by
  rw [PackedDiskBackend.spared, young_packed]

lemma getElem?_memSweep (reachable : Finset ObjectId) (ids : List ObjectId)
    (m : BTreeMap ObjectId Bytes) (removed : ℕ) (id : ObjectId) :
    (memSweep reachable ids m removed).2[id]? =
      if id ∈ ids ∧ id ∉ reachable then none else m[id]? := by
  induction ids generalizing m removed with
  | nil => simp [memSweep]
  | cons x rest ih =>
      by_cases hx : x ∈ reachable
      · rw [memSweep, if_pos hx, ih]
        by_cases hid : id = x
        · subst hid
          simp [hx]
        · simp [hid]
      · rw [memSweep, if_neg hx, ih, Std.ExtTreeMap.getElem?_erase]
        by_cases hid : id = x
        · subst hid
          simp [hx]
        · simp [hid, Ne.symm hid]

/-- In memory a sweep deletes exactly what is outside its set. -/
lemma getRaw_memSweep (m : BTreeMap ObjectId Bytes) (id : ObjectId) :
    (sweep L ⟨.memory m⟩ keep graceSecs now).2.getRaw L id =
      .ok (if id ∈ keep then m[id]? else none) := by
  simp only [sweep, StorageBackend.sweep, getRaw, StorageBackend.get, getElem?_memSweep,
    Std.ExtTreeMap.mem_keys]
  by_cases hk : id ∈ keep
  · simp [hk]
  · simp only [hk, not_false_eq_true, and_true, if_false]
    by_cases hm : id ∈ m
    · simp [hm]
    · simp [hm]

/-- **A sweep with a safe rewrite keeps** the objects of its set and the young ones. -/
lemma sweep_keeps (hwf : s.WF L) (hs : s.RewriteSafe L keep)
    (h : (s.sweep L keep graceSecs now).1 = .ok removed) {b : Bytes}
    (hget : s.getRaw L id = .ok (some b)) (hk : id ∈ keep ∨ s.Young graceSecs now id) :
    (s.sweep L keep graceSecs now).2.getRaw L id = .ok (some b) := by
  obtain ⟨backend⟩ := s
  cases backend with
  | memory m =>
      rw [getRaw_memSweep, if_pos (hk.resolve_right young_memory)]
      exact hget
  | packed p =>
      have hsweep : p.sweep L.toCrates keep graceSecs now =
          (.ok removed, (p.sweep L.toCrates keep graceSecs now).2) := Prod.ext h rfl
      exact PackedDiskBackend.sweep_spares (hwf.packed p rfl) (hs.packed p rfl) hsweep hget
        (spared_iff.mpr hk)

/-- **A sweep drops** every other object. -/
lemma sweep_drops (hwf : s.WF L)
    (h : (s.sweep L keep graceSecs now).1 = .ok removed)
    (hk : ¬ (id ∈ keep ∨ s.Young graceSecs now id)) (b : Bytes) :
    (s.sweep L keep graceSecs now).2.getRaw L id ≠ .ok (some b) := by
  obtain ⟨backend⟩ := s
  cases backend with
  | memory m =>
      rw [getRaw_memSweep, if_neg fun hin => hk (Or.inl hin)]
      simp
  | packed p =>
      exact PackedDiskBackend.sweep_deletes (hwf.packed p rfl) (Prod.ext h rfl)
        (mt spared_iff.mp hk) b

/-- Of the rest it keeps the young objects, whether or not its rewrite is safe. -/
lemma sweep_unkept (hwf : s.WF L) (h : (s.sweep L keep graceSecs now).1 = .ok removed)
    (hid : id ∉ keep) {b : Bytes} :
    (s.sweep L keep graceSecs now).2.getRaw L id = .ok (some b) ↔
      s.getRaw L id = .ok (some b) ∧ s.Young graceSecs now id := by
  obtain ⟨backend⟩ := s
  cases backend with
  | memory m =>
      rw [getRaw_memSweep, if_neg hid]
      simp [young_memory]
  | packed p =>
      have hsweep : p.sweep L.toCrates keep graceSecs now =
          (.ok removed, (p.sweep L.toCrates keep graceSecs now).2) := Prod.ext h rfl
      rw [young_packed]
      exact PackedDiskBackend.sweep_unkept (hwf.packed p rfl) hsweep hid

/-- A sweep that keeps every object of its set has a safe rewrite. -/
lemma rewriteSafe_of_sweep (hwf : s.WF L)
    (h : (s.sweep L keep graceSecs now).1 = .ok removed)
    (hkeeps : ∀ id ∈ keep, ∀ b, s.getRaw L id = .ok (some b) →
      (s.sweep L keep graceSecs now).2.getRaw L id = .ok (some b)) :
    s.RewriteSafe L keep := by
  obtain ⟨backend⟩ := s
  cases backend with
  | memory m => exact rewriteSafe_of_memory rfl keep
  | packed p =>
      refine ⟨fun p' hp => ?_⟩
      cases hp
      exact PackedDiskBackend.rewriteSafe_of_keeps (hwf.packed p rfl) (Prod.ext h rfl) hkeeps

lemma listed_of_object {obj : Object} (h : s.object L id = some obj) : id ∈ s.list := by
  obtain ⟨data, hraw, -⟩ := get_eq_some.mp (object_eq_some.mp h)
  exact listed_of_getRaw hraw

/-! ### Growth -/

/-- Every object of the first store is in the second. -/
def Grows (L : Linked) (s t : ObjectStore) : Prop :=
  ∀ id obj, s.object L id = some obj → t.object L id = some obj

lemma Grows.refl (L : Linked) (s : ObjectStore) : Grows L s s := fun _ _ h => h

lemma Grows.trans {s t u : ObjectStore} (hst : Grows L s t) (htu : Grows L t u) : Grows L s u :=
  fun id obj h => htu id obj (hst id obj h)

/-- A store that keeps the bytes keeps the objects. -/
lemma grows_of_getRaw {t : ObjectStore}
    (h : ∀ id b, s.getRaw L id = .ok (some b) → t.getRaw L id = .ok (some b)) : Grows L s t := by
  intro id obj hobj
  obtain ⟨data, hraw, hd⟩ := get_eq_some.mp (object_eq_some.mp hobj)
  exact object_eq_some.mpr (get_eq_some.mpr ⟨data, h id data hraw, hd⟩)

/-- **A raw write lets the store grow.** -/
lemma putRaw_grows (hwf : s.WF L) (canonical : Bytes) (mtime : Option ℕ) :
    Grows L s (s.putRaw L canonical mtime).2 :=
  grows_of_getRaw (putRaw_keeps hwf canonical mtime).2

/-! ### Any number of writes -/

/-- The second store is what raw writes of such bytes make of the first. -/
inductive Written (L : Linked) (P : Bytes → Prop) : ObjectStore → ObjectStore → Prop where
  | refl (s : ObjectStore) : Written L P s s
  | write {s t : ObjectStore} {b : Bytes} (mtime : Option ℕ) :
      Written L P s t → P b → Written L P s (t.putRaw L b mtime).2

namespace Written

variable {P Q : Bytes → Prop} {s t u : ObjectStore}

lemma trans (hst : Written L P s t) (htu : Written L P t u) : Written L P s u := by
  induction htu with
  | refl => exact hst
  | write mtime _ hb ih => exact ih.write mtime hb

lemma mono (hPQ : ∀ b, P b → Q b) (h : Written L P s t) : Written L Q s t := by
  induction h with
  | refl => exact .refl _
  | write mtime _ hb ih => exact ih.write mtime (hPQ _ hb)

/-- Writing an object writes its bytes. -/
lemma put {obj : Object} (hP : ∀ b, L.codec.serialize obj = .ok b → P b) (mtime : Option ℕ)
    (h : Written L P s t) : Written L P s (t.put L obj mtime).2 := by
  rw [ObjectStore.put]
  split
  · exact h
  · next data hdata => exact h.write mtime (hP data hdata)

lemma wf (hwf : s.WF L) (h : Written L P s t) : t.WF L := by
  induction h with
  | refl => exact hwf
  | write mtime _ _ ih => exact (putRaw_keeps ih _ mtime).1

/-- **What writes change**: a read stays as it is, or finds one of the written bytes where
nothing was. -/
lemma getRaw (h : Written L P s t) (id : ObjectId) :
    t.getRaw L id = s.getRaw L id ∨ (s.getRaw L id = .ok none ∧
      ∃ b, P b ∧ id = L.fromContent b ∧ t.getRaw L id = .ok (some b)) := by
  induction h with
  | refl => exact Or.inl rfl
  | @write t b mtime _ hb ih =>
      rcases getRaw_putRaw L t b mtime id with heq | ⟨hnone, hid, hnew⟩
      · rw [heq]
        exact ih
      · rcases ih with ih | ⟨-, c, -, -, hc⟩
        · exact Or.inr ⟨ih ▸ hnone, b, hb, hid, hnew⟩
        · rw [hnone] at hc
          cases hc

/-- Writes list at most the ids of the written bytes anew. -/
lemma list (h : Written L P s t) {id : ObjectId} (hid : id ∈ t.list) :
    id ∈ s.list ∨ ∃ b, P b ∧ id = L.fromContent b := by
  induction h with
  | refl => exact .inl hid
  | write _ _ hb ih =>
      rcases mem_list_putRaw hid with hid | hid
      · exact ih hid
      · exact .inr ⟨_, hb, hid⟩

lemma grows (h : Written L P s t) : Grows L s t := by
  refine grows_of_getRaw fun id b hb => ?_
  rcases h.getRaw id with heq | ⟨hnone, -⟩
  · rw [heq, hb]
  · rw [hb] at hnone
    cases hnone

end Written

/-- Landing writes the bytes of the pack. -/
lemma land_written (L : Linked) (mtime : Option ℕ) (objects : List (ObjectId × Bytes))
    (s : ObjectStore) :
    Written L (fun b => ∃ o ∈ objects, o.2 = b) s (land L mtime objects s).2 := by
  induction objects generalizing s with
  | nil => exact .refl _
  | cons o rest ih =>
      have hput : Written L (fun b => ∃ o' ∈ o :: rest, o'.2 = b) s (s.putRaw L o.2 mtime).2 :=
        (Written.refl _).write mtime ⟨o, by simp, rfl⟩
      rw [land]
      split
      · next e t hp =>
          rw [hp] at hput
          exact hput
      · next id t hp =>
          rw [hp] at hput
          refine hput.trans ((ih t).mono ?_)
          rintro b ⟨o', ho', rfl⟩
          exact ⟨o', List.mem_cons_of_mem _ ho', rfl⟩

/-- **A pack that lands whole can be read**, as far as it was not listed before. -/
lemma land_reads {mtime : Option ℕ} {objects : List (ObjectId × Bytes)} {s t : ObjectStore}
    (h : land L mtime objects s = (.ok (), t)) {o : ObjectId × Bytes} (ho : o ∈ objects)
    (hnew : L.fromContent o.2 ∉ s.list) : ∃ b, t.getRaw L (L.fromContent o.2) = .ok (some b) := by
  induction objects generalizing s with
  | nil => cases ho
  | cons p rest ih =>
      rw [land] at h
      split at h
      · cases h
      · next id s' hput =>
          have hkept : ∀ b, s'.getRaw L (L.fromContent o.2) = .ok (some b) →
              t.getRaw L (L.fromContent o.2) = .ok (some b) := by
            intro b hb
            have hwritten := land_written L mtime rest s'
            rw [h] at hwritten
            rcases hwritten.getRaw (L.fromContent o.2) with heq | ⟨hnone, -⟩
            · rw [heq, hb]
            · rw [hb] at hnone
              cases hnone
          by_cases hp : L.fromContent o.2 = L.fromContent p.2
          · refine ⟨p.2, hkept p.2 ?_⟩
            rw [hp] at hnew ⊢
            have hread := putRaw_unlisted hnew (congrArg Prod.fst hput)
            rwa [hput] at hread
          · have hmem : o ∈ rest := by
              rcases List.mem_cons.mp ho with rfl | h
              · exact absurd rfl hp
              · exact h
            refine ih h hmem fun hlist => ?_
            have hlist' : L.fromContent o.2 ∈ (s.putRaw L p.2 mtime).2.list := by
              rw [hput]
              exact hlist
            rcases mem_list_putRaw hlist' with h | h
            · exact hnew h
            · exact hp h

/-! ### Reading back what is written -/

/-- The given objects can be told apart and read back: the codec reads what it writes of them,
different bytes of theirs have different ids, and what the store has under one of these ids are
the bytes of the object. -/
structure Faithful (L : Linked) (objs : Set Object) (s : ObjectStore) : Prop where
  decodes : ∀ o ∈ objs, ∀ b, L.codec.serialize o = .ok b → L.codec.deserialize b = .ok o
  distinct : ∀ o ∈ objs, ∀ o' ∈ objs, ∀ b b', L.codec.serialize o = .ok b →
    L.codec.serialize o' = .ok b' → L.fromContent b = L.fromContent b' → b = b'
  held : ∀ o ∈ objs, ∀ b, L.codec.serialize o = .ok b →
    s.exists_ (L.fromContent b) = .ok true → s.getRaw L (L.fromContent b) = .ok (some b)

lemma Faithful.mono {objs objs' : Set Object} (h : s.Faithful L objs') (hsub : objs ⊆ objs') :
    s.Faithful L objs where
  decodes o ho := h.decodes o (hsub ho)
  distinct o ho o' ho' := h.distinct o (hsub ho) o' (hsub ho')
  held o ho := h.held o (hsub ho)

/-- What is written exists. -/
lemma exists_put {o : Object} {mtime : Option ℕ} (h : (s.put L o mtime).1 = .ok id) :
    (s.put L o mtime).2.exists_ id = .ok true := by
  obtain ⟨b, hb, rfl⟩ := put_eq_ok h
  rw [ObjectStore.put, hb] at h ⊢
  rcases putRaw_cases h with hnew | ⟨hold, hsame⟩
  · rw [exists_putRaw mtime hnew, if_pos rfl]
  · rw [hsame]
    exact hold

/-- A store that answers does so after a write. -/
lemma exists_put_answers (h : ∀ id, ∃ found, s.exists_ id = .ok found) (obj : Object)
    (mtime : Option ℕ) (id : ObjectId) : ∃ found, (s.put L obj mtime).2.exists_ id = .ok found := by
  rw [ObjectStore.put]
  split
  · exact h id
  · next b hb =>
      obtain ⟨found, hfound⟩ := h (L.fromContent b)
      cases found with
      | true =>
          rw [putRaw_found mtime hfound]
          exact h id
      | false =>
          rw [exists_putRaw mtime hfound]
          split_ifs
          · exact ⟨true, rfl⟩
          · exact h id

/-- What exists stays through any number of writes. -/
lemma Written.exists_ {P : Bytes → Prop} {t : ObjectStore} (h : Written L P s t)
    (hid : s.exists_ id = .ok true) : t.exists_ id = .ok true := by
  induction h with
  | refl => exact hid
  | @write t b mtime _ _ ih =>
      rcases putRaw_new_or_same L t b mtime with he | hsame
      · rw [exists_putRaw mtime he]
        split_ifs
        · rfl
        · exact ih
      · rw [hsame]
        exact ih

/-- In a faithful store, what exists under the id of an object is the object. -/
lemma Faithful.get {objs : Set Object} (h : s.Faithful L objs) {o : Object} (ho : o ∈ objs)
    {b : Bytes} (hb : L.codec.serialize o = .ok b)
    (hexists : s.exists_ (L.fromContent b) = .ok true) :
    s.object L (L.fromContent b) = some o :=
  object_eq_some.mpr (get_eq_some.mpr ⟨b, h.held o ho b hb hexists, h.decodes o ho b hb⟩)

/-- **An object that is written reads back**, and the store stays faithful to the others. -/
lemma Faithful.put {objs : Set Object} (h : s.Faithful L objs) {o : Object} (ho : o ∈ objs)
    {mtime : Option ℕ} (hok : (s.put L o mtime).1 = .ok id) :
    (s.put L o mtime).2.Faithful L objs ∧ (s.put L o mtime).2.get L id = .ok (some o) := by
  obtain ⟨b, hb, rfl⟩ := put_eq_ok hok
  rw [ObjectStore.put, hb] at hok ⊢
  dsimp only at hok ⊢
  rcases putRaw_cases hok with hnew | ⟨hold, hsame⟩
  · have hread := (putRaw_new mtime hnew).2
    refine ⟨⟨h.decodes, h.distinct, fun o' ho' b' hb' hexists => ?_⟩,
      get_eq_some.mpr ⟨b, hread, h.decodes o ho b hb⟩⟩
    rw [exists_putRaw mtime hnew] at hexists
    by_cases hid : L.fromContent b' = L.fromContent b
    · rw [h.distinct o' ho' o ho b' b hb' hb hid]
      exact hread
    · rw [if_neg hid] at hexists
      rcases getRaw_putRaw L s b mtime (L.fromContent b') with heq | ⟨-, heq, -⟩
      · rw [heq]
        exact h.held o' ho' b' hb' hexists
      · exact absurd heq hid
  · rw [hsame]
    exact ⟨h, get_eq_some.mpr ⟨b, h.held o ho b hb hold, h.decodes o ho b hb⟩⟩

/-- A write that fails changes nothing. -/
lemma put_error {obj : Object} {mtime : Option ℕ} {e : Error}
    (h : (s.put L obj mtime).1 = .error e) : (s.put L obj mtime).2 = s := by
  rw [put] at h ⊢
  cases hb : L.codec.serialize obj with
  | error e => rfl
  | ok data =>
      simp only [hb] at h ⊢
      rcases putRaw_new_or_same L s data mtime with he | hsame
      · rw [(putRaw_backend mtime he).1] at h
        cases h
      · exact hsame

lemma Faithful.keeps {objs : Set Object} (h : s.Faithful L objs) {obj : Object} (hobj : obj ∈ objs)
    (mtime : Option ℕ) : (s.put L obj mtime).2.Faithful L objs := by
  cases hput : (s.put L obj mtime).1 with
  | error e => rwa [put_error hput]
  | ok id => exact (h.put hobj hput).1

/-- **Writing the given objects** keeps the store faithful to them. -/
lemma Faithful.written {objs : Set Object} {t : ObjectStore} (h : s.Faithful L objs)
    (hw : Written L (fun b => ∃ o ∈ objs, L.codec.serialize o = .ok b) s t) :
    t.Faithful L objs := by
  induction hw with
  | refl => exact h
  | @write t b mtime _ hb ih =>
      obtain ⟨o, ho, hser⟩ := hb
      have hput : t.put L o mtime = t.putRaw L b mtime := by rw [ObjectStore.put, hser]
      rw [← hput]
      exact ih.keeps ho mtime

lemma put_grows (L : Linked) (s : ObjectStore) (obj : Object) (mtime : Option ℕ) :
    s.Grows L (s.put L obj mtime).2 :=
  ((Written.refl s).put (P := fun _ => True) (fun _ _ => trivial) mtime).grows

end ObjectStore

end Bole
