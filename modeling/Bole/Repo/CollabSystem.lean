import Bole.Lib.Mutex
import Bole.Repo.Collab

/-!
Publications as they run side by side on one repository: `publish_profile`, `publish_edge` and
`publish_repo`, which all hold the `publish_lock` from their first step to their last.

A call reads the tag, reads the object behind it, writes its own object and sets the tag.  Other
calls, and writes that concern no public collaboration ref, may happen in between.

* `alone_publish`: undisturbed, the steps are the publication of `Repo/Collab.lean`;
* `publishing_sound`: what a call relies on at each of its steps;
* `publish_newer`: in every run, what is pinned verifies and a publication raises the `seq`.
-/

namespace Bole

open Interleave Transition

/-! ### Publications -/

/-- What can be published. -/
inductive Publication where
  | profile (p : Profile)
  | edge (e : TrustEdge)
  | repo (rec : RepoRecord)
deriving DecidableEq

namespace Publication

/-- The object that is written. -/
def obj : Publication → Object
  | profile p => .collab (.profile p)
  | edge e => .collab (.trustEdge e)
  | repo rec => .repoRecord rec

def seq : Publication → ℕ
  | profile p => p.seq
  | edge e => e.seq
  | repo rec => rec.seq

/-- The signature is that of the author. -/
def verifies (L : Linked) : Publication → Bool
  | profile p => verifyProfile L p
  | edge e => verifyEdge L e
  | repo rec => verifyRepo L rec

/-- The ref that is set, which carries the fingerprint of the author. -/
def refName (C : Crates) : Publication → Result RefName
  | profile p => RefName.new (profileRef C p.key)
  | edge e => RefName.new (edgeRef C e)
  | repo rec => RefName.new (repoRef C rec.owner rec.name)

def badSignature : Publication → Error
  | profile _ => .policyViolation "profile signature does not verify"
  | edge _ => .policyViolation "trust edge signature does not verify"
  | repo _ => .policyViolation "repo record signature does not verify"

def staleSeq : Publication → Error
  | profile _ => .policyViolation "profile seq must be greater than the current profile's"
  | edge _ => .policyViolation "trust edge seq must be greater than the current edge's"
  | repo _ => .policyViolation "repo record seq must be greater than the current record's"

/-- The `seq` of an object of the same kind. -/
def currentSeq : Publication → Object → Option ℕ
  | profile _, .collab (.profile cur) => some cur.seq
  | edge _, .collab (.trustEdge cur) => some cur.seq
  | repo _, .repoRecord cur => some cur.seq
  | _, _ => none

end Publication

/-- A publication as one call. -/
def Repository.publish (L : Linked) (r : Repository) (p : Publication) (mtime : Option ℕ) :
    Result ObjectId × Repository :=
  match p with
  | .profile p => r.publishProfile L p mtime
  | .edge e => r.publishEdge L e mtime
  | .repo rec => r.publishRepo L rec mtime

/-! ### The steps of a call -/

/-- How far a call has come since it got the lock. -/
inductive Publishing where
  | called (p : Publication) (mtime : Option ℕ)
  | tagged (p : Publication) (mtime : Option ℕ) (name : RefName) (tag : Option Tag)
  | checked (p : Publication) (mtime : Option ℕ) (name : RefName)
  | stored (p : Publication) (name : RefName) (id : ObjectId)

namespace Publishing

/-- A publication and how it ended. -/
abbrev Outcome := Publication × Result ObjectId

/-- The next step of the call inside. -/
def step (L : Linked) (r : Repository) : Publishing → (Publishing ⊕ Outcome) × Repository
  | called p mtime =>
      if !p.verifies L then (.inr (p, .error p.badSignature), r)
      else
        match p.refName L.toCrates with
        | .error e => (.inr (p, .error e), r)
        | .ok name =>
            match r.refs.getTag name with
            | .error e => (.inr (p, .error e), r)
            | .ok tag => (.inl (tagged p mtime name tag), r)
  | tagged p mtime name none => (.inl (checked p mtime name), r)
  | tagged p mtime name (some t) =>
      match r.objects.get L t.target with
      | .error e => (.inr (p, .error e), r)
      | .ok obj =>
          if (obj.bind p.currentSeq).any fun cur => decide (p.seq ≤ cur) then
            (.inr (p, .error p.staleSeq), r)
          else (.inl (checked p mtime name), r)
  | checked p mtime name =>
      match r.objects.put L p.obj mtime with
      | (.error e, objects) => (.inr (p, .error e), { r with objects := objects })
      | (.ok id, objects) => (.inl (stored p name id), { r with objects := objects })
  | stored p name id =>
      match r.refs.commit [.set name (.tag ⟨id, 0, none⟩)] with
      | (.error e, refs) => (.inr (p, .error e), { r with refs := refs })
      | (.ok (), refs) => (.inr (p, .ok id), { r with refs := refs })

end Publishing

namespace Repository

variable {L : Linked} {r : Repository}

/-- The `seq` of what is published at a ref. -/
def seqAt (L : Linked) (r : Repository) (p : Publication) (name : RefName) : Result (Option ℕ) :=
  match r.refs.getTag name with
  | .error e => .error e
  | .ok none => .ok none
  | .ok (some t) =>
      match r.objects.get L t.target with
      | .error e => .error e
      | .ok obj => .ok (obj.bind p.currentSeq)

lemma edgeAt_seq (e : TrustEdge) (name : RefName) :
    (r.edgeAt L name).map (Option.map TrustEdge.seq) = r.seqAt L (.edge e) name := by
  rw [edgeAt, seqAt]
  rcases r.refs.getTag name with err | _ | t
  · rfl
  · rfl
  · dsimp only [bind, Except.bind]
    rcases r.objects.get L t.target with err | _ | obj
    · rfl
    · rfl
    · cases obj <;> try rfl
      next c => cases c <;> rfl

lemma recordAt_seq (rec : RepoRecord) (name : RefName) :
    (r.recordAt L name).map (Option.map RepoRecord.seq) = r.seqAt L (.repo rec) name := by
  rw [recordAt, seqAt]
  rcases r.refs.getTag name with err | _ | t
  · rfl
  · rfl
  · dsimp only [bind, Except.bind]
    rcases r.objects.get L t.target with err | _ | obj
    · rfl
    · rfl
    · cases obj <;> rfl

lemma profile_seq (p : Profile) {name : RefName}
    (hname : RefName.new (profileRef L.toCrates p.key) = .ok name) :
    (r.profile L p.key).map (Option.map Profile.seq) = r.seqAt L (.profile p) name := by
  rw [profile, seqAt, hname]
  dsimp only [bind, Except.bind]
  rcases r.refs.getTag name with err | _ | t
  · rfl
  · rfl
  · dsimp only
    rcases r.objects.get L t.target with err | _ | obj
    · rfl
    · rfl
    · cases obj <;> try rfl
      next c => cases c <;> rfl

/-- The three publications are one. -/
lemma publish_eq (p : Publication) (mtime : Option ℕ) :
    r.publish L p mtime =
      if !p.verifies L then (.error p.badSignature, r)
      else
        match p.refName L.toCrates with
        | .error e => (.error e, r)
        | .ok name =>
            match r.seqAt L p name with
            | .error e => (.error e, r)
            | .ok cur =>
                if cur.any fun cur => decide (p.seq ≤ cur) then (.error p.staleSeq, r)
                else r.publishTag L p.obj (.ok name) mtime := by
  cases p with
  | profile p =>
      rw [publish, publishProfile]
      refine if_congr Iff.rfl rfl ?_
      dsimp only [Publication.refName]
      cases hname : RefName.new (profileRef L.toCrates p.key) with
      | error e => rw [profile, hname]; rfl
      | ok name =>
          dsimp only
          rw [← profile_seq p hname]
          rcases r.profile L p.key with e | _ | cur <;> rfl
  | edge e =>
      rw [publish, publishEdge]
      refine if_congr Iff.rfl rfl ?_
      dsimp only [Publication.refName]
      rcases RefName.new (edgeRef L.toCrates e) with err | name
      · rfl
      · dsimp only
        rw [← edgeAt_seq e]
        rcases r.edgeAt L name with err | _ | cur <;> rfl
  | repo rec =>
      rw [publish, publishRepo]
      refine if_congr Iff.rfl rfl ?_
      dsimp only [Publication.refName]
      rcases RefName.new (repoRef L.toCrates rec.owner rec.name) with err | name
      · rfl
      · dsimp only
        rw [← recordAt_seq rec]
        rcases r.recordAt L name with err | _ | cur <;> rfl

end Repository

namespace Publishing

/-- The last two steps. -/
lemma alone_checked (L : Linked) (r : Repository) (p : Publication) (mtime : Option ℕ)
    (name : RefName) :
    Mutex.alone (step L) 2 r (checked p mtime name) =
      (.inr (p, (r.publishTag L p.obj (.ok name) mtime).1),
        (r.publishTag L p.obj (.ok name) mtime).2) := by
  rw [Mutex.alone, step, Repository.publishTag]
  rcases r.objects.put L p.obj mtime with ⟨e | id, objects⟩
  · rfl
  · dsimp only
    rw [Mutex.alone, step]
    dsimp only
    rcases r.refs.commit [.set name (.tag ⟨id, 0, none⟩)] with ⟨e | _, refs⟩ <;> rfl

/-- **Undisturbed, the steps are the publication.** -/
lemma alone_publish (L : Linked) (r : Repository) (p : Publication) (mtime : Option ℕ) :
    Mutex.alone (step L) 4 r (called p mtime) =
      (.inr (p, (r.publish L p mtime).1), (r.publish L p mtime).2) := by
  rw [Mutex.alone, step, Repository.publish_eq]
  split_ifs with hv
  · rfl
  cases hname : p.refName L.toCrates with
  | error e => rfl
  | ok name =>
      dsimp only
      rw [Repository.seqAt]
      rcases r.refs.getTag name with err | _ | t
      · rfl
      · dsimp only
        rw [Mutex.alone, step]
        exact alone_checked L r p mtime name
      · dsimp only
        rw [Mutex.alone, step]
        rcases r.objects.get L t.target with err | obj
        · rfl
        · dsimp only
          split_ifs with hstale
          · rfl
          · exact alone_checked L r p mtime name

end Publishing

/-! ### What is pinned -/

namespace Publication

variable {C : Crates} {p q : Publication} {n : RefName}

/-- What the refs of a kind begin with. -/
def front : Publication → String
  | profile _ => collabPublicPrefix ++ "profile/"
  | edge _ => collabPublicPrefix ++ "edge/"
  | repo _ => collabPublicPrefix ++ "repo/"

lemma obj_injective : Function.Injective obj := by
  intro p q h
  cases p <;> cases q <;> simp_all [obj]

lemma front_isPrefix (h : p.refName C = .ok n) : p.front.toList <+: n.asStr.toList := by
  cases p with
  | profile p => simp [RefName.asStr_of_new h, front, profileRef]
  | edge e => simp [RefName.asStr_of_new h, front, edgeRef]
  | repo rec => simp [RefName.asStr_of_new h, front, repoRef]

/-- The kinds are told apart by their refs. -/
lemma currentSeq_obj (hp : p.refName C = .ok n) (hq : q.refName C = .ok n) :
    p.currentSeq q.obj = some q.seq := by
  have hfront : p.front.toList <+: q.front.toList ∨ q.front.toList <+: p.front.toList :=
    List.prefix_or_prefix_of_prefix (front_isPrefix hp) (front_isPrefix hq)
  cases p <;> cases q <;> first
    | rfl
    | simp only [front] at hfront
      exact absurd hfront (by decide +kernel)

end Publication

/-- The refs that publications set. -/
def IsPublished (n : RefName) : Prop := ∃ p : Publication, p.front.toList <+: n.asStr.toList

namespace Repository

variable {L : Linked} {r r' : Repository} {n : RefName} {p q : Publication}

/-- The tag at a ref points at a published object. -/
def Pinned (L : Linked) (r : Repository) (n : RefName) (p : Publication) : Prop :=
  ∃ t, r.refs.get n = some (.tag t) ∧ r.objects.get L t.target = .ok (some p.obj)

/-- Whatever is at a ref that publications set is an object of the author in its name, with a
signature that verifies. -/
def Verified (L : Linked) (r : Repository) : Prop :=
  ∀ n, IsPublished n → ∀ ref, r.refs.get n = some ref →
    ∃ p, r.Pinned L n p ∧ p.verifies L = true ∧ p.refName L.toCrates = .ok n

/-- Whatever is pinned at a ref is older. -/
def Newer (L : Linked) (r : Repository) (n : RefName) (p : Publication) : Prop :=
  ∀ q, r.Pinned L n q → q.seq < p.seq

lemma Pinned.mono (h : r.Pinned L n p) (href : r'.refs.get n = r.refs.get n)
    (hgrows : r.objects.Grows L r'.objects) : r'.Pinned L n p := by
  obtain ⟨t, ht, hobj⟩ := h
  exact ⟨t, href.trans ht, ObjectStore.object_eq_some.mp
    (hgrows _ _ (ObjectStore.object_eq_some.mpr hobj))⟩

/-- One object is pinned at a ref. -/
lemma Pinned.unique (hp : r.Pinned L n p) (hq : r.Pinned L n q) : p = q := by
  obtain ⟨t, ht, hp⟩ := hp
  obtain ⟨t', ht', hq⟩ := hq
  obtain rfl : t = t' := by
    rw [ht] at ht'
    cases ht'
    rfl
  rw [hp] at hq
  exact Publication.obj_injective (Option.some.inj (Except.ok.inj hq))

/-- Nothing happens to the refs that publications set. -/
lemma Verified.mono (h : Verified L r)
    (href : ∀ n, IsPublished n → r'.refs.get n = r.refs.get n)
    (hgrows : r.objects.Grows L r'.objects) : Verified L r' := by
  intro n hn ref hget
  obtain ⟨p, hpin, hverify, hname⟩ := h n hn ref (by rwa [← href n hn])
  exact ⟨p, hpin.mono (href n hn) hgrows, hverify, hname⟩

lemma Newer.mono (h : r.Newer L n p) (hverified : Verified L r) (hn : IsPublished n)
    (href : r'.refs.get n = r.refs.get n) (hgrows : r.objects.Grows L r'.objects) :
    r'.Newer L n p := by
  intro q hq
  obtain ⟨t, ht, -⟩ := id hq
  obtain ⟨q', hpin, -, -⟩ := hverified n hn _ (href.symm.trans ht)
  rw [hq.unique (hpin.mono href hgrows)]
  exact h q' hpin

/-- The tag of a published object is set. -/
lemma Verified.set {refs : RefStore} {id : ObjectId} (h : Verified L r)
    (hget : r.objects.get L id = .ok (some p.obj)) (hverify : p.verifies L = true)
    (hname : p.refName L.toCrates = .ok n) (hset : refs.get n = some (.tag ⟨id, 0, none⟩))
    (hother : ∀ k, k ≠ n → refs.get k = r.refs.get k) : Verified L { r with refs := refs } := by
  intro k hk ref href
  by_cases hkn : k = n
  · subst hkn
    exact ⟨p, ⟨_, hset, hget⟩, hverify, hname⟩
  · have href' : refs.get k = some ref := href
    rw [hother k hkn] at href'
    obtain ⟨q, hpin, hq⟩ := h k hk ref href'
    exact ⟨q, hpin.mono (hother k hkn) (.refl L _), hq⟩

end Repository

/-! ### Runs -/

namespace Publishing

variable {L : Linked} {objs : Set Object} {r r' : Repository} {c : Publishing}

open Repository

/-- What else happens: objects are written, and refs set that no publication sets. -/
inductive Env (L : Linked) (objs : Set Object) : Repository → Repository → Prop where
  | put (r : Repository) {obj : Object} (h : obj ∈ objs) (mtime : Option ℕ) :
      Env L objs r { r with objects := (r.objects.put L obj mtime).2 }
  | commit (r : Repository) {ops : List RefOp} (h : ∀ op ∈ ops, ¬ IsPublished op.name) :
      Env L objs r { r with refs := (r.refs.commit ops).2 }

/-- A call to publish one of the objects. -/
def Starts (objs : Set Object) (c : Publishing) : Prop :=
  ∃ p mtime, p.obj ∈ objs ∧ c = called p mtime

/-- A repository, its lock and the calls on it. -/
abbrev PublishSystem := System (Mutex.Guarded Repository) (Mutex.Call Publishing Outcome)

/-- One thing happens. -/
def Step (L : Linked) (objs : Set Object) :
    PublishSystem → Action (Mutex.Call Publishing Outcome) → PublishSystem → Prop :=
  Interleave.Step (Mutex.Fresh (Starts objs)) (Mutex.step (step L)) (Mutex.Env (Env L objs))

/-- The state of the repository. -/
structure Inv (L : Linked) (objs : Set Object) (r : Repository) : Prop where
  verified : Verified L r
  faithful : r.objects.Faithful L objs

/-- What a call relies on. -/
def Sound (L : Linked) (objs : Set Object) (r : Repository) : Publishing → Prop
  | called p _ => p.obj ∈ objs
  | tagged p _ name tag => p.obj ∈ objs ∧ p.verifies L = true ∧
      p.refName L.toCrates = .ok name ∧ r.refs.getTag name = .ok tag
  | checked p _ name => p.obj ∈ objs ∧ p.verifies L = true ∧
      p.refName L.toCrates = .ok name ∧ r.Newer L name p
  | stored p name id => p.verifies L = true ∧ p.refName L.toCrates = .ok name ∧
      r.Newer L name p ∧ r.objects.get L id = .ok (some p.obj)

/-- What a call relies on lasts as long as the refs that publications set do. -/
lemma Sound.mono (h : Sound L objs r c) (hverified : Verified L r)
    (href : ∀ n, IsPublished n → r'.refs.get n = r.refs.get n)
    (hgrows : r.objects.Grows L r'.objects) : Sound L objs r' c := by
  cases c with
  | called p mtime => exact h
  | tagged p mtime name tag =>
      obtain ⟨hobj, hverify, hname, htag⟩ := h
      refine ⟨hobj, hverify, hname, ?_⟩
      rw [RefStore.getTag, href name ⟨p, Publication.front_isPrefix hname⟩]
      exact htag
  | checked p mtime name =>
      obtain ⟨hobj, hverify, hname, hnewer⟩ := h
      have hn : IsPublished name := ⟨p, Publication.front_isPrefix hname⟩
      exact ⟨hobj, hverify, hname, hnewer.mono hverified hn (href name hn) hgrows⟩
  | stored p name id =>
      obtain ⟨hverify, hname, hnewer, hget⟩ := h
      have hn : IsPublished name := ⟨p, Publication.front_isPrefix hname⟩
      exact ⟨hverify, hname, hnewer.mono hverified hn (href name hn) hgrows,
        ObjectStore.object_eq_some.mp (hgrows _ _ (ObjectStore.object_eq_some.mpr hget))⟩

/-- The environment disturbs nobody. -/
lemma env_sound (henv : Env L objs r r') (h : Inv L objs r) :
    Inv L objs r' ∧ ∀ c, Sound L objs r c → Sound L objs r' c := by
  cases henv with
  | @put obj hobj mtime =>
      have hgrows := ObjectStore.put_grows L r.objects obj mtime
      exact ⟨⟨h.verified.mono (fun _ _ => rfl) hgrows, h.faithful.keeps hobj mtime⟩,
        fun c hc => hc.mono h.verified (fun _ _ => rfl) hgrows⟩
  | @commit ops hops =>
      have href : ∀ n, IsPublished n → (r.refs.commit ops).2.get n = r.refs.get n := by
        intro n hn
        refine RefStore.get_commit_of_ne fun op hop heq => hops op hop ?_
        rwa [← heq]
      exact ⟨⟨h.verified.mono href (.refl L _), h.faithful⟩,
        fun c hc => hc.mono h.verified href (.refl L _)⟩

/-- After the comparison nothing at the ref is as new. -/
lemma newer_of_read {p : Publication} {name : RefName} {t : Tag} {obj : Option Object}
    (hverified : Verified L r) (hname : p.refName L.toCrates = .ok name)
    (htag : r.refs.getTag name = .ok (some t)) (hget : r.objects.get L t.target = .ok obj)
    (hfresh : ¬ (obj.bind p.currentSeq).any (fun cur => decide (p.seq ≤ cur)) = true) :
    r.Newer L name p := by
  intro q hq
  have href : r.refs.get name = some (.tag t) := by
    rw [RefStore.getTag] at htag
    split at htag <;> simp_all
  obtain ⟨q', hpin, -, hname'⟩ :=
    hverified name ⟨p, Publication.front_isPrefix hname⟩ _ href
  obtain rfl := hpin.unique hq
  obtain ⟨t', ht', hobj⟩ := hpin
  obtain rfl : t = t' := by
    rw [href] at ht'
    cases ht'
    rfl
  rw [hget] at hobj
  obtain rfl : obj = some q'.obj := Except.ok.inj hobj
  simpa [Publication.currentSeq_obj hname hname'] using hfresh

/-- **A step of the call inside.** -/
lemma publishing_sound (h : Inv L objs r) (hc : Sound L objs r c) :
    Inv L objs (step L r c).2 ∧
      ∀ c', (step L r c).1 = .inl c' → Sound L objs (step L r c).2 c' := by
  cases c with
  | called p mtime =>
      rw [step]
      split_ifs with hverify
      · exact ⟨h, fun c' hc' => by cases hc'⟩
      cases hname : p.refName L.toCrates with
      | error e => exact ⟨h, fun c' hc' => by cases hc'⟩
      | ok name =>
          dsimp only
          cases htag : r.refs.getTag name with
          | error e => exact ⟨h, fun c' hc' => by cases hc'⟩
          | ok tag =>
              refine ⟨h, fun c' hc' => ?_⟩
              obtain rfl : tagged p mtime name tag = c' := Sum.inl.inj hc'
              exact ⟨hc, by simpa using hverify, hname, htag⟩
  | tagged p mtime name tag =>
      obtain ⟨hobj, hverify, hname, htag⟩ := hc
      cases tag with
      | none =>
          refine ⟨h, fun c' hc' => ?_⟩
          obtain rfl : checked p mtime name = c' := Sum.inl.inj hc'
          refine ⟨hobj, hverify, hname, ?_⟩
          rintro q ⟨t, ht, -⟩
          have href : r.refs.get name = some (.tag t) := ht
          simp [RefStore.getTag, href] at htag
      | some t =>
          rw [step]
          cases hget : r.objects.get L t.target with
          | error e => exact ⟨h, fun c' hc' => by cases hc'⟩
          | ok obj =>
              dsimp only
              split_ifs with hstale
              · exact ⟨h, fun c' hc' => by cases hc'⟩
              · refine ⟨h, fun c' hc' => ?_⟩
                obtain rfl : checked p mtime name = c' := Sum.inl.inj hc'
                exact ⟨hobj, hverify, hname, newer_of_read h.verified hname htag hget hstale⟩
  | checked p mtime name =>
      obtain ⟨hobj, hverify, hname, hnewer⟩ := hc
      have hgrows := ObjectStore.put_grows L r.objects p.obj mtime
      have hkeeps := h.faithful.keeps hobj mtime
      rw [step]
      cases hput : r.objects.put L p.obj mtime with
      | mk result objects =>
          rw [hput] at hgrows hkeeps
          have hinv : Inv L objs { r with objects := objects } :=
            ⟨h.verified.mono (fun _ _ => rfl) hgrows, hkeeps⟩
          cases result with
          | error e => exact ⟨hinv, fun c' hc' => by cases hc'⟩
          | ok id =>
              refine ⟨hinv, fun c' hc' => ?_⟩
              obtain rfl : stored p name id = c' := Sum.inl.inj hc'
              have hread := (h.faithful.put hobj (congrArg Prod.fst hput)).2
              rw [hput] at hread
              exact ⟨hverify, hname, hnewer.mono h.verified
                ⟨p, Publication.front_isPrefix hname⟩ rfl hgrows, hread⟩
  | stored p name id =>
      obtain ⟨hverify, hname, hnewer, hget⟩ := hc
      rw [step]
      cases hcommit : r.refs.commit [.set name (.tag ⟨id, 0, none⟩)] with
      | mk result refs =>
          cases result with
          | error e =>
              obtain rfl := RefStore.commit_error hcommit
              exact ⟨h, fun c' hc' => by cases hc'⟩
          | ok u =>
              obtain ⟨hset, hother⟩ := RefStore.commit_set hcommit
              exact ⟨⟨h.verified.set hget hverify hname hset hother, h.faithful⟩,
                fun c' hc' => by cases hc'⟩

/-! ### Whole runs -/

/-- A publication succeeds: the object at its ref is now its own, and newer than the one before,
and no other ref changes. -/
structure Raises (L : Linked) (r r' : Repository) (p : Publication) (n : RefName) : Prop where
  named : p.refName L.toCrates = .ok n
  newer : r.Newer L n p
  pinned : r'.Pinned L n p
  others : ∀ k, k ≠ n → r'.refs.get k = r.refs.get k

/-- What a step of a call does to the refs: where the call succeeds with it, the publication;
otherwise nothing. -/
def StepOutcome (L : Linked) (s : Mutex.Guarded Repository)
    (c : Mutex.Call Publishing Outcome) : Prop :=
  (Mutex.step (step L) s c).2.state.refs = s.state.refs ∧
      (∀ p id, (Mutex.step (step L) s c).1 = .done (p, .ok id) → c = .done (p, .ok id)) ∨
    ∃ p id n, (Mutex.step (step L) s c).1 = .done (p, .ok id) ∧
      Raises L s.state (Mutex.step (step L) s c).2.state p n

/-- A step of the call inside changes no ref, or is the end of a publication that succeeds. -/
lemma step_raises (hc : Sound L objs r c) :
    (step L r c).2.refs = r.refs ∧ (∀ p id, (step L r c).1 ≠ .inr (p, .ok id)) ∨
      ∃ p id n, (step L r c).1 = .inr (p, .ok id) ∧ Raises L r (step L r c).2 p n := by
  cases c with
  | called p mtime =>
      left
      rw [step]
      split_ifs
      · exact ⟨rfl, by simp⟩
      · split
        · exact ⟨rfl, by simp⟩
        · split
          · exact ⟨rfl, by simp⟩
          · exact ⟨rfl, by simp⟩
  | tagged p mtime name tag =>
      left
      cases tag with
      | none => exact ⟨rfl, by simp [step]⟩
      | some t =>
          rw [step]
          split
          · exact ⟨rfl, by simp⟩
          · split_ifs
            · exact ⟨rfl, by simp⟩
            · exact ⟨rfl, by simp⟩
  | checked p mtime name =>
      left
      rw [step]
      split
      · exact ⟨rfl, by simp⟩
      · exact ⟨rfl, by simp⟩
  | stored p name id =>
      obtain ⟨hverify, hname, hnewer, hget⟩ := hc
      rw [step]
      cases hcommit : r.refs.commit [.set name (.tag ⟨id, 0, none⟩)] with
      | mk result refs =>
          cases result with
          | error e =>
              left
              obtain rfl := RefStore.commit_error hcommit
              exact ⟨rfl, by simp⟩
          | ok u =>
              right
              obtain ⟨hset, hother⟩ := RefStore.commit_set hcommit
              exact ⟨p, id, name, rfl, hname, hnewer, ⟨_, hset, hget⟩, hother⟩

/-- A step of any call. -/
lemma stepOutcome {s : PublishSystem} (h : Mutex.Exclusive (Starts objs) (Inv L objs)
    (Sound L objs) s) {c : Mutex.Call Publishing Outcome} (hc : c ∈ s.calls) :
    StepOutcome L s.shared c := by
  cases c with
  | waiting k =>
      left
      rw [Mutex.step]
      split_ifs
      · exact ⟨rfl, by simp⟩
      · exact ⟨rfl, by simp⟩
  | inside k =>
      have hstep := step_raises (h.sound k hc)
      rw [StepOutcome, Mutex.step]
      cases hk : step L s.shared.state k with
      | mk next state =>
          rw [hk] at hstep
          cases next with
          | inl k' =>
              rcases hstep with ⟨hrefs, -⟩ | ⟨p, id, n, hend, -⟩
              · exact .inl ⟨hrefs, by simp⟩
              · cases hend
          | inr result =>
              rcases hstep with ⟨hrefs, hfail⟩ | ⟨p, id, n, hend, hraises⟩
              · refine .inl ⟨hrefs, fun p id hdone => absurd ?_ (hfail p id)⟩
                exact congrArg Sum.inr (Mutex.Call.done.inj hdone)
              · exact .inr ⟨p, id, n, congrArg Mutex.Call.done (Sum.inr.inj hend), hraises⟩
  | done result => exact .inl ⟨rfl, fun p id hdone => hdone⟩

/-- **Published objects are verified and strictly newer.**  In every run of publications on a
repository, what is pinned at the refs they set is an object of the author in the name of the ref
with a signature that verifies; a call that succeeds has raised the `seq` at its ref, and no step
of any other call changes a ref. -/
theorem publish_newer {s₀ t : PublishSystem}
    {steps : List (PublishSystem × Action (Mutex.Call Publishing Outcome))}
    (hcalls : s₀.calls = []) (hfree : s₀.shared.held = false)
    (hverified : Verified L s₀.shared.state) (hfaithful : s₀.shared.state.objects.Faithful L objs)
    (hrun : Run (Step L objs) s₀ steps t) :
    Verified L t.shared.state ∧ ∀ q ∈ steps, Verified L q.1.shared.state ∧
      ∀ (i : ℕ) c, q.2 = .step i → q.1.calls[i]? = some c → StepOutcome L q.1.shared c := by
  have hreach : ∀ {u steps'}, Run (Step L objs) s₀ steps' u →
      Mutex.Exclusive (Starts objs) (Inv L objs) (Sound L objs) u := by
    intro u steps' hu
    refine Mutex.run_exclusive ?_ (fun x c => publishing_sound) (fun x y henv => env_sound henv)
      (Mutex.exclusive_nil hcalls hfree ⟨hverified, hfaithful⟩) hu
    rintro x c ⟨p, mtime, hobj, rfl⟩ -
    exact hobj
  refine ⟨(hreach hrun).inv.verified, fun q hq => ?_⟩
  obtain ⟨pre, post, u, hpre, -, -⟩ := hrun.split hq
  exact ⟨(hreach hpre).inv.verified,
    fun i c _ hi => stepOutcome (hreach hpre) (List.mem_of_getElem? hi)⟩

end Publishing

/-! ### Two profiles of one key -/

/-- An Ed25519 public key. -/
def adaKey : Digest :=
  ⟨[253, 23, 36, 56, 90, 160, 199, 91, 100, 251, 120, 205, 96, 47, 161, 217, 145, 253, 235, 247,
    107, 19, 197, 142, 215, 2, 234, 200, 53, 233, 246, 24], by decide⟩

/-- Its first profile. -/
def adaFirst : Profile where
  key := adaKey
  displayName := "Ada"
  bio := ""
  endpoints := []
  dnsAliases := []
  seq := 1
  sig := [244, 78, 4, 6, 247, 60, 102, 132, 79, 9, 118, 82, 115, 128, 212, 194, 78, 154, 170, 147,
    112, 26, 0, 122, 204, 32, 251, 193, 249, 199, 130, 242, 95, 116, 197, 58, 76, 175,
    251, 9, 100, 227, 117, 197, 11, 227, 140, 251, 28, 46, 160, 173, 18, 165, 203, 85, 8,
    116, 112, 125, 68, 182, 170, 0]

/-- And the next one. -/
def adaSecond : Profile where
  key := adaKey
  displayName := "Ada"
  bio := ""
  endpoints := []
  dnsAliases := []
  seq := 2
  sig := [23, 247, 223, 227, 165, 44, 100, 18, 210, 230, 151, 212, 167, 237, 249, 119, 55, 131, 32,
    15, 164, 215, 208, 180, 165, 119, 217, 61, 41, 243, 64, 13, 224, 137, 179, 205, 245,
    231, 144, 165, 211, 219, 83, 103, 205, 191, 29, 164, 45, 145, 60, 22, 188, 35, 203,
    85, 113, 46, 208, 100, 44, 1, 77, 3]

def adaObjects : List Object := [.collab (.profile adaFirst), .collab (.profile adaSecond)]

/-- The two signatures are those that verify. -/
def adaLinked : Linked :=
  { Linked.over adaObjects with
    ed25519Verify := fun key msg sig => decide (key = adaKey ∧
      (msg = profileMessage adaFirst ∧ sig = adaFirst.sig ∨
        msg = profileMessage adaSecond ∧ sig = adaSecond.sig)) }

/-- The tag at the profile. -/
def adaName : RefName := ⟨profileRef Crates.reference adaKey, by decide +kernel⟩

lemma ada_faithful {s : ObjectStore}
    (hheld : ∀ o ∈ adaObjects, s.exists_ o.refId = .ok true →
      s.getRaw adaLinked o.refId = .ok (some (Postcard.object o))) :
    s.Faithful adaLinked {o | o ∈ adaObjects} :=
  have h : s.Faithful (.over adaObjects) {o | o ∈ adaObjects} :=
    ObjectStore.faithful_over (by decide +kernel) (by decide +kernel) hheld
  ⟨h.decodes, h.distinct, h.held⟩

namespace Publishing

open Repository

/-- Both are about to be published. -/
def adaCalls : PublishSystem :=
  ⟨⟨false, .memory⟩, [.waiting (called (.profile adaFirst) none),
    .waiting (called (.profile adaSecond) none)]⟩

/-- The first call gets the lock; the second tries in between. -/
def adaEnd : PublishSystem :=
  [0, 1, 0, 1, 0, 0, 0, 1, 1, 1, 1, 1].foldl (turn (Mutex.step (step adaLinked))) adaCalls

/-- Published side by side, the second profile is pinned at the end, and verifies. -/
theorem publish_newer_ada : (∃ steps, Run (Step adaLinked {o | o ∈ adaObjects})
      ⟨⟨false, .memory⟩, []⟩ steps adaEnd) ∧
    Verified adaLinked adaEnd.shared.state ∧
    adaEnd.shared.state.refs.get adaName =
      some (.tag ⟨(Object.collab (.profile adaSecond)).refId, 0, none⟩) := by
  obtain ⟨steps, hturns⟩ : ∃ steps, Run (Step adaLinked {o | o ∈ adaObjects}) adaCalls steps
      adaEnd := Interleave.run_turns _ _
  have hfirst : Mutex.Fresh (Starts {o | o ∈ adaObjects})
      (.waiting (called (.profile adaFirst) none) : Mutex.Call Publishing Outcome) :=
    ⟨_, ⟨.profile adaFirst, none, by simp [adaObjects, Publication.obj], rfl⟩, rfl⟩
  have hsecond : Mutex.Fresh (Starts {o | o ∈ adaObjects})
      (.waiting (called (.profile adaSecond) none) : Mutex.Call Publishing Outcome) :=
    ⟨_, ⟨.profile adaSecond, none, by simp [adaObjects, Publication.obj], rfl⟩, rfl⟩
  have hrun : Run (Step adaLinked {o | o ∈ adaObjects}) ⟨⟨false, .memory⟩, []⟩ (_ :: _ :: steps)
      adaEnd := .cons (.call hfirst) (.cons (.call hsecond) hturns)
  refine ⟨⟨_, hrun⟩, (publish_newer rfl rfl ?_ ?_ hrun).1, by decide +kernel⟩
  · intro n _ ref href
    cases href
  · exact ada_faithful (by decide)

end Publishing

end Bole
