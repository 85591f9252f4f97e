import Bole.Refs.Atomicity

/-!
The ref store of a repository (`src/refs/mod.rs`, `src/refs/memory.rs`, `src/refs/backend.rs`),
over the backend that keeps its refs in a map.

* `commit_ok`: a transaction that commits has the effect of its operations one after another;
* `commit_error`: one that fails changes nothing;
* `get_commit_of_ne`: none changes refs that it does not name;
* `commit_advanceHeadIf`: a conditional advance replaces the head it expects and nothing else;
* `commit_expect_set`: a compare-and-set replaces the ref it expects and nothing else;
* `commit_creates`: a creation keeps every ref there is;
* `resolve_sequential`: the plan of a transaction is its operations executed one after another;
* `commit_simulates`: a transaction of one operation on disk is one of such a store, unless the
  device fails.
-/

namespace Bole

/-- `RefStore` over `MemoryRefBackend`. -/
structure RefStore where
  refs : BTreeMap RefName Ref

namespace RefStore

/-- `get`. -/
def get (s : RefStore) (n : RefName) : Option Ref := s.refs[n]?

/-- `list`: the names with the given beginning, in order. -/
def list (s : RefStore) (pfx : String) : List RefName :=
  s.refs.keys.filter fun n => pfx.toList.isPrefixOf n.asStr.toList

/-- `get_timeline`. -/
def getTimeline (s : RefStore) (n : RefName) : Result (Option Timeline) :=
  match s.get n with
  | some (.timeline t) => .ok (some t)
  | some (.tag _) => .error (isTag n)
  | none => .ok none

/-- `get_tag`. -/
def getTag (s : RefStore) (n : RefName) : Result (Option Tag) :=
  match s.get n with
  | some (.tag t) => .ok (some t)
  | some (.timeline _) => .error (isTimeline n)
  | none => .ok none

/-- `set` of the backend, and its `delete` for `none`. -/
def write (s : RefStore) (e : RefName × Option Ref) : RefStore :=
  match e.2 with
  | some r => ⟨s.refs.insert e.1 r⟩
  | none => ⟨s.refs.erase e.1⟩

/-- `apply_atomic`. -/
def applyAtomic (s : RefStore) (plan : Plan) : RefStore :=
  ⟨plan.foldl (fun m e => match e.2 with | some r => m.insert e.1 r | none => m.erase e.1) s.refs⟩

/-- `commit_transaction`. -/
def commit (s : RefStore) (ops : List RefOp) : Result Unit × RefStore :=
  match resolve (fun n => .ok (s.get n)) ops with
  | .error e => (.error e, s)
  | .ok plan => (.ok (), s.applyAtomic plan)

/-- The map from names to refs that a store stands for. -/
def map (s : RefStore) : RefMap := s.get

variable {s t : RefStore} {n : RefName}

lemma getTimeline_eq_some {T : Timeline} :
    s.getTimeline n = .ok (some T) ↔ s.get n = some (.timeline T) := by
  rw [getTimeline]
  split <;> simp_all

lemma mem_list {pfx : String} :
    n ∈ s.list pfx ↔ (∃ r, s.get n = some r) ∧ pfx.toList.isPrefixOf n.asStr.toList = true := by
  rw [list, List.mem_filter, Std.ExtTreeMap.mem_keys, Std.ExtTreeMap.mem_iff_isSome_getElem?,
    Option.isSome_iff_exists]
  rfl

lemma nodup_list (s : RefStore) (pfx : String) : (s.list pfx).Nodup :=
  Std.ExtTreeMap.nodup_keys.filter _

/-- A store with one ref. -/
lemma get_single {name : RefName} {v w : Ref}
    (h : (RefStore.mk ((∅ : BTreeMap RefName Ref).insert name v)).get n = some w) : w = v := by
  rw [get, Std.ExtTreeMap.getElem?_insert] at h
  split_ifs at h
  · exact (Option.some.inj h).symm
  · simp at h

lemma map_applyAtomic (s : RefStore) (plan : Plan) :
    (s.applyAtomic plan).map = RefMap.applyPlan s.map plan := by
  obtain ⟨m⟩ := s
  induction plan generalizing m with
  | nil => rfl
  | cons e rest ih =>
      have hstep :
          (RefStore.mk (match e.2 with | some r => m.insert e.1 r | none => m.erase e.1)).map =
            Function.update (RefStore.mk m).map e.1 e.2 := by
        funext k
        rw [Function.update_apply]
        cases he : e.2 with
        | some r =>
            simp only [map, get, Std.ExtTreeMap.getElem?_insert, Std.LawfulEqOrd.compare_eq_iff_eq]
            simp only [eq_comm]
        | none =>
            simp only [map, get, Std.ExtTreeMap.getElem?_erase, Std.LawfulEqOrd.compare_eq_iff_eq]
            simp only [eq_comm]
      have := ih (match e.2 with | some r => m.insert e.1 r | none => m.erase e.1)
      rw [hstep] at this
      exact this

lemma applyAtomic_cons (s : RefStore) (e : RefName × Option Ref) (plan : Plan) :
    s.applyAtomic (e :: plan) = (s.write e).applyAtomic plan := by
  obtain ⟨n, v⟩ := e
  cases v <;> rfl

lemma map_write (s : RefStore) (e : RefName × Option Ref) :
    (s.write e).map = Function.update s.map e.1 e.2 := by
  have h := map_applyAtomic s [e]
  rw [applyAtomic_cons] at h
  exact h

/-- **A transaction that commits has the effect of its operations one after another.** -/
lemma commit_ok {ops : List RefOp} (h : s.commit ops = (.ok (), t)) :
    RefMap.applyOps ops s.map = .ok t.map := by
  rw [commit] at h
  cases hr : resolve (fun n => .ok (s.get n)) ops with
  | error e => simp [hr] at h
  | ok plan =>
      obtain rfl : s.applyAtomic plan = t := by simpa [hr] using h
      rw [map_applyAtomic]
      refine (resolve_sound (m := s.map) ?_ hr).1
      intro n v hv
      exact Except.ok.inj hv

/-- **A transaction that fails changes nothing.** -/
lemma commit_error {ops : List RefOp} {e : Error} (h : s.commit ops = (.error e, t)) : t = s := by
  rw [commit] at h
  split at h
  · exact (Prod.mk.inj h).2.symm
  · cases (Prod.mk.inj h).1

/-- **A transaction changes the refs of its operations only.** -/
lemma get_commit_of_ne {ops : List RefOp} (hn : ∀ op ∈ ops, n ≠ op.name) :
    (s.commit ops).2.get n = s.get n := by
  cases h : s.commit ops with
  | mk result t =>
      cases result with
      | error e => rw [commit_error h]
      | ok u => exact RefMap.applyOps_of_ne (commit_ok h) hn

/-- The effect of a transaction of one operation. -/
lemma commit_single {op : RefOp} (h : s.commit [op] = (.ok (), t)) :
    ∃ v, op.next (s.get op.name) = .ok v ∧
      t.map = match v with
        | none => s.map
        | some v => Function.update s.map op.name v := by
  have hops := commit_ok h
  rw [RefMap.applyOps, RefMap.applyOp] at hops
  cases hn : op.next (s.map op.name) with
  | error e => simp [hn, bind, Except.bind] at hops
  | ok v =>
      refine ⟨v, hn, ?_⟩
      cases v with
      | none => simpa [hn, bind, Except.bind, RefMap.applyOps, eq_comm] using hops
      | some v => simpa [hn, bind, Except.bind, RefMap.applyOps, eq_comm] using hops

lemma commit_set {v : Ref} (h : s.commit [.set n v] = (.ok (), t)) :
    t.get n = some v ∧ ∀ k, k ≠ n → t.get k = s.get k := by
  obtain ⟨w, hw, ht⟩ := commit_single h
  obtain rfl : some (some v) = w := Except.ok.inj hw
  refine ⟨(congrFun ht n).trans (Function.update_self ..), fun k hk => ?_⟩
  exact (congrFun ht k).trans (Function.update_of_ne hk ..)

/-- **A conditional advance** replaces the head it expects and nothing else. -/
lemma commit_advanceHeadIf {old new : ObjectId}
    (h : s.commit [.advanceHeadIf n old new] = (.ok (), t)) :
    ∃ T, s.get n = some (.timeline T) ∧ T.head = old ∧
      t.get n = some (.timeline { T with head := new }) ∧ ∀ k, k ≠ n → t.get k = s.get k := by
  obtain ⟨v, hv, ht⟩ := commit_single h
  simp only [RefOp.name] at hv ht
  simp only [RefOp.next] at hv
  split at hv
  · next T hT =>
      split_ifs at hv with hold
      obtain rfl : some (some (.timeline { T with head := new })) = v := Except.ok.inj hv
      refine ⟨T, hT, hold, ?_, fun k hk => ?_⟩
      · exact (congrFun ht n).trans (Function.update_self ..)
      · exact (congrFun ht k).trans (Function.update_of_ne hk ..)
  · cases hv
  · cases hv

/-- **A compare-and-set** finds what it expects, and replaces it and nothing else. -/
lemma commit_expect_set {expected : Option Ref} {v : Ref}
    (h : s.commit [.expect n expected, .set n v] = (.ok (), t)) :
    s.get n = expected ∧ t.get n = some v ∧ ∀ k, k ≠ n → t.get k = s.get k := by
  have hops := commit_ok h
  simp only [RefMap.applyOps, Result.bind_eq_ok] at hops
  obtain ⟨m, hexpect, m', hset, hend⟩ := hops
  obtain rfl : m' = t.map := Except.ok.inj hend
  rw [RefMap.applyOp, RefOp.next] at hexpect
  split_ifs at hexpect with hfound
  obtain rfl : s.map = m := Except.ok.inj hexpect
  have hmap : Function.update s.map n (some v) = t.map := Except.ok.inj hset
  refine ⟨not_not.mp hfound, ?_, fun k hk => ?_⟩
  · exact (congrFun hmap n).symm.trans (Function.update_self ..)
  · exact (congrFun hmap k).symm.trans (Function.update_of_ne hk ..)

/-- **A creation keeps every ref there is.** -/
lemma commit_creates {op : RefOp} (hop : op.creates = true) (h : s.commit [op] = (.ok (), t))
    {k : RefName} {r : Ref} (hk : s.get k = some r) : t.get k = some r := by
  obtain ⟨v, hv, ht⟩ := commit_single h
  have hnone : s.get op.name = none := by
    cases op with
    | createTag => cases hg : s.get _ <;> simp_all [RefOp.next, RefOp.name]
    | createTimeline => cases hg : s.get _ <;> simp_all [RefOp.next, RefOp.name]
    | _ => simp [RefOp.creates] at hop
  have hne : k ≠ op.name := by
    rintro rfl
    rw [hnone] at hk
    cases hk
  have hmap := congrFun ht k
  cases v with
  | none => exact hmap.trans hk
  | some v => exact hmap.trans ((Function.update_of_ne hne ..).trans hk)

/-! ### On disk -/

/-- Over a map the loop does what the operations do one after another, and fails with them. -/
lemma resolveLoop_map (m : RefMap) (ops : List RefOp) (overlay : BTreeMap RefName (Option Ref)) :
    (resolveLoop (fun n => .ok (m n)) ops overlay).map m.through =
      RefMap.applyOps ops (m.through overlay) := by
  induction ops generalizing overlay with
  | nil => rfl
  | cons op ops ih =>
      obtain ⟨current, hc⟩ :
          ∃ current, currentRef (fun n => .ok (m n)) overlay op = .ok current := by
        rw [currentRef]
        split_ifs
        · cases overlay[op.name]? <;> exact ⟨_, rfl⟩
        · exact ⟨none, rfl⟩
      have hnext := next_currentRef (m := m) (fun _ _ hv => Except.ok.inj hv) hc
      rw [resolveLoop, hc, RefMap.applyOps, RefMap.applyOp, ← hnext]
      cases hn : op.next current with
      | error e => simp [hn, bind, Except.bind, Except.map]
      | ok v =>
          cases v with
          | none => simpa [hn, bind, Except.bind] using ih overlay
          | some v =>
              have hrest := ih (overlay.insert op.name v)
              rw [RefMap.through_insert] at hrest
              simpa [hn, bind, Except.bind] using hrest

lemma resolve_map (s : RefStore) (ops : List RefOp) :
    (resolve (fun n => .ok (s.get n)) ops).map (RefMap.applyPlan s.map) =
      RefMap.applyOps ops s.map := by
  have hempty : s.map.through ∅ = s.map := by
    funext n
    simp [RefMap.through]
  have hloop := resolveLoop_map s.map ops ∅
  rw [hempty] at hloop
  rw [← hloop, resolve, map]
  cases resolveLoop (fun n => .ok (s.get n)) ops ∅ with
  | error e => rfl
  | ok overlay => exact congrArg Except.ok (RefMap.applyPlan_toList s.map overlay)

/-! ### One after another -/

/-- What an operation does to the refs it is executed on: a creation finds none, a move or an
advance finds a ref of its kind, with the expected head, and a check what it expects. -/
inductive Executes (m : RefMap) : RefOp → RefMap → Prop where
  | createTag {n : RefName} {target : ObjectId} {message : Option String} {now : ℕ} :
      m n = none → Executes m (.createTag n target message now)
        (Function.update m n (some (.tag ⟨target, now, message⟩)))
  | moveTag {n : RefName} {target : ObjectId} {t : Tag} : m n = some (.tag t) →
      Executes m (.moveTag n target)
        (Function.update m n (some (.tag ⟨target, t.createdAt, t.message⟩)))
  | createTimeline {n : RefName} {head : ObjectId} {policy : TimelinePolicy} {now : ℕ}
      {kind : String} {expiresAt : Option ℕ} : m n = none →
      Executes m (.createTimeline n head policy now kind expiresAt)
        (Function.update m n (some (.timeline ⟨head, policy, now, kind, expiresAt⟩)))
  | advanceHead {n : RefName} {newHead : ObjectId} {t : Timeline} : m n = some (.timeline t) →
      Executes m (.advanceHead n newHead)
        (Function.update m n (some (.timeline { t with head := newHead })))
  | set {n : RefName} {v : Ref} : Executes m (.set n v) (Function.update m n (some v))
  | delete {n : RefName} : Executes m (.delete n) (Function.update m n none)
  | expect {n : RefName} : Executes m (.expect n (m n)) m
  | advanceHeadIf {n : RefName} {newHead : ObjectId} {t : Timeline} : m n = some (.timeline t) →
      Executes m (.advanceHeadIf n t.head newHead)
        (Function.update m n (some (.timeline { t with head := newHead })))

/-- The operations one after another, each on the refs that the earlier ones leave. -/
inductive ExecutesAll : RefMap → List RefOp → RefMap → Prop where
  | nil {m : RefMap} : ExecutesAll m [] m
  | cons {m m₁ m' : RefMap} {op : RefOp} {ops : List RefOp} :
      Executes m op m₁ → ExecutesAll m₁ ops m' → ExecutesAll m (op :: ops) m'

/-- The arm of an operation does what executing it does. -/
lemma applyOp_eq_ok {m m' : RefMap} {op : RefOp} : m.applyOp op = .ok m' ↔ Executes m op m' := by
  constructor
  · intro h
    rw [RefMap.applyOp] at h
    cases op with
    | createTag n target message now =>
        cases hm : m n with
        | some v => simp [RefOp.name, RefOp.next, hm] at h
        | none =>
            simp only [RefOp.name, RefOp.next, hm] at h
            cases h
            exact .createTag hm
    | moveTag n target =>
        rcases hm : m n with _ | (t | t)
        · simp [RefOp.name, RefOp.next, hm] at h
        · simp only [RefOp.name, RefOp.next, hm] at h
          cases h
          exact .moveTag hm
        · simp [RefOp.name, RefOp.next, hm] at h
    | createTimeline n head policy now kind expiresAt =>
        cases hm : m n with
        | some v => simp [RefOp.name, RefOp.next, hm] at h
        | none =>
            simp only [RefOp.name, RefOp.next, hm] at h
            cases h
            exact .createTimeline hm
    | advanceHead n newHead =>
        rcases hm : m n with _ | (t | t)
        · simp [RefOp.name, RefOp.next, hm] at h
        · simp [RefOp.name, RefOp.next, hm] at h
        · simp only [RefOp.name, RefOp.next, hm] at h
          cases h
          exact .advanceHead hm
    | set n v =>
        cases h
        exact .set
    | delete n =>
        cases h
        exact .delete
    | expect n expected =>
        by_cases hm : m n = expected
        · subst hm
          simp only [RefOp.name, RefOp.next, ne_eq, not_true, if_false] at h
          cases h
          exact .expect
        · simp [RefOp.name, RefOp.next, hm] at h
    | advanceHeadIf n expectedOld newHead =>
        rcases hm : m n with _ | (t | t)
        · simp [RefOp.name, RefOp.next, hm] at h
        · simp [RefOp.name, RefOp.next, hm] at h
        · by_cases hold : t.head = expectedOld
          · subst hold
            simp only [RefOp.name, RefOp.next, hm, if_true] at h
            cases h
            exact .advanceHeadIf hm
          · simp [RefOp.name, RefOp.next, hm, hold] at h
  · intro h
    cases h <;> simp_all [RefMap.applyOp, RefOp.name, RefOp.next]

lemma applyOps_eq_ok {m m' : RefMap} {ops : List RefOp} :
    RefMap.applyOps ops m = .ok m' ↔ ExecutesAll m ops m' := by
  induction ops generalizing m with
  | nil =>
      constructor
      · rintro h
        cases h
        exact .nil
      · rintro ⟨⟩
        rfl
  | cons op ops ih =>
      rw [RefMap.applyOps, Result.bind_eq_ok]
      constructor
      · rintro ⟨m₁, hop, hops⟩
        exact .cons (applyOp_eq_ok.mp hop) (ih.mp hops)
      · intro h
        cases h with
        | cons hop hops => exact ⟨_, applyOp_eq_ok.mpr hop, ih.mpr hops⟩

/-- **The overlay is sequential execution.**  The operations resolve to a plan exactly if they can
be executed one after another, and the plan leaves the refs that this does. -/
theorem resolve_sequential (s : RefStore) (ops : List RefOp) :
    match resolve (fun n => .ok (s.get n)) ops with
    | .ok plan => ∀ m', ExecutesAll s.map ops m' ↔ m' = (s.applyAtomic plan).map
    | .error _ => ∀ m', ¬ ExecutesAll s.map ops m' := by
  have h := resolve_map s ops
  cases hr : resolve (fun n => .ok (s.get n)) ops with
  | ok plan =>
      intro m'
      rw [← applyOps_eq_ok, ← h, hr, map_applyAtomic]
      exact ⟨fun heq => (Except.ok.inj heq).symm, fun heq => heq ▸ rfl⟩
  | error e =>
      intro m' hm
      rw [← applyOps_eq_ok, ← h, hr] at hm
      cases hm

/-- Operations that have an effect one after another commit. -/
lemma commit_of_applyOps {ops : List RefOp} {m : RefMap} (h : RefMap.applyOps ops s.map = .ok m) :
    ∃ t, s.commit ops = (.ok (), t) ∧ t.map = m := by
  rw [← resolve_map] at h
  cases hr : resolve (fun n => .ok (s.get n)) ops with
  | error e => simp [hr, Except.map] at h
  | ok plan =>
      rw [hr] at h
      refine ⟨s.applyAtomic plan, by rw [commit, hr], ?_⟩
      rw [map_applyAtomic]
      exact Except.ok.inj h

/-- Operations that fail one after another fail to commit, in the same way. -/
lemma commit_of_error {ops : List RefOp} {e : Error} (h : RefMap.applyOps ops s.map = .error e) :
    s.commit ops = (.error e, s) := by
  rw [← resolve_map] at h
  cases hr : resolve (fun n => .ok (s.get n)) ops with
  | error e' =>
      rw [hr] at h
      obtain rfl : e' = e := Except.error.inj h
      rw [commit, hr]
  | ok plan => simp [hr, Except.map] at h

/-- A conditional advance commits where the head is the expected one. -/
lemma commit_advanceHeadIf_of_get {T : Timeline} (hT : s.get n = some (.timeline T))
    (new : ObjectId) : (s.commit [.advanceHeadIf n T.head new]).1 = .ok () := by
  have hops : RefMap.applyOps [.advanceHeadIf n T.head new] s.map =
      .ok (Function.update s.map n (some (.timeline { T with head := new }))) := by
    have hmap : s.map n = some (.timeline T) := hT
    simp [RefMap.applyOps, RefMap.applyOp, RefOp.name, RefOp.next, hmap, bind, Except.bind]
  obtain ⟨t, hc, -⟩ := commit_of_applyOps hops
  rw [hc]

/-- **A transaction of one operation on disk is one of the store that reads alike**, unless the
device fails: it has the same effect, or fails and changes nothing. -/
theorem commit_simulates {d d' : DiskRefBackend} (hd : d.refs.lookup = s.map) {op : RefOp}
    {result : Result Unit} (h : d.commit none [op] = (result, d')) :
    match result with
    | .ok () => ∃ t, s.commit [op] = (.ok (), t) ∧ d'.refs.lookup = t.map
    | .error _ => d'.refs.lookup = s.map := by
  have hatomic := DiskRefBackend.atomic_single d op
  rw [DiskRefBackend.Atomic, h] at hatomic
  cases result with
  | ok u =>
      dsimp only at hatomic
      rw [hd] at hatomic
      obtain ⟨t, hc, ht⟩ := commit_of_applyOps hatomic
      exact ⟨t, hc, ht.symm⟩
  | error e => exact hatomic.trans hd

end RefStore

end Bole
