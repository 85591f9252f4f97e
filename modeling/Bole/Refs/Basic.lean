import Bole.Basic

/-!
Refs and ref transactions (`src/refs/name.rs`, `ref_type.rs`, `tag.rs`, `timeline.rs`,
`transaction.rs`).

* `RefName`: a name that passed `RefName::new`, with the path it is stored under
  (`segments_injective`);
* `resolve`: the buffered operations, turned into absolute final values over an overlay;
* `RefMap.applyOp`: what one operation means on a map from names to refs;
* `resolve_sound`: a plan that resolves is the effect of the operations one after another.
-/

namespace Bole

/-! ### Names -/

/-- The first rule of `RefName::new` that a segment breaks. -/
def segmentError (segment : List Char) : Option String :=
  if segment = [] then some "consecutive slashes produce empty segment"
  else if segment.head? = some '.' then some "segment must not start with '.'"
  else if '\x00' ∈ segment then some "null byte in segment"
  else none

/-- The first rule of `RefName::new` that a string breaks. -/
def refNameError (s : String) : Option String :=
  if s.toList = [] then some "name must not be empty"
  else if s.toList.head? = some '/' then some "name must not start with '/'"
  else if s.toList.getLast? = some '/' then some "name must not end with '/'"
  else (s.toList.splitOn '/').findSome? segmentError

/-- The rules of a segment. -/
lemma segmentError_eq_none {segment : List Char} : segmentError segment = none ↔
    segment ≠ [] ∧ segment.head? ≠ some '.' ∧ '\x00' ∉ segment := by
  rw [segmentError]
  split_ifs with hnil hdot hnull
  · simp [hnil]
  · simp [hdot]
  · simp [hnull]
  · simp [hnil, hdot, hnull]

/-- **The rules of a name** are the rules of its segments: one that is empty, or begins or ends with
a slash, has a segment that is empty. -/
lemma refNameError_eq_none {s : String} : refNameError s = none ↔
    ∀ segment ∈ s.toList.splitOn '/', segmentError segment = none := by
  constructor
  · intro h
    rw [refNameError] at h
    split_ifs at h
    exact List.findSome?_eq_none_iff.mp h
  · intro h
    have hempty : [] ∉ s.toList.splitOn '/' := fun hmem =>
      (segmentError_eq_none.mp (h [] hmem)).1 rfl
    have hname : s.toList ≠ [] := by
      intro hs
      rw [hs] at hempty
      exact hempty List.mem_cons_self
    have hfirst : s.toList.head? ≠ some '/' := by
      intro hs
      obtain ⟨rest, hrest⟩ := List.head?_eq_some_iff.mp hs
      have hsplit := List.splitOn_append_cons_self (a := '/') [] rest
      rw [List.nil_append, ← hrest] at hsplit
      exact hempty (hsplit ▸ List.mem_cons_self)
    have hlast : s.toList.getLast? ≠ some '/' := by
      intro hs
      obtain ⟨front, hfront⟩ := List.getLast?_eq_some_iff.mp hs
      have hsplit := List.splitOn_append_cons_self (a := '/') front []
      rw [← hfront] at hsplit
      exact hempty (hsplit ▸ List.mem_append_right _ List.mem_cons_self)
    rw [refNameError, if_neg hname, if_neg hfirst, if_neg hlast]
    exact List.findSome?_eq_none_iff.mpr h

/-- A validated ref name. -/
structure RefName where
  name : String
  valid : refNameError name = none
deriving DecidableEq

namespace RefName

/-- `RefName::new`. -/
def new (s : String) : Result RefName :=
  if h : refNameError s = none then .ok ⟨s, h⟩
  else .error (.invalidRefName ((refNameError s).getD ""))

/-- `as_str`. -/
def asStr (n : RefName) : String := n.name

lemma valid_main : refNameError "main" = none := by
  decide +kernel

lemma valid_feature : refNameError "feature" = none := by
  decide +kernel

lemma valid_v1 : refNameError "v1" = none := by
  decide +kernel

lemma ext' {a b : RefName} (h : a.name = b.name) : a = b := by
  cases a
  cases b
  simpa using h

lemma asStr_of_new {s : String} {n : RefName} (h : RefName.new s = .ok n) : n.asStr = s := by
  rw [new] at h
  split_ifs at h
  cases h
  rfl

instance : Ord RefName := ⟨compareOn RefName.name⟩

instance : Std.TransOrd RefName :=
  inferInstanceAs (Std.TransCmp (compareOn RefName.name))

instance : Std.LawfulEqOrd RefName where
  compare_self := Std.ReflOrd.compare_self (α := String)
  eq_of_compare h := ext' (Std.LawfulEqOrd.eq_of_compare (α := String) h)

/-- The path segments of a name, `name.split('/')`. -/
def segments (n : RefName) : List (List Char) := n.name.toList.splitOn '/'

/-- The segments of a name keep the rules. -/
lemma segment_rules {n : RefName} {segment : List Char} (h : segment ∈ n.segments) :
    segment ≠ [] ∧ segment.head? ≠ some '.' ∧ '\x00' ∉ segment :=
  segmentError_eq_none.mp (refNameError_eq_none.mp n.valid segment h)

/-- Different names are stored under different paths. -/
lemma segments_injective : Function.Injective segments := by
  intro a b h
  have hlist : a.name.toList = b.name.toList := by
    have ha : ['/'].intercalate a.segments = a.name.toList := List.intercalate_splitOn '/'
    have hb : ['/'].intercalate b.segments = b.name.toList := List.intercalate_splitOn '/'
    rw [← ha, ← hb, h]
  exact ext' (String.toList_injective hlist)

end RefName

/-! ### Refs -/

/-- `TimelinePolicy`. -/
inductive TimelinePolicy where
  | fastForwardOnly
  | append
  | unrestricted
deriving DecidableEq, Repr

/-- `Timeline`. -/
structure Timeline where
  head : ObjectId
  policy : TimelinePolicy
  createdAt : ℕ
  kind : String
  expiresAt : Option ℕ
deriving DecidableEq

/-- `Tag`. -/
structure Tag where
  target : ObjectId
  createdAt : ℕ
  message : Option String
deriving DecidableEq

/-- `Ref`. -/
inductive Ref where
  | tag (t : Tag)
  | timeline (t : Timeline)
deriving DecidableEq

/-! ### Transactions -/

/-- `RefOp`: a buffered operation or precondition. -/
inductive RefOp where
  | createTag (name : RefName) (target : ObjectId) (message : Option String) (now : ℕ)
  | moveTag (name : RefName) (target : ObjectId)
  | createTimeline (name : RefName) (head : ObjectId) (policy : TimelinePolicy) (now : ℕ)
      (kind : String) (expiresAt : Option ℕ)
  | advanceHead (name : RefName) (newHead : ObjectId)
  | set (name : RefName) (value : Ref)
  | delete (name : RefName)
  | expect (name : RefName) (expected : Option Ref)
  | advanceHeadIf (name : RefName) (expectedOld newHead : ObjectId)
deriving DecidableEq

/-- A resolved plan: absolute final values, `none` for a deletion. -/
abbrev Plan := List (RefName × Option Ref)

/-- The name an operation is about. -/
def RefOp.name : RefOp → RefName
  | .createTag n _ _ _ => n
  | .moveTag n _ => n
  | .createTimeline n _ _ _ _ _ => n
  | .advanceHead n _ => n
  | .set n _ => n
  | .delete n => n
  | .expect n _ => n
  | .advanceHeadIf n _ _ => n

/-- Whether an operation looks at the current value of its ref. -/
def RefOp.reads : RefOp → Bool
  | .set _ _ => false
  | .delete _ => false
  | _ => true

/-- Whether an operation makes a new ref. -/
def RefOp.creates : RefOp → Bool
  | .createTag _ _ _ _ => true
  | .createTimeline _ _ _ _ _ _ => true
  | _ => false

def alreadyExists (n : RefName) : Error := .storage ("ref already exists: " ++ n.asStr)

def refNotFound (n : RefName) : Error := .storage ("ref not found: " ++ n.asStr)

def isTimeline (n : RefName) : Error :=
  .wrongRefKind ("'" ++ n.asStr ++ "' is a timeline, not a tag")

def isTag (n : RefName) : Error :=
  .wrongRefKind ("'" ++ n.asStr ++ "' is a tag, not a timeline")

/-- One arm of `resolve`: the new value of the ref given its current one, `none` when the
operation only checks. -/
def RefOp.next (current : Option Ref) : RefOp → Result (Option (Option Ref))
  | .createTag n target message now =>
      if current.isSome then .error (alreadyExists n)
      else .ok (some (some (.tag ⟨target, now, message⟩)))
  | .moveTag n target =>
      match current with
      | some (.tag t) => .ok (some (some (.tag { t with target := target })))
      | some (.timeline _) => .error (isTimeline n)
      | none => .error (refNotFound n)
  | .createTimeline n head policy now kind expiresAt =>
      if current.isSome then .error (alreadyExists n)
      else .ok (some (some (.timeline ⟨head, policy, now, kind, expiresAt⟩)))
  | .advanceHead n newHead =>
      match current with
      | some (.timeline t) => .ok (some (some (.timeline { t with head := newHead })))
      | some (.tag _) => .error (isTag n)
      | none => .error (refNotFound n)
  | .set _ value => .ok (some (some value))
  | .delete _ => .ok (some none)
  | .expect n expected =>
      if current ≠ expected then
        .error (.transactionConflict ("precondition failed for '" ++ n.asStr ++ "'"))
      else .ok none
  | .advanceHeadIf n expectedOld newHead =>
      match current with
      | some (.timeline t) =>
          if t.head = expectedOld then .ok (some (some (.timeline { t with head := newHead })))
          else
            .error (.transactionConflict
              ("head of '" ++ n.asStr ++ "' is not the expected value"))
      | some (.tag _) => .error (isTag n)
      | none => .error (refNotFound n)

/-- `current`: the overlay first, then the backend; an operation that does not look at the
ref does not read it. -/
def currentRef (get : RefName → Result (Option Ref)) (overlay : BTreeMap RefName (Option Ref))
    (op : RefOp) : Result (Option Ref) :=
  if op.reads then
    match overlay[op.name]? with
    | some v => .ok v
    | none => get op.name
  else .ok none

/-- The loop of `resolve`. -/
def resolveLoop (get : RefName → Result (Option Ref)) :
    List RefOp → BTreeMap RefName (Option Ref) → Result (BTreeMap RefName (Option Ref))
  | [], overlay => .ok overlay
  | op :: ops, overlay => do
      let current ← currentRef get overlay op
      match ← op.next current with
      | none => resolveLoop get ops overlay
      | some v => resolveLoop get ops (overlay.insert op.name v)

/-- `resolve`: the overlay in name order. -/
def resolve (get : RefName → Result (Option Ref)) (ops : List RefOp) : Result Plan := do
  let overlay ← resolveLoop get ops ∅
  .ok overlay.toList

/-! ### What the operations mean -/

/-- A map from names to refs. -/
abbrev RefMap := RefName → Option Ref

namespace RefMap

/-- One operation on the map. -/
def applyOp (m : RefMap) (op : RefOp) : Result RefMap :=
  match op.next (m op.name) with
  | .error e => .error e
  | .ok none => .ok m
  | .ok (some v) => .ok (Function.update m op.name v)

/-- An operation changes its own ref only. -/
lemma applyOp_of_ne {m m' : RefMap} {op : RefOp} {n : RefName} (h : m.applyOp op = .ok m')
    (hn : n ≠ op.name) : m' n = m n := by
  rw [applyOp] at h
  split at h
  · cases h
  · cases h
    rfl
  · cases h
    exact Function.update_of_ne hn ..

/-- The operations one after another. -/
def applyOps : List RefOp → RefMap → Result RefMap
  | [], m => .ok m
  | op :: ops, m => do
      let m ← m.applyOp op
      applyOps ops m

lemma applyOps_append (before after : List RefOp) (m : RefMap) :
    applyOps (before ++ after) m = applyOps before m >>= applyOps after := by
  induction before generalizing m with
  | nil => rfl
  | cons op rest ih =>
      rw [List.cons_append, applyOps, applyOps]
      cases m.applyOp op with
      | error e => rfl
      | ok m₁ => exact ih m₁

/-- Operations that fail do so at the first of them that does. -/
lemma applyOps_error {ops : List RefOp} {m : RefMap} {e : Error} (h : applyOps ops m = .error e) :
    ∃ before op after m', ops = before ++ op :: after ∧ applyOps before m = .ok m' ∧
      m'.applyOp op = .error e := by
  induction ops generalizing m with
  | nil => cases h
  | cons op rest ih =>
      rw [applyOps] at h
      cases h₁ : m.applyOp op with
      | error e₁ =>
          rw [h₁] at h
          cases h
          exact ⟨[], op, rest, m, rfl, rfl, h₁⟩
      | ok m₁ =>
          rw [h₁] at h
          obtain ⟨before, o, after, m', hsplit, hbefore, ho⟩ := ih h
          refine ⟨op :: before, o, after, m', by rw [hsplit, List.cons_append], ?_, ho⟩
          rw [applyOps, h₁]
          exact hbefore

/-- Operations change their own refs only. -/
lemma applyOps_of_ne {ops : List RefOp} {m m' : RefMap} {n : RefName}
    (h : applyOps ops m = .ok m') (hn : ∀ op ∈ ops, n ≠ op.name) : m' n = m n := by
  induction ops generalizing m with
  | nil =>
      cases h
      rfl
  | cons op ops ih =>
      rw [applyOps, Result.bind_eq_ok] at h
      obtain ⟨m₁, h₁, h⟩ := h
      rw [ih h fun o ho => hn o (List.mem_cons_of_mem _ ho)]
      exact applyOp_of_ne h₁ (hn op List.mem_cons_self)

/-- Operations that create keep every ref there is. -/
lemma applyOps_keeps {ops : List RefOp} {m m' : RefMap} (h : applyOps ops m = .ok m')
    (hops : ∀ op ∈ ops, op.creates = true) {n : RefName} {v : Ref} (hn : m n = some v) :
    m' n = some v := by
  induction ops generalizing m with
  | nil =>
      cases h
      exact hn
  | cons op rest ih =>
      rw [applyOps, Result.bind_eq_ok] at h
      obtain ⟨m₁, h₁, h⟩ := h
      refine ih h (fun o ho => hops o (List.mem_cons_of_mem _ ho)) ?_
      by_cases hname : n = op.name
      · -- there is nothing to create
        have hcreates := hops op List.mem_cons_self
        rw [applyOp, ← hname, hn] at h₁
        cases op with
        | createTag => simp [RefOp.next] at h₁
        | createTimeline => simp [RefOp.next] at h₁
        | _ => simp [RefOp.creates] at hcreates
      · rw [applyOp_of_ne h₁ hname, hn]

/-- What is created is there in the end. -/
lemma applyOps_created {ops : List RefOp} {m m' : RefMap} (h : applyOps ops m = .ok m')
    (hops : ∀ op ∈ ops, op.creates = true) {n : RefName} {t : Timeline}
    (hn : .createTimeline n t.head t.policy t.createdAt t.kind t.expiresAt ∈ ops) :
    m' n = some (.timeline t) := by
  induction ops generalizing m with
  | nil => cases hn
  | cons op rest ih =>
      rw [applyOps, Result.bind_eq_ok] at h
      obtain ⟨m₁, h₁, h⟩ := h
      have hrest : ∀ o ∈ rest, o.creates = true := fun o ho => hops o (List.mem_cons_of_mem _ ho)
      rcases List.mem_cons.mp hn with rfl | hn
      · refine applyOps_keeps h hrest ?_
        rw [applyOp] at h₁
        cases hm : m n with
        | some v => simp [RefOp.name, RefOp.next, hm] at h₁
        | none =>
            obtain rfl : Function.update m n (some (.timeline t)) = m₁ := by
              simpa [RefOp.name, RefOp.next, hm] using h₁
            exact Function.update_self ..
      · exact ih h hrest hn

/-- A plan on the map. -/
def applyPlan (m : RefMap) (plan : Plan) : RefMap :=
  plan.foldl (fun m e => Function.update m e.1 e.2) m

/-- The map seen through an overlay. -/
def through (m : RefMap) (overlay : BTreeMap RefName (Option Ref)) : RefMap := fun n =>
  match overlay[n]? with
  | some v => v
  | none => m n

lemma through_insert (m : RefMap) (overlay : BTreeMap RefName (Option Ref)) (n : RefName)
    (v : Option Ref) :
    m.through (overlay.insert n v) = Function.update (m.through overlay) n v := by
  funext k
  simp only [through, Std.ExtTreeMap.getElem?_insert, Function.update_apply]
  by_cases hk : n = k
  · simp [hk]
  · simp [hk, Ne.symm hk]

lemma applyPlan_of_not_mem {plan : Plan} (m : RefMap) {n : RefName}
    (h : n ∉ plan.map Prod.fst) : m.applyPlan plan n = m n := by
  induction plan generalizing m with
  | nil => rfl
  | cons e rest ih =>
      rw [List.map_cons, List.mem_cons, not_or] at h
      rw [applyPlan, List.foldl_cons, ← applyPlan, ih _ h.2]
      exact Function.update_of_ne h.1 _ _

/-- The value of a plan at a name, with distinct names. -/
lemma applyPlan_of_mem {plan : Plan} (hnodup : (plan.map Prod.fst).Nodup) (m : RefMap)
    {n : RefName} {v : Option Ref} (h : (n, v) ∈ plan) : m.applyPlan plan n = v := by
  induction plan generalizing m with
  | nil => simp at h
  | cons e rest ih =>
      rw [List.map_cons, List.nodup_cons] at hnodup
      rw [applyPlan, List.foldl_cons, ← applyPlan]
      rcases List.mem_cons.mp h with rfl | h
      · rw [applyPlan_of_not_mem _ hnodup.1]
        exact Function.update_self _ _ _
      · exact ih hnodup.2 _ h

/-- The plan of an overlay is the map seen through it. -/
lemma applyPlan_toList (m : RefMap) (overlay : BTreeMap RefName (Option Ref)) :
    m.applyPlan overlay.toList = m.through overlay := by
  have hnodup : (overlay.toList.map Prod.fst).Nodup := by
    rw [Std.ExtTreeMap.map_fst_toList_eq_keys]
    exact Std.ExtTreeMap.nodup_keys
  funext n
  rw [through]
  cases hn : overlay[n]? with
  | some v =>
      exact applyPlan_of_mem hnodup m (Std.ExtTreeMap.mem_toList_iff_getElem?_eq_some.mpr hn)
  | none =>
      refine applyPlan_of_not_mem m ?_
      rw [Std.ExtTreeMap.map_fst_toList_eq_keys, Std.ExtTreeMap.mem_keys,
        Std.ExtTreeMap.mem_iff_isSome_getElem?, hn]
      simp

end RefMap

section Resolve

variable {get : RefName → Result (Option Ref)} {m : RefMap}

/-- What an operation is given to look at is what the map holds, as far as it looks. -/
lemma next_currentRef (hget : ∀ n v, get n = .ok v → m n = v)
    {overlay : BTreeMap RefName (Option Ref)} {op : RefOp} {current : Option Ref}
    (h : currentRef get overlay op = .ok current) :
    op.next current = op.next (m.through overlay op.name) := by
  rw [currentRef] at h
  split_ifs at h with hr
  · rw [RefMap.through]
    cases ho : overlay[op.name]? with
    | some v =>
        rw [ho] at h
        cases h
        rfl
    | none =>
        rw [ho] at h
        rw [hget _ _ h]
  · cases op <;> first | rfl | exact absurd rfl hr

lemma resolveLoop_sound (hget : ∀ n v, get n = .ok v → m n = v) {ops : List RefOp}
    {overlay overlay' : BTreeMap RefName (Option Ref)}
    (h : resolveLoop get ops overlay = .ok overlay') :
    RefMap.applyOps ops (m.through overlay) = .ok (m.through overlay') := by
  induction ops generalizing overlay with
  | nil =>
      have : overlay = overlay' := by simpa [resolveLoop] using h
      rw [this]
      rfl
  | cons op ops ih =>
      rw [resolveLoop, Result.bind_eq_ok] at h
      obtain ⟨current, hc, h⟩ := h
      rw [Result.bind_eq_ok] at h
      obtain ⟨next, hn, h⟩ := h
      rw [next_currentRef hget hc] at hn
      rw [RefMap.applyOps, RefMap.applyOp, hn]
      cases next with
      | none => exact ih h
      | some v =>
          have := ih h
          rw [RefMap.through_insert] at this
          exact this

/-- **A plan that resolves is the effect of the operations one after another**, and names
each ref once. -/
theorem resolve_sound (hget : ∀ n v, get n = .ok v → m n = v) {ops : List RefOp} {plan : Plan}
    (h : resolve get ops = .ok plan) :
    RefMap.applyOps ops m = .ok (m.applyPlan plan) ∧ (plan.map Prod.fst).Nodup := by
  rw [resolve, Result.bind_eq_ok] at h
  obtain ⟨overlay, ho, h⟩ := h
  obtain rfl : overlay.toList = plan := by simpa using h
  have hempty : m.through ∅ = m := by
    funext n
    simp [RefMap.through]
  have hs := resolveLoop_sound hget ho
  rw [hempty] at hs
  refine ⟨by rw [RefMap.applyPlan_toList, hs], ?_⟩
  rw [Std.ExtTreeMap.map_fst_toList_eq_keys]
  exact Std.ExtTreeMap.nodup_keys

end Resolve

end Bole
