import Bole.Acl.Lattice

/-!
Globs, label rules and the backend that answers for them (`src/acl/glob.rs`,
`src/acl/rules.rs`, `src/acl/backend.rs`).

The matcher of the source keeps a memo of the suffix pairs that failed.  It only saves work
(`globMatches_language`), so this one leaves it out and recurses on the pair of suffixes.

* `globMatches_fuel`: the recursion of the matcher ends within the fuel it is given;
* `isPrefix_of_globMatches`: a glob matches only what begins with its literal beginning.
-/

namespace Bole

/-! ### Globs -/

/-- `str::as_bytes`. -/
def strBytes (s : String) : Bytes := s.toList.flatMap String.utf8EncodeChar

/-- `MAX_GLOB_LEN`. -/
def maxGlobLen : ℕ := 8192

/-- What follows each separator. -/
def afterSlashes : Bytes → List Bytes
  | [] => []
  | c :: s => if c = 47 then s :: afterSlashes s else afterSlashes s

/-- The suffixes that start inside the first segment or at its end. -/
def segmentTails : Bytes → List Bytes
  | [] => [[]]
  | c :: s => (c :: s) :: if c = 47 then [] else segmentTails s

/-- `matches` inside `glob_matches`, with the patterns tried in the order of the source: `**/`,
`**`, `*`, and a byte that stands for itself; 42 is `*` and 47 is `/`. -/
def globLoop : ℕ → Bytes → Bytes → Bool
  | 0, _, _ => false
  | _ + 1, [], s => s.isEmpty
  | fuel + 1, p :: rest, s =>
      if p = 42 ∧ rest.take 2 = [42, 47] then
        globLoop fuel (rest.drop 2) s || (afterSlashes s).any (globLoop fuel (p :: rest))
      else if p = 42 ∧ rest.take 1 = [42] then
        globLoop fuel (rest.drop 1) s ||
          (afterSlashes s ++ [[]]).any (globLoop fuel (rest.drop 1))
      else if p = 42 then (segmentTails s).any (globLoop fuel rest)
      else decide (s.head? = some p) && globLoop fuel rest s.tail

/-- `glob_matches`. -/
def globMatches (pattern path : String) : Bool :=
  let pat := strBytes pattern
  let s := strBytes path
  if pat.length > maxGlobLen ∨ s.length > maxGlobLen then false
  else globLoop (pat.length + s.length + 1) pat s

example : globMatches "secrets/**" "secrets/a/b" = true ∧
    globMatches "secrets/**" "src/main.rs" = false ∧
    globMatches "a/**/z" "a/z" = true ∧ globMatches "*.rs" "src/main.rs" = false := by
  decide +kernel

lemma length_of_mem_afterSlashes {s t : Bytes} (h : t ∈ afterSlashes s) :
    t.length < s.length := by
  induction s with
  | nil => simp [afterSlashes] at h
  | cons c s ih =>
      rw [afterSlashes] at h
      split_ifs at h
      · rcases List.mem_cons.mp h with rfl | h
        · simp
        · exact Nat.lt_succ_of_lt (ih h)
      · exact Nat.lt_succ_of_lt (ih h)

lemma length_of_mem_segmentTails {s t : Bytes} (h : t ∈ segmentTails s) :
    t.length ≤ s.length := by
  induction s with
  | nil => simp_all [segmentTails]
  | cons c s ih =>
      rw [segmentTails] at h
      rcases List.mem_cons.mp h with rfl | h
      · exact le_rfl
      · split_ifs at h
        · simp at h
        · exact Nat.le_succ_of_le (ih h)

lemma any_congr_mem {l : List Bytes} {f g : Bytes → Bool} (h : ∀ t ∈ l, f t = g t) :
    l.any f = l.any g := by
  rw [Bool.eq_iff_iff, List.any_eq_true, List.any_eq_true]
  exact exists_congr fun t => and_congr_right fun ht => by rw [h t ht]

/-- **The matcher ends**: every recursive call is on a shorter pair of suffixes, so more fuel
than their length changes nothing. -/
theorem globMatches_fuel {fuel : ℕ} {pat s : Bytes} (h : pat.length + s.length < fuel) :
    globLoop (fuel + 1) pat s = globLoop fuel pat s := by
  induction fuel generalizing pat s with
  | zero => omega
  | succ fuel ih =>
      cases pat with
      | nil => rw [globLoop, globLoop]
      | cons p rest =>
          rw [List.length_cons] at h
          rw [globLoop, globLoop.eq_3 s fuel]
          split_ifs with h1 h2 h3
          · rw [ih (by rw [List.length_drop]; omega)]
            congr 1
            refine any_congr_mem fun t ht => ih ?_
            have := length_of_mem_afterSlashes ht
            rw [List.length_cons]
            omega
          · rw [ih (by rw [List.length_drop]; omega)]
            congr 1
            refine any_congr_mem fun t ht => ih ?_
            have hlen : t.length ≤ s.length := by
              rcases List.mem_append.mp ht with ht | ht
              · exact (length_of_mem_afterSlashes ht).le
              · rw [List.mem_singleton.mp ht]
                exact Nat.zero_le _
            rw [List.length_drop]
            have hpos : 1 ≤ rest.length := by
              have := congrArg List.length h2.2
              rw [List.length_take] at this
              simp only [List.length_singleton] at this
              omega
            omega
          · refine any_congr_mem fun t ht => ih ?_
            have := length_of_mem_segmentTails ht
            omega
          · rw [ih (by rw [List.length_tail]; omega)]

/-! ### Literal beginnings -/

/-- A character is read off the front of its encoding. -/
lemma utf8EncodeChar_append_inj {c d : Char} {x y : Bytes}
    (h : String.utf8EncodeChar c ++ x = String.utf8EncodeChar d ++ y) : c = d := by
  have hdecode : ∀ (c : Char) (x : Bytes),
      (String.utf8EncodeChar c ++ x).toByteArray.utf8DecodeChar? 0 = some c := by
    intro c x
    rw [List.toByteArray_append]
    exact ByteArray.utf8DecodeChar?_utf8EncodeChar_append
  have hc := hdecode c x
  rw [h, hdecode d y] at hc
  exact (Option.some.inj hc).symm

/-- What begins a string in bytes begins it in characters. -/
lemma isPrefix_of_utf8 {a b : List Char}
    (h : a.flatMap String.utf8EncodeChar <+: b.flatMap String.utf8EncodeChar) : a <+: b := by
  induction a generalizing b with
  | nil => exact List.nil_prefix
  | cons c a ih =>
      obtain ⟨t, ht⟩ := h
      cases b with
      | nil => simp at ht
      | cons d b =>
          rw [List.flatMap_cons, List.flatMap_cons, List.append_assoc] at ht
          obtain rfl := utf8EncodeChar_append_inj ht
          exact List.cons_prefix_cons.mpr ⟨rfl, ih ⟨t, List.append_cancel_left ht⟩⟩

/-- Bytes that are no `*` stand for themselves. -/
lemma isPrefix_of_globLoop {fuel : ℕ} {lit rest s : Bytes} (hlit : 42 ∉ lit)
    (h : globLoop fuel (lit ++ rest) s = true) : lit <+: s := by
  induction lit generalizing fuel s with
  | nil => exact List.nil_prefix
  | cons p lit ih =>
      rw [List.mem_cons, not_or] at hlit
      cases fuel with
      | zero => cases h
      | succ fuel =>
          have hp : p ≠ 42 := fun h => hlit.1 h.symm
          simp only [List.cons_append, globLoop, hp, false_and, if_false, Bool.and_eq_true,
            decide_eq_true_iff] at h
          obtain ⟨hhead, h⟩ := h
          cases s with
          | nil => cases hhead
          | cons c s =>
              obtain rfl : c = p := Option.some.inj hhead
              exact List.cons_prefix_cons.mpr ⟨rfl, ih hlit.2 h⟩

/-- **A glob matches only what begins with its literal beginning.** -/
lemma isPrefix_of_globMatches {lit rest name : String} (hlit : 42 ∉ strBytes lit)
    (h : globMatches (lit ++ rest) name = true) : lit.toList <+: name.toList := by
  have hbytes : strBytes (lit ++ rest) = strBytes lit ++ strBytes rest := by
    simp [strBytes]
  simp only [globMatches, hbytes] at h
  split_ifs at h
  exact isPrefix_of_utf8 (isPrefix_of_globLoop hlit h)

/-! ### Rules -/

/-- The kinds of resources that carry a label. -/
inductive ResourceKind where
  | path
  | timeline
  | secret
deriving DecidableEq, Repr

/-- `LabelRule`: the kind of the rule, its glob and its label. -/
structure LabelRule where
  kind : ResourceKind
  glob : String
  label : Label
deriving DecidableEq

/-- `LabelRuleSet`. -/
structure LabelRuleSet where
  rules : List LabelRule
deriving DecidableEq

namespace LabelRuleSet

/-- The loop of the three label functions: the join of every matching rule of the kind. -/
def labelFor (rs : LabelRuleSet) (lattice : LabelLattice) (kind : ResourceKind) (name : String) :
    Label :=
  rs.rules.foldl
    (fun acc r => if r.kind = kind ∧ globMatches r.glob name then lattice.join acc r.label else acc)
    lattice.bottom

/-- `label_for_path`. -/
def labelForPath (rs : LabelRuleSet) (lattice : LabelLattice) (path : String) : Label :=
  rs.labelFor lattice .path path

/-- `label_for_timeline`. -/
def labelForTimeline (rs : LabelRuleSet) (lattice : LabelLattice) (name : String) : Label :=
  rs.labelFor lattice .timeline name

/-- `label_for_secret`. -/
def labelForSecret (rs : LabelRuleSet) (lattice : LabelLattice) (name : String) : Label :=
  rs.labelFor lattice .secret name

end LabelRuleSet

/-! ### The backend -/

/-- `PathAcl`. -/
structure PathAcl where
  glob : String
deriving DecidableEq

/-- `AclBackend`: what the trait answers when it is asked for the lattice, the rules and the
path ACLs. -/
structure AclBackend where
  getLattice : Result LabelLattice
  getLabelRuleset : Result LabelRuleSet
  listPathAcls : Result (List PathAcl)

/-- The rules the trait derives from the globs of the path, timeline and secret ACLs. -/
def derivedRules (pathAcls timelineAcls secretAcls : List String) : LabelRuleSet :=
  ⟨pathAcls.map (fun g => ⟨.path, g, .protected_⟩) ++
    timelineAcls.map (fun g => ⟨.timeline, g, .protected_⟩) ++
    secretAcls.map (fun g => ⟨.secret, g, .protected_⟩)⟩

/-- Both shipped backends: the two-point lattice and the derived rules. -/
def AclBackend.shipped (pathAcls timelineAcls secretAcls : List String) : AclBackend :=
  ⟨.ok .twoPoint, .ok (derivedRules pathAcls timelineAcls secretAcls), .ok (pathAcls.map .mk)⟩

end Bole
