import Mathlib.Data.List.MinMax
import Bole.Collab.Search

/-!
The ranking over several relays: `rank_strangers_multi` of `src/collab/discovery.rs`.

The profiles of all relays are merged by key, and the newest is taken; the edges are merged by
content.  Each relay searches its own corpus, so that an old profile may match where the newest
does not, and an edge of one relay is lost when the match is on another.

* `Merges`: what is merged;
* `newest_filter`: the newest profile, if it matches, is the newest of those that match;
* `SearchAgrees`: the newest profile of a key matches, its relays serve a profile that matches, and
  the searches keep the trust path to it;
* `rankStrangersMulti_searched_iff`: **the searches give the same ranking as everything the relays
  have exactly when this is so for every key that matches anywhere**.
-/

namespace Bole

/-- `best`, `served_by` and `edges`. -/
structure Merged where
  best : BTreeMap Digest Profile
  servedBy : BTreeMap Digest (BTreeSet Digest)
  edges : BTreeMap ObjectId TrustEdge

/-- The body of the loop over the corpus of a relay. -/
def mergeObject (L : Linked) (relay : Digest) (s : Merged) : CollabObject → Result Merged
  | .profile p =>
      let servedBy := s.servedBy.alter p.key fun set => some ((set.getD ∅).insert relay)
      match s.best[p.key]? with
      | some cur =>
          if p.seq ≤ cur.seq then .ok { s with servedBy := servedBy }
          else .ok { s with servedBy := servedBy, best := s.best.insert p.key p }
      | none => .ok { s with servedBy := servedBy, best := s.best.insert p.key p }
  | .trustEdge e =>
      match edgeId L e with
      | .error err => .error err
      | .ok id => if id ∈ s.edges then .ok s else .ok { s with edges := s.edges.insert id e }

/-- The loops over the relays and their corpora. -/
def mergeRelays (L : Linked) (perRelay : List (Digest × List CollabObject)) : Result Merged :=
  perRelay.foldlM (fun s r => r.2.foldlM (mergeObject L r.1) s) ⟨∅, ∅, ∅⟩

namespace Merged

/-- `merged`. -/
def corpus (s : Merged) : List CollabObject :=
  (s.best.toList.map fun b => .profile b.2) ++ s.edges.toList.map fun e => .trustEdge e.2

/-- The relays of a hit are those that served its key. -/
def withRelays (s : Merged) (h : StrangerHit) : StrangerHit :=
  match s.servedBy[h.key]? with
  | some set => { h with relays := set.toList }
  | none => h

end Merged

/-- `rank_strangers_multi`. -/
def rankStrangersMulti (L : Linked) (selfKey : Digest) (ownEdges : List TrustEdge)
    (perRelay : List (Digest × List CollabObject)) (term : String) (maxHops : UInt8) :
    Result (List StrangerHit) :=
  match mergeRelays L perRelay with
  | .error e => .error e
  | .ok s =>
      .ok ((rankStrangers L.toCrates selfKey ownEdges s.corpus term maxHops).map s.withRelays)

/-- The searches of the relays, each over its own corpus. -/
def searchRelays (L : Linked) (perRelay : List (Digest × List CollabObject)) (term : String)
    (maxHops : UInt8) : Result (List (Digest × List CollabObject)) :=
  perRelay.mapM fun r => do
    let ball ← searchBall L r.2 term maxHops
    .ok (r.1, ball)

/-! ### The newest profile -/

/-- The profiles that are served, each with its relay. -/
def servedProfiles (perRelay : List (Digest × List CollabObject)) : List (Digest × Profile) :=
  perRelay.flatMap fun r => (r.2.filterMap CollabObject.profile?).map (Prod.mk r.1)

/-- The edges that are served. -/
def servedEdges (perRelay : List (Digest × List CollabObject)) : List TrustEdge :=
  perRelay.flatMap fun r => corpusEdges r.2

/-- The profile of a key with the highest `seq`, and the first of these. -/
def newest (profiles : List (Digest × Profile)) (k : Digest) : Option Profile :=
  ((profiles.map Prod.snd).filter fun p => p.key = k).argmax Profile.seq

/-- A relay serves a profile of a key. -/
def Serves (profiles : List (Digest × Profile)) (k relay : Digest) : Prop :=
  ∃ p, (relay, p) ∈ profiles ∧ p.key = k

lemma newest_key {profiles : List (Digest × Profile)} {k : Digest} {p : Profile}
    (h : newest profiles k = some p) : p.key = k ∧ ∃ relay, (relay, p) ∈ profiles := by
  obtain ⟨hmem, hk⟩ := List.mem_filter.mp (List.argmax_mem h)
  obtain ⟨⟨relay, p'⟩, hserved, rfl⟩ := List.mem_map.mp hmem
  exact ⟨by simpa using hk, relay, hserved⟩

/-- Some profile of a served key is the newest. -/
lemma newest_isSome {profiles : List (Digest × Profile)} {k relay : Digest}
    (h : Serves profiles k relay) : ∃ p, newest profiles k = some p := by
  obtain ⟨p, hp, hk⟩ := h
  refine Option.ne_none_iff_exists'.mp fun hnone => ?_
  rw [newest, List.argmax_eq_none] at hnone
  have hmem : p ∈ (profiles.map Prod.snd).filter fun p => p.key = k :=
    List.mem_filter.mpr ⟨List.mem_map_of_mem hp, by simpa using hk⟩
  rw [hnone] at hmem
  cases hmem

/-- A maximum that is kept is the maximum of what is kept. -/
lemma argmax_filter {α : Type*} {f : α → ℕ} {kept : α → Bool} {l : List α} {m : α}
    (h : l.argmax f = some m) (hm : kept m) : (l.filter kept).argmax f = some m := by
  induction l using List.reverseRecOn generalizing m with
  | nil => cases h
  | append_singleton l a ih =>
      rw [List.argmax_concat] at h
      rw [List.filter_append]
      cases hl : l.argmax f with
      | none =>
          obtain rfl := List.argmax_eq_none.mp hl
          obtain rfl : a = m := by simpa using h
          simp [hm]
      | some c =>
          simp only [hl] at h
          split_ifs at h with hlt
          · obtain rfl := Option.some.inj h
            rw [List.filter_singleton, hm, cond_true, List.argmax_concat]
            cases hd : (l.filter kept).argmax f with
            | none => rfl
            | some d =>
                have hle : f d ≤ f c :=
                  List.le_of_mem_argmax (List.mem_of_mem_filter (List.argmax_mem hd)) hl
                simp [lt_of_le_of_lt hle hlt]
          · obtain rfl := Option.some.inj h
            rw [List.filter_singleton]
            cases hk : kept a with
            | true => simp [List.argmax_concat, ih hl hm, hlt]
            | false => simp [ih hl hm]

/-- **The newest profile**, if it matches, is the newest of those that match. -/
lemma newest_filter {profiles : List (Digest × Profile)} {k : Digest} {p : Profile} {term : String}
    (h : newest profiles k = some p) (hm : profileMatches p term) :
    newest (profiles.filter fun x => profileMatches x.2 term) k = some p := by
  have hkept : (((profiles.map Prod.snd).filter fun p => p.key = k).filter
      fun p => profileMatches p term).argmax Profile.seq = some p :=
    argmax_filter h hm
  rw [newest, ← hkept, List.filter_filter, ← Function.comp_def (fun p => profileMatches p term),
    ← List.filter_map, List.filter_filter]
  simp only [Bool.and_comm]

/-! ### What is merged -/

/-- What the loops have merged of the profiles and edges that they have seen. -/
structure Merges (L : Linked) (profiles : List (Digest × Profile)) (edges : List TrustEdge)
    (s : Merged) : Prop where
  best : ∀ k, s.best[k]? = newest profiles k
  servedBy : ∀ k relay, relay ∈ s.servedBy[k]?.getD ∅ ↔ Serves profiles k relay
  edges : ∀ id e, s.edges[id]? = some e ↔ e ∈ edges ∧ edgeId L e = .ok id

section Merge

variable {L : Linked} {all edges : List TrustEdge} {profiles : List (Digest × Profile)}
  {s : Merged} {relay : Digest}

lemma Merges.init : Merges L [] [] ⟨∅, ∅, ∅⟩ where
  best k := by simp [newest]
  servedBy k relay := by simp [Serves]
  edges id e := by simp

/-- The newest profile after one more. -/
lemma newest_concat (p : Profile) (k : Digest) :
    newest (profiles ++ [(relay, p)]) k =
      if p.key = k then
        match newest profiles k with
        | some cur => if cur.seq < p.seq then some p else some cur
        | none => some p
      else newest profiles k := by
  rw [newest, newest, List.map_append, List.filter_append]
  split_ifs with hk
  · rw [List.map_singleton, List.filter_singleton, decide_eq_true hk, cond_true, List.argmax_concat]
    cases List.argmax Profile.seq _ <;> rfl
  · rw [List.map_singleton, List.filter_singleton, decide_eq_false hk, cond_false, List.append_nil]

/-- Who serves a key after one more profile. -/
lemma serves_concat {p : Profile} {k r : Digest} :
    Serves (profiles ++ [(relay, p)]) k r ↔ Serves profiles k r ∨ (r = relay ∧ p.key = k) := by
  simp only [Serves, List.mem_append, List.mem_singleton, Prod.mk.injEq, or_and_right, exists_or]
  refine or_congr_right ?_
  constructor
  · rintro ⟨p', ⟨rfl, rfl⟩, hk⟩
    exact ⟨rfl, hk⟩
  · rintro ⟨rfl, hk⟩
    exact ⟨p, ⟨rfl, rfl⟩, hk⟩

/-- The relay of a profile is added to those of its key. -/
lemma Merges.serve (h : Merges L profiles edges s) (p : Profile) (k r : Digest) :
    r ∈ (s.servedBy.alter p.key fun set => some ((set.getD ∅).insert relay))[k]?.getD ∅ ↔
      Serves (profiles ++ [(relay, p)]) k r := by
  rw [serves_concat, ← h.servedBy, Std.ExtTreeMap.getElem?_alter]
  by_cases hk : p.key = k
  · subst hk
    rw [if_pos Std.ReflOrd.compare_self, Option.getD_some, Std.ExtTreeSet.mem_insert,
      Std.LawfulEqOrd.compare_eq_iff_eq]
    simp only [and_true, or_comm, eq_comm]
  · have hcmp : compare p.key k ≠ .eq := fun h => hk (Std.LawfulEqOrd.eq_of_compare h)
    rw [if_neg hcmp]
    simp [hk]

/-- A profile that is newer takes the place of the one before. -/
lemma Merges.insert (h : Merges L profiles edges s) {p : Profile}
    (hnew : ∀ cur, newest profiles p.key = some cur → cur.seq < p.seq) (k : Digest) :
    (s.best.insert p.key p)[k]? = newest (profiles ++ [(relay, p)]) k := by
  rw [newest_concat, Std.ExtTreeMap.getElem?_insert]
  by_cases hk : p.key = k
  · subst hk
    rw [if_pos Std.ReflOrd.compare_self, if_pos rfl]
    cases hcur : newest profiles p.key with
    | none => rfl
    | some cur => exact (if_pos (hnew cur hcur)).symm
  · have hcmp : compare p.key k ≠ .eq := fun h => hk (Std.LawfulEqOrd.eq_of_compare h)
    rw [if_neg hcmp, if_neg hk, h.best]

/-- One more profile. -/
lemma mergeObject_profile (h : Merges L profiles edges s) (p : Profile) :
    ∃ s', mergeObject L relay s (.profile p) = .ok s' ∧
      Merges L (profiles ++ [(relay, p)]) edges s' := by
  rw [mergeObject, h.best]
  cases hcur : newest profiles p.key with
  | none => exact ⟨_, rfl, h.insert (by simp [hcur]), h.serve p, h.edges⟩
  | some cur =>
      dsimp only
      split_ifs with hold
      · refine ⟨_, rfl, fun k => ?_, h.serve p, h.edges⟩
        rw [newest_concat, h.best]
        split_ifs with hk
        · subst hk
          rw [hcur]
          dsimp only
          rw [if_neg (by omega)]
        · rfl
      · exact ⟨_, rfl, h.insert (by simpa [hcur] using hold), h.serve p, h.edges⟩

/-- One more edge. -/
lemma mergeObject_edge (ha : Addressed L all) (hedges : edges ⊆ all)
    (h : Merges L profiles edges s) {e : TrustEdge} (he : e ∈ all) :
    ∃ s', mergeObject L relay s (.trustEdge e) = .ok s' ∧
      Merges L profiles (edges ++ [e]) s' := by
  obtain ⟨id, hid, honly⟩ := ha.id he
  rw [mergeObject, hid]
  dsimp only
  split_ifs with hmem
  · obtain ⟨e', he'⟩ := Option.isSome_iff_exists.mp (Std.ExtTreeMap.mem_iff_isSome_getElem?.mp hmem)
    obtain ⟨hmem', hid'⟩ := (h.edges id e').mp he'
    obtain rfl := honly e' (hedges hmem') hid'
    refine ⟨s, rfl, h.best, h.servedBy, fun id' e'' => ?_⟩
    rw [h.edges, List.mem_append, List.mem_singleton]
    refine and_congr_left fun _ => ⟨.inl, ?_⟩
    rintro (hold | rfl)
    · exact hold
    · exact hmem'
  · refine ⟨_, rfl, h.best, h.servedBy, fun id' e'' => ?_⟩
    dsimp only
    rw [Std.ExtTreeMap.getElem?_insert, List.mem_append, List.mem_singleton]
    by_cases hcmp : id = id'
    · subst hcmp
      rw [if_pos Std.ReflOrd.compare_self, Option.some.injEq]
      constructor
      · rintro rfl
        exact ⟨.inr rfl, hid⟩
      · rintro ⟨hold | rfl, hid''⟩
        · exact (honly e'' (hedges hold) hid'').symm
        · rfl
    · have hne : compare id id' ≠ .eq := fun h => hcmp (Std.LawfulEqOrd.eq_of_compare h)
      rw [if_neg hne, h.edges]
      refine and_congr_left fun hid'' => ⟨.inl, ?_⟩
      rintro (hold | rfl)
      · exact hold
      · exact absurd (Except.ok.inj (hid.symm.trans hid'')) hcmp

/-- The corpus of one relay. -/
lemma mergeCorpus_spec (ha : Addressed L all) (hedges : edges ⊆ all)
    (h : Merges L profiles edges s) {corpus : List CollabObject}
    (hcorpus : corpusEdges corpus ⊆ all) :
    ∃ s', corpus.foldlM (mergeObject L relay) s = .ok s' ∧
      Merges L (profiles ++ (corpus.filterMap CollabObject.profile?).map (Prod.mk relay))
        (edges ++ corpusEdges corpus) s' := by
  induction corpus generalizing s profiles edges with
  | nil => exact ⟨s, rfl, by simpa [corpusEdges] using h⟩
  | cons o corpus ih =>
      rw [List.foldlM_cons]
      cases o with
      | profile p =>
          obtain ⟨s₁, hrun, h₁⟩ := mergeObject_profile h p
          obtain ⟨s₂, hrest, h₂⟩ := ih hedges h₁ hcorpus
          refine ⟨s₂, by rw [hrun]; exact hrest, ?_⟩
          simpa [corpusEdges, List.filterMap_cons] using h₂
      | trustEdge e =>
          have hall : e ∈ all ∧ corpusEdges corpus ⊆ all := List.cons_subset.mp hcorpus
          obtain ⟨s₁, hrun, h₁⟩ := mergeObject_edge ha hedges h hall.1
          obtain ⟨s₂, hrest, h₂⟩ := ih (by simpa [hedges] using hall.1) h₁ hall.2
          refine ⟨s₂, by rw [hrun]; exact hrest, ?_⟩
          simpa [corpusEdges, List.filterMap_cons] using h₂

/-- **What is merged** of all relays. -/
lemma mergeRelays_spec {perRelay : List (Digest × List CollabObject)}
    (ha : Addressed L all) (hall : servedEdges perRelay ⊆ all) :
    ∃ s, mergeRelays L perRelay = .ok s ∧
      Merges L (servedProfiles perRelay) (servedEdges perRelay) s := by
  have hfold : ∀ {rs : List (Digest × List CollabObject)} {profiles : List (Digest × Profile)}
      {edges : List TrustEdge} {s : Merged}, Merges L profiles edges s → edges ⊆ all →
      servedEdges rs ⊆ all →
      ∃ s', rs.foldlM (fun s r => r.2.foldlM (mergeObject L r.1) s) s = .ok s' ∧
        Merges L (profiles ++ servedProfiles rs) (edges ++ servedEdges rs) s' := by
    intro rs
    induction rs with
    | nil =>
        intro profiles edges s h _ _
        exact ⟨s, rfl, by simpa [servedProfiles, servedEdges] using h⟩
    | cons r rs ih =>
        intro profiles edges s h hedges hrs
        rw [servedEdges, List.flatMap_cons, List.append_subset] at hrs
        obtain ⟨s₁, hrun, h₁⟩ := mergeCorpus_spec ha hedges h hrs.1
        obtain ⟨s₂, hrest, h₂⟩ := ih h₁ (List.append_subset.mpr ⟨hedges, hrs.1⟩) hrs.2
        refine ⟨s₂, by rw [List.foldlM_cons, hrun]; exact hrest, ?_⟩
        rw [servedProfiles, servedEdges, List.flatMap_cons, List.flatMap_cons,
          ← List.append_assoc, ← List.append_assoc]
        exact h₂
  obtain ⟨s, hrun, h⟩ := hfold Merges.init (List.nil_subset _) hall
  exact ⟨s, hrun, by simpa using h⟩

end Merge

/-! ### The hits -/

section Hits

variable {L : Linked} {selfKey : Digest} {ownEdges edges : List TrustEdge} {term : String}
  {maxHops : UInt8} {profiles : List (Digest × Profile)} {s : Merged}

/-- The strangers are the newest profiles that match. -/
lemma strangers_merged (s : Merged) :
    strangers s.corpus term =
      (s.best.filter fun _ p => profileMatches p term).toList.map Prod.snd := by
  have hprofiles : s.corpus.filterMap CollabObject.profile? = s.best.toList.map Prod.snd := by
    rw [Merged.corpus, List.filterMap_append, List.filterMap_map, List.filterMap_map]
    simp [Function.comp_def]
  rw [strangers, hprofiles, List.filter_map, Std.ExtTreeMap.toList_filter]
  rfl

lemma Merges.mem_strangers (h : Merges L profiles edges s) {p : Profile} :
    p ∈ strangers s.corpus term ↔ newest profiles p.key = some p ∧ profileMatches p term := by
  simp only [strangers_merged, Std.ExtTreeMap.toList_filter, List.mem_map, List.mem_filter,
    Std.ExtTreeMap.mem_toList_iff_getElem?_eq_some, h.best, Prod.exists, exists_eq_right]
  constructor
  · rintro ⟨k, hk, hm⟩
    obtain ⟨rfl, -⟩ := newest_key hk
    exact ⟨hk, hm⟩
  · rintro ⟨hk, hm⟩
    exact ⟨p.key, hk, hm⟩

lemma corpusEdges_merged (s : Merged) : corpusEdges s.corpus = s.edges.toList.map Prod.snd := by
  rw [corpusEdges, Merged.corpus, List.filterMap_append, List.filterMap_map, List.filterMap_map]
  simp [Function.comp_def]

/-- The edges of the merged corpus are those that are served. -/
lemma Merges.mem_corpusEdges (ha : Addressed L edges) (h : Merges L profiles edges s)
    {e : TrustEdge} : e ∈ corpusEdges s.corpus ↔ e ∈ edges := by
  simp only [corpusEdges_merged, List.mem_map, Std.ExtTreeMap.mem_toList_iff_getElem?_eq_some, h.edges,
    Prod.exists, exists_eq_right]
  constructor
  · rintro ⟨id, he, -⟩
    exact he
  · intro he
    obtain ⟨id, hid, -⟩ := ha.id he
    exact ⟨id, he, hid⟩

lemma withRelays_strangerHit (s : Merged) (g : TrustGraph) (p : Profile) :
    s.withRelays (strangerHit g selfKey maxHops p) =
      { strangerHit g selfKey maxHops p with relays := (s.servedBy[p.key]?.getD ∅).toList } := by
  rw [Merged.withRelays]
  change (match s.servedBy[p.key]? with | some set => _ | none => _) = _
  cases s.servedBy[p.key]? with
  | none => simp [strangerHit, Std.ExtTreeSet.toList_eq_nil_iff.mpr]
  | some set => rfl

/-- A hit of the ranking, with its relays. -/
lemma Merges.mem_hits (h : Merges L profiles edges s) {hit : StrangerHit} :
    hit ∈ (rankStrangers L.toCrates selfKey ownEdges s.corpus term maxHops).map s.withRelays ↔
      ∃ p, newest profiles p.key = some p ∧ profileMatches p term ∧
        { strangerHit ⟨ownEdges ++ corpusEdges s.corpus⟩ selfKey maxHops p with
          relays := (s.servedBy[p.key]?.getD ∅).toList } = hit := by
  simp only [rankStrangers, List.mem_map, List.mem_mergeSort]
  constructor
  · rintro ⟨_, ⟨p, hp, rfl⟩, rfl⟩
    obtain ⟨hnew, hm⟩ := h.mem_strangers.mp hp
    exact ⟨p, hnew, hm, (withRelays_strangerHit ..).symm⟩
  · rintro ⟨p, hnew, hm, rfl⟩
    exact ⟨_, ⟨p, h.mem_strangers.mpr ⟨hnew, hm⟩, rfl⟩, withRelays_strangerHit ..⟩

end Hits

/-! ### The searches -/

/-- The served edges that the searches keep: those near a match of the same relay. -/
def SearchKeeps (perRelay : List (Digest × List CollabObject)) (term : String) (maxHops : UInt8)
    (e : TrustEdge) : Prop :=
  ∃ r ∈ perRelay, ∃ p ∈ strangers r.2 term, EdgeNear (corpusEdges r.2) maxHops p.key e

/-- What the searches agree about for one key.  The newest profile matches; who serves a profile
serves one that matches; and along the first trail every link is made by own edges and edges that
the searches keep. -/
structure SearchAgrees (selfKey : Digest) (ownEdges : List TrustEdge)
    (perRelay : List (Digest × List CollabObject)) (term : String) (maxHops : UInt8)
    (k : Digest) : Prop where
  newest : ∀ p, newest (servedProfiles perRelay) k = some p → profileMatches p term
  served : ∀ relay, Serves (servedProfiles perRelay) k relay →
    Serves ((servedProfiles perRelay).filter fun x => profileMatches x.2 term) k relay
  path : ∀ g : TrustGraph,
    (∀ e, e ∈ g.edges ↔ e ∈ ownEdges ∨ SearchKeeps perRelay term maxHops e) →
    ∀ hops, TrustGraph.FirstTrail ⟨ownEdges ++ servedEdges perRelay⟩ selfKey k maxHops hops →
      g.Trail selfKey hops k

section Searches

variable {L : Linked} {perRelay balls : List (Digest × List CollabObject)} {term : String}
  {maxHops : UInt8}

/-- **What the searches return**: the profiles that match, and the edges that are kept. -/
lemma searchRelays_spec (ha : Addressed L (servedEdges perRelay)) :
    ∃ balls, searchRelays L perRelay term maxHops = .ok balls ∧
      servedProfiles balls = (servedProfiles perRelay).filter (fun x => profileMatches x.2 term) ∧
      ∀ e, e ∈ servedEdges balls ↔ SearchKeeps perRelay term maxHops e := by
  induction perRelay with
  | nil => exact ⟨[], rfl, rfl, by simp [servedEdges, SearchKeeps]⟩
  | cons r rest ih =>
      have hr : Addressed L (corpusEdges r.2) := ha.mono (by simp [servedEdges])
      obtain ⟨ball, hball, hprofiles, -, -⟩ := searchBall_spec hr term maxHops
      obtain ⟨balls, hrest, hprofiles', hedges⟩ := ih (ha.mono (by simp [servedEdges]))
      refine ⟨(r.1, ball) :: balls, ?_, ?_, fun e => ?_⟩
      · rw [searchRelays, List.mapM_cons, hball]
        change (do let bs ← searchRelays L rest term maxHops; _) = _
        rw [hrest]
        rfl
      · rw [servedProfiles, List.flatMap_cons, servedProfiles, List.flatMap_cons,
          List.filter_append]
        refine congrArg₂ _ ?_ hprofiles'
        rw [hprofiles, strangers, List.filter_map]
        rfl
      · rw [servedEdges, List.flatMap_cons, List.mem_append, mem_searchBall_edges hr hball,
          ← servedEdges, hedges]
        simp [SearchKeeps]

/-- Graphs with the same edges have the same trails. -/
lemma TrustGraph.Trail.congr {g g' : TrustGraph} (h : ∀ e, e ∈ g.edges ↔ e ∈ g'.edges)
    {root v : Digest} {hops : List TrustHop} (ht : g.Trail root hops v) : g'.Trail root hops v := by
  induction ht with
  | nil => exact .nil
  | snoc _ hk ih => exact ih.snoc ((TrustGraph.link_congr (fun e _ _ => h e) _).mp hk)

/-- Graphs with the same edges have the same first trail. -/
lemma TrustGraph.FirstTrail.congr {g g' : TrustGraph} (h : ∀ e, e ∈ g.edges ↔ e ∈ g'.edges)
    {root target : Digest} {hops : List TrustHop} (ht : g.FirstTrail root target maxHops hops) :
    g'.FirstTrail root target maxHops hops :=
  ⟨ht.trail.congr h, ht.bounded, fun w hw hlen =>
    ht.least w (hw.mono (TrustGraph.successors_mono fun e he => (h e).mpr he)) hlen⟩

/-- The newest profiles that match are the same among those that match, where the newest matches as
soon as one does. -/
lemma newest_filter_eq {profiles : List (Digest × Profile)} {k : Digest}
    (h : ∀ x ∈ profiles, x.2.key = k → profileMatches x.2 term → ∀ p, newest profiles k = some p →
      profileMatches p term) :
    (newest (profiles.filter fun x => profileMatches x.2 term) k).filter
        (fun p => profileMatches p term) =
      (newest profiles k).filter fun p => profileMatches p term := by
  cases hnew : newest profiles k with
  | none =>
      cases hnew' : newest (profiles.filter fun x => profileMatches x.2 term) k with
      | none => rfl
      | some p' =>
          obtain ⟨hkey, relay, hmem⟩ := newest_key hnew'
          obtain ⟨p, hp⟩ := newest_isSome ⟨p', List.mem_of_mem_filter hmem, hkey⟩
          rw [hnew] at hp
          cases hp
  | some p =>
      cases hm : profileMatches p term with
      | true => rw [newest_filter hnew hm]
      | false =>
          cases hnew' : newest (profiles.filter fun x => profileMatches x.2 term) k with
          | none =>
              rw [Option.filter_some, hm]
              rfl
          | some p' =>
              obtain ⟨hkey, relay, hmem⟩ := newest_key hnew'
              obtain ⟨hmem, hmatch⟩ := List.mem_filter.mp hmem
              have := h _ hmem hkey hmatch p hnew
              rw [hm] at this
              cases this

section Directions

variable {selfKey : Digest} {ownEdges edges edges' : List TrustEdge}
  {profiles : List (Digest × Profile)} {s s' : Merged}

/-- If the two rankings are the same, the newest profile of a key that matches anywhere matches, its
relays serve one that matches, and the path to it is the same. -/
lemma Merges.agree_of_hits (h : Merges L profiles edges s)
    (h' : Merges L (profiles.filter fun x => profileMatches x.2 term) edges' s')
    (heq : (rankStrangers L.toCrates selfKey ownEdges s'.corpus term maxHops).map s'.withRelays =
      (rankStrangers L.toCrates selfKey ownEdges s.corpus term maxHops).map s.withRelays)
    {x : Digest × Profile} (hx : x ∈ profiles) (hmatch : profileMatches x.2 term) :
    (∀ p, newest profiles x.2.key = some p → profileMatches p term) ∧
      (∀ relay, Serves profiles x.2.key relay →
        Serves (profiles.filter fun x => profileMatches x.2 term) x.2.key relay) ∧
      TrustGraph.trustPath ⟨ownEdges ++ corpusEdges s'.corpus⟩ selfKey x.2.key maxHops =
        TrustGraph.trustPath ⟨ownEdges ++ corpusEdges s.corpus⟩ selfKey x.2.key maxHops := by
  -- the key has a hit among those that match, so that it has the same hit in the other ranking
  have hserves : Serves (profiles.filter fun x => profileMatches x.2 term) x.2.key x.1 :=
    ⟨x.2, List.mem_filter.mpr ⟨hx, hmatch⟩, rfl⟩
  obtain ⟨p', hp'⟩ := newest_isSome hserves
  obtain ⟨hkey', relay, hmem'⟩ := newest_key hp'
  have hmatch' : profileMatches p' term := (List.mem_filter.mp hmem').2
  rw [← hkey'] at hp' ⊢
  have hhit : { strangerHit ⟨ownEdges ++ corpusEdges s'.corpus⟩ selfKey maxHops p' with
      relays := (s'.servedBy[p'.key]?.getD ∅).toList } ∈
        (rankStrangers L.toCrates selfKey ownEdges s'.corpus term maxHops).map s'.withRelays :=
    h'.mem_hits.mpr ⟨p', hp', hmatch', rfl⟩
  rw [heq, h.mem_hits] at hhit
  obtain ⟨p, hp, hpmatch, hhits⟩ := hhit
  simp only [strangerHit, StrangerHit.mk.injEq] at hhits
  obtain ⟨hkey, -, htrust, -, hrelays⟩ := hhits
  rw [hkey] at hp hrelays htrust
  refine ⟨fun q hq => ?_, fun relay hrelay => ?_, htrust.symm⟩
  · obtain rfl : p = q := Option.some.inj (hp.symm.trans hq)
    exact hpmatch
  · rw [← h.servedBy, ← Std.ExtTreeSet.mem_toList, hrelays, Std.ExtTreeSet.mem_toList,
      h'.servedBy] at hrelay
    exact hrelay

/-- If for every key that matches anywhere the newest profile matches, its relays serve one that
matches, and the path to it is the same, the two rankings are the same. -/
lemma Merges.hits_of_agree (h : Merges L profiles edges s)
    (h' : Merges L (profiles.filter fun x => profileMatches x.2 term) edges' s')
    (hagree : ∀ x ∈ profiles, profileMatches x.2 term →
      (∀ p, newest profiles x.2.key = some p → profileMatches p term) ∧
      (∀ relay, Serves profiles x.2.key relay →
        Serves (profiles.filter fun x => profileMatches x.2 term) x.2.key relay) ∧
      TrustGraph.trustPath ⟨ownEdges ++ corpusEdges s'.corpus⟩ selfKey x.2.key maxHops =
        TrustGraph.trustPath ⟨ownEdges ++ corpusEdges s.corpus⟩ selfKey x.2.key maxHops) :
    (rankStrangers L.toCrates selfKey ownEdges s'.corpus term maxHops).map s'.withRelays =
      (rankStrangers L.toCrates selfKey ownEdges s.corpus term maxHops).map s.withRelays := by
  have hstrangers : strangers s'.corpus term = strangers s.corpus term := by
    have hbest : (s'.best.filter fun _ p => profileMatches p term) =
        s.best.filter fun _ p => profileMatches p term := by
      refine Std.ExtTreeMap.ext_getElem? fun k => ?_
      rw [Std.ExtTreeMap.getElem?_filter', Std.ExtTreeMap.getElem?_filter', h.best, h'.best]
      exact newest_filter_eq fun x hx hk hm => hk ▸ (hagree x hx hm).1
    rw [strangers_merged, strangers_merged, hbest]
  have hsame : ∀ p ∈ strangers s.corpus term, ∃ x ∈ profiles, profileMatches x.2 term ∧
      x.2.key = p.key := by
    intro p hp
    obtain ⟨hnew, hm⟩ := h.mem_strangers.mp hp
    obtain ⟨-, relay, hmem⟩ := newest_key hnew
    exact ⟨_, hmem, hm, rfl⟩
  rw [rankStrangers_congr hstrangers fun p hp => by
    obtain ⟨x, hx, hm, hk⟩ := hsame p hp
    rw [← hk]
    exact (hagree x hx hm).2.2]
  refine List.map_congr_left fun hit hhit => ?_
  rw [rankStrangers, List.mem_mergeSort, List.mem_map] at hhit
  obtain ⟨p, hp, rfl⟩ := hhit
  obtain ⟨x, hx, hm, hk⟩ := hsame p hp
  have hrelays : s'.servedBy[p.key]?.getD ∅ = s.servedBy[p.key]?.getD ∅ := by
    refine Std.ExtTreeSet.ext_mem fun relay => ?_
    rw [h'.servedBy, h.servedBy, ← hk]
    refine ⟨?_, (hagree x hx hm).2.1 relay⟩
    rintro ⟨q, hq, hqk⟩
    exact ⟨q, List.mem_of_mem_filter hq, hqk⟩
  rw [withRelays_strangerHit, withRelays_strangerHit, hrelays]

end Directions

/-- **When searching relays is as good as downloading them.**  The ranking over the answers to the
searches is the ranking over everything the relays have exactly when the searches agree about every
key that matches on some relay. -/
theorem rankStrangersMulti_searched_iff (selfKey : Digest) (ownEdges : List TrustEdge)
    (ha : Addressed L (servedEdges perRelay)) (term : String) (maxHops : UInt8) :
    ∃ balls full searched, searchRelays L perRelay term maxHops = .ok balls ∧
      rankStrangersMulti L selfKey ownEdges perRelay term maxHops = .ok full ∧
      rankStrangersMulti L selfKey ownEdges balls term maxHops = .ok searched ∧
      (searched = full ↔ ∀ x ∈ servedProfiles perRelay, profileMatches x.2 term →
        SearchAgrees selfKey ownEdges perRelay term maxHops x.2.key) := by
  obtain ⟨balls, hballs, hprofiles, hedges⟩ := searchRelays_spec ha
  have hkept : servedEdges balls ⊆ servedEdges perRelay := by
    intro e he
    obtain ⟨r, hr, p, -, hnear, -⟩ := (hedges e).mp he
    exact List.mem_flatMap.mpr ⟨r, hr, hnear⟩
  obtain ⟨s, hs, hm⟩ := mergeRelays_spec ha (List.Subset.refl _)
  obtain ⟨s', hs', hm'⟩ := mergeRelays_spec (ha.mono hkept) (List.Subset.refl _)
  have hgraph : ∀ e, e ∈ ownEdges ++ corpusEdges s.corpus ↔
      e ∈ ownEdges ++ servedEdges perRelay := fun e => by
    rw [List.mem_append, List.mem_append, hm.mem_corpusEdges ha]
  have hgraph' : ∀ e, e ∈ ownEdges ++ corpusEdges s'.corpus ↔
      e ∈ ownEdges ∨ SearchKeeps perRelay term maxHops e := fun e => by
    rw [List.mem_append, hm'.mem_corpusEdges (ha.mono hkept), hedges]
  have hsub : ownEdges ++ corpusEdges s'.corpus ⊆ ownEdges ++ corpusEdges s.corpus := by
    intro e he
    rw [List.mem_append, hm'.mem_corpusEdges (ha.mono hkept)] at he
    rw [hgraph, List.mem_append]
    exact he.imp_right fun he => hkept he
  -- the path to a key is the same exactly when its first trail is kept
  have hpath : ∀ k, TrustGraph.trustPath ⟨ownEdges ++ corpusEdges s'.corpus⟩ selfKey k maxHops =
      TrustGraph.trustPath ⟨ownEdges ++ corpusEdges s.corpus⟩ selfKey k maxHops ↔
      ∀ g : TrustGraph, (∀ e, e ∈ g.edges ↔ e ∈ ownEdges ∨ SearchKeeps perRelay term maxHops e) →
        ∀ hops, TrustGraph.FirstTrail ⟨ownEdges ++ servedEdges perRelay⟩ selfKey k maxHops hops →
          g.Trail selfKey hops k := by
    intro k
    rw [TrustGraph.trustPath_eq_iff hsub]
    constructor
    · intro h g hg hops hfirst
      exact (h hops (hfirst.congr fun e => (hgraph e).symm)).congr fun e =>
        (hgraph' e).trans (hg e).symm
    · intro h hops hfirst
      exact h _ hgraph' hops (hfirst.congr hgraph)
  refine ⟨balls, _, _, hballs, by rw [rankStrangersMulti, hs], by rw [rankStrangersMulti, hs'], ?_⟩
  rw [hprofiles] at hm'
  constructor
  · intro heq x hx hmatch
    obtain ⟨hnew, hserved, hsame⟩ := hm.agree_of_hits hm' heq hx hmatch
    exact ⟨hnew, hserved, (hpath _).mp hsame⟩
  · intro hagrees
    refine hm.hits_of_agree hm' fun x hx hmatch => ?_
    have hagree := hagrees x hx hmatch
    exact ⟨hagree.newest, hagree.served, (hpath _).mpr hagree.path⟩

end Searches

/-! ### Two relays -/

/-- One relay has a profile of Cleo that matches, and the other one her newer profile, that does
not; the edge to her is on the other one. -/
def cleoRelays : List (Digest × List CollabObject) :=
  [(.replicate 8, [.profile ⟨.replicate 3, "cleo", "", [], [], 1, []⟩]),
    (.replicate 9, [.profile ⟨.replicate 3, "max", "", [], [], 2, []⟩,
      .trustEdge ⟨.replicate 1, .replicate 3, .vouch, none, 1, []⟩])]

/-- The two rankings over these relays. -/
theorem rankStrangersMulti_searched_cleo :
    let L := Linked.over ((servedEdges cleoRelays).map fun e => .collab (.trustEdge e))
    ∃ balls full searched, searchRelays L cleoRelays "cle" 2 = .ok balls ∧
      rankStrangersMulti L (.replicate 1) [] cleoRelays "cle" 2 = .ok full ∧
      rankStrangersMulti L (.replicate 1) [] balls "cle" 2 = .ok searched ∧
      (searched = full ↔ ∀ x ∈ servedProfiles cleoRelays, profileMatches x.2 "cle" →
        SearchAgrees (.replicate 1) [] cleoRelays "cle" 2 x.2.key) :=
  rankStrangersMulti_searched_iff (.replicate 1) []
    (addressed_over (by decide +kernel) (by decide +kernel)) "cle" 2

/-- **An old profile is found.**  The searches find a stranger under a name that she no longer
has. -/
theorem search_finds_old :
    ¬ ∀ (L : Linked) (selfKey : Digest) (ownEdges : List TrustEdge)
      (perRelay balls : List (Digest × List CollabObject)) (term : String) (maxHops : UInt8),
      Addressed L (servedEdges perRelay) → searchRelays L perRelay term maxHops = .ok balls →
      rankStrangersMulti L selfKey ownEdges balls term maxHops =
        rankStrangersMulti L selfKey ownEdges perRelay term maxHops := by
  intro h
  let L := Linked.over ((servedEdges cleoRelays).map fun e => .collab (.trustEdge e))
  have ha : Addressed L (servedEdges cleoRelays) :=
    addressed_over (by decide +kernel) (by decide +kernel)
  have hballs : searchRelays L cleoRelays "cle" 2 =
      .ok [(.replicate 8, [.profile ⟨.replicate 3, "cleo", "", [], [], 1, []⟩]),
        (.replicate 9, [])] := by
    decide +kernel
  have hfull : rankStrangersMulti L (.replicate 1) [] cleoRelays "cle" 2 = .ok [] := by
    decide +kernel
  have heq := h L (.replicate 1) [] cleoRelays _ "cle" 2 ha hballs
  rw [hfull] at heq
  have hfound : rankStrangersMulti L (.replicate 1) []
      [(.replicate 8, [.profile ⟨.replicate 3, "cleo", "", [], [], 1, []⟩]), (.replicate 9, [])]
      "cle" 2 ≠ .ok [] := by
    decide +kernel
  exact hfound heq

end Bole
