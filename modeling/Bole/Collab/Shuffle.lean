import Bole.Collab.MultiRelay

/-!
The ranking over several relays in another order: `rank_strangers_multi` of
`src/collab/discovery.rs`.

Of the profiles of a key with the same highest `seq` the first one is taken, so that the order
counts where a relay serves one and another relay another.

* `Shuffled`: the relays in another order, and each corpus too;
* `exists_shuffled_newest`: every profile of a highest `seq` is taken in some order;
* `rankStrangersMulti_shuffled_iff`: **the ranking is the same in every order exactly when such
  profiles agree** about the term and the name.
-/

namespace Bole

/-- The same relays with the same objects, in some other order. -/
def Shuffled (perRelay perRelay' : List (Digest × List CollabObject)) : Prop :=
  ∃ relays, perRelay.Perm relays ∧
    List.Forall₂ (fun r r' => r'.1 = r.1 ∧ r'.2.Perm r.2) relays perRelay'

/-- No profile of the same key has a higher `seq`. -/
def Highest (profiles : List (Digest × Profile)) (p : Profile) : Prop :=
  ∀ x ∈ profiles, x.2.key = p.key → x.2.seq ≤ p.seq

/-- The profiles of a key with the highest `seq` match the term or do not; and those that do have
the same name. -/
def TiesAgree (perRelay : List (Digest × List CollabObject)) (term : String) : Prop :=
  ∀ x ∈ servedProfiles perRelay, ∀ y ∈ servedProfiles perRelay, x.2.key = y.2.key →
    Highest (servedProfiles perRelay) x.2 → Highest (servedProfiles perRelay) y.2 →
    profileMatches x.2 term →
    profileMatches y.2 term ∧ y.2.displayName = x.2.displayName

section Shuffled

variable {perRelay perRelay' : List (Digest × List CollabObject)}
  {profiles profiles' : List (Digest × Profile)}

/-- What is gathered of the relays is the same in another order. -/
lemma Shuffled.flatMap {β : Type} (h : Shuffled perRelay perRelay')
    {g : Digest × List CollabObject → List β}
    (hg : ∀ r r', r'.1 = r.1 → r'.2.Perm r.2 → (g r').Perm (g r)) :
    (perRelay'.flatMap g).Perm (perRelay.flatMap g) := by
  obtain ⟨relays, hperm, hturns⟩ := h
  refine List.Perm.trans ?_ (hperm.flatMap_right g).symm
  clear hperm
  induction hturns with
  | nil => exact .refl _
  | @cons r r' _ _ hr _ ih =>
      rw [List.flatMap_cons, List.flatMap_cons]
      exact (hg r r' hr.1 hr.2).append ih

lemma Shuffled.servedProfiles (h : Shuffled perRelay perRelay') :
    (servedProfiles perRelay').Perm (servedProfiles perRelay) :=
  h.flatMap fun r r' hkey hcorpus => by
    rw [hkey]
    exact (hcorpus.filterMap _).map _

lemma Shuffled.servedEdges (h : Shuffled perRelay perRelay') :
    (servedEdges perRelay').Perm (servedEdges perRelay) :=
  h.flatMap fun _ _ _ hcorpus => hcorpus.filterMap _

/-! ### The newest profile -/

lemma newest_highest {k : Digest} {p : Profile} (h : newest profiles k = some p) :
    Highest profiles p := by
  obtain ⟨rfl, -⟩ := newest_key h
  intro x hx hk
  exact List.le_of_mem_argmax
    (List.mem_filter.mpr ⟨List.mem_map_of_mem hx, by simpa using hk⟩) h

/-- A profile that is first and has the highest `seq` is taken. -/
lemma newest_first {relay : Digest} {p : Profile}
    (h : Highest profiles p) : newest ((relay, p) :: profiles) p.key = some p := by
  rw [newest, List.map_cons, List.filter_cons_of_pos (by simp), List.argmax_cons]
  cases hrest : ((profiles.map Prod.snd).filter fun q => q.key = p.key).argmax Profile.seq with
  | none => rfl
  | some q =>
      obtain ⟨hkey, relay', hmem⟩ := newest_key hrest
      exact if_neg (not_lt.mpr (h _ hmem hkey))

/-- **Any of the newest can be the one that is taken**: its relay first, and in its corpus the
profile. -/
lemma exists_shuffled_newest {x : Digest × Profile} (hx : x ∈ servedProfiles perRelay)
    (h : Highest (servedProfiles perRelay) x.2) :
    ∃ perRelay', Shuffled perRelay perRelay' ∧
      newest (servedProfiles perRelay') x.2.key = some x.2 := by
  obtain ⟨r, hr, hx'⟩ := List.mem_flatMap.mp hx
  obtain ⟨p, hp, rfl⟩ := List.mem_map.mp hx'
  obtain ⟨o, ho, hprofile⟩ := List.mem_filterMap.mp hp
  rw [CollabObject.profile?_eq_some] at hprofile
  subst hprofile
  obtain ⟨before, after, rfl⟩ := List.append_of_mem hr
  obtain ⟨front, back, hcorpus⟩ := List.append_of_mem ho
  have hshuffled : Shuffled (before ++ r :: after)
      ((r.1, .profile p :: (front ++ back)) :: (before ++ after)) := by
    refine ⟨r :: (before ++ after), List.perm_middle, .cons ⟨rfl, ?_⟩ ?_⟩
    · rw [hcorpus]
      exact List.perm_middle.symm
    · exact List.forall₂_same.mpr fun r' _ => ⟨rfl, .refl _⟩
  refine ⟨_, hshuffled, ?_⟩
  have hhighest : Highest (servedProfiles
      ((r.1, .profile p :: (front ++ back)) :: (before ++ after))) p :=
    fun y hy => h y (hshuffled.servedProfiles.mem_iff.mp hy)
  rw [servedProfiles, List.flatMap_cons, List.filterMap_cons] at hhighest ⊢
  exact newest_first fun y hy => hhighest y (List.mem_cons_of_mem _ hy)

end Shuffled

/-! ### The ranking -/

section Ranking

variable {L : Linked} {selfKey : Digest} {ownEdges edges edges' : List TrustEdge} {term : String}
  {maxHops : UInt8} {profiles profiles' : List (Digest × Profile)} {s s' : Merged}
  {perRelay perRelay' : List (Digest × List CollabObject)}

/-- The edges are merged to the same list in every order. -/
lemma Merges.corpusEdges_eq (h : Merges L profiles edges s) (h' : Merges L profiles' edges' s')
    (hedges : edges'.Perm edges) : corpusEdges s'.corpus = corpusEdges s.corpus := by
  have hsame : s'.edges = s.edges := by
    refine Std.ExtTreeMap.ext_getElem? fun id => Option.ext fun e => ?_
    rw [h.edges, h'.edges, hedges.mem_iff]
  rw [corpusEdges_merged, corpusEdges_merged, hsame]

/-- What is made of the strangers, by way of the newest profile of each key. -/
lemma map_strangers_merged {β : Type} (f : Profile → β) (s : Merged) :
    (strangers s.corpus term).map f =
      ((s.best.filter fun _ p => profileMatches p term).map fun _ p => f p).toList.map
        Prod.snd := by
  rw [strangers_merged, Std.ExtTreeMap.toList_map, List.map_map, List.map_map]
  rfl

/-- The newest profiles before and after agree, if the ties do. -/
lemma newest_agree (hserved : (servedProfiles perRelay').Perm (servedProfiles perRelay))
    (hties : TiesAgree perRelay term) {β : Type} {f : Profile → β}
    (hf : ∀ p q : Profile, p.key = q.key → p.displayName = q.displayName → f p = f q)
    (k : Digest) :
    ((newest (servedProfiles perRelay') k).filter fun p => profileMatches p term).map f =
      ((newest (servedProfiles perRelay) k).filter fun p => profileMatches p term).map f := by
  cases hnew : newest (servedProfiles perRelay) k with
  | none =>
      cases hnew' : newest (servedProfiles perRelay') k with
      | none => rfl
      | some q =>
          obtain ⟨rfl, relay, hmem⟩ := newest_key hnew'
          obtain ⟨p, hp⟩ := newest_isSome ⟨q, hserved.mem_iff.mp hmem, rfl⟩
          cases hnew.symm.trans hp
  | some p =>
      obtain ⟨rfl, relay, hmem⟩ := newest_key hnew
      obtain ⟨q, hnew'⟩ := newest_isSome ⟨p, hserved.mem_iff.mpr hmem, rfl⟩
      obtain ⟨hkey, relay', hmem'⟩ := newest_key hnew'
      have hmem' := hserved.mem_iff.mp hmem'
      have hhighest : Highest (servedProfiles perRelay) q := fun x hx =>
        newest_highest hnew' x (hserved.mem_iff.mpr hx)
      rw [hnew']
      cases hp : profileMatches p term with
      | true =>
          obtain ⟨hq, hname⟩ := hties _ hmem _ hmem' hkey.symm (newest_highest hnew) hhighest hp
          simp [Option.filter_some, hp, hq, hf q p hkey hname]
      | false =>
          have hq : profileMatches q term = false := by
            by_contra hq
            rw [Bool.not_eq_false] at hq
            have := (hties _ hmem' _ hmem hkey hhighest (newest_highest hnew) hq).1
            simp [hp] at this
          simp [Option.filter_some, hp, hq]

/-- **In any other order** the ranking is the same, if the ties agree. -/
lemma Merges.shuffled_eq (hshuffled : Shuffled perRelay perRelay')
    (h : Merges L (servedProfiles perRelay) (servedEdges perRelay) s)
    (h' : Merges L (servedProfiles perRelay') (servedEdges perRelay') s')
    (hties : TiesAgree perRelay term) :
    (rankStrangers L.toCrates selfKey ownEdges s'.corpus term maxHops).map s'.withRelays =
      (rankStrangers L.toCrates selfKey ownEdges s.corpus term maxHops).map s.withRelays := by
  have hedges := h.corpusEdges_eq h' hshuffled.servedEdges
  have hhits : ∀ g, (strangers s'.corpus term).map (strangerHit g selfKey maxHops) =
      (strangers s.corpus term).map (strangerHit g selfKey maxHops) := by
    intro g
    rw [map_strangers_merged, map_strangers_merged]
    refine congrArg (fun m => List.map Prod.snd (Std.ExtTreeMap.toList m))
      (Std.ExtTreeMap.ext_getElem? fun k => ?_)
    rw [Std.ExtTreeMap.getElem?_map, Std.ExtTreeMap.getElem?_map, Std.ExtTreeMap.getElem?_filter',
      Std.ExtTreeMap.getElem?_filter', h.best, h'.best]
    refine newest_agree hshuffled.servedProfiles hties (fun p q hkey hname => ?_) k
    simp only [strangerHit, hkey, hname]
  rw [rankStrangers, rankStrangers, hedges, hhits]
  refine List.map_congr_left fun hit hhit => ?_
  rw [List.mem_mergeSort, List.mem_map] at hhit
  obtain ⟨p, -, rfl⟩ := hhit
  have hrelays : s'.servedBy[p.key]?.getD ∅ = s.servedBy[p.key]?.getD ∅ := by
    refine Std.ExtTreeSet.ext_mem fun relay => ?_
    simp only [h'.servedBy, h.servedBy, Serves, hshuffled.servedProfiles.mem_iff]
  rw [withRelays_strangerHit, withRelays_strangerHit, hrelays]

/-- If two profiles are each taken in some order, and the rankings of the two orders are the same,
they agree. -/
lemma Merges.agree_of_eq {p q : Profile} (h : Merges L profiles edges s)
    (h' : Merges L profiles' edges' s') (hp : newest profiles p.key = some p)
    (hq : newest profiles' q.key = some q) (hkey : p.key = q.key)
    (hmatch : profileMatches p term)
    (heq : (rankStrangers L.toCrates selfKey ownEdges s.corpus term maxHops).map s.withRelays =
      (rankStrangers L.toCrates selfKey ownEdges s'.corpus term maxHops).map s'.withRelays) :
    profileMatches q term ∧ q.displayName = p.displayName := by
  have hhit : { strangerHit ⟨ownEdges ++ corpusEdges s.corpus⟩ selfKey maxHops p with
      relays := (s.servedBy[p.key]?.getD ∅).toList } ∈
        (rankStrangers L.toCrates selfKey ownEdges s.corpus term maxHops).map s.withRelays :=
    h.mem_hits.mpr ⟨p, hp, hmatch, rfl⟩
  rw [heq, h'.mem_hits] at hhit
  obtain ⟨q', hq', hmatch', hsame⟩ := hhit
  simp only [strangerHit, StrangerHit.mk.injEq] at hsame
  rw [hsame.1, hkey, hq] at hq'
  obtain rfl := Option.some.inj hq'
  exact ⟨hmatch', hsame.2.1⟩

/-- **When the order of the relays does not count.**  The ranking is the same for every order of the
relays and of the objects of each exactly when the newest profiles of each key agree. -/
theorem rankStrangersMulti_shuffled_iff (selfKey : Digest) (ownEdges : List TrustEdge)
    (ha : Addressed L (servedEdges perRelay)) (term : String) (maxHops : UInt8) :
    (∀ perRelay', Shuffled perRelay perRelay' →
      rankStrangersMulti L selfKey ownEdges perRelay' term maxHops =
        rankStrangersMulti L selfKey ownEdges perRelay term maxHops) ↔
      TiesAgree perRelay term := by
  have hmerged : ∀ perRelay', Shuffled perRelay perRelay' → ∃ s, mergeRelays L perRelay' = .ok s ∧
      Merges L (servedProfiles perRelay') (servedEdges perRelay') s := fun perRelay' h =>
    mergeRelays_spec ha fun e he => h.servedEdges.mem_iff.mp he
  constructor
  · intro hall x hx y hy hkey hxh hyh hmatch
    obtain ⟨relays, hr, hnew⟩ := exists_shuffled_newest hx hxh
    obtain ⟨relays', hr', hnew'⟩ := exists_shuffled_newest hy hyh
    obtain ⟨s, hs, hm⟩ := hmerged relays hr
    obtain ⟨s', hs', hm'⟩ := hmerged relays' hr'
    have heq := (hall relays hr).trans (hall relays' hr').symm
    rw [rankStrangersMulti, rankStrangersMulti, hs, hs'] at heq
    exact hm.agree_of_eq hm' hnew hnew' hkey hmatch (Except.ok.inj heq)
  · intro hties perRelay' hshuffled
    obtain ⟨s, hs, hm⟩ := mergeRelays_spec ha (List.Subset.refl _)
    obtain ⟨s', hs', hm'⟩ := hmerged perRelay' hshuffled
    rw [rankStrangersMulti, rankStrangersMulti, hs, hs']
    exact congrArg Except.ok (hm.shuffled_eq hshuffled hm' hties)

end Ranking

/-! ### Two names of one age -/

/-- The order of Cleo's relays does not count: her newest profile is on one of them. -/
theorem rankStrangersMulti_shuffled_cleo :
    let L := Linked.over ((servedEdges cleoRelays).map fun e => .collab (.trustEdge e))
    ∀ perRelay', Shuffled cleoRelays perRelay' →
      rankStrangersMulti L (.replicate 1) [] perRelay' "max" 2 =
        rankStrangersMulti L (.replicate 1) [] cleoRelays "max" 2 :=
  (rankStrangersMulti_shuffled_iff (.replicate 1) []
    (addressed_over (by decide +kernel) (by decide +kernel)) "max" 2).mpr
    (by simp only [TiesAgree, Highest]; decide +kernel)

/-- Each relay has another profile of one key, with the same `seq`. -/
def tiedRelays : List (Digest × List CollabObject) :=
  [(.replicate 8, [.profile ⟨.replicate 3, "cleo", "", [], [], 1, []⟩]),
    (.replicate 9, [.profile ⟨.replicate 3, "max", "", [], [], 1, []⟩])]

/-- **The first relay wins.**  The same relays the other way round rank no stranger. -/
theorem rankStrangersMulti_tied :
    Shuffled tiedRelays tiedRelays.reverse ∧
      rankStrangersMulti (.over []) (.replicate 1) [] tiedRelays.reverse "cleo" 2 = .ok [] ∧
      rankStrangersMulti (.over []) (.replicate 1) [] tiedRelays "cleo" 2 =
        .ok [⟨.replicate 3, "cleo", none, none, [.replicate 8, .replicate 9]⟩] := by
  refine ⟨⟨tiedRelays.reverse, (List.reverse_perm tiedRelays).symm, ?_⟩, by decide +kernel⟩
  exact List.forall₂_same.mpr fun r _ => ⟨rfl, .refl _⟩

end Bole
