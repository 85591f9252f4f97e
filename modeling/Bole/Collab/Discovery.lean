import Bole.Collab.Trust
import Bole.Repo.Collab

/-!
The ranking of strangers: `rank_strangers` of `src/collab/discovery.rs`.

* `strangers`: the profiles of a corpus that match a term;
* `rankStrangers_congr`: two corpora in which the same profiles match, with the same trust paths to
  them, give the same ranking.
-/

namespace Bole

namespace CollabObject

/-- The profile of an object that is one. -/
def profile? : CollabObject → Option Profile
  | .profile p => some p
  | .trustEdge _ => none

/-- The edge of an object that is one. -/
def edge? : CollabObject → Option TrustEdge
  | .profile _ => none
  | .trustEdge e => some e

@[simp] lemma profile?_profile (p : Profile) : (profile p).profile? = some p := rfl
@[simp] lemma profile?_trustEdge (e : TrustEdge) : (trustEdge e).profile? = none := rfl
@[simp] lemma edge?_profile (p : Profile) : (profile p).edge? = none := rfl
@[simp] lemma edge?_trustEdge (e : TrustEdge) : (trustEdge e).edge? = some e := rfl

lemma profile?_eq_some {o : CollabObject} {p : Profile} :
    o.profile? = some p ↔ o = .profile p := by
  cases o with
  | profile p' => simp
  | trustEdge e => simp

lemma edge?_eq_some {o : CollabObject} {e : TrustEdge} : o.edge? = some e ↔ o = .trustEdge e := by
  cases o with
  | profile p => simp
  | trustEdge e' => simp

end CollabObject

/-- The edges of a corpus. -/
def corpusEdges (corpus : List CollabObject) : List TrustEdge := corpus.filterMap CollabObject.edge?

lemma mem_corpusEdges {corpus : List CollabObject} {e : TrustEdge} :
    e ∈ corpusEdges corpus ↔ .trustEdge e ∈ corpus := by
  simp only [corpusEdges, List.mem_filterMap, CollabObject.edge?_eq_some, exists_eq_right]

/-! ### Matching -/

/-- `str::contains`. -/
def contains (s term : String) : Bool := decide (term.toList <:+: s.toList)

/-- `profile_matches` of `src/collab/search.rs`, and `term_matches` of `rank_strangers`. -/
def profileMatches (p : Profile) (term : String) : Bool :=
  contains p.displayName term || contains p.bio term ||
    p.dnsAliases.any (fun a => contains a term) || contains p.key.hex term

/-- The profiles of a corpus that match a term. -/
def strangers (corpus : List CollabObject) (term : String) : List Profile :=
  (corpus.filterMap CollabObject.profile?).filter fun p => profileMatches p term

/-! ### Ranking -/

/-- `StrangerHit`. -/
structure StrangerHit where
  key : Digest
  displayName : String
  trustPath : Option (List TrustHop)
  hops : Option ℕ
  relays : List Digest
deriving DecidableEq

/-- `has_vouch`. -/
def hasVouch (path : Option (List TrustHop)) : Bool :=
  path.any fun p => p.any fun h => decide (h.via = .vouch)

/-- `usize::MAX`. -/
def usizeMax : ℕ := 2 ^ 64 - 1

/-- The order in which `rank_strangers` sorts its hits. -/
def strangerOrder (C : Crates) (a b : StrangerHit) : Ordering :=
  (compare b.trustPath.isSome a.trustPath.isSome)
    |>.then (compare (a.hops.getD usizeMax) (b.hops.getD usizeMax))
    |>.then (compare (hasVouch b.trustPath) (hasVouch a.trustPath))
    |>.then (compare a.displayName b.displayName)
    |>.then (compare (fingerprint C a.key) (fingerprint C b.key))

/-- The hit for a profile. -/
def strangerHit (graph : TrustGraph) (selfKey : Digest) (maxHops : UInt8) (p : Profile) :
    StrangerHit :=
  let path := graph.trustPath selfKey p.key maxHops
  { key := p.key, displayName := p.displayName, trustPath := path,
    hops := path.map List.length, relays := [] }

/-- `rank_strangers`. -/
def rankStrangers (C : Crates) (selfKey : Digest) (ownEdges : List TrustEdge)
    (relayCorpus : List CollabObject) (term : String) (maxHops : UInt8) : List StrangerHit :=
  let graph : TrustGraph := ⟨ownEdges ++ corpusEdges relayCorpus⟩
  let hits := (strangers relayCorpus term).map (strangerHit graph selfKey maxHops)
  hits.mergeSort fun a b => (strangerOrder C a b).isLE

/-- The ranking looks at the corpus through the profiles that match, and the trust paths to
them. -/
lemma rankStrangers_congr {C : Crates} {selfKey : Digest} {ownEdges : List TrustEdge}
    {corpus corpus' : List CollabObject} {term : String} {maxHops : UInt8}
    (hsame : strangers corpus' term = strangers corpus term)
    (hpath : ∀ p ∈ strangers corpus term,
      TrustGraph.trustPath ⟨ownEdges ++ corpusEdges corpus'⟩ selfKey p.key maxHops =
        TrustGraph.trustPath ⟨ownEdges ++ corpusEdges corpus⟩ selfKey p.key maxHops) :
    rankStrangers C selfKey ownEdges corpus' term maxHops =
      rankStrangers C selfKey ownEdges corpus term maxHops := by
  have hhits : (strangers corpus term).map
        (strangerHit ⟨ownEdges ++ corpusEdges corpus'⟩ selfKey maxHops) =
      (strangers corpus term).map
        (strangerHit ⟨ownEdges ++ corpusEdges corpus⟩ selfKey maxHops) :=
    List.map_congr_left fun p hp => by rw [strangerHit, strangerHit, hpath p hp]
  rw [rankStrangers, rankStrangers, hsame, hhits]

end Bole
