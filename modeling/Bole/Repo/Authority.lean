import Bole.Lib.Interleave
import Bole.Postcard
import Bole.Repo.Policy

/-!
Policy authority (`src/acl/authority.rs`) and the adoption of an offered policy root
(`adopt_policy_root` of `src/repo/mod.rs`).

* `chainOf_eq_ok`: the walk along the parents returns the chain of the tip;
* `verifyChain_accept`: an accepted chain is signed from end to end;
* `reconcile_antisymm`: of two tips one wins iff it loses when they are swapped, and its chain
  holds the other; the walk along the parents ends on every store;
* `step_four`: four steps on one state are the call;
* `policy_pin_forward`: whatever the interleaving, the pin only moves to a tip whose chain is
  signed and holds the root it was at.
-/

namespace Bole

/-! ### Keys and signatures -/

/-- `TrustAnchor`. -/
structure TrustAnchor where
  keyId : String
  publicKey : Digest
deriving DecidableEq

/-- `TrustStore`. -/
structure TrustStore where
  anchors : List TrustAnchor

/-- `find`. -/
def TrustStore.find (trust : TrustStore) (keyId : String) : Option TrustAnchor :=
  trust.anchors.find? fun a => decide (a.keyId = keyId)

/-- `RootSignature`. -/
structure RootSignature where
  root : ObjectId
  keyId : String
  sig : Bytes
deriving DecidableEq

/-- `SignatureStore`. -/
structure SignatureStore where
  byRoot : BTreeMap ObjectId RootSignature

/-- `insert`. -/
def SignatureStore.insert (sigs : SignatureStore) (sig : RootSignature) : SignatureStore :=
  ⟨sigs.byRoot.insert sig.root sig⟩

/-- `get`. -/
def SignatureStore.get (sigs : SignatureStore) (root : ObjectId) : Option RootSignature :=
  sigs.byRoot[root]?

/-- `POLICY_ROOT_DOMAIN`. -/
def policyRootDomain : Bytes := ascii "bole-policy-root-v1" ++ [0]

/-- `policy_root_message`. -/
def policyRootMessage (root : ObjectId) : Bytes := policyRootDomain ++ root.asBytes

/-- `verify_root_signature`. -/
def verifyRootSignature (L : Linked) (root : ObjectId) (sig : RootSignature)
    (trust : TrustStore) : Bool :=
  if sig.root ≠ root then false
  else
    match trust.find sig.keyId with
    | none => false
    | some anchor =>
        decide (sig.sig.length = 64) &&
          L.ed25519Verify anchor.publicKey (policyRootMessage root) sig.sig

/-! ### Chains -/

/-- `load_root`. -/
def loadRoot (L : Linked) (s : ObjectStore) (id : ObjectId) : Result (Option PolicyRoot) :=
  match s.get L id with
  | .error e => .error e
  | .ok (some (.policy (.root r))) => .ok (some r)
  | .ok _ => .ok none

/-- The loop of `chain_of`; `none` means that the fuel ran out. -/
def chainLoop (L : Linked) (s : ObjectStore) :
    ℕ → Option ObjectId → Finset ObjectId → List ObjectId → Result (Option (List ObjectId))
  | _, none, _, chain => .ok (some chain)
  | 0, some _, _, _ => .ok none
  | fuel + 1, some id, seen, chain =>
      if id ∈ seen then .error (.policyViolation "policy chain has a cycle")
      else
        match loadRoot L s id with
        | .error e => .error e
        | .ok none => .error (.policyViolation ("policy root not found: " ++ id.toHex))
        | .ok (some root) => chainLoop L s fuel root.parent (insert id seen) (chain ++ [id])

/-- `chain_of`. -/
def chainOf (L : Linked) (s : ObjectStore) (tip : ObjectId) : Result (List ObjectId) :=
  match chainLoop L s (s.list.toFinset.card + 1) (some tip) ∅ [] with
  | .error e => .error e
  | .ok (some chain) => .ok chain
  | .ok none => .error (.panic "out of fuel")

/-- `PolicyVerdict`. -/
inductive PolicyVerdict where
  | accept (depth : ℕ)
  | reject (reason : String)
deriving DecidableEq

/-- One turn of the loop of `verify_chain`: why the root is rejected, if it is. -/
def verifyRoot (L : Linked) (s : ObjectStore) (sigs : SignatureStore) (trust : TrustStore)
    (id : ObjectId) : Result (Option String) := do
  match ← loadRoot L s id with
  | none => .error (.panic "chain_of validated presence")
  | some root => do
      let lattice ← s.get L root.lattice
      if lattice.isNone then .ok (some ("missing lattice for root " ++ id.toHex))
      else do
        let rules ← s.get L root.rules
        if rules.isNone then .ok (some ("missing rules for root " ++ id.toHex))
        else
          match root.hooks.find? fun hook => !(resolveHook hook).toOption.isSome with
          | some hook =>
              .ok (some ("unknown hook kind '" ++ hook.kind ++ "' in root " ++ id.toHex))
          | none =>
              match sigs.get id with
              | none => .ok (some ("unsigned policy root " ++ id.toHex))
              | some sig =>
                  if verifyRootSignature L id sig trust then .ok none
                  else .ok (some ("bad signature on root " ++ id.toHex))

/-- The loop of `verify_chain`. -/
def verifyLoop (L : Linked) (s : ObjectStore) (sigs : SignatureStore) (trust : TrustStore) :
    List ObjectId → Result (Option String)
  | [] => .ok none
  | id :: rest => do
      match ← verifyRoot L s sigs trust id with
      | some reason => .ok (some reason)
      | none => verifyLoop L s sigs trust rest

/-- `verify_chain`. -/
def verifyChain (L : Linked) (s : ObjectStore) (tip : ObjectId) (sigs : SignatureStore)
    (trust : TrustStore) : Result PolicyVerdict :=
  match chainOf L s tip with
  | .error (.policyViolation reason) => .ok (.reject reason)
  | .error e => .error e
  | .ok chain => do
      match ← verifyLoop L s sigs trust chain with
      | some reason => .ok (.reject reason)
      | none => .ok (.accept chain.length)

/-- `PolicyResolution`. -/
inductive PolicyResolution where
  | left
  | right
  | diverged (left right : ObjectId)
deriving DecidableEq

/-- The guard of `reconcile`: a tip must verify. -/
def candidate (L : Linked) (s : ObjectStore) (tip : ObjectId) (sigs : SignatureStore)
    (trust : TrustStore) : Result Unit := do
  match ← verifyChain L s tip sigs trust with
  | .accept _ => .ok ()
  | .reject _ => .error (.policyViolation ("candidate " ++ tip.toHex ++ " does not verify"))

/-- `reconcile`. -/
def reconcile (L : Linked) (s : ObjectStore) (a b : ObjectId) (sigs : SignatureStore)
    (trust : TrustStore) : Result PolicyResolution := do
  candidate L s a sigs trust
  candidate L s b sigs trust
  if a = b then .ok .left
  else do
    let chainA ← chainOf L s a
    let chainB ← chainOf L s b
    if chainA.getLast? ≠ chainB.getLast? then .ok (.diverged a b)
    else if b ∈ chainA then .ok .left
    else if a ∈ chainB then .ok .right
    else .ok (.diverged a b)

/-! ### What the walk finds -/

/-- The stored roots from a tip along the parents to the first root. -/
inductive Chain (L : Linked) (s : ObjectStore) : ObjectId → List ObjectId → Prop where
  | first {id : ObjectId} {root : PolicyRoot} (h : s.object L id = some (.policy (.root root)))
      (hp : root.parent = none) : Chain L s id [id]
  | next {id parent : ObjectId} {root : PolicyRoot} {chain : List ObjectId}
      (h : s.object L id = some (.policy (.root root))) (hp : root.parent = some parent)
      (hrest : Chain L s parent chain) : Chain L s id (id :: chain)

/-- A root with a signature that verifies under a key of the trust store. -/
def SignedBy (L : Linked) (sigs : SignatureStore) (trust : TrustStore) (id : ObjectId) : Prop :=
  ∃ sig anchor, sigs.get id = some sig ∧ anchor ∈ trust.anchors ∧ anchor.keyId = sig.keyId ∧
    L.ed25519Verify anchor.publicKey (policyRootMessage id) sig.sig = true

variable {L : Linked} {s t : ObjectStore} {id tip : ObjectId} {chain : List ObjectId}

namespace Chain

/-- Stored chains stay. -/
lemma mono (hst : s.Grows L t) (h : Chain L s tip chain) : Chain L t tip chain := by
  induction h with
  | first h hp => exact .first (hst _ _ h) hp
  | next h hp _ ih => exact .next (hst _ _ h) hp ih

/-- There is one chain below a tip. -/
lemma unique {chain' : List ObjectId} (h : Chain L s tip chain) (h' : Chain L s tip chain') :
    chain = chain' := by
  induction h generalizing chain' with
  | first h hp =>
      cases h' with
      | first => rfl
      | next hn hpn _ =>
          rw [h] at hn
          cases hn
          rw [hp] at hpn
          cases hpn
  | next h hp _ ih =>
      cases h' with
      | first hn hpn =>
          rw [h] at hn
          cases hn
          rw [hp] at hpn
          cases hpn
      | next hn hpn hrest =>
          rw [h] at hn
          cases hn
          rw [hp] at hpn
          cases hpn
          rw [ih hrest]

/-- A chain begins with its tip. -/
lemma tip_mem (h : Chain L s tip chain) : tip ∈ chain := by
  cases h with
  | first => exact List.mem_singleton_self _
  | next => exact List.mem_cons_self

/-- The chain of a member is a part of the chain. -/
lemma of_mem (h : Chain L s tip chain) (hid : id ∈ chain) :
    ∃ rest, Chain L s id rest ∧ rest ⊆ chain := by
  induction h with
  | first h hp =>
      rw [List.mem_singleton.mp hid]
      exact ⟨_, .first h hp, List.Subset.refl _⟩
  | next h hp hrest ih =>
      rcases List.mem_cons.mp hid with rfl | hid
      · exact ⟨_, .next h hp hrest, List.Subset.refl _⟩
      · obtain ⟨rest, hc, hsub⟩ := ih hid
        exact ⟨rest, hc, List.subset_cons_of_subset _ hsub⟩

/-- The chain of a member other than the tip is shorter. -/
lemma length_lt (h : Chain L s tip chain) (hid : id ∈ chain) (hne : id ≠ tip)
    {chain' : List ObjectId} (h' : Chain L s id chain') : chain'.length < chain.length := by
  induction h with
  | first h hp => exact absurd (List.mem_singleton.mp hid) hne
  | @next tip parent root chain h hp hrest ih =>
      rw [List.length_cons]
      rcases List.mem_cons.mp hid with rfl | hid
      · exact absurd rfl hne
      · by_cases hparent : id = parent
        · subst hparent
          rw [h'.unique hrest]
          exact Nat.lt_succ_self _
        · exact lt_trans (ih hid hparent) (Nat.lt_succ_self _)

/-- **Of two tips, only one has the other in its chain.** -/
lemma not_mem_of_mem {a b : ObjectId} {chainA chainB : List ObjectId} (ha : Chain L s a chainA)
    (hb : Chain L s b chainB) (hne : a ≠ b) (hmem : b ∈ chainA) : a ∉ chainB := by
  intro hmem'
  have hshort := ha.length_lt hmem (Ne.symm hne) hb
  have hlong := hb.length_lt hmem' hne ha
  omega

/-- What a member's chain holds, the whole chain holds. -/
lemma mem_trans {chain' : List ObjectId} {old : ObjectId} (h : Chain L s tip chain)
    (hid : id ∈ chain) (h' : Chain L s id chain') (hold : old ∈ chain') : old ∈ chain := by
  obtain ⟨rest, hc, hsub⟩ := h.of_mem hid
  rw [h'.unique hc] at hold
  exact hsub hold

end Chain

lemma loadRoot_eq_some {root : PolicyRoot} :
    loadRoot L s id = .ok (some root) ↔ s.object L id = some (.policy (.root root)) := by
  rw [loadRoot, ObjectStore.object_eq_some]
  split
  · next e he => simp [he]
  · next r hr => simp [hr]
  · next o hno ho =>
      constructor
      · intro h
        cases h
      · intro h
        rw [h] at ho
        cases ho
        exact absurd rfl (hno root)

/-- The loop puts the chain of the root it is at behind what it has. -/
lemma chainLoop_eq_ok {fuel : ℕ} {seen : Finset ObjectId} {done chain : List ObjectId}
    (h : chainLoop L s fuel (some id) seen done = .ok (some chain)) :
    ∃ rest, chain = done ++ rest ∧ Chain L s id rest := by
  induction fuel generalizing id seen done with
  | zero => simp [chainLoop] at h
  | succ fuel ih =>
      rw [chainLoop] at h
      split_ifs at h
      cases hroot : loadRoot L s id with
      | error e => simp [hroot] at h
      | ok found =>
          cases found with
          | none => simp [hroot] at h
          | some root =>
              simp only [hroot] at h
              have hobj := loadRoot_eq_some.mp hroot
              cases hp : root.parent with
              | none =>
                  rw [hp, chainLoop] at h
                  cases h
                  exact ⟨[id], rfl, .first hobj hp⟩
              | some parent =>
                  rw [hp] at h
                  obtain ⟨rest, rfl, hrest⟩ := ih h
                  exact ⟨id :: rest, by simp, .next hobj hp hrest⟩

/-- The loop stays within the listed ids, each of which it visits once. -/
lemma chainLoop_ne_none {fuel : ℕ} {cur : Option ObjectId} {seen : Finset ObjectId}
    {done : List ObjectId} (hseen : seen ⊆ s.list.toFinset)
    (hfuel : s.list.toFinset.card + 1 ≤ fuel + seen.card) :
    chainLoop L s fuel cur seen done ≠ .ok none := by
  induction fuel generalizing cur seen done with
  | zero =>
      have hcard := Finset.card_le_card hseen
      omega
  | succ fuel ih =>
      cases cur with
      | none => simp [chainLoop]
      | some id =>
          rw [chainLoop]
          split_ifs with hin
          · simp
          · cases hroot : loadRoot L s id with
            | error e => simp
            | ok found =>
                cases found with
                | none => simp
                | some root =>
                    have hlisted : id ∈ s.list.toFinset :=
                      List.mem_toFinset.mpr
                        (ObjectStore.listed_of_object (loadRoot_eq_some.mp hroot))
                    refine ih (Finset.insert_subset hlisted hseen) ?_
                    rw [Finset.card_insert_of_notMem hin]
                    omega

/-- **The walk returns the chain of the tip.** -/
lemma chainOf_eq_ok (h : chainOf L s tip = .ok chain) : Chain L s tip chain := by
  rw [chainOf] at h
  cases hloop : chainLoop L s (s.list.toFinset.card + 1) (some tip) ∅ [] with
  | error e => simp [hloop] at h
  | ok found =>
      cases found with
      | none => exact absurd hloop (chainLoop_ne_none (Finset.empty_subset _) (by simp))
      | some c =>
          obtain rfl : c = chain := by simpa [hloop] using h
          obtain ⟨rest, rfl, hrest⟩ := chainLoop_eq_ok hloop
          exact hrest

lemma signedBy_of_verify {sigs : SignatureStore} {trust : TrustStore} {sig : RootSignature}
    (hsig : sigs.get id = some sig) (h : verifyRootSignature L id sig trust = true) :
    SignedBy L sigs trust id := by
  rw [verifyRootSignature] at h
  split_ifs at h
  cases hfind : trust.find sig.keyId with
  | none => simp [hfind] at h
  | some anchor =>
      simp only [hfind, Bool.and_eq_true, decide_eq_true_eq] at h
      have hkey := List.find?_some hfind
      exact ⟨sig, anchor, hsig, List.mem_of_find?_eq_some hfind, by simpa using hkey, h.2⟩

lemma verifyRoot_eq_none {sigs : SignatureStore} {trust : TrustStore}
    (h : verifyRoot L s sigs trust id = .ok none) : SignedBy L sigs trust id := by
  simp only [verifyRoot, Result.bind_eq_ok] at h
  obtain ⟨found, -, h⟩ := h
  cases found with
  | none => cases h
  | some root =>
      simp only [Result.bind_eq_ok] at h
      obtain ⟨lattice, -, h⟩ := h
      split_ifs at h
      · cases h
      · rw [Result.bind_eq_ok] at h
        obtain ⟨rules, -, h⟩ := h
        split_ifs at h
        · cases h
        · split at h
          · cases h
          · cases hsig : sigs.get id with
            | none => simp [hsig] at h
            | some sig =>
                simp only [hsig] at h
                split_ifs at h with hverify
                · exact signedBy_of_verify hsig hverify
                · cases h

lemma verifyLoop_eq_none {sigs : SignatureStore} {trust : TrustStore}
    (h : verifyLoop L s sigs trust chain = .ok none) : ∀ id ∈ chain, SignedBy L sigs trust id := by
  induction chain with
  | nil => simp
  | cons id rest ih =>
      simp only [verifyLoop, Result.bind_eq_ok] at h
      obtain ⟨found, hroot, h⟩ := h
      cases found with
      | some reason => cases h
      | none =>
          intro id' hid'
          rcases List.mem_cons.mp hid' with rfl | hid'
          · exact verifyRoot_eq_none hroot
          · exact ih h id' hid'

/-- **An accepted chain is signed from end to end.** -/
lemma verifyChain_accept {sigs : SignatureStore} {trust : TrustStore} {depth : ℕ}
    (h : verifyChain L s tip sigs trust = .ok (.accept depth)) :
    ∃ chain, Chain L s tip chain ∧ ∀ id ∈ chain, SignedBy L sigs trust id := by
  rw [verifyChain] at h
  split at h
  · cases h
  · cases h
  · next chain hchain =>
      rw [Result.bind_eq_ok] at h
      obtain ⟨found, hloop, h⟩ := h
      cases found with
      | some reason => cases h
      | none => exact ⟨chain, chainOf_eq_ok hchain, verifyLoop_eq_none hloop⟩

/-! ### Reconciliation -/

/-- More fuel than is used changes nothing. -/
lemma chainLoop_succ {fuel : ℕ} {cur : Option ObjectId} {seen : Finset ObjectId}
    {done : List ObjectId} (h : chainLoop L s fuel cur seen done ≠ .ok none) :
    chainLoop L s (fuel + 1) cur seen done = chainLoop L s fuel cur seen done := by
  induction fuel generalizing cur seen done with
  | zero =>
      cases cur with
      | none => rw [chainLoop, chainLoop]
      | some id => exact absurd (by rw [chainLoop]) h
  | succ fuel ih =>
      cases cur with
      | none => rw [chainLoop, chainLoop]
      | some id =>
          rw [chainLoop] at h ⊢
          rw [chainLoop]
          split_ifs at h ⊢ with hin
          · rfl
          · cases hroot : loadRoot L s id with
            | error e => rfl
            | ok found =>
                cases found with
                | none => rfl
                | some root =>
                    simp only [hroot] at h ⊢
                    exact ih h

/-- **The walk ends on every store**: with as many turns as there are listed objects, and one
more, it has its result, and further turns change nothing. -/
lemma chainLoop_eq_chainOf (tip : ObjectId) {fuel : ℕ} (hfuel : s.list.toFinset.card + 1 ≤ fuel) :
    chainLoop L s fuel (some tip) ∅ [] = (chainOf L s tip).map some := by
  induction fuel, hfuel using Nat.le_induction with
  | base =>
      rw [chainOf]
      cases hloop : chainLoop L s (s.list.toFinset.card + 1) (some tip) ∅ [] with
      | error e => rfl
      | ok found =>
          cases found with
          | none => exact absurd hloop (chainLoop_ne_none (Finset.empty_subset _) (by simp))
          | some c => rfl
  | succ fuel hle ih =>
      rw [chainLoop_succ (chainLoop_ne_none (Finset.empty_subset _) (by simpa using hle)), ih]

section Reconcile

variable {sigs : SignatureStore} {trust : TrustStore} {a b : ObjectId}

lemma candidate_eq_ok : candidate L s tip sigs trust = .ok () ↔
    ∃ depth, verifyChain L s tip sigs trust = .ok (.accept depth) := by
  rw [candidate, Result.bind_eq_ok]
  constructor
  · rintro ⟨verdict, hverify, h⟩
    cases verdict with
    | accept depth => exact ⟨depth, hverify⟩
    | reject reason => cases h
  · rintro ⟨depth, hverify⟩
    exact ⟨_, hverify, rfl⟩

/-- The parent chain of a tip verifies and holds an id. -/
def Extends (L : Linked) (s : ObjectStore) (sigs : SignatureStore) (trust : TrustStore)
    (tip id : ObjectId) : Prop :=
  ∃ chain depth, Chain L s tip chain ∧ id ∈ chain ∧
    verifyChain L s tip sigs trust = .ok (.accept depth) ∧ ∀ x ∈ chain, SignedBy L sigs trust x

lemma extends_of_candidate (h : candidate L s tip sigs trust = .ok ())
    (hchain : chainOf L s tip = .ok chain) (hid : id ∈ chain) : Extends L s sigs trust tip id := by
  obtain ⟨depth, hverify⟩ := candidate_eq_ok.mp h
  obtain ⟨chain', hchain', hsigned⟩ := verifyChain_accept hverify
  have hc := chainOf_eq_ok hchain
  exact ⟨chain, depth, hc, hid, hverify, fun x hx => hsigned x (hchain'.unique hc ▸ hx)⟩

/-- What has been found when the first tip wins over another. -/
lemma reconcile_eq_left (hne : a ≠ b) : reconcile L s a b sigs trust = .ok .left ↔
    candidate L s a sigs trust = .ok () ∧ candidate L s b sigs trust = .ok () ∧
      ∃ chainA chainB, chainOf L s a = .ok chainA ∧ chainOf L s b = .ok chainB ∧
        chainA.getLast? = chainB.getLast? ∧ b ∈ chainA := by
  simp only [reconcile, Result.bind_eq_ok, if_neg hne]
  constructor
  · rintro ⟨⟨⟩, ha, ⟨⟩, hb, chainA, hA, chainB, hB, h⟩
    split_ifs at h with hlast hmem hmem'
    · cases h
    · exact ⟨ha, hb, chainA, chainB, hA, hB, not_not.mp hlast, hmem⟩
    · cases h
    · cases h
  · rintro ⟨ha, hb, chainA, chainB, hA, hB, hlast, hmem⟩
    exact ⟨(), ha, (), hb, chainA, hA, chainB, hB, by rw [if_neg (not_not.mpr hlast), if_pos hmem]⟩

/-- What has been found when the second one wins. -/
lemma reconcile_eq_right : reconcile L s a b sigs trust = .ok .right ↔
    candidate L s a sigs trust = .ok () ∧ candidate L s b sigs trust = .ok () ∧ a ≠ b ∧
      ∃ chainA chainB, chainOf L s a = .ok chainA ∧ chainOf L s b = .ok chainB ∧
        chainA.getLast? = chainB.getLast? ∧ b ∉ chainA ∧ a ∈ chainB := by
  simp only [reconcile, Result.bind_eq_ok]
  constructor
  · rintro ⟨⟨⟩, ha, ⟨⟩, hb, h⟩
    split_ifs at h with hne
    · cases h
    · simp only [Result.bind_eq_ok] at h
      obtain ⟨chainA, hA, chainB, hB, h⟩ := h
      split_ifs at h with hlast hmem hmem'
      · cases h
      · cases h
      · exact ⟨ha, hb, hne, chainA, chainB, hA, hB, not_not.mp hlast, hmem, hmem'⟩
      · cases h
  · rintro ⟨ha, hb, hne, chainA, chainB, hA, hB, hlast, hmem, hmem'⟩
    refine ⟨(), ha, (), hb, ?_⟩
    simp only [if_neg hne, Result.bind_eq_ok]
    exact ⟨chainA, hA, chainB, hB,
      by rw [if_neg (not_not.mpr hlast), if_neg hmem, if_pos hmem']⟩

/-- **Reconciliation is antisymmetric and sound.**  Of two tips the left one wins iff it wins as
the right one when they are swapped; the chain of the winner verifies and holds the other; and
the walk along the parents ends on every store. -/
theorem reconcile_antisymm (L : Linked) (s : ObjectStore) (sigs : SignatureStore)
    (trust : TrustStore) :
    (∀ a b, a ≠ b → (reconcile L s a b sigs trust = .ok .left ↔
        reconcile L s b a sigs trust = .ok .right)) ∧
      (∀ a b, reconcile L s a b sigs trust = .ok .left → Extends L s sigs trust a b) ∧
      (∀ a b, reconcile L s a b sigs trust = .ok .right → Extends L s sigs trust b a) ∧
      ∀ tip fuel, s.list.toFinset.card + 1 ≤ fuel →
        chainLoop L s fuel (some tip) ∅ [] = (chainOf L s tip).map some := by
  refine ⟨?_, ?_, ?_, fun tip _ hfuel => chainLoop_eq_chainOf tip hfuel⟩
  · intro a b hne
    rw [reconcile_eq_left hne, reconcile_eq_right]
    constructor
    · rintro ⟨ha, hb, chainA, chainB, hA, hB, hlast, hmem⟩
      have hnot := (chainOf_eq_ok hA).not_mem_of_mem (chainOf_eq_ok hB) hne hmem
      exact ⟨hb, ha, Ne.symm hne, chainB, chainA, hB, hA, hlast.symm, hnot, hmem⟩
    · rintro ⟨hb, ha, -, chainB, chainA, hB, hA, hlast, -, hmem⟩
      exact ⟨ha, hb, chainA, chainB, hA, hB, hlast.symm, hmem⟩
  · intro a b h
    by_cases hne : a = b
    · subst hne
      simp only [reconcile, Result.bind_eq_ok] at h
      obtain ⟨⟨⟩, ha, -⟩ := h
      obtain ⟨depth, hverify⟩ := candidate_eq_ok.mp ha
      obtain ⟨chain, hchain, hsigned⟩ := verifyChain_accept hverify
      exact ⟨chain, depth, hchain, hchain.tip_mem, hverify, hsigned⟩
    · obtain ⟨ha, -, chainA, -, hA, -, -, hmem⟩ := (reconcile_eq_left hne).mp h
      exact extends_of_candidate ha hA hmem
  · intro a b h
    obtain ⟨-, hb, -, -, chainB, -, hB, -, -, hmem⟩ := reconcile_eq_right.mp h
    exact extends_of_candidate hb hB hmem

end Reconcile

/-! ### Adoption -/

/-- The arguments of `adopt_policy_root`. -/
structure AdoptRequest where
  tip : ObjectId
  sigs : SignatureStore
  trust : TrustStore

/-- The pin an adoption sets. -/
def AdoptRequest.pin (req : AdoptRequest) : Ref := .tag ⟨req.tip, 0, none⟩

namespace Repository

/-- The first stretch: the offered chain is verified. -/
def verifyOffered (L : Linked) (r : Repository) (req : AdoptRequest) : Result Unit := do
  match ← verifyChain L r.objects req.tip req.sigs req.trust with
  | .accept _ => .ok ()
  | .reject reason => .error (.policyViolation ("policy adoption rejected: " ++ reason))

/-- The third stretch: a pin that was read lies on the offered chain. -/
def checkForward (L : Linked) (r : Repository) (req : AdoptRequest) :
    Option Ref → Result Unit
  | some (.tag cur) => do
      let offered ← chainOf L r.objects req.tip
      if cur.target ∈ offered then .ok ()
      else
        .error (.policyViolation ("policy adoption is not a fast-forward of the pinned root " ++
          "(refusing rollback/divergence)"))
  | some (.timeline _) =>
      .error (.policyViolation ("refs/policy/root is not a policy-root tag; " ++
        "refuse to adopt over a malformed pin"))
  | none => .ok ()

/-- The last stretch: the pin moves if it is still what was read. -/
def commitPin (r : Repository) (req : AdoptRequest) (current : Option Ref) :
    Result Unit × Repository :=
  let (result, refs) :=
    r.refs.commit [.expect policyRootRef current, .set policyRootRef req.pin]
  (result, { r with refs := refs })

/-- `adopt_policy_root`. -/
def adoptPolicyRoot (L : Linked) (r : Repository) (req : AdoptRequest) :
    Result Unit × Repository :=
  match r.verifyOffered L req with
  | .error e => (.error e, r)
  | .ok _ =>
      let current := r.refs.get policyRootRef
      match r.checkForward L req current with
      | .error e => (.error e, r)
      | .ok _ => r.commitPin req current

end Repository

/-- How far a call has come. -/
inductive AdoptCall where
  | called (req : AdoptRequest)
  | verified (req : AdoptRequest)
  | read (req : AdoptRequest) (current : Option Ref)
  | forwards (req : AdoptRequest) (current : Option Ref)
  | returned (req : AdoptRequest) (result : Result Unit)

namespace AdoptCall

/-- A stretch that succeeds hands on, one that fails returns. -/
def proceed (r : Repository) (req : AdoptRequest) (x : Result Unit) (next : AdoptCall) :
    AdoptCall × Repository :=
  match x with
  | .error e => (.returned req (.error e), r)
  | .ok _ => (next, r)

/-- The next stretch of a call, on the state it finds. -/
def step (L : Linked) (r : Repository) : AdoptCall → AdoptCall × Repository
  | called req => proceed r req (r.verifyOffered L req) (verified req)
  | verified req => (read req (r.refs.get Repository.policyRootRef), r)
  | read req current => proceed r req (r.checkForward L req current) (forwards req current)
  | forwards req current =>
      (returned req (r.commitPin req current).1, (r.commitPin req current).2)
  | returned req result => (returned req result, r)

/-- **Four steps on one state are the call.** -/
lemma step_four (L : Linked) (r : Repository) (req : AdoptRequest) :
    (fun s : AdoptCall × Repository => step L s.2 s.1)^[4] (called req, r) =
      (returned req (r.adoptPolicyRoot L req).1, (r.adoptPolicyRoot L req).2) := by
  simp only [Function.iterate_succ, Function.iterate_zero, Function.comp_apply, id]
  rw [Repository.adoptPolicyRoot]
  cases h1 : r.verifyOffered L req with
  | error e => simp [step, proceed, h1]
  | ok _ =>
      cases h2 : r.checkForward L req (r.refs.get Repository.policyRootRef) with
      | error e => simp [step, proceed, h1, h2]
      | ok _ => simp [step, proceed, h1, h2]

/-! ### What a step does -/

variable {r r' r'' : Repository} {req : AdoptRequest} {current : Option Ref}

/-- A stretch before the commit hands on or returns an error. -/
lemma proceed_cases (r : Repository) (req : AdoptRequest) (x : Result Unit) (next : AdoptCall) :
    (∃ e, proceed r req x next = (returned req (.error e), r)) ∨
      x = .ok () ∧ proceed r req x next = (next, r) := by
  cases x with
  | error e => exact Or.inl ⟨e, rfl⟩
  | ok a => exact Or.inr ⟨rfl, rfl⟩

/-- **The commit**: it finds the pin it expects and replaces it, or changes nothing. -/
lemma commitPin_cases (r : Repository) (req : AdoptRequest) (current : Option Ref) :
    (r.refs.get Repository.policyRootRef = current ∧
        (r.commitPin req current).2.refs.get Repository.policyRootRef = some req.pin) ∨
      (r.commitPin req current).2.refs = r.refs := by
  rw [Repository.commitPin]
  cases hc : r.refs.commit [.expect Repository.policyRootRef current,
      .set Repository.policyRootRef req.pin] with
  | mk result refs =>
      cases result with
      | error e => exact Or.inr (RefStore.commit_error hc)
      | ok u =>
          obtain ⟨hfound, hnew, -⟩ := RefStore.commit_expect_set hc
          exact Or.inl ⟨hfound, hnew⟩

/-- No step of a call touches the objects. -/
@[simp] lemma step_objects (L : Linked) (r : Repository) (c : AdoptCall) :
    (c.step L r).2.objects = r.objects := by
  cases c with
  | called req => rcases proceed_cases r req (r.verifyOffered L req) (verified req) with
      ⟨e, h⟩ | ⟨-, h⟩ <;> rw [step, h]
  | read req current =>
      rcases proceed_cases r req (r.checkForward L req current) (forwards req current) with
        ⟨e, h⟩ | ⟨-, h⟩ <;> rw [step, h]
  | _ => rfl

/-- **Only the commit touches the pin**, and only when it finds the one it has read. -/
lemma step_pin (L : Linked) (r : Repository) (c : AdoptCall) :
    (c.step L r).2.refs = r.refs ∨
      ∃ req, c = forwards req (r.refs.get Repository.policyRootRef) ∧
        (c.step L r).2.refs.get Repository.policyRootRef = some req.pin := by
  cases c with
  | called req => rcases proceed_cases r req (r.verifyOffered L req) (verified req) with
      ⟨e, h⟩ | ⟨-, h⟩ <;> simp [step, h]
  | read req current =>
      rcases proceed_cases r req (r.checkForward L req current) (forwards req current) with
        ⟨e, h⟩ | ⟨-, h⟩ <;> simp [step, h]
  | forwards req current =>
      rcases commitPin_cases r req current with ⟨rfl, hnew⟩ | hrefs
      · exact Or.inr ⟨req, rfl, hnew⟩
      · exact Or.inl hrefs
  | _ => exact Or.inl rfl

end AdoptCall

/-! ### Any number of calls -/

/-- A repository and the calls made on it so far. -/
abbrev AdoptSystem := Interleave.System Repository AdoptCall

namespace AdoptSystem

/-- The pinned policy root. -/
abbrev pin (r : Repository) : Option Ref := r.refs.get Repository.policyRootRef

/-- What happens besides the calls: objects arrive, and anything else that leaves the pin
alone. -/
structure Env (L : Linked) (r r' : Repository) : Prop where
  grows : r.objects.Grows L r'.objects
  pin : pin r' = pin r

/-- A call that is just being made. -/
def Fresh (c : AdoptCall) : Prop := ∃ req, c = .called req

/-- One thing happens. -/
def Step (L : Linked) : AdoptSystem → Interleave.Action AdoptCall → AdoptSystem → Prop :=
  Interleave.Step Fresh (AdoptCall.step L) (Env L)

/-- A root lies on the chain of a tip. -/
def OnChain (L : Linked) (s : ObjectStore) (tip old : ObjectId) : Prop :=
  ∃ chain, Chain L s tip chain ∧ old ∈ chain

/-- The offered chain is stored and signed. -/
def Offered (L : Linked) (s : ObjectStore) (req : AdoptRequest) : Prop :=
  ∃ chain, Chain L s req.tip chain ∧ ∀ id ∈ chain, SignedBy L req.sigs req.trust id

/-- The second state comes after the first: objects stay, a pinned root stays or lies on the
chain of the new one, and a malformed pin stays. -/
structure Follows (L : Linked) (r r' : Repository) : Prop where
  grows : r.objects.Grows L r'.objects
  tag : ∀ old, pin r = some (.tag old) →
    ∃ new, pin r' = some (.tag new) ∧ (new = old ∨ OnChain L r'.objects new.target old.target)
  timeline : ∀ T, pin r = some (.timeline T) → pin r' = some (.timeline T)

/-- What a call knows: the chain is signed, and the pin it has read lies on it. -/
def Sound (L : Linked) (r : Repository) : AdoptCall → Prop
  | .verified req => Offered L r.objects req
  | .read req _ => Offered L r.objects req
  | .forwards req current =>
      Offered L r.objects req ∧
        ∀ v, current = some v → ∃ old, v = .tag old ∧ OnChain L r.objects req.tip old.target
  | _ => True

variable {r r' r'' : Repository} {req : AdoptRequest} {current : Option Ref}

lemma OnChain.mono {old : ObjectId} (hst : s.Grows L t) (h : OnChain L s tip old) :
    OnChain L t tip old := by
  obtain ⟨chain, hchain, hold⟩ := h
  exact ⟨chain, hchain.mono hst, hold⟩

lemma OnChain.trans {mid old : ObjectId} (h : OnChain L s tip mid) (h' : OnChain L s mid old) :
    OnChain L s tip old := by
  obtain ⟨chain, hchain, hmid⟩ := h
  obtain ⟨chain', hchain', hold⟩ := h'
  exact ⟨chain, hchain, hchain.mem_trans hmid hchain' hold⟩

lemma Offered.mono (hst : s.Grows L t) (h : Offered L s req) : Offered L t req := by
  obtain ⟨chain, hchain, hsigned⟩ := h
  exact ⟨chain, hchain.mono hst, hsigned⟩

lemma Follows.of_pin (hg : r.objects.Grows L r'.objects) (h : pin r' = pin r) :
    Follows L r r' where
  grows := hg
  tag old hold := ⟨old, h.trans hold, Or.inl rfl⟩
  timeline _ hT := h.trans hT

lemma Follows.trans (h : Follows L r r') (h' : Follows L r' r'') : Follows L r r'' where
  grows := h.grows.trans h'.grows
  tag old hold := by
    obtain ⟨mid, hmid, hold⟩ := h.tag old hold
    obtain ⟨new, hnew, hmid⟩ := h'.tag mid hmid
    refine ⟨new, hnew, ?_⟩
    rcases hold with rfl | hold
    · exact hmid
    · rcases hmid with rfl | hmid
      · exact Or.inr (hold.mono h'.grows)
      · exact Or.inr (hmid.trans (hold.mono h'.grows))
  timeline T hT := h'.timeline T (h.timeline T hT)

/-- What a call knows lasts. -/
lemma Sound.mono {c : AdoptCall} (hg : r.objects.Grows L r'.objects) (hc : Sound L r c) :
    Sound L r' c := by
  cases c with
  | verified req => exact Offered.mono hg hc
  | read req current => exact Offered.mono hg hc
  | forwards req current =>
      refine ⟨Offered.mono hg hc.1, fun v hv => ?_⟩
      obtain ⟨old, rfl, hold⟩ := hc.2 v hv
      exact ⟨old, rfl, hold.mono hg⟩
  | _ => trivial

lemma offered_of_verify (h : r.verifyOffered L req = .ok ()) : Offered L r.objects req := by
  rw [Repository.verifyOffered, Result.bind_eq_ok] at h
  obtain ⟨verdict, hverdict, h⟩ := h
  cases verdict with
  | accept depth => exact verifyChain_accept hverdict
  | reject reason => cases h

lemma onChain_of_checkForward (h : r.checkForward L req current = .ok ()) :
    ∀ v, current = some v → ∃ old, v = .tag old ∧ OnChain L r.objects req.tip old.target := by
  rintro v rfl
  cases v with
  | timeline T => cases h
  | tag cur =>
      rw [Repository.checkForward, Result.bind_eq_ok] at h
      obtain ⟨offered, hchain, h⟩ := h
      split_ifs at h with hmem
      · exact ⟨cur, rfl, offered, chainOf_eq_ok hchain, hmem⟩

/-- **A call that commits** finds the pin it has read, which lies on the chain of the new
one. -/
lemma commit_follows {c : AdoptCall} (hc : Sound L r c)
    (h : pin (c.step L r).2 ≠ pin r) :
    ∃ req chain, c = .forwards req (pin r) ∧ pin (c.step L r).2 = some req.pin ∧
      Chain L r.objects req.tip chain ∧ (∀ id ∈ chain, SignedBy L req.sigs req.trust id) ∧
      ∀ v, pin r = some v → ∃ old, v = .tag old ∧ old.target ∈ chain := by
  rcases AdoptCall.step_pin L r c with hrefs | ⟨req, rfl, hnew⟩
  · exact absurd (congrArg (·.get Repository.policyRootRef) hrefs) h
  · obtain ⟨⟨chain, hchain, hsigned⟩, hforward⟩ := hc
    refine ⟨req, chain, rfl, hnew, hchain, hsigned, fun v hv => ?_⟩
    obtain ⟨old, rfl, chain', hchain', hold⟩ := hforward v hv
    exact ⟨old, rfl, hchain.unique hchain' ▸ hold⟩

/-- **One stretch of a call**: the state follows, and the call knows what it needs to. -/
lemma step_follows {c : AdoptCall} (hc : Sound L r c) :
    Follows L r (c.step L r).2 ∧ Sound L (c.step L r).2 (c.step L r).1 := by
  have hgrows : r.objects.Grows L (c.step L r).2.objects := by
    rw [AdoptCall.step_objects]
    exact .refl L _
  constructor
  · by_cases h : pin (c.step L r).2 = pin r
    · exact .of_pin hgrows h
    · obtain ⟨req, chain, -, hnew, hchain, -, hold⟩ := commit_follows hc h
      refine ⟨hgrows, fun old hpin => ⟨⟨req.tip, 0, none⟩, hnew, Or.inr ⟨chain, ?_, ?_⟩⟩,
        fun _ hT => ?_⟩
      · exact hchain.mono hgrows
      · obtain ⟨old', hold', hmem⟩ := hold _ hpin
        cases hold'
        exact hmem
      · obtain ⟨old', hold', -⟩ := hold _ hT
        cases hold'
  · cases c with
    | called req =>
        rcases AdoptCall.proceed_cases r req (r.verifyOffered L req) (.verified req) with
          ⟨e, h⟩ | ⟨hok, h⟩
        · rw [AdoptCall.step, h]
          trivial
        · rw [AdoptCall.step, h]
          exact offered_of_verify hok
    | verified req => exact hc
    | read req current =>
        rcases AdoptCall.proceed_cases r req (r.checkForward L req current)
          (.forwards req current) with ⟨e, h⟩ | ⟨hok, h⟩
        · rw [AdoptCall.step, h]
          trivial
        · rw [AdoptCall.step, h]
          exact ⟨hc, onChain_of_checkForward hok⟩
    | forwards req current => trivial
    | returned req result => trivial

open Transition

variable {s₀ s t : AdoptSystem} {pre post steps : List (AdoptSystem × Interleave.Action AdoptCall)}

/-- **A run**: its end follows its beginning. -/
lemma run_follows (hs : ∀ c ∈ s.calls, Sound L s.shared c) (h : Run (Step L) s steps t) :
    Follows L s.shared t.shared ∧ ∀ c ∈ t.calls, Sound L t.shared c := by
  refine Interleave.run_follows (fun _ => .of_pin (.refl L _) rfl) (fun _ _ _ => .trans) ?_
    (fun _ _ => step_follows) (fun _ _ he => .of_pin he.grows he.pin)
    (fun _ _ _ hf hc => hc.mono hf.grows) hs h
  rintro x c ⟨req, rfl⟩
  trivial

/-- **The pin only moves forward.**  In any interleaving of any number of adoptions, at any
point of a run: what changes the pin is the commit of a call whose offered chain is stored and
signed under its trust store, and the root that was pinned lies on that chain; and between any
two points a pinned root stays or lies on the chain of the later one. -/
theorem policy_pin_forward (h₀ : s₀.calls = []) (hpre : Run (Step L) s₀ pre s)
    (hpost : Run (Step L) s post t) :
    (∀ a u, Step L s a u → pin u.shared ≠ pin s.shared →
        ∃ (i : ℕ) (req : AdoptRequest) (chain : List ObjectId),
          a = .step i ∧ s.calls[i]? = some (.forwards req (pin s.shared)) ∧
          pin u.shared = some (.tag ⟨req.tip, 0, none⟩) ∧
          Chain L s.shared.objects req.tip chain ∧
          (∀ id ∈ chain, SignedBy L req.sigs req.trust id) ∧
          ∀ v, pin s.shared = some v → ∃ old, v = .tag old ∧ old.target ∈ chain) ∧
      (∀ old, pin s.shared = some (.tag old) →
        ∃ new, pin t.shared = some (.tag new) ∧
          (new = old ∨
            ∃ chain, Chain L t.shared.objects new.target chain ∧ old.target ∈ chain)) ∧
      ∀ T, pin s.shared = some (.timeline T) → pin t.shared = some (.timeline T) := by
  obtain ⟨-, hs⟩ := run_follows (by simp [h₀]) hpre
  obtain ⟨hfollows, -⟩ := run_follows hs hpost
  refine ⟨fun a u hstep hmoved => ?_, hfollows.tag, hfollows.timeline⟩
  cases hstep with
  | call hc => exact absurd rfl hmoved
  | env he => exact absurd he.pin hmoved
  | @step i c hi =>
      obtain ⟨req, chain, rfl, hnew, hchain, hsigned, hold⟩ :=
        commit_follows (hs c (List.mem_of_getElem? hi)) hmoved
      exact ⟨i, req, chain, rfl, hi, hnew, hchain, hsigned, hold⟩

/-! ### Two roots after one -/

/-- A lattice, a rule set, a first root and two roots that come after it. -/
def forkObjects : List Object :=
  let lattice : Object := .policy (.lattice .twoPoint)
  let rules : Object := .policy (.ruleSet ⟨[]⟩)
  let first : Object := .policy (.root ⟨lattice.refId, rules.refId, none, []⟩)
  [lattice, rules, first,
    .policy (.root ⟨lattice.refId, rules.refId, some first.refId, []⟩),
    .policy (.root ⟨lattice.refId, rules.refId, some first.refId, [⟨"timeline-policy", "", ∅⟩]⟩)]

/-- The crates with a codec for these objects, and one signature that verifies. -/
def forkLinked : Linked :=
  { Linked.over forkObjects with
    ed25519Verify := fun _ _ sig => decide (sig = List.replicate 64 7) }

def forkId (i : ℕ) : ObjectId := (forkObjects.getD i (.blob [])).refId

/-- A repository that has pinned the first root. -/
def forkRepo : Repository :=
  { Repository.memory with
    objects := .holding forkLinked forkObjects
    refs := ⟨(∅ : BTreeMap RefName Ref).insert Repository.policyRootRef
      (.tag ⟨forkId 2, 0, none⟩)⟩ }

/-- The signatures of the three roots. -/
def forkSigs : SignatureStore :=
  [2, 3, 4].foldl (fun sigs i => sigs.insert ⟨forkId i, "admin", List.replicate 64 7⟩) ⟨∅⟩

def forkTrust : TrustStore := ⟨[⟨"admin", Digest.replicate 7⟩]⟩

/-- A call to adopt one of them. -/
def forkRequest (i : ℕ) : AdoptRequest := ⟨forkId i, forkSigs, forkTrust⟩

/-- Calls for both later roots and for the first one have been made. -/
def forkStart : AdoptSystem :=
  ⟨forkRepo, [.called (forkRequest 3), .called (forkRequest 4), .called (forkRequest 2)]⟩

lemma fork_called : ∃ steps, Run (Step forkLinked) ⟨forkRepo, []⟩ steps forkStart :=
  ⟨_, .cons (.call ⟨forkRequest 3, rfl⟩)
    (.cons (.call ⟨forkRequest 4, rfl⟩) (.single (.call ⟨forkRequest 2, rfl⟩)))⟩

/-- The first two check against the first root before either commits; the third comes after. -/
def forkTurns : List ℕ := [0, 0, 0, 1, 1, 1, 0, 1, 2, 2, 2, 2]

def forkEnd : AdoptSystem :=
  forkTurns.foldl (Interleave.turn (AdoptCall.step forkLinked)) forkStart

/-- Whether a call has returned `Ok`. -/
def adopted : AdoptCall → Option Bool
  | .returned _ result => some result.toOption.isSome
  | _ => none

lemma fork_outcome : forkEnd.calls.map adopted = [some true, some false, some false] ∧
    (pin forkEnd.shared).map Ref.target = some (forkId 3) := by
  decide +kernel

/-- The later root wins over the first one from either side, and its siblings diverge. -/
theorem reconcile_antisymm_fork :
    (reconcile forkLinked forkRepo.objects (forkId 3) (forkId 2) forkSigs forkTrust = .ok .left ↔
        reconcile forkLinked forkRepo.objects (forkId 2) (forkId 3) forkSigs forkTrust =
          .ok .right) ∧
      Extends forkLinked forkRepo.objects forkSigs forkTrust (forkId 3) (forkId 2) ∧
      reconcile forkLinked forkRepo.objects (forkId 3) (forkId 4) forkSigs forkTrust =
        .ok (.diverged (forkId 3) (forkId 4)) := by
  have hleft : reconcile forkLinked forkRepo.objects (forkId 3) (forkId 2) forkSigs forkTrust =
      .ok .left := by decide +kernel
  obtain ⟨hswap, hsound, -⟩ := reconcile_antisymm forkLinked forkRepo.objects forkSigs forkTrust
  exact ⟨hswap _ _ (by decide +kernel), hsound _ _ hleft, by decide +kernel⟩

/-- One of the two goes through; its sibling and the way back are refused. -/
theorem policy_pin_forward_fork :
    forkEnd.calls.map adopted = [some true, some false, some false] ∧
      ∃ new, pin forkEnd.shared = some (.tag new) ∧ new.target = forkId 3 ∧
        (new = ⟨forkId 2, 0, none⟩ ∨ ∃ chain,
          Chain forkLinked forkEnd.shared.objects new.target chain ∧ forkId 2 ∈ chain) := by
  obtain ⟨pre, hpre⟩ := fork_called
  obtain ⟨post, hpost⟩ : ∃ steps, Run (Step forkLinked) forkStart steps forkEnd :=
    Interleave.run_turns forkTurns forkStart
  have hstart : pin forkStart.shared = some (.tag ⟨forkId 2, 0, none⟩) := by decide +kernel
  obtain ⟨new, hnew, hchain⟩ := (policy_pin_forward rfl hpre hpost).2.1 _ hstart
  have htarget := fork_outcome.2
  refine ⟨fork_outcome.1, new, hnew, ?_, hchain⟩
  rw [hnew] at htarget
  exact Option.some.inj htarget

end AdoptSystem

end Bole
