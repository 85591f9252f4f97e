import Bole.Lib.Utf8
import Bole.Lib.Words
import Bole.Repo.Authority
import Bole.Repo.Proposal
import Bole.Sync.Hub

/-!
The messages that are signed, over all schemes: `src/acl/authority.rs`, `src/acl/attestation.rs`,
`src/sync/authn.rs`, `src/sync/hub.rs`, `src/collab/object.rs`, `src/pr.rs`, `src/board.rs`,
`src/reporecord.rs` and `bole-api/src/auth.rs`.

Each scheme puts a tag of its own in front of the fields that its signature covers.

* `domain_take`: the tags differ within their first thirteen bytes;
* `profileMessage_inj` and its like: of one scheme, the bytes give back the fields;
* `signed_unambiguous`: no two statements have the same message.
-/

namespace Bole

open Postcard Delimited

/-! ### The other messages -/

/-- `ref_op_message`. -/
def refOpMessage (name : RefName) (expectedOld : Option ObjectId) (newHead : ObjectId) : Bytes :=
  ascii "bole-ref-op-v1" ++ [0] ++ strBytes name.asStr ++ [0] ++
    ((expectedOld.map ObjectId.asBytes).getD []) ++ [0] ++ newHead.asBytes

/-- `verify_ref_op`. -/
def verifyRefOp (L : Linked) (name : RefName) (expectedOld : Option ObjectId)
    (newHead : ObjectId) (sig : Bytes) (publicKey : Digest) : Bool :=
  decide (sig.length = 64) &&
    L.ed25519Verify publicKey (refOpMessage name expectedOld newHead) sig

/-- `relay_challenge_message`. -/
def relayChallengeMessage (nonce : Digest) : Bytes := ascii "bole-relay-auth-v1" ++ nonce.bytes

/-- `verify_relay_challenge`, on a signature of 64 bytes. -/
def verifyRelayChallenge (L : Linked) (key nonce : Digest) (sig : Bytes) : Bool :=
  L.ed25519Verify key (relayChallengeMessage nonce) sig

/-- `comment_message`. -/
def commentMessage (c : ReviewComment) : Bytes :=
  ascii "bole-review-comment-v1" ++ [0] ++ (c.author.bytes ++ objectId c.proposal ++ str c.body ++
    [if c.resolves then 1 else 0] ++ writeVarint c.createdAt)

/-- `verify_comment`. -/
def verifyComment (L : Linked) (c : ReviewComment) : Bool :=
  decide (c.sig.length = 64) && L.ed25519Verify c.author (commentMessage c) c.sig

/-- `post_message`. -/
def postMessage (p : Post) : Bytes :=
  ascii "bole-board-post-v1" ++ [0] ++ (p.author.bytes ++ str p.board ++ str p.body ++
    option objectId p.parent ++ writeVarint p.createdAt)

/-- `verify_post`. -/
def verifyPost (L : Linked) (p : Post) : Bool :=
  decide (p.sig.length = 64) && L.ed25519Verify p.author (postMessage p) p.sig

/-! ### Signed requests -/

/-- `str::parse::<u64>`: digits, perhaps behind a plus sign. -/
def parseU64 (s : String) : Option ℕ :=
  let digits := match s.toList with
    | '+' :: rest => rest
    | l => l
  if digits = [] ∨ ¬ digits.all Char.isDigit then none
  else
    let value := digits.foldl (fun n c => 10 * n + (c.toNat - 48)) 0
    if value < 2 ^ 64 then some value else none

/-- The SHA-256 of nothing, which `verify_signed` puts in the place of the body's. -/
def emptyBodyHash : String := "e3b0c44298fc1c149afbf4c8996fb92427ae41e4649b934ca495991b7852b855"

/-- The canonical message of `verify_signed`. -/
def requestMessage (method path date : String) : Bytes :=
  ascii "bole-http-req-v1" ++ [0] ++
    strBytes (method ++ "\n" ++ path ++ "\n" ++ date ++ "\n" ++ emptyBodyHash)

/-! ### Statements -/

/-- The schemes. -/
inductive Scheme where
  | policyRoot
  | attestation
  | refOp
  | hubPush
  | profile
  | edge
  | relayAuth
  | changeProposal
  | reviewComment
  | boardPost
  | repoRecord
  | httpRequest
deriving DecidableEq

/-- The tag of a scheme. -/
def Scheme.domain : Scheme → Bytes
  | policyRoot => policyRootDomain
  | attestation => attestationDomain
  | refOp => ascii "bole-ref-op-v1" ++ [0]
  | hubPush => ascii "bole-hub-push-v1" ++ [0]
  | profile => ascii "bole-collab-profile-v1" ++ [0]
  | edge => ascii "bole-collab-edge-v1" ++ [0]
  | relayAuth => ascii "bole-relay-auth-v1"
  | changeProposal => proposalDomain
  | reviewComment => ascii "bole-review-comment-v1" ++ [0]
  | boardPost => ascii "bole-board-post-v1" ++ [0]
  | repoRecord => ascii "bole-repo-record-v1" ++ [0]
  | httpRequest => ascii "bole-http-req-v1" ++ [0]

/-- What is signed: of each scheme the fields that its signature covers. -/
inductive Statement where
  | policyRoot (root : ObjectId)
  | attestation (target : String) (head : ObjectId)
  | refOp (name : RefName) (expectedOld : Option ObjectId) (newHead : ObjectId)
  | hubPush (nonce : Digest)
  | profile (key : Digest) (displayName bio : String) (endpoints dnsAliases : List String)
      (seq : ℕ)
  | edge (fromKey toKey : Digest) (kind : TrustKind) (petname : Option String) (seq : ℕ)
  | relayAuth (nonce : Digest)
  | changeProposal (author : Digest) (source target title : String) (createdAt : ℕ)
  | reviewComment (author : Digest) (proposal : ObjectId) (body : String) (resolves : Bool)
      (createdAt : ℕ)
  | boardPost (author : Digest) (board body : String) (parent : Option ObjectId) (createdAt : ℕ)
  | repoRecord (owner : Digest) (name description : String) (seq : ℕ)
  | httpRequest (method path date : String)

namespace Statement

def scheme : Statement → Scheme
  | policyRoot _ => .policyRoot
  | attestation _ _ => .attestation
  | refOp _ _ _ => .refOp
  | hubPush _ => .hubPush
  | profile _ _ _ _ _ _ => .profile
  | edge _ _ _ _ _ => .edge
  | relayAuth _ => .relayAuth
  | changeProposal _ _ _ _ _ => .changeProposal
  | reviewComment _ _ _ _ _ => .reviewComment
  | boardPost _ _ _ _ _ => .boardPost
  | repoRecord _ _ _ _ => .repoRecord
  | httpRequest _ _ _ => .httpRequest

/-- The bytes that are signed. -/
def message : Statement → Bytes
  | policyRoot root => policyRootMessage root
  | attestation target head => attestationMessage target head
  | refOp name expectedOld newHead => refOpMessage name expectedOld newHead
  | hubPush nonce => challengeMessage nonce
  | profile key displayName bio endpoints dnsAliases seq =>
      profileMessage ⟨key, displayName, bio, endpoints, dnsAliases, seq, []⟩
  | edge fromKey toKey kind petname seq => edgeMessage ⟨fromKey, toKey, kind, petname, seq, []⟩
  | relayAuth nonce => relayChallengeMessage nonce
  | changeProposal author source target title createdAt =>
      proposalMessage ⟨author, source, target, title, createdAt, []⟩
  | reviewComment author proposal body resolves createdAt =>
      commentMessage ⟨author, proposal, body, resolves, createdAt, []⟩
  | boardPost author board body parent createdAt =>
      postMessage ⟨author, board, body, parent, createdAt, []⟩
  | repoRecord owner name description seq => repoMessage ⟨owner, name, description, seq, []⟩
  | httpRequest method path date => requestMessage method path date

/-- The values that the fields can have.  Numbers are `u64`s and lengths `usize`s; a method of the
`http` crate is a token, and the date of a request has been parsed as a number. -/
def Fits : Statement → Prop
  | profile _ displayName bio endpoints dnsAliases seq =>
      FitsStr displayName ∧ FitsStr bio ∧
        (endpoints.length < 2 ^ 64 ∧ ∀ e ∈ endpoints, FitsStr e) ∧
        (dnsAliases.length < 2 ^ 64 ∧ ∀ a ∈ dnsAliases, FitsStr a) ∧ seq < 2 ^ 64
  | edge _ _ _ petname seq => (∀ p ∈ petname, FitsStr p) ∧ seq < 2 ^ 64
  | changeProposal _ source target title createdAt =>
      FitsStr source ∧ FitsStr target ∧ FitsStr title ∧ createdAt < 2 ^ 64
  | reviewComment _ _ body _ createdAt => FitsStr body ∧ createdAt < 2 ^ 64
  | boardPost _ board body _ createdAt => FitsStr board ∧ FitsStr body ∧ createdAt < 2 ^ 64
  | repoRecord _ name description seq => FitsStr name ∧ FitsStr description ∧ seq < 2 ^ 64
  | httpRequest method _ date => '\n' ∉ method.toList ∧ (parseU64 date).isSome
  | _ => True

/-! ### Tags -/

/-- The tags differ within their first thirteen bytes. -/
lemma domain_take {a b : Scheme} (h : a.domain.take 13 = b.domain.take 13) : a = b := by
  revert h
  cases a <;> cases b <;> decide +kernel

lemma le_length_domain (a : Scheme) : 13 ≤ a.domain.length := by
  cases a <;> decide +kernel

/-- The message behind the tag. -/
def fields (s : Statement) : Bytes := s.message.drop s.scheme.domain.length

/-- A message begins with its tag. -/
lemma message_eq (s : Statement) : s.message = s.scheme.domain ++ s.fields := by
  have hbegins : s.scheme.domain <+: s.message := by
    cases s <;> simp only [message, scheme, Scheme.domain, policyRootMessage, attestationMessage,
      refOpMessage, challengeMessage, profileMessage, edgeMessage, relayChallengeMessage,
      proposalMessage, commentMessage, postMessage, repoMessage, requestMessage,
      List.append_assoc, List.prefix_append, List.prefix_append_right_inj]
  rw [fields, List.prefix_iff_eq_append.mp hbegins]

/-- A message tells its scheme. -/
lemma scheme_eq {s t : Statement} (h : s.message = t.message) : s.scheme = t.scheme := by
  apply domain_take
  rw [message_eq, message_eq t] at h
  have htake := congrArg (List.take 13) h
  rwa [List.take_append_of_le_length (le_length_domain _),
    List.take_append_of_le_length (le_length_domain _)] at htake

/-! ### Fields -/

/-- The statement of a profile. -/
def ofProfile (p : Profile) : Statement :=
  .profile p.key p.displayName p.bio p.endpoints p.dnsAliases p.seq

/-- The statement of a trust edge. -/
def ofEdge (e : TrustEdge) : Statement := .edge e.fromKey e.toKey e.kind e.petname e.seq

/-- The statement of a change proposal. -/
def ofProposal (p : ChangeProposal) : Statement :=
  .changeProposal p.author p.source p.target p.title p.createdAt

/-- The statement of a review comment. -/
def ofComment (c : ReviewComment) : Statement :=
  .reviewComment c.author c.proposal c.body c.resolves c.createdAt

/-- The statement of a post. -/
def ofPost (p : Post) : Statement := .boardPost p.author p.board p.body p.parent p.createdAt

/-- The statement of a repo record. -/
def ofRepo (r : RepoRecord) : Statement := .repoRecord r.owner r.name r.description r.seq

lemma profileMessage_inj {p q : Profile} (hp : (ofProfile p).Fits) (hq : (ofProfile q).Fits)
    (h : profileMessage p = profileMessage q) : ofProfile p = ofProfile q := by
  obtain ⟨key, name, bio, endpoints, aliases, seq, sig⟩ := p
  obtain ⟨key', name', bio', endpoints', aliases', seq', sig'⟩ := q
  obtain ⟨hn, hb, he, ha, hs⟩ := hp
  obtain ⟨hn', hb', he', ha', hs'⟩ := hq
  simp only [profileMessage, profileMsg, List.append_assoc, List.append_cancel_left_eq] at h
  obtain ⟨rfl, h₁⟩ := digest_delimited trivial trivial h
  obtain ⟨rfl, h₂⟩ := str_delimited hn hn' h₁
  obtain ⟨rfl, h₃⟩ := str_delimited hb hb' h₂
  obtain ⟨rfl, h₄⟩ := seq_delimited str_delimited he he' h₃
  obtain ⟨rfl, h₅⟩ := seq_delimited str_delimited ha ha' h₄
  obtain rfl := varint_delimited.inj hs hs' h₅
  rfl

lemma trustKind_injective : Function.Injective trustKind := by
  intro k k'
  cases k <;> cases k' <;> decide

lemma edgeMessage_inj {e f : TrustEdge} (he : (ofEdge e).Fits) (hf : (ofEdge f).Fits)
    (h : edgeMessage e = edgeMessage f) : ofEdge e = ofEdge f := by
  obtain ⟨source, target, kind, petname, seq, sig⟩ := e
  obtain ⟨source', target', kind', petname', seq', sig'⟩ := f
  obtain ⟨hp, hs⟩ := he
  obtain ⟨hp', hs'⟩ := hf
  simp only [edgeMessage, edgeMsg, List.append_assoc, List.append_cancel_left_eq] at h
  obtain ⟨rfl, h₁⟩ := digest_delimited trivial trivial h
  obtain ⟨rfl, h₂⟩ := digest_delimited trivial trivial h₁
  obtain ⟨hkind, h₃⟩ := List.cons.inj h₂
  obtain rfl := trustKind_injective hkind
  obtain ⟨rfl, h₄⟩ := option_delimited str_delimited hp hp' h₃
  obtain rfl := varint_delimited.inj hs hs' h₄
  rfl

lemma proposalMessage_inj {p q : ChangeProposal} (hp : (ofProposal p).Fits)
    (hq : (ofProposal q).Fits) (h : proposalMessage p = proposalMessage q) :
    ofProposal p = ofProposal q := by
  obtain ⟨author, source, target, title, createdAt, sig⟩ := p
  obtain ⟨author', source', target', title', createdAt', sig'⟩ := q
  obtain ⟨hs, ht, hn, hc⟩ := hp
  obtain ⟨hs', ht', hn', hc'⟩ := hq
  simp only [proposalMessage, proposalMsg, List.append_assoc, List.append_cancel_left_eq] at h
  obtain ⟨rfl, h₁⟩ := digest_delimited trivial trivial h
  obtain ⟨rfl, h₂⟩ := str_delimited hs hs' h₁
  obtain ⟨rfl, h₃⟩ := str_delimited ht ht' h₂
  obtain ⟨rfl, h₄⟩ := str_delimited hn hn' h₃
  obtain rfl := varint_delimited.inj hc hc' h₄
  rfl

lemma commentMessage_inj {c d : ReviewComment} (hc : (ofComment c).Fits) (hd : (ofComment d).Fits)
    (h : commentMessage c = commentMessage d) : ofComment c = ofComment d := by
  obtain ⟨author, proposal, body, resolves, createdAt, sig⟩ := c
  obtain ⟨author', proposal', body', resolves', createdAt', sig'⟩ := d
  obtain ⟨hb, ht⟩ := hc
  obtain ⟨hb', ht'⟩ := hd
  simp only [commentMessage, List.append_assoc, List.append_cancel_left_eq] at h
  obtain ⟨rfl, h₁⟩ := digest_delimited trivial trivial h
  obtain ⟨rfl, h₂⟩ := objectId_delimited trivial trivial h₁
  obtain ⟨rfl, h₃⟩ := str_delimited hb hb' h₂
  obtain ⟨hflag, h₄⟩ := List.cons.inj h₃
  obtain rfl : resolves = resolves' := by
    cases resolves <;> cases resolves' <;> simp_all
  obtain rfl := varint_delimited.inj ht ht' h₄
  rfl

lemma postMessage_inj {p q : Post} (hp : (ofPost p).Fits) (hq : (ofPost q).Fits)
    (h : postMessage p = postMessage q) : ofPost p = ofPost q := by
  obtain ⟨author, board, body, parent, createdAt, sig⟩ := p
  obtain ⟨author', board', body', parent', createdAt', sig'⟩ := q
  obtain ⟨hn, hb, ht⟩ := hp
  obtain ⟨hn', hb', ht'⟩ := hq
  simp only [postMessage, List.append_assoc, List.append_cancel_left_eq] at h
  obtain ⟨rfl, h₁⟩ := digest_delimited trivial trivial h
  obtain ⟨rfl, h₂⟩ := str_delimited hn hn' h₁
  obtain ⟨rfl, h₃⟩ := str_delimited hb hb' h₂
  obtain ⟨rfl, h₄⟩ := option_delimited objectId_delimited (by simp) (by simp) h₃
  obtain rfl := varint_delimited.inj ht ht' h₄
  rfl

lemma repoMessage_inj {r q : RepoRecord} (hr : (ofRepo r).Fits) (hq : (ofRepo q).Fits)
    (h : repoMessage r = repoMessage q) : ofRepo r = ofRepo q := by
  obtain ⟨owner, name, description, seq, sig⟩ := r
  obtain ⟨owner', name', description', seq', sig'⟩ := q
  obtain ⟨hn, hd, hs⟩ := hr
  obtain ⟨hn', hd', hs'⟩ := hq
  simp only [repoMessage, repoMsg, List.append_assoc, List.append_cancel_left_eq] at h
  obtain ⟨rfl, h₁⟩ := digest_delimited trivial trivial h
  obtain ⟨rfl, h₂⟩ := str_delimited hn hn' h₁
  obtain ⟨rfl, h₃⟩ := str_delimited hd hd' h₂
  obtain rfl := varint_delimited.inj hs hs' h₃
  rfl

/-- The head of an attestation has a fixed length, so that the target need not be delimited. -/
lemma attestationMessage_inj {target target' : String} {head head' : ObjectId}
    (h : attestationMessage target head = attestationMessage target' head') :
    target = target' ∧ head = head' := by
  simp only [attestationMessage, List.append_assoc, List.append_cancel_left_eq] at h
  obtain ⟨htarget, htail⟩ := List.append_inj' h (by simp)
  exact ⟨strBytes_injective htarget, ObjectId.asBytes_injective (List.cons.inj htail).2⟩

/-- No character but NUL has the byte zero in its encoding. -/
lemma zero_notMem_strBytes {s : String} (h : '\x00' ∉ s.toList) : 0 ∉ strBytes s :=
  fun hmem => h ((Utf8.mem_encode_iff (a := '\x00') (by decide)).mp hmem)

/-- No segment of a ref name contains NUL. -/
lemma zero_notMem_refName (n : RefName) : 0 ∉ strBytes n.asStr := by
  apply zero_notMem_strBytes
  intro hmem
  have hjoin : ['/'].intercalate n.segments = n.name.toList := List.intercalate_splitOn '/'
  obtain ⟨segment, hsegment, hnul⟩ := Words.mem_intercalate (by decide) (hjoin ▸ hmem)
  exact (RefName.segment_rules hsegment).2.2 hnul

/-- A ref name ends at the first zero; whether there is an expected head shows in the length. -/
lemma refOpMessage_inj {name name' : RefName} {old old' : Option ObjectId} {new new' : ObjectId}
    (h : refOpMessage name old new = refOpMessage name' old' new') :
    name = name' ∧ old = old' ∧ new = new' := by
  simp only [refOpMessage, List.append_assoc, List.append_cancel_left_eq] at h
  simp only [List.singleton_append] at h
  obtain ⟨hname, hrest⟩ := terminated (zero_notMem_refName name) (zero_notMem_refName name') h
  obtain ⟨hold, hnew⟩ := List.append_inj' hrest (by simp)
  refine ⟨?_, ?_, ObjectId.asBytes_injective (List.cons.inj hnew).2⟩
  · have hstr := strBytes_injective hname
    rw [RefName.asStr, RefName.asStr] at hstr
    cases name
    cases name'
    simpa using hstr
  · cases old with
    | none =>
        cases old' with
        | none => rfl
        | some o => simpa using congrArg List.length hold
    | some o =>
        cases old' with
        | none => simpa using congrArg List.length hold
        | some o' => exact congrArg some (ObjectId.asBytes_injective hold)

lemma newline_notMem_date {date : String} (h : (parseU64 date).isSome) : '\n' ∉ date.toList := by
  intro hmem
  rw [parseU64] at h
  have hdigits : ∀ digits : List Char, '\n' ∈ digits → ¬ digits.all Char.isDigit := by
    intro digits hnl hall
    exact absurd (List.all_eq_true.mp hall _ hnl) (by decide)
  split at h
  · next rest hrest =>
      rw [hrest] at hmem
      have hnl : '\n' ∈ rest := (List.mem_cons.mp hmem).resolve_left (by decide)
      rw [if_pos (Or.inr (hdigits _ hnl))] at h
      cases h
  · rw [if_pos (Or.inr (hdigits _ hmem))] at h
    cases h

/-- A method ends at the first newline, and a date begins behind the last but one. -/
lemma requestMessage_inj {method method' path path' date date' : String}
    (hs : (httpRequest method path date).Fits) (ht : (httpRequest method' path' date').Fits)
    (h : requestMessage method path date = requestMessage method' path' date') :
    method = method' ∧ path = path' ∧ date = date' := by
  rw [requestMessage, requestMessage, List.append_cancel_left_eq] at h
  have htext := congrArg String.toList (strBytes_injective h)
  have hnl : "\n".toList = ['\n'] := rfl
  simp only [String.toList_append, hnl, List.append_assoc, List.cons_append,
    List.nil_append] at htext
  obtain ⟨hmethod, hrest⟩ := terminated hs.1 ht.1 htext
  have hassoc : ∀ p d e : List Char, p ++ '\n' :: (d ++ '\n' :: e) =
      (p ++ '\n' :: d) ++ '\n' :: e := by simp
  rw [hassoc, hassoc, List.append_cancel_right_eq] at hrest
  -- what is left is the path and the date, with the last newline between them
  have hback := congrArg List.reverse hrest
  simp only [List.reverse_append, List.reverse_cons, List.append_assoc,
    List.singleton_append] at hback
  obtain ⟨hdate, hpath⟩ := terminated (by simpa using newline_notMem_date hs.2)
    (by simpa using newline_notMem_date ht.2) hback
  exact ⟨String.toList_injective hmethod, String.toList_injective (List.reverse_injective hpath),
    String.toList_injective (List.reverse_injective hdate)⟩

/-! ### Messages -/

/-- No two statements have the same message. -/
lemma message_injective {s t : Statement} (hs : s.Fits) (ht : t.Fits)
    (h : s.message = t.message) : s = t := by
  have hscheme := scheme_eq h
  -- of the pairs of schemes only the twelve with twice the same are left
  cases s <;> cases t <;> cases hscheme
  case policyRoot root root' =>
    exact congrArg _ (ObjectId.asBytes_injective (List.append_cancel_left h))
  case attestation =>
    obtain ⟨rfl, rfl⟩ := attestationMessage_inj h
    rfl
  case refOp =>
    obtain ⟨rfl, rfl, rfl⟩ := refOpMessage_inj h
    rfl
  case hubPush => exact congrArg _ (Digest.ext' (List.append_cancel_left h))
  case profile =>
    exact profileMessage_inj (p := ⟨_, _, _, _, _, _, []⟩) (q := ⟨_, _, _, _, _, _, []⟩) hs ht h
  case edge =>
    exact edgeMessage_inj (e := ⟨_, _, _, _, _, []⟩) (f := ⟨_, _, _, _, _, []⟩) hs ht h
  case relayAuth => exact congrArg _ (Digest.ext' (List.append_cancel_left h))
  case changeProposal =>
    exact proposalMessage_inj (p := ⟨_, _, _, _, _, []⟩) (q := ⟨_, _, _, _, _, []⟩) hs ht h
  case reviewComment =>
    exact commentMessage_inj (c := ⟨_, _, _, _, _, []⟩) (d := ⟨_, _, _, _, _, []⟩) hs ht h
  case boardPost =>
    exact postMessage_inj (p := ⟨_, _, _, _, _, []⟩) (q := ⟨_, _, _, _, _, []⟩) hs ht h
  case repoRecord =>
    exact repoMessage_inj (r := ⟨_, _, _, _, []⟩) (q := ⟨_, _, _, _, []⟩) hs ht h
  case httpRequest =>
    obtain ⟨rfl, rfl, rfl⟩ := requestMessage_inj hs ht h
    rfl

/-- **Signed messages are unambiguous.**  No two statements, of one scheme or of two, have the
same message; a signature that is good for one message only is good for one statement only. -/
theorem signed_unambiguous {s t : Statement} (hs : s.Fits) (ht : t.Fits) :
    (s.message = t.message → s = t) ∧
      ∀ (L : Linked) (key : Digest) (sig : Bytes),
        (∀ m m', L.ed25519Verify key m sig = true → L.ed25519Verify key m' sig = true → m = m') →
        L.ed25519Verify key s.message sig = true → L.ed25519Verify key t.message sig = true →
        s = t := by
  refine ⟨message_injective hs ht, fun L key sig hone hvs hvt => ?_⟩
  exact message_injective hs ht (hone _ _ hvs hvt)

/-- An empty profile and an empty repo record of one key are signed as different bytes. -/
theorem signed_unambiguous_profile_repo :
    (profile (.replicate 0) "" "" [] [] 0).message ≠
      (repoRecord (.replicate 0) "" "" 0).message := by
  intro h
  have hempty : FitsStr "" := Nat.two_pow_pos 64
  have hnone : ([] : List String).length < 2 ^ 64 ∧ ∀ e ∈ ([] : List String), FitsStr e := by simp
  have heq := (signed_unambiguous (s := profile (.replicate 0) "" "" [] [] 0)
    (t := repoRecord (.replicate 0) "" "" 0)
    ⟨hempty, hempty, hnone, hnone, by decide⟩ ⟨hempty, hempty, by decide⟩).1 h
  cases heq

end Statement

end Bole
