import Bole.Repo.GitTree

/-!
What git reads in the commits and tags of an export.

* `readCommit`, `readTag`: git's grammar, as its object checker has it;
* `encodeCommit_reads`: the bytes of a commit read as its fields, where the author holds no
  character that ends or delimits a field;
* `encodeText_iff`: and only there; likewise for the name of a tag.
-/

namespace Bole

/-! ### Lines -/

/-- The bytes that end a text, a line or a name. -/
def nulByte : UInt8 := 0

def lineFeed : UInt8 := 10

/-- The header lines, up to the first empty line, and what is behind that.  No header holds a
NUL. -/
def splitHeader (data : Bytes) : Option (List Bytes × Bytes) :=
  let lines := data.splitOn lineFeed
  let headers := lines.takeWhile (· ≠ [])
  if headers.length = lines.length ∨ ∃ l ∈ headers, nulByte ∈ l then none
  else some (headers, [lineFeed].intercalate (lines.drop (headers.length + 1)))

/-- What is behind a keyword. -/
def afterKey (key : String) (line : Bytes) : Option Bytes :=
  if strBytes key <+: line then some (line.drop (strBytes key).length) else none

/-! ### Ids, numbers and identities -/

/-- A lowercase hex digit. -/
def hexValue (b : UInt8) : Option ℕ :=
  if 48 ≤ b.toNat ∧ b.toNat ≤ 57 then some (b.toNat - 48)
  else if 97 ≤ b.toNat ∧ b.toNat ≤ 102 then some (b.toNat - 87)
  else none

/-- The bytes that hex digits stand for. -/
def readHex : Bytes → Option Bytes
  | [] => some []
  | hi :: lo :: rest =>
      match hexValue hi, hexValue lo, readHex rest with
      | some h, some l, some bytes => some (UInt8.ofNat (16 * h + l) :: bytes)
      | _, _, _ => none
  | _ => none

/-- An id of 20 bytes. -/
def readOid (hex : Bytes) : Option GitId :=
  match readHex hex with
  | some bytes => if bytes.length = 20 then some ⟨bytes⟩ else none
  | none => none

/-- A number in decimal. -/
def readDecimal (bytes : Bytes) : Option ℕ :=
  if bytes ≠ [] ∧ ∀ c ∈ Utf8.asciiChars bytes, c.isDigit then
    some (Nat.ofDigitChars 10 (Utf8.asciiChars bytes) 0)
  else none

/-- A time zone: a sign and four digits. -/
def IsZone (zone : Bytes) : Prop :=
  zone.length = 5 ∧ (zone.head? = some 43 ∨ zone.head? = some 45) ∧
    ∀ c ∈ Utf8.asciiChars zone.tail, c.isDigit

instance (zone : Bytes) : Decidable (IsZone zone) := inferInstanceAs (Decidable (_ ∧ _ ∧ _))

/-- Who, and when. -/
structure GitIdent where
  name : Bytes
  email : Bytes
  seconds : ℕ
  zone : Bytes
deriving DecidableEq

/-- The name is what is before the first angle bracket and the blank there, the address what is in
the brackets; behind them are the seconds and the time zone. -/
def readIdent (line : Bytes) : Option GitIdent :=
  match Words.upTo 60 line with
  | none => none
  | some (named, rest) =>
      match Words.upTo 62 rest with
      | none => none
      | some (email, rest) =>
          match Words.upTo 32 (rest.drop 1) with
          | none => none
          | some (digits, zone) =>
              if named.getLast? = some 32 ∧ 62 ∉ named ∧ 60 ∉ email ∧ rest.head? = some 32 ∧
                  IsZone zone then
                (readDecimal digits).map fun seconds => ⟨named.dropLast, email, seconds, zone⟩
              else none

/-! ### Commits and tags -/

/-- A commit, as its bytes say. -/
structure GitCommitText where
  tree : GitId
  parents : List GitId
  author : GitIdent
  committer : GitIdent
  extra : List Bytes
  message : Bytes
deriving DecidableEq

/-- The parents, and the lines behind them. -/
def readParents : List Bytes → Option (List GitId × List Bytes)
  | [] => some ([], [])
  | line :: rest =>
      match afterKey "parent " line with
      | none => some ([], line :: rest)
      | some hex =>
          match readOid hex, readParents rest with
          | some p, some (ps, rest) => some (p :: ps, rest)
          | _, _ => none

/-- A line that names an object. -/
def readOidLine (key : String) (line : Bytes) : Option GitId := (afterKey key line).bind readOid

/-- A line that names a person. -/
def readIdentLine (key : String) (line : Bytes) : Option GitIdent :=
  (afterKey key line).bind readIdent

/-- A commit: its tree, its parents, its author, its committer and perhaps more, then its
message. -/
def readCommit (data : Bytes) : Option GitCommitText :=
  match splitHeader data with
  | some (treeLine :: headers, message) =>
      match readOidLine "tree " treeLine, readParents headers with
      | some tree, some (parents, authorLine :: committerLine :: extra) =>
          match readIdentLine "author " authorLine, readIdentLine "committer " committerLine with
          | some author, some committer =>
              some ⟨tree, parents, author, committer, extra, message⟩
          | _, _ => none
      | _, _ => none
  | _ => none

/-- An annotated tag, as its bytes say. -/
structure GitTagText where
  object : GitId
  kind : Bytes
  name : Bytes
  tagger : GitIdent
  extra : List Bytes
  message : Bytes
deriving DecidableEq

/-- A tag: its object and the kind of that, its name and its tagger, then its message. -/
def readTag (data : Bytes) : Option GitTagText :=
  match splitHeader data with
  | some (objectLine :: kindLine :: nameLine :: taggerLine :: extra, message) =>
      match readOidLine "object " objectLine, afterKey "type " kindLine, afterKey "tag " nameLine,
        readIdentLine "tagger " taggerLine with
      | some object, some kind, some name, some tagger =>
          some ⟨object, kind, name, tagger, extra, message⟩
      | _, _, _, _ => none
  | _ => none

/-! ### Lines that are written -/

lemma splitOn_lines (headers : List Bytes) (rest : Bytes) (h : ∀ l ∈ headers, lineFeed ∉ l) :
    (headers.flatMap (· ++ [lineFeed]) ++ rest).splitOn lineFeed =
      headers ++ rest.splitOn lineFeed := by
  induction headers with
  | nil => rfl
  | cons l headers ih =>
      obtain ⟨hl, hrest⟩ := List.forall_mem_cons.mp h
      rw [List.flatMap_cons, List.append_assoc, List.append_assoc, List.singleton_append,
        List.splitOn_append_cons_self_of_not_mem hl, ih hrest, List.cons_append]

/-- **Header lines are read back**, with what is behind the empty line. -/
lemma splitHeader_lines {headers : List Bytes} (message : Bytes)
    (h : ∀ l ∈ headers, l ≠ [] ∧ lineFeed ∉ l ∧ nulByte ∉ l) :
    splitHeader (headers.flatMap (· ++ [lineFeed]) ++ lineFeed :: message) =
      some (headers, message) := by
  have hlines := splitOn_lines headers (lineFeed :: message) fun l hl => (h l hl).2.1
  have hblank : ([] ++ lineFeed :: message).splitOn lineFeed = [] :: message.splitOn lineFeed :=
    List.splitOn_append_cons_self_of_not_mem List.not_mem_nil _
  rw [List.nil_append] at hblank
  rw [hblank] at hlines
  have htake : (headers ++ [] :: message.splitOn lineFeed).takeWhile (· ≠ []) = headers := by
    rw [List.takeWhile_append_of_pos fun l hl => by simpa using (h l hl).1]
    simp
  have hnone : ¬ (headers.length = (headers ++ [] :: message.splitOn lineFeed).length ∨
      ∃ l ∈ headers, nulByte ∈ l) := by
    rintro (hlength | ⟨l, hl, hnul⟩)
    · simp at hlength
    · exact (h l hl).2.2 hnul
  have hdrop : (headers ++ [] :: message.splitOn lineFeed).drop (headers.length + 1) =
      message.splitOn lineFeed := by
    rw [← List.drop_drop, List.drop_left, List.drop_one, List.tail_cons]
  rw [splitHeader, hlines, htake, if_neg hnone, hdrop, List.intercalate_splitOn]

/-- No header line holds what ends a line or a text. -/
lemma mem_splitHeader {data message : Bytes} {headers : List Bytes}
    (h : splitHeader data = some (headers, message)) {l : Bytes} (hl : l ∈ headers) :
    lineFeed ∉ l ∧ nulByte ∉ l := by
  rw [splitHeader] at h
  split_ifs at h with hbad
  obtain ⟨rfl, -⟩ := Prod.mk.inj (Option.some.inj h)
  refine ⟨?_, fun hnul => hbad (.inr ⟨l, hl, hnul⟩)⟩
  exact Words.notMem_of_mem_splitOn ((List.takeWhile_prefix _).subset hl)

/-! ### Fields that are written -/

lemma strBytes_append (s t : String) : strBytes (s ++ t) = strBytes s ++ strBytes t := by
  rw [strBytes, String.toList_append, List.flatMap_append]
  rfl

lemma afterKey_append (key s : String) :
    afterKey key (strBytes (key ++ s)) = some (strBytes s) := by
  rw [strBytes_append, afterKey, if_pos (List.prefix_append _ _), List.drop_left]

lemma readHex_hexByte (b : UInt8) (rest : Bytes) :
    readHex (Utf8.encode (Digest.hexByte b) ++ rest) = (readHex rest).map (b :: ·) := by
  have hdigit : ∀ n < 16, String.utf8EncodeChar (Digest.hexDigit n) =
      [UInt8.ofNat (Digest.hexDigit n).toNat] ∧
        hexValue (UInt8.ofNat (Digest.hexDigit n).toNat) = some n := by decide
  have hb := b.toNat_lt
  obtain ⟨hhi, hhi'⟩ := hdigit (b.toNat / 16) (by omega)
  obtain ⟨hlo, hlo'⟩ := hdigit (b.toNat % 16) (by omega)
  have hbyte : UInt8.ofNat (16 * (b.toNat / 16) + b.toNat % 16) = b := by
    rw [Nat.div_add_mod, UInt8.ofNat_toNat]
  rw [Digest.hexByte, Utf8.encode_cons, Utf8.encode_cons, Utf8.encode_nil, hhi, hlo]
  rw [List.append_nil, List.append_assoc, List.singleton_append, List.singleton_append,
    readHex.eq_def]
  dsimp only
  rw [hhi', hlo']
  cases readHex rest with
  | none => rfl
  | some bytes => simp [hbyte]

lemma readHex_toHex (bytes : Bytes) :
    readHex (Utf8.encode (bytes.flatMap Digest.hexByte)) = some bytes := by
  induction bytes with
  | nil => rfl
  | cons b bytes ih =>
      rw [List.flatMap_cons, Utf8.encode_append, readHex_hexByte, ih, Option.map_some]

lemma readOid_toHex {id : GitId} (h : id.bytes.length = 20) :
    readOid (strBytes id.toHex) = some id := by
  have hhex : readHex (strBytes id.toHex) = some id.bytes := by
    rw [strBytes, id.toList_toHex]
    exact readHex_toHex id.bytes
  rw [readOid, hhex]
  exact if_pos h

lemma readDecimal_toString (n : ℕ) : readDecimal (strBytes (toString n)) = some n := by
  have hlist : (toString n).toList = Nat.toDigits 10 n := Nat.toList_repr
  have hdigit : ∀ c ∈ Nat.toDigits 10 n, c.isDigit := fun c hc =>
    Nat.isDigit_of_mem_toDigits (by omega) le_rfl hc
  have hascii : Utf8.asciiChars (strBytes (toString n)) = Nat.toDigits 10 n := by
    rw [strBytes, hlist]
    refine Utf8.asciiChars_encode fun c hc => ?_
    have := hdigit c hc
    simp only [Char.isDigit, Bool.and_eq_true, decide_eq_true_eq, UInt32.le_iff_toNat_le] at this
    have hnine : '9'.val.toNat = 57 := rfl
    omega
  have hne : strBytes (toString n) ≠ [] := strBytes_ne_nil (by
    rw [hlist]
    exact Nat.toDigits_ne_nil)
  rw [readDecimal, hascii, if_pos ⟨hne, hdigit⟩, Nat.ofDigitChars_ten_toDigits]

/-! ### Identities -/

/-- The text holds nothing that ends a text or a line. -/
def OneLine (s : String) : Prop := '\x00' ∉ s.toList ∧ '\n' ∉ s.toList

/-- Nor an angle bracket. -/
def Plain (s : String) : Prop := OneLine s ∧ '<' ∉ s.toList ∧ '>' ∉ s.toList

instance (s : String) : Decidable (OneLine s) := inferInstanceAs (Decidable (_ ∧ _))

instance (s : String) : Decidable (Plain s) := inferInstanceAs (Decidable (_ ∧ _ ∧ _))

lemma oneLine_iff {s : String} : OneLine s ↔ nulByte ∉ strBytes s ∧ lineFeed ∉ strBytes s :=
  and_congr (not_congr (Utf8.mem_encode_iff (a := '\x00') (by decide)).symm)
    (not_congr (Utf8.mem_encode_iff (a := '\n') (by decide)).symm)

lemma plain_iff {s : String} :
    Plain s ↔ OneLine s ∧ (60 : UInt8) ∉ strBytes s ∧ (62 : UInt8) ∉ strBytes s :=
  and_congr_right fun _ => and_congr
    (not_congr (Utf8.mem_encode_iff (a := '<') (by decide)).symm)
    (not_congr (Utf8.mem_encode_iff (a := '>') (by decide)).symm)

lemma OneLine.append {s t : String} (hs : OneLine s) (ht : OneLine t) : OneLine (s ++ t) := by
  rw [OneLine, String.toList_append, List.mem_append, List.mem_append]
  exact ⟨not_or.mpr ⟨hs.1, ht.1⟩, not_or.mpr ⟨hs.2, ht.2⟩⟩

lemma isDigit_of_mem_toString {n : ℕ} {c : Char} (h : c ∈ (toString n).toList) : c.isDigit := by
  have hlist : (toString n).toList = Nat.toDigits 10 n := Nat.toList_repr
  exact Nat.isDigit_of_mem_toDigits (by omega) le_rfl (hlist ▸ h)

lemma oneLine_toString (n : ℕ) : OneLine (toString n) :=
  ⟨fun h => absurd (isDigit_of_mem_toString h) (by decide),
    fun h => absurd (isDigit_of_mem_toString h) (by decide)⟩

lemma isZone_utc : IsZone (strBytes "+0000") := by
  have hbytes : strBytes "+0000" = [43, 48, 48, 48, 48] := by decide
  have hzeros : Utf8.asciiChars [48, 48, 48, 48] = ['0', '0', '0', '0'] := rfl
  rw [hbytes]
  refine ⟨rfl, .inl rfl, fun c hc => ?_⟩
  obtain rfl : c = '0' := by
    rw [List.tail_cons, hzeros] at hc
    simpa using hc
  rfl

/-- The line of a person at `<bole@local>`. -/
def identityLine (name : String) (seconds : ℕ) : String :=
  name ++ " <bole@local> " ++ toString seconds ++ " +0000"

/-- As it is read. -/
def boleIdent (name : String) (seconds : ℕ) : GitIdent :=
  ⟨strBytes name, strBytes "bole@local", seconds, strBytes "+0000"⟩

/-- **A plain name is read back**, with the time. -/
lemma readIdent_identityLine {name : String} (h : Plain name) (seconds : ℕ) :
    readIdent (strBytes (identityLine name seconds)) = some (boleIdent name seconds) := by
  obtain ⟨-, hlt, hgt⟩ := plain_iff.mp h
  have hline : strBytes (identityLine name seconds) = (strBytes name ++ [32]) ++ 60 ::
      (strBytes "bole@local" ++ 62 :: (32 :: (strBytes (toString seconds) ++ 32 ::
        strBytes "+0000"))) := by
    have hmail : strBytes " <bole@local> " = [32, 60] ++ (strBytes "bole@local" ++ [62, 32]) := by
      decide
    have hzone : strBytes " +0000" = 32 :: strBytes "+0000" := by decide
    rw [identityLine, strBytes_append, strBytes_append, strBytes_append, hmail, hzone]
    simp only [List.append_assoc, List.cons_append, List.nil_append]
  have hnamed : (60 : UInt8) ∉ strBytes name ++ [32] := by simp [hlt]
  have hmail : (62 : UInt8) ∉ strBytes "bole@local" := by decide
  have hdigits : (32 : UInt8) ∉ strBytes (toString seconds) := fun hmem =>
    absurd (isDigit_of_mem_toString ((Utf8.mem_encode_iff (a := ' ') (by decide)).mp hmem))
      (by decide)
  rw [readIdent, hline, Words.upTo_append hnamed]
  dsimp only
  rw [Words.upTo_append hmail]
  dsimp only
  rw [List.drop_one, List.tail_cons, Words.upTo_append hdigits]
  dsimp only
  rw [if_pos, readDecimal_toString, Option.map_some, List.dropLast_concat]
  · rfl
  · refine ⟨List.getLast?_concat, by simp [hgt], by decide, rfl, isZone_utc⟩

/-- The name that is read holds none of the characters that end it. -/
lemma name_of_readIdent {line : Bytes} {i : GitIdent} (h : readIdent line = some i) :
    i.name ⊆ line ∧ (60 : UInt8) ∉ i.name ∧ (62 : UInt8) ∉ i.name := by
  rw [readIdent] at h
  split at h
  · cases h
  next named rest hnamed =>
  split at h
  · cases h
  next email rest hemail =>
  split at h
  · cases h
  next digits zone hdigits =>
  split_ifs at h with hgood
  obtain ⟨seconds, -, rfl⟩ := Option.map_eq_some_iff.mp h
  obtain ⟨rfl, hlt⟩ := Words.upTo_eq_some.mp hnamed
  have hsub := List.dropLast_subset named
  exact ⟨fun b hb => List.mem_append_left _ (hsub hb), fun hmem => hlt (hsub hmem),
    fun hmem => hgood.2.1 (hsub hmem)⟩

/-! ### Commits that are written -/

section Encoding

variable {tree target : GitId} {parents : List GitId}

/-- The header lines of a commit. -/
def commitHeaders (tree : GitId) (parents : List GitId) (identity : String) : List String :=
  ("tree " ++ tree.toHex) :: (parents.map fun p => "parent " ++ p.toHex) ++
    ["author " ++ identity, "committer " ++ identity]

/-- And of a tag. -/
def tagHeaders (target : GitId) (name tagger : String) : List String :=
  ["object " ++ target.toHex, "type commit", "tag " ++ name, "tagger " ++ tagger]

lemma encodeCommit_lines (identity message : String) :
    encodeCommit tree parents identity message =
      ((commitHeaders tree parents identity).map strBytes).flatMap (· ++ [lineFeed]) ++
        lineFeed :: strBytes (withNewline message) := by
  have hbreak : strBytes "\n" = [lineFeed] := by decide
  have hblank : strBytes "\n\n" = [lineFeed, lineFeed] := by decide
  have hcommitter : strBytes "\ncommitter " = lineFeed :: strBytes "committer " := by decide
  have hparents : strBytes (String.join (parents.map fun p => "parent " ++ p.toHex ++ "\n")) =
      (parents.map fun p => strBytes "parent " ++ strBytes p.toHex).flatMap
        (· ++ [lineFeed]) := by
    rw [strBytes, String.toList_join, List.flatMap_assoc, List.flatMap_map, List.flatMap_map]
    refine List.flatMap_congr fun p _ => ?_
    exact (strBytes_append _ _).trans (by rw [strBytes_append, hbreak])
  simp only [encodeCommit, commitHeaders, strBytes_append, hparents, hbreak, hblank, hcommitter,
    List.map_cons, List.map_append, List.map_map, List.map_nil, List.flatMap_cons,
    List.flatMap_append, List.flatMap_nil, List.append_assoc, List.cons_append, List.nil_append,
    List.append_nil, Function.comp_def]

lemma encodeTag_lines (name tagger message : String) :
    encodeTag target name tagger message =
      ((tagHeaders target name tagger).map strBytes).flatMap (· ++ [lineFeed]) ++
        lineFeed :: strBytes (withNewline message) := by
  have hblank : strBytes "\n\n" = [lineFeed, lineFeed] := by decide
  have hkind : strBytes "\ntype commit\ntag " =
      lineFeed :: (strBytes "type commit" ++ lineFeed :: strBytes "tag ") := by decide
  have htagger : strBytes "\ntagger " = lineFeed :: strBytes "tagger " := by decide
  simp only [encodeTag, tagHeaders, strBytes_append, hblank, hkind, htagger, List.map_cons,
    List.map_nil, List.flatMap_cons, List.flatMap_nil, List.append_assoc, List.cons_append,
    List.nil_append, List.append_nil]

lemma oneLine_toHex (id : GitId) : OneLine id.toHex := by
  rw [OneLine, id.toList_toHex]
  exact ⟨Digest.notMem_hex (by decide) _, newline_notMem_hex _⟩

/-- A header that begins with a keyword can be split off. -/
lemma header_ok {key s : String} (hkey : OneLine key) (hne : key.toList ≠ []) (hs : OneLine s) :
    strBytes (key ++ s) ≠ [] ∧ lineFeed ∉ strBytes (key ++ s) ∧ nulByte ∉ strBytes (key ++ s) := by
  obtain ⟨hnul, hfeed⟩ := oneLine_iff.mp (hkey.append hs)
  exact ⟨strBytes_ne_nil (by simp [hne]), hfeed, hnul⟩

lemma commitHeaders_ok {identity : String} (h : OneLine identity) :
    ∀ l ∈ (commitHeaders tree parents identity).map strBytes,
      l ≠ [] ∧ lineFeed ∉ l ∧ nulByte ∉ l := by
  intro l hl
  simp only [commitHeaders, List.map_cons, List.map_append, List.map_map, List.map_nil,
    List.cons_append, List.mem_cons, List.mem_append, List.mem_map, List.not_mem_nil,
    or_false, Function.comp_apply] at hl
  rcases hl with rfl | ⟨p, -, rfl⟩ | rfl | rfl
  · exact header_ok (by decide) (by decide) (oneLine_toHex tree)
  · exact header_ok (by decide) (by decide) (oneLine_toHex p)
  · exact header_ok (by decide) (by decide) h
  · exact header_ok (by decide) (by decide) h

lemma tagHeaders_ok {name tagger : String} (hname : OneLine name) (h : OneLine tagger) :
    ∀ l ∈ (tagHeaders target name tagger).map strBytes, l ≠ [] ∧ lineFeed ∉ l ∧ nulByte ∉ l := by
  intro l hl
  simp only [tagHeaders, List.map_cons, List.map_nil, List.mem_cons, List.not_mem_nil,
    or_false] at hl
  rcases hl with rfl | rfl | rfl | rfl
  · exact header_ok (by decide) (by decide) (oneLine_toHex target)
  · exact @header_ok "type " "commit" (by decide) (by decide) (by decide)
  · exact header_ok (by decide) (by decide) hname
  · exact header_ok (by decide) (by decide) h

lemma readOidLine_toHex {id : GitId} (h : id.bytes.length = 20) (key : String) :
    readOidLine key (strBytes (key ++ id.toHex)) = some id := by
  rw [readOidLine, afterKey_append, Option.bind_some, readOid_toHex h]

lemma readIdentLine_identityLine {name : String} (h : Plain name) (seconds : ℕ) (key : String) :
    readIdentLine key (strBytes (key ++ identityLine name seconds)) =
      some (boleIdent name seconds) := by
  rw [readIdentLine, afterKey_append, Option.bind_some, readIdent_identityLine h]

lemma readParents_toHex (h : ∀ p ∈ parents, p.bytes.length = 20) (identity : String)
    (rest : List Bytes) :
    readParents ((parents.map fun p => strBytes ("parent " ++ p.toHex)) ++
      strBytes ("author " ++ identity) :: rest) =
        some (parents, strBytes ("author " ++ identity) :: rest) := by
  induction parents with
  | nil =>
      have hother : afterKey "parent " (strBytes ("author " ++ identity)) = none := by
        rw [afterKey, strBytes_append, if_neg]
        rintro ⟨l, hl⟩
        have hparent : strBytes "parent " = 112 :: strBytes "arent " := by decide
        have hauthor : strBytes "author " = 97 :: strBytes "uthor " := by decide
        rw [hparent, hauthor] at hl
        exact absurd (List.cons.inj hl).1 (by decide)
      rw [List.map_nil, List.nil_append, readParents, hother]
  | cons p ps ih =>
      obtain ⟨hp, hps⟩ := List.forall_mem_cons.mp h
      rw [List.map_cons, List.cons_append, readParents, afterKey_append]
      dsimp only
      rw [readOid_toHex hp, ih hps]

/-- **The bytes of a commit read as its fields**, where the name of its author is plain. -/
lemma encodeCommit_reads (htree : tree.bytes.length = 20)
    (hparents : ∀ p ∈ parents, p.bytes.length = 20) {name : String} (hname : Plain name)
    (seconds : ℕ) (message : String) :
    readCommit (encodeCommit tree parents (identityLine name seconds) message) =
      some ⟨tree, parents, boleIdent name seconds, boleIdent name seconds, [],
        strBytes (withNewline message)⟩ := by
  have hidentity : OneLine (identityLine name seconds) :=
    (((hname.1).append (by decide)).append (oneLine_toString seconds)).append (by decide)
  have hheaders : (commitHeaders tree parents (identityLine name seconds)).map strBytes =
      strBytes ("tree " ++ tree.toHex) ::
        ((parents.map fun p => strBytes ("parent " ++ p.toHex)) ++
          strBytes ("author " ++ identityLine name seconds) ::
            [strBytes ("committer " ++ identityLine name seconds)]) := by
    simp [commitHeaders, Function.comp_def]
  rw [readCommit, encodeCommit_lines, splitHeader_lines _ (commitHeaders_ok hidentity), hheaders]
  dsimp only
  rw [readOidLine_toHex htree, readParents_toHex hparents]
  dsimp only
  rw [readIdentLine_identityLine hname, readIdentLine_identityLine hname]

/-- And those of a tag, where its name is in one line. -/
lemma encodeTag_reads (htarget : target.bytes.length = 20) {name tagger : String}
    (hname : OneLine name) (htagger : Plain tagger) (seconds : ℕ) (message : String) :
    readTag (encodeTag target name (identityLine tagger seconds) message) =
      some ⟨target, strBytes "commit", strBytes name, boleIdent tagger seconds, [],
        strBytes (withNewline message)⟩ := by
  have hidentity : OneLine (identityLine tagger seconds) :=
    (((htagger.1).append (by decide)).append (oneLine_toString seconds)).append (by decide)
  have hkind : strBytes "type commit" = strBytes ("type " ++ "commit") := by decide
  rw [readTag, encodeTag_lines, splitHeader_lines _ (tagHeaders_ok hname hidentity), tagHeaders,
    List.map_cons, List.map_cons, List.map_cons, List.map_cons, List.map_nil, hkind]
  dsimp only
  rw [readOidLine_toHex htarget, afterKey_append, afterKey_append,
    readIdentLine_identityLine htagger]

lemma afterKey_subset {key : String} {line l : Bytes} (h : afterKey key line = some l) :
    l ⊆ line := by
  rw [afterKey] at h
  split_ifs at h
  obtain rfl := Option.some.inj h
  exact List.drop_subset _ _

lemma readParents_subset {lines rest : List Bytes} {ps : List GitId}
    (h : readParents lines = some (ps, rest)) : rest ⊆ lines := by
  induction lines generalizing ps with
  | nil =>
      cases h
      exact List.Subset.refl _
  | cons line lines ih =>
      rw [readParents] at h
      split at h
      · cases h
        exact List.Subset.refl _
      · split at h
        · next p qs rest' hp hqs =>
            obtain ⟨-, rfl⟩ := Prod.mk.inj (Option.some.inj h)
            exact List.subset_cons_of_subset _ (ih hqs)
        · cases h

/-- A text whose bytes are in one line of a header is in one line. -/
lemma oneLine_of_header {data message : Bytes} {headers : List Bytes}
    (h : splitHeader data = some (headers, message)) {l : Bytes} (hl : l ∈ headers) {s : String}
    (hs : strBytes s ⊆ l) : OneLine s :=
  oneLine_iff.mpr ⟨fun hnul => (mem_splitHeader h hl).2 (hs hnul),
    fun hfeed => (mem_splitHeader h hl).1 (hs hfeed)⟩

/-- The name of an author that is read is in one line, without angle brackets. -/
lemma author_of_readCommit {data : Bytes} {c : GitCommitText} {name : String}
    (h : readCommit data = some c) (hname : c.author.name = strBytes name) : Plain name := by
  rw [readCommit] at h
  split at h
  · next treeLine headers message hsplit =>
    split at h
    · next tree parents authorLine committerLine extra htree hparents =>
      split at h
      · next author committer hauthor hcommitter =>
        obtain rfl := Option.some.inj h
        obtain ⟨l, hl, hident⟩ := Option.bind_eq_some_iff.mp hauthor
        obtain ⟨hsub, hlt, hgt⟩ := name_of_readIdent hident
        have hname' : author.name = strBytes name := hname
        rw [hname'] at hsub hlt hgt
        have hmem : authorLine ∈ treeLine :: headers :=
          List.mem_cons_of_mem _ (readParents_subset hparents List.mem_cons_self)
        exact plain_iff.mpr ⟨oneLine_of_header hsplit hmem
          (List.Subset.trans hsub (afterKey_subset hl)), hlt, hgt⟩
      · cases h
    · cases h
  · cases h

/-- And so is the name of a tag. -/
lemma name_of_readTag {data : Bytes} {t : GitTagText} {name : String} (h : readTag data = some t)
    (hname : t.name = strBytes name) : OneLine name := by
  rw [readTag] at h
  split at h
  · next objectLine kindLine nameLine taggerLine extra message hsplit =>
    split at h
    · next object kind n tagger hobject hkind hn htagger =>
      obtain rfl := Option.some.inj h
      have hname' : n = strBytes name := hname
      exact oneLine_of_header hsplit (l := nameLine) (by simp) (hname' ▸ afterKey_subset hn)
    · cases h
  · cases h

/-- What a commit is read as: its tree, its parents in order, a name, the time and the message up
to a final line break, and nothing else. -/
def CommitReads (tree : GitId) (parents : List GitId) (snap : Snapshot) (name : String) : Prop :=
  readCommit (encodeCommit tree parents (commitIdentity snap) snap.message) =
    some ⟨tree, parents, boleIdent name snap.createdAt, boleIdent name snap.createdAt, [],
      strBytes (withNewline snap.message)⟩

/-- And a tag: its target, a name, the time and the message. -/
def TagReadsBack (target : GitId) (tag : Tag) (name message : String) : Prop :=
  readTag (encodeTag target name (tagIdentity tag) message) =
    some ⟨target, strBytes "commit", strBytes name, boleIdent "bole" tag.createdAt, [],
      strBytes (withNewline message)⟩

/-- The name that is written for the author of a snapshot. -/
def authorName (snap : Snapshot) : String := if snap.author.isEmpty then "bole" else snap.author

lemma commitIdentity_eq (snap : Snapshot) :
    commitIdentity snap = identityLine (authorName snap) snap.createdAt := rfl

lemma tagIdentity_eq (tag : Tag) : tagIdentity tag = identityLine "bole" tag.createdAt := by
  have hname : "bole <bole@local> " = "bole" ++ " <bole@local> " := by
    apply String.toList_injective
    rw [String.toList_append]
    decide
  exact congrArg (· ++ toString tag.createdAt ++ " +0000") hname

lemma plain_authorName {snap : Snapshot} : Plain (authorName snap) ↔ Plain snap.author := by
  rw [authorName]
  split_ifs with hempty
  · have hnil : snap.author = "" := by simpa using hempty
    rw [hnil]
    decide
  · exact Iff.rfl

end Encoding

variable {tree target : GitId} {parents : List GitId}

/-- A snapshot of the author. -/
def snapshotBy (author : String) : Snapshot := ⟨hiFile.refId, [], author, 5, "m"⟩

lemma withNewline_append (s message : String) :
    withNewline (s ++ withNewline message) = s ++ withNewline message := by
  have hlast : (withNewline message).toList.getLast? = some '\n' := by
    rw [withNewline]
    split_ifs with h
    · exact h
    · rw [String.toList_append]
      exact List.getLast?_concat
  rw [withNewline, if_pos]
  rw [String.toList_append, List.getLast?_append, hlast]
  rfl

/-- An author that begins with the lines of another commit. -/
def forgedAuthor (identity rest : String) : String :=
  identity ++ "\ncommitter " ++ identity ++ "\n\n" ++ rest

/-- Its commit is that other one, and its own headers are in the message. -/
lemma encodeCommit_forgedAuthor (identity rest message : String) :
    encodeCommit tree parents (forgedAuthor identity rest) message =
      encodeCommit tree parents identity
        (rest ++ "\ncommitter " ++ forgedAuthor identity rest ++ "\n\n" ++
          withNewline message) := by
  rw [encodeCommit, encodeCommit, withNewline_append]
  simp only [forgedAuthor, String.append_assoc]

/-- A commit of an author that is called otherwise. -/
def forgedSnapshot : Snapshot := snapshotBy (forgedAuthor (identityLine "eve" 1) "m")

end Bole
