import Mathlib.Data.List.Basic
import Mathlib.Tactic

/-!
Reading items off a stream that arrives in pieces.

A decoder looks at what has arrived and finds an item in front of it, finds that there can be
none, or asks for more.  Once it has answered, more input does not change the answer.

* `next`: the loop that reads pieces until the decoder answers;
* `next_whole`: it answers as the decoder does on the whole stream, however that was cut.
-/

namespace Stream

universe u v w

variable {α : Type u} {β : Type v} {ε : Type w}

/-- What a decoder says of the input so far. -/
inductive Look (α : Type u) (β : Type v) (ε : Type w) where
  | more
  | bad (e : ε)
  | item (b : β) (rest : List α)

/-- A decoder whose answers last. -/
structure Decoder (α : Type u) (β : Type v) (ε : Type w) where
  look : List α → Look α β ε
  bad_append : ∀ {l e}, look l = .bad e → ∀ m, look (l ++ m) = .bad e
  item_append : ∀ {l b rest}, look l = .item b rest → ∀ m, look (l ++ m) = .item b (rest ++ m)

/-- What the loop comes to: the answer (`none` at the end of the stream), what has been read and
not used, and the pieces to come. -/
structure Reading (α : Type u) (β : Type v) (ε : Type w) where
  answer : Option (Except ε β)
  pending : List α
  pieces : List (List α)

/-- The loop: pieces are read until the decoder answers. -/
def next (d : Decoder α β ε) (pending : List α) : List (List α) → Reading α β ε
  | [] =>
      match d.look pending with
      | .more => ⟨none, pending, []⟩
      | .bad e => ⟨some (.error e), pending, []⟩
      | .item b rest => ⟨some (.ok b), rest, []⟩
  | piece :: pieces =>
      match d.look pending with
      | .more => next d (pending ++ piece) pieces
      | .bad e => ⟨some (.error e), pending, piece :: pieces⟩
      | .item b rest => ⟨some (.ok b), rest, piece :: pieces⟩

/-- The input that is left. -/
def Reading.left (r : Reading α β ε) : List α := r.pending ++ r.pieces.flatten

/-- **The loop answers as the decoder does on the whole stream.** -/
theorem next_whole (d : Decoder α β ε) (pending : List α) (pieces : List (List α)) :
    match d.look (pending ++ pieces.flatten) with
    | .more => (next d pending pieces).answer = none
    | .bad e => (next d pending pieces).answer = some (.error e)
    | .item b rest =>
        (next d pending pieces).answer = some (.ok b) ∧ (next d pending pieces).left = rest := by
  induction pieces generalizing pending with
  | nil =>
      rw [List.flatten_nil, List.append_nil, next]
      cases h : d.look pending with
      | more => simp
      | bad e => simp
      | item b rest => simp [Reading.left]
  | cons piece pieces ih =>
      rw [next]
      cases h : d.look pending with
      | more =>
          have hrest := ih (pending ++ piece)
          rwa [List.append_assoc, ← List.flatten_cons] at hrest
      | bad e => rw [d.bad_append h]
      | item b rest =>
          rw [d.item_append h]
          exact ⟨rfl, rfl⟩

end Stream
