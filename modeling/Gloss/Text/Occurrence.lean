import Gloss.Text.Word

/-!
# Occurrences

A recogniser looks at the text from one position on, and at the character before it. A search
offers it every position from left to right; where it recognises something, the search goes on
behind that, so occurrences are disjoint and in order. A recogniser may also pass over a
stretch of text without reporting anything.
-/

namespace Gloss

/-- A reported stretch of text. -/
structure Occurrence (α : Type) where
  /-- The offset at which it starts. -/
  start : Nat
  /-- The offset just past it. -/
  stop : Nat
  /-- What was recognised there. -/
  value : α
  deriving DecidableEq, Repr

/-- A recogniser sees the character before a position and the text from there on. Nothing
recognised is `none`; else it gives what to report, if anything, and the text behind. -/
abbrev Recogniser (α : Type) := (prev : Option Char) → Text → Option (Option α × Text)

namespace Text

variable {α : Type}

/-- The first `limit` occurrences in a text that starts at offset `pos` behind `prev` and whose
first `passed` characters belong to what came before. -/
def search (r : Recogniser α) : (limit passed pos : Nat) → (prev : Option Char) → Text →
    List (Occurrence α)
  | _, _, _, _, [] => []
  | 0, _, _, _, _ :: _ => []
  | limit + 1, passed + 1, pos, _, c :: t => search r (limit + 1) passed (pos + 1) (some c) t
  | limit + 1, 0, pos, prev, c :: t =>
    match r prev (c :: t) with
    | none => search r (limit + 1) 0 (pos + 1) (some c) t
    | some (found, rest) =>
      let passed := t.length - rest.length
      match found with
      | none => search r (limit + 1) passed (pos + 1) (some c) t
      | some value =>
        ⟨pos, pos + 1 + passed, value⟩ :: search r limit passed (pos + 1) (some c) t

/-- The first `limit` occurrences in a text. -/
def firstOccurrences (r : Recogniser α) (limit : Nat) (t : Text) : List (Occurrence α) :=
  search r limit 0 0 none t

/-- All occurrences in a text, of which there are no more than characters. -/
def occurrences (r : Recogniser α) (t : Text) : List (Occurrence α) :=
  firstOccurrences r t.length t

/-- What `f` makes of the first word boundary at which it succeeds, in a text behind `prev`. -/
def firstAtBoundary? (f : Text → Option α) : (prev : Option Char) → Text → Option α
  | _, [] => none
  | prev, c :: t =>
    match if isWordBoundary prev (some c) then f (c :: t) else none with
    | some value => some value
    | none => firstAtBoundary? f (some c) t

end Text

end Gloss
