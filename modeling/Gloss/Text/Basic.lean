/-!
# Texts

A text is a list of code points, so that every offset, length and column in this
library counts code points and every recogniser is an ordinary recursion on its
input. The code points are the Unicode scalar values: a lone surrogate, such as
text decoded with errors can hold, is no character, so nothing in this library
speaks of texts with one. This module holds the few operations on texts that no
later module owns: slices, cutting at a separator, joining, order and decimal
numerals.
-/

namespace Gloss

/-- A text is the list of its code points, none of which is a surrogate. -/
abbrev Text := List Char

namespace Text

/-- The part of a text from offset `start` up to offset `stop`, cut off at its ends. -/
def slice (t : Text) (start stop : Nat) : Text := (t.take stop).drop start

/-- What follows `head` in a text that begins with it. -/
def after? : (head : Text) → Text → Option Text
  | [], t => some t
  | _ :: _, [] => none
  | h :: hs, c :: t => if h = c then after? hs t else none

/-- What follows `head` is what `head` has to be prepended to. -/
theorem after?_eq_some_iff {head t rest : Text} : after? head t = some rest ↔ t = head ++ rest := by
  induction head generalizing t with
  | nil => simp [after?]
  | cons h hs ih =>
    cases t with
    | nil => simp [after?]
    | cons c t => by_cases hc : h = c <;> simp [after?, hc, ih, eq_comm]

/-- The text up to the first `sep`, and what follows that separator if there is one. -/
def breakAt (sep : Char) : Text → Text × Option Text
  | [] => ([], none)
  | c :: t =>
    if c = sep then ([], some t)
    else let (head, rest) := breakAt sep t; (c :: head, rest)

/-- Breaking loses nothing but the separator, and breaks at the first one. -/
theorem breakAt_eq_some_iff {sep : Char} {t head rest : Text} :
    breakAt sep t = (head, some rest) ↔ t = head ++ sep :: rest ∧ sep ∉ head := by
  induction t generalizing head with
  | nil => simp [breakAt]
  | cons c t ih =>
    by_cases hc : c = sep
    · subst hc
      cases head with
      | nil => simp [breakAt]
      | cons d head =>
        simp only [breakAt, if_true, Prod.mk.injEq, List.cons_append, List.cons.injEq,
          List.mem_cons, not_or]
        exact ⟨fun h => absurd h.1 (by simp), fun h => absurd h.1.1 h.2.1⟩
    · cases head with
      | nil => simp [breakAt, hc]
      | cons d head =>
        simp only [breakAt, hc, if_false, List.cons_append, List.cons.injEq, List.mem_cons,
          not_or, Prod.mk.injEq]
        have step := @ih head
        rw [Prod.ext_iff] at step
        constructor
        · rintro ⟨⟨rfl, hh⟩, hr⟩
          obtain ⟨ht, hn⟩ := step.1 ⟨hh, hr⟩
          exact ⟨⟨rfl, ht⟩, fun e => hc e.symm, hn⟩
        · rintro ⟨⟨rfl, ht⟩, -, hn⟩
          obtain ⟨hh, hr⟩ := step.2 ⟨ht, hn⟩
          exact ⟨⟨rfl, hh⟩, hr⟩

/-- The parts between separators; a text without one is its own only part. -/
def splitAt (sep : Char) : Text → List Text
  | [] => [[]]
  | c :: t =>
    if c = sep then [] :: splitAt sep t
    else match splitAt sep t with
      | [] => [[c]]
      | part :: parts => (c :: part) :: parts

/-- There is always a part, be it empty. -/
theorem splitAt_ne_nil (sep : Char) (t : Text) : splitAt sep t ≠ [] := by
  cases t with
  | nil => simp [splitAt]
  | cons c t => rw [splitAt]; split <;> (try split) <;> simp

/-- Joins texts, with `sep` between neighbours. -/
def join (sep : Text) (parts : List Text) : Text := List.intercalate sep parts

/-- Whether `part` occurs somewhere in a text. -/
def contains (part : Text) : Text → Bool
  | [] => part.isEmpty
  | c :: t => (after? part (c :: t)).isSome || contains part t

/-- The order of texts by code points, a proper beginning first. -/
def le (a b : Text) : Bool := !decide (b < a)

/-- The decimal numeral of a natural number. -/
def ofNat (n : Nat) : Text := Nat.toDigits 10 n

/-- The decimal numeral of an integer; a negative one has a leading minus sign. -/
def ofInt : Int → Text
  | .ofNat n => ofNat n
  | .negSucc n => '-' :: ofNat (n + 1)

end Text

end Gloss
