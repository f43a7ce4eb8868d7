import Gloss.Expr.Typeset

/-!
# Reading escapes back

No escape is the beginning of another one. So escaped text is read character by character, and
each time that the characters read make up an escape, they can stand for nothing else. A reserved
character of the escaped text therefore stands in the escape of a reserved character.
-/

namespace Gloss

namespace Typeset

variable {c d : Char} {i : Nat} {read s t : Text}

/-- The characters that the markup reserves. -/
def reserved : List Char := ['\\', '{', '}', '_', '^', '%', '$', '#', '&']

/-- The character that a text is the escape of. -/
def escaped? : Text → Option Char
  | [c] => if c ∈ reserved then none else some c
  | t => reserved.find? fun d => escapeChar d = t

/-- What the characters read so far, which are no escape yet, and those that follow are the escape
of. -/
def unescapeFrom? : (read : Text) → Text → Option Text
  | [], [] => some []
  | _ :: _, [] => none
  | read, c :: t =>
    match escaped? (read ++ [c]) with
    | some d => (unescapeFrom? [] t).map (d :: ·)
    | none => unescapeFrom? (read ++ [c]) t

/-- The text that a text is the escape of, if there is one. -/
def unescape? (t : Text) : Option Text := unescapeFrom? [] t

/-- An offset of the escaped text lies in the escape of a reserved character of the text. -/
def IsEscapedAt (t : Text) (i : Nat) : Prop :=
  ∃ before d behind, t = before ++ d :: behind ∧ d ∈ reserved ∧
    (escape before).length ≤ i ∧ i < (escape (before ++ [d])).length

section Character

/-- The reserved characters, one by one. -/
theorem mem_reserved : c ∈ reserved ↔ c = '\\' ∨ c = '{' ∨ c = '}' ∨ c = '_' ∨ c = '^' ∨
    c = '%' ∨ c = '$' ∨ c = '#' ∨ c = '&' := by
  simp only [reserved, List.mem_cons, List.not_mem_nil, or_false]

/-- A character that is not reserved stands for itself. -/
theorem escapeChar_of_not_mem (h : c ∉ reserved) : escapeChar c = [c] := by
  simp only [mem_reserved, not_or] at h
  simp [escapeChar, h]

/-- The escape of a reserved character is a backslash with something behind it. -/
theorem exists_escapeChar_eq (h : c ∈ reserved) :
    ∃ tail, tail ≠ [] ∧ escapeChar c = '\\' :: tail := by
  rcases mem_reserved.mp h with rfl | rfl | rfl | rfl | rfl | rfl | rfl | rfl | rfl <;>
    exact ⟨_, List.cons_ne_nil _ _, rfl⟩

/-- Only an escape is read as one. -/
theorem eq_escapeChar_of_escaped? (h : escaped? t = some c) : t = escapeChar c := by
  rw [escaped?.eq_def] at h
  split at h
  · split at h
    · cases h
    · rename_i hplain
      obtain rfl := Option.some.inj h
      rw [escapeChar_of_not_mem hplain]
  · have hfound := List.find?_some h
    exact (of_decide_eq_true hfound).symm

/-- No proper beginning of an escape is read as one. -/
theorem unescapeFrom?_escapeChar (c : Char) (t : Text) :
    unescapeFrom? [] (escapeChar c ++ t) = (unescapeFrom? [] t).map (c :: ·) := by
  by_cases h : c ∈ reserved
  · rcases mem_reserved.mp h with rfl | rfl | rfl | rfl | rfl | rfl | rfl | rfl | rfl <;> rfl
  · have hread : escaped? [c] = some c := if_neg h
    rw [escapeChar_of_not_mem h, List.singleton_append, unescapeFrom?, List.nil_append, hread]

end Character

section Decode

@[simp] theorem escape_nil : escape [] = [] := rfl

theorem escape_cons (c : Char) (t : Text) : escape (c :: t) = escapeChar c ++ escape t :=
  List.flatMap_cons

/-- What was escaped is read back. -/
theorem unescape?_escape (t : Text) : unescape? (escape t) = some t := by
  rw [unescape?]
  induction t with
  | nil => rfl
  | cons c t ih => rw [escape_cons, unescapeFrom?_escapeChar, ih, Option.map_some]

/-- What is read back is what was escaped, the characters read before included. -/
theorem append_eq_escape_of_unescapeFrom? (h : unescapeFrom? read t = some s) :
    read ++ t = escape s := by
  induction t generalizing read s with
  | nil =>
    cases read with
    | nil =>
      obtain rfl := Option.some.inj h
      rfl
    | cons => cases h
  | cons c t ih =>
    rw [unescapeFrom?] at h
    rw [List.append_cons]
    split at h
    · rename_i d hescape
      obtain ⟨s', hs', rfl⟩ := Option.map_eq_some_iff.mp h
      rw [escape_cons, eq_escapeChar_of_escaped? hescape, ← ih hs', List.nil_append]
    · exact ih h

/-- Reading escapes back undoes escaping, and accepts nothing else. -/
theorem unescape?_eq_some_iff : unescape? t = some s ↔ t = escape s := by
  constructor
  · exact append_eq_escape_of_unescapeFrom?
  · rintro rfl
    exact unescape?_escape s

/-- No two texts have one escape. -/
theorem escape_inj (h : escape s = escape t) : s = t := by
  have hread := unescape?_escape s
  rw [h, unescape?_escape, Option.some.injEq] at hread
  exact hread.symm

/-- A reserved character of the escaped text belongs to an escape. -/
theorem isEscapedAt_of_mem_reserved (h : (escape t)[i]? = some c) (hc : c ∈ reserved) :
    IsEscapedAt t i := by
  induction t generalizing i with
  | nil => cases h
  | cons d t ih =>
    rw [escape_cons] at h
    by_cases hi : i < (escapeChar d).length
    · refine ⟨[], d, t, rfl, ?_, Nat.zero_le i, by simpa [escape_cons] using hi⟩
      refine Decidable.byContradiction fun hplain => ?_
      rw [List.getElem?_append_left hi] at h
      rw [escapeChar_of_not_mem hplain] at h hi
      obtain rfl : i = 0 := Nat.lt_one_iff.mp hi
      exact hplain (Option.some.inj h ▸ hc)
    · rw [List.getElem?_append_right (Nat.le_of_not_lt hi)] at h
      obtain ⟨before, d', behind, rfl, hd', hle, hlt⟩ := ih h
      refine ⟨d :: before, d', behind, rfl, hd', ?_, ?_⟩
      · rw [escape_cons, List.length_append]
        omega
      · rw [List.cons_append, escape_cons, List.length_append]
        omega

end Decode

end Typeset

namespace Expr

open Typeset

variable {e e' : Expr}

/-- A name or a piece of raw text. -/
inductive Verbatim : Expr → Prop
  | identifier (name : Text) : Verbatim (identifier name)
  | raw (text : Text) : Verbatim (raw text)

/-- No name is typeset as raw text is. -/
theorem escape_ne_typeset_raw (name text : Text) : escape name ≠ (raw text).typeset := by
  intro h
  cases name with
  | nil => cases h
  | cons c name =>
    rw [escape_cons] at h
    by_cases hc : c ∈ reserved
    · rcases mem_reserved.mp hc with rfl | rfl | rfl | rfl | rfl | rfl | rfl | rfl | rfl <;> cases h
    · rw [escapeChar_of_not_mem hc] at h
      obtain rfl : c = '\\' := (List.cons.inj h).1
      exact hc List.mem_cons_self

/-- Names and raw text that are typeset alike are the same. -/
theorem Verbatim.eq_of_typeset_eq (he : Verbatim e) (he' : Verbatim e')
    (h : e.typeset = e'.typeset) : e = e' := by
  cases he with
  | identifier name =>
    cases he' with
    | identifier name' => rw [escape_inj h]
    | raw text => exact absurd h (escape_ne_typeset_raw name text)
  | raw text =>
    cases he' with
    | identifier name => exact absurd h.symm (escape_ne_typeset_raw name text)
    | raw text' =>
      have hbraced : braced (escape text) = braced (escape text') := List.append_cancel_left h
      rw [escape_inj (List.append_cancel_right (List.cons.inj hbraced).2)]

end Expr

namespace Typeset

/-- Escaped text is read back uniquely: reading undoes escaping and accepts nothing else, so names
and raw text that differ are typeset differently. The reserved characters of escaped text all
belong to escapes of reserved characters, each of which is a backslash with something behind it. -/
theorem escape_decodable (s t : Text) :
    (unescape? t = some s ↔ t = escape s) ∧
    (∀ e e' : Expr, e.Verbatim → e'.Verbatim → e.typeset = e'.typeset → e = e') ∧
    (∀ d ∈ reserved, ∃ tail, tail ≠ [] ∧ escapeChar d = '\\' :: tail) ∧
    ∀ i c, (escape s)[i]? = some c → c ∈ reserved → IsEscapedAt s i :=
  ⟨unescape?_eq_some_iff, fun _ _ => Expr.Verbatim.eq_of_typeset_eq,
    fun _ => exists_escapeChar_eq, fun _ _ => isEscapedAt_of_mem_reserved⟩

end Typeset

end Gloss
