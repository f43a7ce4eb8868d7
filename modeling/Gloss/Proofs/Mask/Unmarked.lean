import Gloss.Proofs.Mask.Line
import Gloss.Proofs.Mask.Region

/-!
# Texts without marks

A text is unmarked if no comment and no literal begins anywhere in it. Masking leaves such texts
as they are, and every masked text is one: a slash that is kept is followed by what followed it
in the source or by a space, so no two kept characters ever make up a new mark. A second pass
therefore finds nothing to do.
-/

namespace Gloss.Mask

/-- The text holds no quotation mark and no mark that opens a comment. -/
structure Unmarked (t : Text) : Prop where
  /-- No string and no text block begins. -/
  double : '"' ∉ t
  /-- No character literal begins. -/
  single : '\'' ∉ t
  /-- No line comment begins. -/
  line : Text.contains ['/', '/'] t = false
  /-- No block comment begins. -/
  block : Text.contains ['/', '*'] t = false

variable {c : Char} {s t u : Text} {mode : Mode}

/-- A region opens at a quotation mark, or at a slash before a slash or an asterisk. -/
theorem opening?_eq_none_iff : opening? (c :: t) = none ↔
    isQuote c = false ∧ (c = '/' → ∀ d ∈ t.head?, d ≠ '/' ∧ d ≠ '*') := by
  constructor
  · intro h
    have hquote : isQuote c = false := by
      rw [Bool.eq_false_iff, Ne, isQuote_iff]
      rintro (rfl | rfl)
      · unfold opening? at h
        split at h <;> simp_all
      · cases h
    refine ⟨hquote, ?_⟩
    rintro rfl d hd
    cases t with
    | nil => cases hd
    | cons d' t =>
      obtain rfl := Option.some.inj hd
      constructor
      · rintro rfl
        cases h
      · rintro rfl
        cases h
  · rintro ⟨hquote, hslash⟩
    by_cases hc : c = '/'
    · subst hc
      unfold opening?
      split <;> simp_all
    · exact opening?_eq_none hc hquote t

/-- A pair of characters does not begin where its first is missing or its second does not
follow. -/
theorem after?_pair_eq_none_iff {a b : Char} :
    Text.after? [a, b] (c :: t) = none ↔ (a = c → ∀ d ∈ t.head?, d ≠ b) := by
  by_cases hc : a = c
  · subst hc
    cases t with
    | nil => simp [Text.after?]
    | cons d t => simp [Text.after?, eq_comm]
  · simp [Text.after?, hc]

/-- A text is unmarked if nothing opens at its front or behind its first character. -/
theorem unmarked_cons : Unmarked (c :: t) ↔ opening? (c :: t) = none ∧ Unmarked t := by
  have hquote : isQuote c = false ↔ '"' ≠ c ∧ '\'' ≠ c := by
    rw [Bool.eq_false_iff, Ne, isQuote_iff, not_or, eq_comm, @eq_comm _ c]
  rw [opening?_eq_none_iff, hquote]
  constructor
  · rintro ⟨hdouble, hsingle, hline, hblock⟩
    rw [List.mem_cons, not_or] at hdouble hsingle
    obtain ⟨hd, hdouble⟩ := hdouble
    obtain ⟨hs, hsingle⟩ := hsingle
    obtain ⟨hslash, hline⟩ := contains_cons_eq_false.mp hline
    obtain ⟨hstar, hblock⟩ := contains_cons_eq_false.mp hblock
    rw [after?_pair_eq_none_iff] at hslash hstar
    refine ⟨⟨⟨hd, hs⟩, ?_⟩, hdouble, hsingle, hline, hblock⟩
    intro hc d hmem
    exact ⟨hslash hc.symm d hmem, hstar hc.symm d hmem⟩
  · rintro ⟨⟨⟨hd, hs⟩, hslash⟩, hdouble, hsingle, hline, hblock⟩
    refine ⟨by simp [hd, hdouble], by simp [hs, hsingle],
      contains_cons_eq_false.mpr ⟨after?_pair_eq_none_iff.mpr ?_, hline⟩,
      contains_cons_eq_false.mpr ⟨after?_pair_eq_none_iff.mpr ?_, hblock⟩⟩
    · exact fun hc d hmem => (hslash hc.symm d hmem).1
    · exact fun hc d hmem => (hslash hc.symm d hmem).2

theorem unmarked_nil : Unmarked [] := ⟨List.not_mem_nil, List.not_mem_nil, rfl, rfl⟩

/-- Nothing opens at a blanked character. -/
theorem opening?_blank (c : Char) (t : Text) : opening? (blank c :: t) = none := by
  rw [blank]
  split
  · exact opening?_of_isLineBreak ‹_› t
  · exact opening?_eq_none (by decide) (by decide) t

/-- Blanked characters may stand before any unmarked text. -/
theorem Unmarked.append_blank (ht : Unmarked t) (s : Text) : Unmarked (s.map blank ++ t) := by
  induction s with
  | nil => exact ht
  | cons c s ih => exact unmarked_cons.mpr ⟨opening?_blank c _, ih⟩

/-- Neither do characters open anything that are no marks. -/
theorem Unmarked.append_plain (hs : ∀ c ∈ s, c ≠ '/' ∧ isQuote c = false) (ht : Unmarked t) :
    Unmarked (s ++ t) := by
  induction s with
  | nil => exact ht
  | cons c s ih =>
    obtain ⟨⟨hslash, hquote⟩, hs⟩ := List.forall_mem_cons.mp hs
    exact unmarked_cons.mpr ⟨opening?_eq_none hslash hquote _, ih hs⟩

/-- Two unmarked texts make up one if no mark begins with the first and ends with the second. -/
theorem Unmarked.append (hs : Unmarked s) (ht : Unmarked t)
    (hseam : ∀ d ∈ t.head?, d ≠ '/' ∧ d ≠ '*') : Unmarked (s ++ t) := by
  induction s with
  | nil => exact ht
  | cons c s ih =>
    obtain ⟨hopens, hs⟩ := unmarked_cons.mp hs
    obtain ⟨hquote, hslash⟩ := opening?_eq_none_iff.mp hopens
    refine unmarked_cons.mpr ⟨opening?_eq_none_iff.mpr ⟨hquote, fun hc d hd => ?_⟩, ih hs⟩
    cases s with
    | nil => exact hseam d hd
    | cons c' s => exact hslash hc d hd

/-- What masking leaves at the front of a text was there before, or is a space. -/
theorem head?_maskFrom (h : c ∈ (maskFrom mode t).head?) : c ∈ t.head? ∨ c = ' ' := by
  have hblank (d : Char) : blank d = d ∨ blank d = ' ' := by
    rw [blank]
    split
    · exact .inl rfl
    · exact .inr rfl
  revert h
  fun_cases maskFrom mode t with
  | case1 | case6 | case7 | case13 => exact .inl
  | case2 | case3 | case4 | case5 | case8 | case9 | case11 | case14 =>
    exact fun h => .inr (Option.some.inj h).symm
  | case10 d | case12 d =>
    intro h
    obtain rfl := Option.some.inj h
    exact (hblank d).imp_left fun he => congrArg some he.symm

/-- Every masked text is unmarked. -/
theorem unmarked_mask (t : Text) : Unmarked (mask t) := by
  obtain ⟨rs, hrs, rfl⟩ := exists_lexed t
  rw [mask, maskFrom_flatten hrs]
  induction hrs with
  | nil => exact unmarked_nil
  | @plain c rs opens tail ih =>
    refine unmarked_cons.mpr ⟨?_, ih⟩
    obtain ⟨hquote, hslash⟩ := opening?_eq_none_iff.mp opens
    refine opening?_eq_none_iff.mpr ⟨hquote, fun hc d hd => ?_⟩
    have hmask : d ∈ (maskFrom .code (flatten rs)).head? := by
      rw [maskFrom_flatten tail]
      exact hd
    rcases head?_maskFrom hmask with hd | rfl
    · exact hslash hc d hd
    · decide
  | masked opens runs tail ih => exact ih.append_blank _

/-- Masking leaves an unmarked text as it is. -/
theorem Unmarked.mask_eq (h : Unmarked t) : mask t = t := by
  induction t with
  | nil => rfl
  | cons c t ih =>
    obtain ⟨hopens, ht⟩ := unmarked_cons.mp h
    rw [mask, maskFrom_code_cons hopens, ← mask, ih ht]

/-- A masked text holds neither a quotation mark nor a mark that opens a comment, and the texts
that hold none are those that masking leaves alone. So masking twice is masking once, and lines
begin where they began. -/
theorem mask_mask (t : Text) :
    Unmarked (mask t) ∧ (mask t = t ↔ Unmarked t) ∧ mask (mask t) = mask t ∧
      (mask t).lineStarts = t.lineStarts := by
  have hmasked : Unmarked (mask t) := unmarked_mask t
  refine ⟨hmasked, ⟨fun he => ?_, Unmarked.mask_eq⟩, hmasked.mask_eq, ?_⟩
  · rwa [he] at hmasked
  · rw [← Text.lineStarts_map_blank, map_blank_mask, Text.lineStarts_map_blank]

end Gloss.Mask
