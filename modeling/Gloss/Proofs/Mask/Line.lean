import Gloss.Mask
import Gloss.Proofs.Text.Line

/-!
# Masking and lines

Masking neither makes nor removes a line break: a source and the masked source blank to the
same text. Whatever is placed by lines and columns is therefore placed alike in both.
-/

namespace Gloss

namespace Mask

@[simp] theorem isLineBreak_blank (c : Char) : isLineBreak (blank c) = isLineBreak c := by
  by_cases h : isLineBreak c = true
  · rw [blank, if_pos h]
  · rw [blank, if_neg h, Bool.eq_false_iff.mpr h]
    rfl

@[simp] theorem blank_blank (c : Char) : blank (blank c) = blank c := by
  by_cases h : isLineBreak c = true
  · rw [blank, if_pos (by rwa [isLineBreak_blank])]
  · rw [blank, isLineBreak_blank, if_neg h, blank, if_neg h]

/-- All characters but line breaks have one blank. -/
theorem blank_of_not_isLineBreak {c : Char} (h : isLineBreak c = false) : blank c = ' ' := by
  rw [blank, h, if_neg (by simp)]

/-- Blanking makes a line break only of itself. -/
theorem blank_eq_iff_of_isLineBreak {b : Char} (h : isLineBreak b = true) (c : Char) :
    blank c = b ↔ c = b := by
  constructor
  · intro hc
    have hbreak : isLineBreak c = true := by rw [← isLineBreak_blank, hc, h]
    rwa [blank, if_pos hbreak] at hc
  · rintro rfl
    rw [blank, if_pos h]

/-- Whatever masking replaces, it replaces by its blank. -/
theorem map_blank_maskFrom (mode : Mode) (t : Text) :
    (maskFrom mode t).map blank = t.map blank := by
  fun_induction maskFrom mode t with
  | case1 => rfl
  | case2 t ih | case3 t ih | case4 t ih | case9 t ih | case11 t ih =>
    simp only [List.map_cons, ih]
    rfl
  | case5 c t _ _ _ hc ih =>
    have hbreak : isLineBreak c = false := by
      simp only [Bool.or_eq_true, decide_eq_true_eq] at hc
      rcases hc with rfl | rfl <;> rfl
    rw [List.map_cons, List.map_cons, ih, blank_of_not_isLineBreak hbreak]
    rfl
  | case6 c t _ _ _ _ ih | case7 c t _ ih | case13 _ _ c t _ ih =>
    rw [List.map_cons, List.map_cons, ih]
  | case8 c t hbreak ih | case14 _ _ c t hbreak ih =>
    rw [List.map_cons, List.map_cons, ih, blank_of_not_isLineBreak (Bool.eq_false_iff.mpr hbreak)]
    rfl
  | case10 c t _ ih | case12 c t _ ih =>
    rw [List.map_cons, List.map_cons, ih, blank_blank]

/-- Texts that blank to the same text are of one length. -/
theorem length_eq_of_map_blank_eq {s t : Text} (h : s.map blank = t.map blank) :
    s.length = t.length := by
  rw [← List.length_map (f := blank), h, List.length_map]

/-- A source and the masked source blank to the same text. -/
theorem map_blank_mask (source : Text) : (mask source).map blank = source.map blank :=
  map_blank_maskFrom .code source

end Mask

namespace Text

open Mask

/-- Blanking makes no carriage return and line feed where there was none. -/
theorem ne_pair_map_blank {c : Char} {t : Text}
    (h : ∀ u : Text, c = '\r' → t = '\n' :: u → False) (u : Text) (hc : blank c = '\r')
    (ht : t.map blank = '\n' :: u) : False := by
  cases t with
  | nil => cases ht
  | cons d t =>
    obtain ⟨hd, -⟩ := List.cons.inj ht
    rw [blank_eq_iff_of_isLineBreak (by decide)] at hc hd
    exact h t hc (by rw [hd])

/-- Where lines start is seen from the breaks alone. -/
theorem startsFrom_map_blank (n : Nat) (t : Text) :
    startsFrom n (t.map blank) = startsFrom n t := by
  fun_induction startsFrom n t with
  | case1 => rfl
  | case2 n t ih => rw [← ih]; rfl
  | case3 n c t hpair hbreak ih | case4 n c t hpair hbreak ih =>
    rw [List.map_cons, startsFrom, isLineBreak_blank, ih]
    · simp only [hbreak, if_true, if_false, Bool.false_eq_true]
    · exact ne_pair_map_blank hpair

/-- Blanking leaves the starts of lines. -/
theorem lineStarts_map_blank (t : Text) : lineStarts (t.map blank) = lineStarts t := by
  rw [lineStarts, startsFrom_map_blank]
  rfl

/-- So are the lines themselves. -/
theorem brokenLines_map_blank (t : Text) :
    brokenLines (t.map blank) =
      (brokenLines t).map fun b => (b.1.map blank, b.2.map blank) := by
  fun_induction brokenLines t with
  | case1 => rfl
  | case2 t ih => exact congrArg (([], ['\r', '\n']) :: ·) ih
  | case3 c t hpair hbreak ih =>
    rw [List.map_cons, brokenLines, isLineBreak_blank, if_pos hbreak, ih]
    · rfl
    · exact ne_pair_map_blank hpair
  | case4 c t hpair hbreak hnil ih => exact absurd hnil (brokenLines_ne_nil t)
  | case5 c t hpair hbreak line brk more hmore ih =>
    rw [List.map_cons, brokenLines, isLineBreak_blank, if_neg hbreak, ih, hmore]
    · rfl
    · exact ne_pair_map_blank hpair

/-- Blanking leaves the spans of lines. -/
theorem lineSpans_map_blank (t : Text) : lineSpans (t.map blank) = lineSpans t := by
  have hplace (start : Nat) (bs : List (Text × Text)) :
      (placeLines start (bs.map fun b => (b.1.map blank, b.2.map blank))).map
        (fun l => (l.1, l.2.length)) = (placeLines start bs).map fun l => (l.1, l.2.length) := by
    induction bs generalizing start with
    | nil => rfl
    | cons b bs ih =>
      simp only [List.map_cons, placeLines, List.length_map, ih]
  rw [lineSpans, lines, brokenLines_map_blank, hplace]
  rfl

/-- Texts that blank to the same text have the same spans of lines. -/
theorem lineSpans_congr {s t : Text} (h : s.map blank = t.map blank) :
    lineSpans s = lineSpans t := by
  rw [← lineSpans_map_blank, h, lineSpans_map_blank]

end Text

/-- Texts with the same length and line breaks place offsets alike. -/
theorem LineIndex.ofText_congr {s t : Text} (h : s.map Mask.blank = t.map Mask.blank) :
    LineIndex.ofText s = LineIndex.ofText t := by
  rw [ofText, ofText, ← Text.lineStarts_map_blank s, ← Text.lineStarts_map_blank t, h,
    Mask.length_eq_of_map_blank_eq h]

end Gloss
