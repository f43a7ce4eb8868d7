import Gloss.Proofs.Mask.Decomposition
import Gloss.Proofs.Mask.Unmarked

/-!
# Masking a text piece by piece

What masking makes of the beginning of a text does not depend on what follows, but for one
character: a slash at the end of the beginning opens a comment together with a slash or an
asterisk behind it. A line break ends all that can be open without a mark that spans lines, so
a text in which neither a block comment nor a text block opens is masked apart from the lines
behind it.
-/

namespace Gloss.Mask

variable {mode : Mode} {c : Char} {a b m s t u rest : Text}

section Beginning

/-- A masked text before `next`: a slash at its end is blanked if it opens a comment there. -/
def joinedTo (next masked : Text) : Text :=
  if masked.getLast? = some '/' ∧ (next.head? = some '/' ∨ next.head? = some '*') then
    masked.dropLast ++ [' ']
  else masked

/-- Only the last character matters. -/
theorem joinedTo_cons (hm : m ≠ []) : joinedTo b (c :: m) = c :: joinedTo b m := by
  rw [joinedTo, joinedTo, List.getLast?_cons_of_ne_nil hm, List.dropLast_cons_of_ne_nil hm]
  split <;> rfl

/-- It matters only if it is a slash. -/
theorem joinedTo_cons_of_ne (hc : c ≠ '/') : joinedTo b (c :: m) = c :: joinedTo b m := by
  cases m with
  | nil => simp [joinedTo, hc]
  | cons d m => exact joinedTo_cons (by simp)

/-- No blank is a slash. -/
theorem blank_ne_slash (c : Char) : blank c ≠ '/' := by
  rw [blank]
  split
  · rintro rfl
    exact absurd ‹_› (by decide)
  · decide

/-- Where all is blanked, nothing joins what follows. -/
theorem joinedTo_map_blank (t : Text) : joinedTo b (t.map blank) = t.map blank := by
  induction t with
  | nil => rfl
  | cons c t ih => rw [List.map_cons, joinedTo_cons_of_ne (blank_ne_slash c), ih]

/-- A text does not begin with a mark exactly if the mark stands before no rest of it. -/
theorem after?_eq_none_iff {mark : Text} :
    Text.after? mark t = none ↔ ∀ rest, t ≠ mark ++ rest := by
  rw [Option.eq_none_iff_forall_ne_some]
  exact forall_congr' fun rest => not_congr Text.after?_eq_some_iff

/-- A mark that is at the front of a text, but not of its beginning, is cut in two. -/
theorem exists_of_after?_append {mark : Text} (h : Text.after? mark (t ++ b) = some rest)
    (hnone : Text.after? mark t = none) : ∃ u, mark = t ++ u ∧ b = u ++ rest := by
  rcases List.append_eq_append_iff.mp (Text.after?_eq_some_iff.mp h) with
    ⟨u, hmark, hb⟩ | ⟨u, ht, -⟩
  · exact ⟨u, hmark, hb⟩
  · rw [Text.after?_eq_some_iff.mpr ht] at hnone
    cases hnone

/-- The beginning of a closing mark is blanked as the body of its region is. -/
theorem maskFrom_of_closer_eq (kind : mode.isMarked = true) (hmark : mode.closer = t ++ u)
    (hnone : Text.after? mode.closer t = none) : maskFrom mode t = t.map blank := by
  have hpart : t <+: mode.closer := ⟨u, hmark.symm⟩
  cases mode with
  | code | lineComment | quoted => exact absurd kind (by simp [Mode.isMarked])
  | blockComment =>
    simp only [Mode.closer, List.prefix_cons_iff, List.prefix_nil] at hpart
    rcases hpart with rfl | ⟨_, rfl, rfl | ⟨_, rfl, rfl⟩⟩
    · rfl
    · rfl
    · cases hnone
  | textBlock =>
    simp only [Mode.closer, List.prefix_cons_iff, List.prefix_nil] at hpart
    rcases hpart with rfl | ⟨_, rfl, rfl | ⟨_, rfl, rfl | ⟨_, rfl, rfl⟩⟩⟩
    · rfl
    · rfl
    · rfl
    · cases hnone

/-- Inside a block comment or a text block each character is blanked, whether or not a closing
mark is cut behind it. -/
theorem take_maskFrom_marked (kind : mode.isMarked = true)
    (hnone : Text.after? mode.closer (c :: t) = none)
    (ih : (maskFrom mode (t ++ b)).take t.length = joinedTo b (maskFrom mode t)) :
    (maskFrom mode (c :: t ++ b)).take (c :: t).length =
      joinedTo b (blank c :: maskFrom mode t) := by
  cases hafter : Text.after? mode.closer (c :: t ++ b) with
  | none =>
    have hnext := maskFrom_marked (t := t ++ b) kind hafter
    rw [List.cons_append, hnext, List.length_cons, List.take_succ_cons, ih,
      joinedTo_cons_of_ne (blank_ne_slash c)]
  | some rest =>
    obtain ⟨u, hmark, rfl⟩ := exists_of_after?_append hafter hnone
    rw [← maskFrom_marked kind hnone, maskFrom_of_closer_eq kind hmark hnone,
      joinedTo_map_blank, ← List.append_assoc, ← hmark,
      maskFrom_closer kind, hmark, List.map_append, List.append_assoc,
      List.take_left' (List.length_map _)]

/-- A quotation mark opens a literal unless two more double quotes follow it. -/
theorem opening?_of_isQuote (hc : isQuote c = true)
    (hnone : Text.after? Mode.textBlock.opener (c :: t) = none) :
    opening? (c :: t) = some (.quoted c false) := by
  rcases isQuote_iff.mp hc with rfl | rfl
  · unfold opening?
    split <;> simp_all [Mode.opener, Text.after?]
  · rfl

/-- A quote in front of a cut is masked as without what follows, given that what it quotes is. One
or two double quotes before the cut may be a literal in one text and part of a mark in the other,
but are blanked in both. -/
theorem take_maskFrom_quote (hc : isQuote c = true)
    (hnone : Text.after? Mode.textBlock.opener (c :: t) = none)
    (ih : (maskFrom (.quoted c false) (t ++ b)).take t.length =
      joinedTo b (maskFrom (.quoted c false) t)) :
    (maskFrom .code (c :: t ++ b)).take (c :: t).length =
      joinedTo b (blank c :: maskFrom (.quoted c false) t) := by
  have hopen (t : Text) (hnone : Text.after? Mode.textBlock.opener (c :: t) = none) :
      maskFrom .code (c :: t) = blank c :: maskFrom (.quoted c false) t := by
    have hopens : opening? ((Mode.quoted c false).opener ++ t) = some (.quoted c false) :=
      opening?_of_isQuote hc hnone
    exact maskFrom_code_opener hopens
  cases hafter : Text.after? Mode.textBlock.opener (c :: t ++ b) with
  | none =>
    rw [List.cons_append, hopen (t ++ b) hafter, List.length_cons,
      List.take_succ_cons, ih, joinedTo_cons_of_ne (blank_ne_slash c)]
  | some rest =>
    obtain ⟨u, hmark, rfl⟩ := exists_of_after?_append hafter hnone
    have hpart : c :: t <+: Mode.textBlock.opener := ⟨u, hmark.symm⟩
    have hshort : maskFrom .code (c :: t) = (c :: t).map blank := by
      rw [Mode.opener, List.cons_prefix_cons] at hpart
      simp only [List.prefix_cons_iff, List.prefix_nil] at hpart
      obtain ⟨rfl, rfl | ⟨_, rfl, rfl | ⟨_, rfl, rfl⟩⟩⟩ := hpart
      · rfl
      · rfl
      · cases hnone
    rw [← hopen t hnone, hshort, joinedTo_map_blank, ← List.append_assoc, ← hmark,
      maskFrom_code_opener rfl, hmark, List.map_append, List.append_assoc,
      List.take_left' (List.length_map _)]

/-- A character that opens nothing is kept, but for a slash before the rest of its mark. -/
theorem take_maskFrom_plain (hopens : opening? (c :: t) = none)
    (ih : (maskFrom .code (t ++ b)).take t.length = joinedTo b (maskFrom .code t)) :
    (maskFrom .code (c :: t ++ b)).take (c :: t).length =
      joinedTo b (c :: maskFrom .code t) := by
  obtain ⟨hquote, hslash⟩ := opening?_eq_none_iff.mp hopens
  rw [List.cons_append, List.length_cons]
  cases t with
  | cons d t =>
    have hkept : opening? (c :: (d :: t ++ b)) = none :=
      opening?_eq_none_iff.mpr ⟨hquote, hslash⟩
    have hmore : maskFrom .code (d :: t) ≠ [] := by
      rw [← List.length_pos_iff, length_maskFrom]
      exact Nat.zero_lt_succ _
    rw [maskFrom_code_cons hkept, List.take_succ_cons, ih, joinedTo_cons hmore]
  | nil =>
    rw [List.nil_append, maskFrom_nil]
    simp only [joinedTo, List.getLast?_singleton, Option.some.injEq]
    by_cases hcut : c = '/' ∧ (b.head? = some '/' ∨ b.head? = some '*')
    · obtain ⟨rfl, hb⟩ := hcut
      rw [if_pos ⟨rfl, hb⟩]
      cases b with
      | nil => simp at hb
      | cons d b =>
        simp only [List.head?_cons, Option.some.injEq] at hb
        rcases hb with rfl | rfl
        · rfl
        · rfl
    · have hkept : opening? (c :: b) = none := by
        refine opening?_eq_none_iff.mpr ⟨hquote, fun hc d hd => ?_⟩
        rw [Option.mem_def] at hd
        constructor
        · rintro rfl
          exact hcut ⟨hc, .inl hd⟩
        · rintro rfl
          exact hcut ⟨hc, .inr hd⟩
      rw [if_neg hcut, maskFrom_code_cons hkept]
      rfl

/-- The pass over the beginning of a text is seen from that beginning, but for a slash at its
end. -/
theorem take_maskFrom_append (mode : Mode) (a b : Text) :
    (maskFrom mode (a ++ b)).take a.length = joinedTo b (maskFrom mode a) := by
  have hspace : ' ' ≠ '/' := by decide
  have hkeep {c : Char} (hc : isLineBreak c = true) : c ≠ '/' := by
    rintro rfl
    cases hc
  fun_induction maskFrom mode a with
  | case1 => rfl
  | case2 t ih | case3 t ih | case4 t ih | case9 t ih | case11 t ih =>
    simp only [List.cons_append, maskFrom, List.length_cons, List.take_succ_cons, ih,
      joinedTo_cons_of_ne hspace]
  | case5 c t h₁ h₂ h₃ hc ih =>
    have hquote : isQuote c = true := hc
    have hblank : blank c = ' ' := by
      rcases isQuote_iff.mp hquote with rfl | rfl <;> rfl
    have hnone : Text.after? Mode.textBlock.opener (c :: t) = none := by
      refine after?_eq_none_iff.mpr fun rest he => ?_
      obtain ⟨hquote, ht⟩ := List.cons.inj he
      exact h₃ rest hquote ht
    rw [← hblank]
    exact take_maskFrom_quote hquote hnone ih
  | case6 c t h₁ h₂ h₃ hc ih =>
    refine take_maskFrom_plain (opening?_eq_none_iff.mpr ⟨Bool.eq_false_iff.mpr hc, ?_⟩) ih
    intro hslash d hd
    obtain ⟨u, rfl⟩ := List.head?_eq_some_iff.mp hd
    constructor
    · rintro rfl
      exact h₁ u hslash rfl
    · rintro rfl
      exact h₂ u hslash rfl
  | case7 c t hbreak ih | case13 _ _ c t hbreak ih =>
    rw [List.cons_append, maskFrom, if_pos hbreak, List.length_cons, List.take_succ_cons, ih,
      joinedTo_cons_of_ne (hkeep hbreak)]
  | case8 c t hbreak ih | case14 _ _ c t hbreak ih =>
    rw [List.cons_append, maskFrom, if_neg hbreak, List.length_cons, List.take_succ_cons, ih,
      joinedTo_cons_of_ne hspace]
  | case10 c t hmark ih | case12 c t hmark ih =>
    refine take_maskFrom_marked rfl (after?_eq_none_iff.mpr fun rest he => ?_) ih
    obtain ⟨hc, ht⟩ := List.cons.inj he
    exact hmark rest hc ht

end Beginning

section Break

/-- No mark reaches across a line break. -/
theorem opening?_append_break (hc : isLineBreak c = true) (t u : Text) :
    opening? (t ++ c :: u) = opening? t := by
  have hne : c ≠ '/' ∧ c ≠ '*' ∧ c ≠ '"' := by
    refine ⟨?_, ?_, ?_⟩ <;>
    · rintro rfl
      cases hc
  obtain ⟨hslash, hstar, hquote⟩ := hne
  fun_cases opening? t with
  | case1 | case2 | case3 | case5 => rfl
  | case4 t hsingle =>
    rw [List.cons_append, opening?]
    intro v hv
    rcases t with _ | ⟨x, _ | ⟨y, t⟩⟩
    · exact hquote (List.cons.inj hv).1
    · exact hquote (List.cons.inj (List.cons.inj hv).2).1
    · obtain ⟨hx, hy⟩ := List.cons.inj hv
      refine hsingle t ?_
      rw [hx, (List.cons.inj hy).1]
  | case6 h₁ h₂ h₃ h₄ h₅ =>
    cases t with
    | nil => exact opening?_of_isLineBreak hc u
    | cons x t =>
      have hnone : opening? (x :: t) = none := by
        unfold opening?
        split <;> simp_all
      obtain ⟨hx, hpair⟩ := opening?_eq_none_iff.mp hnone
      refine opening?_eq_none_iff.mpr ⟨hx, fun he d hd => ?_⟩
      cases t with
      | nil =>
        obtain rfl := Option.some.inj hd
        exact ⟨hslash, hstar⟩
      | cons y t => exact hpair he d hd

/-- A region that no mark closes far behind ends at a line break as at the end of the text. -/
theorem Extends.append_break {body : Text} {closed : Bool} (kind : mode.isMarked = false)
    (hc : isLineBreak c = true) (h : Extends mode body closed rest) (u : Text) :
    Extends mode body closed (rest ++ c :: u) := by
  have hedge (edge : rest.head?.all isLineBreak = true) :
      (rest ++ c :: u).head?.all isLineBreak = true := by
    cases rest with
    | nil => exact hc
    | cons d rest => exact edge
  cases h with
  | line unbroken edge => exact .line unbroken (hedge edge)
  | marked kind' | unmarked kind' => exact absurd kind' (by simp [kind])
  | closed kind' free => exact .closed kind' free
  | cut unquoted edge => exact .cut unquoted (hedge edge)

/-- A mark that does not occur in a text does not occur at its end. -/
theorem contains_eq_false_of_append {mark : Text} (s : Text)
    (h : Text.contains mark (s ++ t) = false) : Text.contains mark t = false := by
  induction s with
  | nil => exact h
  | cons c s ih => exact ih (contains_cons_eq_false.mp h).2

/-- A text without the marks of regions that span lines, and any text behind a line break, are
decomposed each for itself. -/
theorem Lexed.append_break {rs rs' : List Region} (hc : isLineBreak c = true) (hrs : Lexed rs)
    (hcomment : Text.contains ['/', '*'] (flatten rs) = false)
    (hblock : Text.contains ['"', '"', '"'] (flatten rs) = false) (hrs' : Lexed rs') :
    Lexed (rs ++ .plain c :: rs') := by
  have hflat (rs : List Region) :
      flatten (rs ++ .plain c :: rs') = flatten rs ++ c :: flatten rs' := flatten_append rs _
  induction hrs with
  | nil => exact .plain (opening?_of_isLineBreak hc _) hrs'
  | @plain d rs opens tail ih =>
    have hopens : opening? (d :: flatten (rs ++ .plain c :: rs')) = none := by
      rw [hflat, ← List.cons_append, opening?_append_break hc]
      exact opens
    exact .plain hopens (ih (contains_eq_false_of_append [d] hcomment)
      (contains_eq_false_of_append [d] hblock))
  | @masked mode body closed rs opens runs tail ih =>
    have hopener : Text.contains mode.opener (flatten (.masked mode body closed :: rs)) = true := by
      rw [flatten_cons, Region.text, List.append_assoc, List.append_assoc]
      exact contains_append [] _ _
    have kind : mode.isMarked = false := by
      cases mode with
      | code | lineComment | quoted => rfl
      | blockComment => exact absurd (hcomment.symm.trans hopener) (by simp)
      | textBlock => exact absurd (hblock.symm.trans hopener) (by simp)
    have hopens : opening? (flatten (.masked mode body closed :: (rs ++ .plain c :: rs'))) =
        some mode := by
      rw [flatten_cons, hflat, ← List.append_assoc, opening?_append_break hc]
      exact opens
    have hruns : Extends mode body closed (flatten (rs ++ .plain c :: rs')) := by
      rw [hflat]
      exact runs.append_break kind hc _
    exact .masked hopens hruns (ih (contains_eq_false_of_append _ hcomment)
      (contains_eq_false_of_append _ hblock))

/-- A line break behind a text in which nothing opens that spans lines separates what is masked
before it from what is masked behind it. -/
theorem mask_append_break (hc : isLineBreak c = true)
    (hcomment : Text.contains ['/', '*'] a = false)
    (hblock : Text.contains ['"', '"', '"'] a = false) (b : Text) :
    mask (a ++ c :: b) = mask a ++ c :: mask b := by
  obtain ⟨rs, hrs, rfl⟩ := exists_lexed a
  obtain ⟨rs', hrs', rfl⟩ := exists_lexed b
  have hjoined := hrs.append_break hc hcomment hblock hrs'
  have hmask := maskFrom_flatten hjoined
  rw [flatten_append, List.flatMap_append, ← maskFrom_flatten hrs, List.flatMap_cons,
    ← maskFrom_flatten hrs'] at hmask
  exact hmask

end Break

/-- Masking goes from left to right: the beginning of a text is masked as if it were the whole
text, but for a slash at its end that opens a comment with what follows. And it goes line by
line, where nothing opens that spans lines. -/
theorem mask_append (a b : Text) :
    (mask (a ++ b)).take a.length =
        (if (mask a).getLast? = some '/' ∧ (b.head? = some '/' ∨ b.head? = some '*') then
          (mask a).dropLast ++ [' '] else mask a) ∧
      (Text.contains ['/', '*'] a = false → Text.contains ['"', '"', '"'] a = false →
        ∀ c, isLineBreak c = true → mask (a ++ c :: b) = mask a ++ c :: mask b) :=
  ⟨take_maskFrom_append .code a b,
    fun hcomment hblock _ hc => mask_append_break hc hcomment hblock b⟩

/-- The quotes and the line comment before a break are no matter behind it. -/
theorem mask_append_open_literal :
    Text.contains ['/', '*'] "x = 'a // \"".toList = false ∧
      Text.contains ['"', '"', '"'] "x = 'a // \"".toList = false ∧ isLineBreak '\r' = true ∧
      mask ("x = 'a // \"".toList ++ '\r' :: "b' / c".toList) =
        mask "x = 'a // \"".toList ++ '\r' :: mask "b' / c".toList :=
  ⟨by decide, by decide, rfl,
    (mask_append "x = 'a // \"".toList "b' / c".toList).2 (by decide) (by decide) '\r' rfl⟩

end Gloss.Mask
