import Gloss.Proofs.Candidate
import Gloss.Proofs.Detect.Division
import Gloss.Proofs.Expr.Complete
import Gloss.Proofs.Text.Row

/-!
# What the search for divisions finds

A division is recognised by tokens, without the grammar of expressions: it is a token, a slash and
a token, with layout around the slash. The parser nevertheless reads the text of each finding, taken
by itself, as one division of two leaves, which are the two tokens. So a keyword is no more than a
name here, and a numeral keeps as much of its fraction as the search took.
-/

namespace Gloss.Division

open Text Grammar

/-- A token and the leaf that it is read as. -/
inductive Leaf : Text → Expr → Prop
  | identifier {t : Text} : isIdent t = true → Leaf t (.identifier t)
  | number {t : Text} : Numeral t → Leaf t (.number t)

variable {s t u rest numerator denominator g h : Text} {l r e : Expr} {prev : Option Char}

section Leaf

/-- A leaf is spelled in the characters of tokens. -/
theorem Leaf.all_isTokenPart (he : Leaf t e) : ∀ c ∈ t, isTokenPart c = true := by
  cases he with
  | identifier hident => exact isTokenPart_of_isIdent hident
  | number hnumeral => exact List.all_eq_true.mp hnumeral.all_isTokenPart

/-- The parser reads a token as its leaf. -/
theorem Leaf.spells (nested : Rule) (Inner : Reading) (he : Leaf t e) (b : Nat) :
    Spells nested Inner .primary (b + 1) t e b := by
  cases he with
  | identifier hident =>
    have hdotted : Dotted isBlank (t ++ []) [t] := .mk hident .nil
    rw [List.append_nil] at hdotted
    exact .trailed (.name ⟨[t], hdotted, join_singleton⟩)
  | number hnumeral => exact .number hnumeral

/-- A leaf is typeset as its token, escaped. -/
theorem Leaf.typeset_eq (he : Leaf t e) : e.typeset = Typeset.escape t := by
  cases he <;> rfl

/-- A leaf is shown inline as its token. -/
theorem Leaf.inlineText_eq (he : Leaf t e) : e.inlineText = t := by
  cases he <;> rfl

/-- A token that is taken is that of a leaf. -/
theorem exists_leaf_of_takeToken? (ht : takeToken? t = some (s, rest)) :
    t = s ++ rest ∧ ∃ e, Leaf s e := by
  rw [takeToken?_eq_or, Option.or_eq_some_iff] at ht
  rcases ht with hident | ⟨-, hnumber⟩
  · obtain ⟨happ, hs, -⟩ := takeIdent?_eq_some_iff.mp hident
    exact ⟨happ, _, .identifier hs⟩
  · obtain ⟨happ, hs⟩ := numeral_of_takeNumber? hnumber
    exact ⟨happ, _, .number hs⟩

/-- Digits that are taken are a numeral. -/
theorem numeral_of_takeDigits? (ht : takeDigits? t = some (s, rest)) :
    t = s ++ rest ∧ Numeral s := by
  obtain ⟨happ, hall, -⟩ := (@span_eq_iff Char.isDigit _ t _).mp ⟨rfl, rfl⟩
  unfold takeDigits? at ht
  cases hd : t.takeWhile Char.isDigit with
  | nil =>
    rw [hd] at ht
    cases ht
  | cons c digits =>
    rw [hd] at ht happ hall
    obtain ⟨rfl, rfl⟩ := Prod.mk.inj (Option.some.inj ht)
    exact ⟨happ, .whole (isDigits_iff.mpr ⟨List.cons_ne_nil _ _, hall⟩)⟩

/-- A whole token that is taken is that of a leaf. -/
theorem exists_leaf_of_takeWholeToken? (ht : takeWholeToken? t = some (s, rest)) :
    t = s ++ rest ∧ ∃ e, Leaf s e := by
  rw [takeWholeToken?_eq_or, Option.or_eq_some_iff, Option.or_eq_some_iff] at ht
  rcases ht with hident | ⟨-, hnumber | ⟨-, hdigits⟩⟩
  · obtain ⟨happ, hs, -⟩ := takeIdent?_eq_some_iff.mp hident
    exact ⟨happ, _, .identifier hs⟩
  · obtain ⟨happ, hs⟩ := numeral_of_takeNumber? (Option.filter_eq_some_iff.mp hnumber).1
    exact ⟨happ, _, .number hs⟩
  · obtain ⟨happ, hs⟩ := numeral_of_takeDigits? (Option.filter_eq_some_iff.mp hdigits).1
    exact ⟨happ, _, .number hs⟩

end Leaf

/-- The parser reads a token over a token as a division of two leaves, whatever blanks stand around
the slash. No exclusive or can stand in such a text. -/
theorem parse?_quotient (hl : Leaf numerator l) (hr : Leaf denominator r) (hg : AllBlank g)
    (hh : AllBlank h) :
    Expr.parse? (numerator ++ (g ++ '/' :: (h ++ denominator))) = some (.binary .div l r) := by
  have hleft := hl.spells (expression maxDepth) (Reads maxDepth) (maxNodes - 1)
  have hright := hr.spells (expression maxDepth) (Reads maxDepth) (maxNodes - 2)
  have hreads : Reads (maxDepth + 1) maxNodes (numerator ++ (g ++ '/' :: (h ++ denominator)))
      (.binary .div l r) (maxNodes - 3) :=
    .term (.multiply (.factor (.unsigned allBlank_nil hleft)) hg rfl (.unsigned hh hright))
  refine parse?_eq_some_iff_reads.mpr ⟨?_, _, [], _, (List.append_nil _).symm, allBlank_nil, hreads⟩
  have htoken {t : Text} {e : Expr} (he : Leaf t e) : xorSign ∉ t := fun hmem =>
    absurd (he.all_isTokenPart _ hmem) (by decide)
  have hblank {t : Text} (ht : AllBlank t) : xorSign ∉ t := fun hmem =>
    absurd (ht _ hmem) (by decide)
  simp only [List.mem_append, List.mem_cons, not_or]
  exact ⟨htoken hl, hblank hg, by decide, hblank hh, htoken hr⟩

/-- What is recognised is a token over a token, with layout around the slash. -/
theorem exists_quotient_of_recognise {found : Option (Text × Text)}
    (ht : recognise prev t = some (found, rest)) :
    ∃ numerator g h denominator l r, found = some (numerator, denominator) ∧
      t = numerator ++ (g ++ '/' :: (h ++ denominator)) ++ rest ∧ AllLayout g ∧ AllLayout h ∧
      Leaf numerator l ∧ Leaf denominator r := by
  have hskip (t : Text) : ∃ g, AllLayout g ∧ t = g ++ skipLayout t := by
    obtain ⟨happ, hall, -⟩ := (@span_eq_iff isLayout _ t _).mp ⟨rfl, rfl⟩
    exact ⟨_, List.all_eq_true.mp hall, happ⟩
  unfold recognise at ht
  split at ht
  · cases ht
  · obtain ⟨⟨numerator, u⟩, htoken, hrest⟩ := Option.bind_eq_some_iff.mp ht
    obtain ⟨rfl, l, hl⟩ := exists_leaf_of_takeToken? htoken
    obtain ⟨g, hg, hu⟩ := hskip u
    dsimp only at hrest
    split at hrest
    · rename_i v hv
      obtain ⟨⟨denominator, w⟩, hwhole, hend⟩ := Option.bind_eq_some_iff.mp hrest
      obtain ⟨hw, r, hr⟩ := exists_leaf_of_takeWholeToken? hwhole
      obtain ⟨h, hh, hv'⟩ := hskip v
      obtain ⟨rfl, rfl⟩ := Prod.mk.inj (Option.some.inj hend)
      refine ⟨numerator, g, h, denominator, l, r, rfl, ?_, hg, hh, hl, hr⟩
      rw [hu, hv, hv', hw]
      simp only [List.append_assoc, List.cons_append]
    · cases hrest

/-- What a finding says of the division that it stands for. -/
structure Shows (source masked : Text) (f : Finding) (start stop : Nat)
    (numerator denominator : Text) (l r : Expr) : Prop where
  /-- It is located where the division stands. -/
  location : f.location = (LineIndex.ofText source).location start stop
  /-- It is a stretch of one line, and not an empty one. -/
  range : start < stop ∧ ∃ n line, (n, line) ∈ source.lines ∧ n ≤ start ∧ stop ≤ n + line.length
  /-- No line ends in it. -/
  unbroken : ∀ c ∈ source.slice start stop, isLineBreak c = false
  /-- Masking leaves it as it is. -/
  unmasked : masked.slice start stop = source.slice start stop
  /-- The text of the stretch as a whole is the division of two expressions. -/
  whole : Expr.parse? (source.slice start stop) = some (.binary .div l r)
  /-- These are leaves, and their texts are those that the finding gives. -/
  leaves : Leaf numerator l ∧ Leaf denominator r ∧ f.detail = .division numerator denominator
  /-- It is typeset. -/
  typeset : f.typeset = (Expr.binary .div l r).typeset
  /-- It is shown inline, with raised and lowered digits if both texts are made up of digits. -/
  inlineText : f.inlineText =
    if numerator.isDigits && denominator.isDigits then
      numerator.map Inline.superscriptDigit ++
        Inline.fractionSlash :: denominator.map Inline.subscriptDigit
    else (Expr.binary .div l r).inlineText

/-- A fraction of two leaves is shown inline as their quotient, unless both are digits only. -/
theorem inlineText_fraction (hl : Leaf numerator l) (hr : Leaf denominator r) :
    (Fraction.mk numerator denominator).inlineText =
      if numerator.isDigits && denominator.isDigits then
        numerator.map Inline.superscriptDigit ++
          Inline.fractionSlash :: denominator.map Inline.subscriptDigit
      else (Expr.binary .div l r).inlineText := by
  have hbinary : (Expr.binary .div l r).inlineText =
      numerator ++ Inline.fractionSlash :: denominator := by
    calc (Expr.binary .div l r).inlineText
        = l.inlineText ++ [Inline.fractionSlash] ++ r.inlineText := rfl
      _ = numerator ++ Inline.fractionSlash :: denominator := by
        rw [hl.inlineText_eq, hr.inlineText_eq, List.append_assoc, List.singleton_append]
  rw [Fraction.inlineText, Inline.superscript?, Inline.subscript?, hbinary]
  cases numerator.isDigits <;> cases denominator.isDigits <;> rfl

/-- A division that was recognised in a line is the slice of the line that it is located in. -/
theorem exists_quotient_of_reportedAt {line : Text} {o : Occurrence (Text × Text)} {i : Nat}
    (h : ReportedAt recognise 0 none line o i rest) :
    ∃ g h l r, slice line o.start o.stop = o.value.1 ++ (g ++ '/' :: (h ++ o.value.2)) ∧
      AllLayout g ∧ AllLayout h ∧ Leaf o.value.1 l ∧ Leaf o.value.2 r := by
  obtain ⟨numerator, g, h', denominator, l, r, hvalue, htext, hg, hh, hl, hr⟩ :=
    exists_quotient_of_recognise h.reported
  obtain ⟨hn, hd⟩ := Prod.mk.inj (Option.some.inj hvalue)
  rw [hn, hd]
  exact ⟨g, h', l, r, h.slice_eq htext (by simp), hg, hh, hl, hr⟩

/-- Divisions that are found are disjoint and in order: within a line as occurrences, and from line
to line because each lies in its own. -/
theorem pairwise_find (source masked : Text) :
    (find source masked).Pairwise fun f f' => f.start < f'.start ∧ f.stop ≤ f'.start := by
  have hrange {line : Text} {o : Occurrence (Text × Text)} (ho : o ∈ inLine line) :
      o.start < o.stop ∧ o.stop ≤ line.length := by
    obtain ⟨i, rest, hi⟩ := exists_reportedAt_of_mem_occurrences (List.mem_filter.mp ho).1
    simpa only [Nat.zero_add] using hi.range
  have hplace {n : Nat} {o : Occurrence (Text × Text)} {f : Finding} {p : Prop} [Decidable p]
      (hf : (if p then some (finding (LineIndex.ofText source) ↑(n + o.start) ↑(n + o.stop)
        o.value.1 o.value.2) else none) = some f) :
      f.start = ↑(n + o.start) ∧ f.stop = ↑(n + o.stop) := by
    obtain ⟨-, hf⟩ := Option.ite_none_right_eq_some.mp hf
    obtain rfl := Option.some.inj hf
    exact ⟨LineIndex.location_offset _ _ _, LineIndex.location_endOffset _ _ _⟩
  refine List.pairwise_flatMap.mpr ⟨?_, (pairwise_lines source).imp ?_⟩
  · rintro ⟨n, line⟩ -
    refine List.pairwise_filterMap.mpr ((pairwise_search.filter _).imp_of_mem ?_)
    intro o o' ho _ hle f hf f' hf'
    obtain ⟨hstart, hstop⟩ := hplace hf
    obtain ⟨hstart', -⟩ := hplace hf'
    have := hrange ho
    omega
  · rintro ⟨n, line⟩ ⟨n', line'⟩ hle f hf f' hf'
    obtain ⟨o, ho, hf⟩ := List.mem_filterMap.mp hf
    obtain ⟨o', -, hf'⟩ := List.mem_filterMap.mp hf'
    obtain ⟨hstart, hstop⟩ := hplace hf
    obtain ⟨hstart', -⟩ := hplace hf'
    have := hrange ho
    dsimp only at hle
    omega

/-- Every finding shows a division of two leaves, which its text is by itself, and the findings
are disjoint and in order. -/
theorem find_shows_quotient (source masked : Text) :
    (∀ f ∈ find source masked, ∃ start stop numerator denominator l r,
      Shows source masked f start stop numerator denominator l r) ∧
      (find source masked).Pairwise fun f f' => f.start < f'.start ∧ f.stop ≤ f'.start := by
  constructor
  · intro f hf
    obtain ⟨n, line, o, i, rest, hline, hi, hunmasked, rfl⟩ := exists_of_mem_find hf
    obtain ⟨g, h, l, r, hslice, hg, hh, hl, hr⟩ := exists_quotient_of_reportedAt hi
    obtain ⟨hlt, hle⟩ := hi.range
    rw [Nat.zero_add] at hle
    have hsource : slice source (n + o.start) (n + o.stop) = slice line o.start o.stop := by
      rw [← slice_slice _ _ _ (Nat.add_le_add_left hle n), slice_of_mem_lines hline]
    refine ⟨n + o.start, n + o.stop, o.value.1, o.value.2, l, r, rfl,
      ⟨by omega, n, line, hline, by omega, by omega⟩, fun c hc => ?_, hunmasked, ?_,
      ⟨hl, hr, rfl⟩, ?_, inlineText_fraction hl hr⟩
    · rw [hsource] at hc
      exact unbroken_of_mem_lines hline c ((slice_isInfix _ _ _).subset hc)
    · rw [hsource, hslice]
      exact parse?_quotient hl hr hg.allBlank hh.allBlank
    · change Typeset.fraction _ _ = Typeset.fraction l.typeset r.typeset
      rw [hl.typeset_eq, hr.typeset_eq]
  · exact pairwise_find source masked

/-- A keyword is a name like any other, and a numeral that would run on into a letter gives up its
fraction. -/
theorem find_shows_quotient_keyword :
    ∃ f ∈ find "y = 1.2.3/x + new / 2.5a; // 1/2".toList
        (mask "y = 1.2.3/x + new / 2.5a; // 1/2".toList),
      f.detail = .division "new".toList "2".toList ∧ ∃ start stop numerator denominator l r,
        Shows "y = 1.2.3/x + new / 2.5a; // 1/2".toList
          (mask "y = 1.2.3/x + new / 2.5a; // 1/2".toList)
          f start stop numerator denominator l r := by
  obtain ⟨f, hf, hdetail⟩ : ∃ f ∈ find "y = 1.2.3/x + new / 2.5a; // 1/2".toList
      (mask "y = 1.2.3/x + new / 2.5a; // 1/2".toList),
      f.detail = .division "new".toList "2".toList := by decide +kernel
  exact ⟨f, hf, hdetail, (find_shows_quotient _ _).1 f hf⟩

end Gloss.Division
