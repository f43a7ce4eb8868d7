import Gloss.Proofs.Expr.Local
import Gloss.Proofs.Text.Line

/-!
# The expression at an offset

An expression that is read at an offset is what its own text is read as: nothing before it or
behind it was needed. It is the longest one there, for a longer one would have been read from the
same text, and of two readings of one text each is the only one.
-/

namespace Gloss.Expr

open Grammar Outcome Text

section Front

variable {t v rest : Text} {e : Expr} {start stop : Nat}

/-- The front of a text is parsed if the rule reads something from it with some nodes left. -/
theorem parseFront?_eq_some_iff : parseFront? t = some (e, rest) ↔
    ∃ left, expression (maxDepth + 1) t maxNodes = parsed e rest left := by
  rw [parseFront?]
  cases expression (maxDepth + 1) t maxNodes <;> simp

/-- What is left is an end of the text. -/
theorem suffix_of_parseFront? (h : parseFront? t = some (e, rest)) : rest <:+ t := by
  obtain ⟨left, hread⟩ := parseFront?_eq_some_iff.mp h
  exact (localRule_expression _).suffix hread

/-- Text behind an expression is not needed to read it. -/
theorem parseFront?_of_append (h : parseFront? (t ++ v) = some (e, rest ++ v)) :
    parseFront? t = some (e, rest) := by
  obtain ⟨left, hread⟩ := parseFront?_eq_some_iff.mp h
  exact parseFront?_eq_some_iff.mpr ⟨left, (localRule_expression _).taken hread⟩

/-- An expression fills a text if nothing is left behind it, not even blanks. -/
theorem parse?_eq_some_iff_front :
    parse? t = some e ↔ xorSign ∉ t ∧ parseFront? t = some (e, []) := by
  rw [parse?, Option.ite_none_left_eq_some, Option.bind_eq_some_iff]
  refine and_congr_right fun _ => ⟨?_, fun h => ⟨(e, []), h, rfl⟩⟩
  rintro ⟨⟨e₁, rest⟩, hfront, hblank⟩
  obtain ⟨left, hread⟩ := parseFront?_eq_some_iff.mp hfront
  obtain ⟨hrest, he⟩ := Option.ite_none_right_eq_some.mp hblank
  cases he
  rwa [← skipBlanks_of_expression hread, hrest] at hfront

/-- What is read at an offset is read from there on, up to the end that is reported. Nothing is read
behind the end of the text. -/
theorem parseAt?_eq_some_iff : parseAt? t start = some (e, stop) ↔
    (start ≤ stop ∧ stop ≤ t.length) ∧ xorSign ∉ t.slice start stop ∧
      parseFront? (t.drop start) = some (e, t.drop stop) := by
  rw [parseAt?, Option.bind_eq_some_iff]
  constructor
  · rintro ⟨⟨e₁, rest⟩, hfront, hresult⟩
    obtain ⟨hxor, hresult⟩ := Option.ite_none_left_eq_some.mp hresult
    obtain ⟨rfl, rfl⟩ := Prod.mk.inj (Option.some.inj hresult)
    have hsuffix := suffix_of_parseFront? hfront
    have hrest : rest = t.drop (t.length - rest.length) :=
      List.suffix_iff_eq_drop.mp (hsuffix.trans (List.drop_suffix start t))
    refine ⟨⟨?_, Nat.sub_le _ _⟩, hxor, by rwa [← hrest]⟩
    have hlength := hsuffix.length_le
    rw [List.length_drop] at hlength
    by_contra hstart
    have hnil : t.drop start = [] := List.drop_eq_nil_of_le (by omega)
    rw [hnil] at hfront
    cases hfront
  · rintro ⟨⟨-, hstop⟩, hxor, hfront⟩
    have hend : t.length - (t.drop stop).length = stop := by
      rw [List.length_drop]
      omega
    refine ⟨_, hfront, ?_⟩
    simp only [hend]
    exact if_neg hxor

/-- What is read at an offset is what the text taken there is read as. -/
theorem parse?_slice_of_parseAt? (h : parseAt? t start = some (e, stop)) :
    parse? (t.slice start stop) = some e := by
  obtain ⟨⟨hstart, -⟩, hxor, hfront⟩ := parseAt?_eq_some_iff.mp h
  rw [← slice_append_drop t start stop hstart] at hfront
  exact parse?_eq_some_iff_front.mpr ⟨hxor, parseFront?_of_append hfront⟩

/-- No longer text is an expression. -/
theorem parse?_slice_eq_none_of_parseAt? {stop' : Nat} (h : parseAt? t start = some (e, stop))
    (hlonger : stop < stop') (hend : stop' ≤ t.length) : parse? (t.slice start stop') = none := by
  obtain ⟨⟨hstart, -⟩, -, hfront⟩ := parseAt?_eq_some_iff.mp h
  rw [← slice_append_drop t start stop' (by omega),
    ← slice_append_drop t stop stop' (by omega)] at hfront
  refine Option.eq_none_iff_forall_ne_some.mpr fun e' hwhole => ?_
  have hleft := parseFront?_of_append hfront
  rw [(parse?_eq_some_iff_front.mp hwhole).2] at hleft
  have hempty : ([] : Text) = t.slice stop stop' := (Prod.mk.inj (Option.some.inj hleft)).2
  have hlength := length_slice t stop stop'
  rw [← hempty, List.length_nil] at hlength
  omega

/-- Text before an offset is not needed to read at it. -/
theorem parseAt?_drop (h : parseAt? t start = some (e, stop)) :
    parseAt? (t.drop start) 0 = some (e, stop - start) := by
  obtain ⟨⟨hstart, hstop⟩, hxor, hfront⟩ := parseAt?_eq_some_iff.mp h
  refine parseAt?_eq_some_iff.mpr ⟨⟨Nat.zero_le _, ?_⟩, ?_, ?_⟩
  · rw [List.length_drop]
    omega
  · rwa [slice_drop, Nat.add_zero, Nat.add_sub_cancel' hstart]
  · rwa [List.drop_zero, List.drop_drop, Nat.add_sub_cancel' hstart]

/-- A whole text is an expression if that is read at its front up to its end. -/
theorem parse?_eq_some_iff_parseAt? : parse? t = some e ↔ parseAt? t 0 = some (e, t.length) := by
  rw [parse?_eq_some_iff_front, parseAt?_eq_some_iff, List.drop_zero, List.drop_length, slice,
    List.take_length, List.drop_zero]
  simp

end Front

/-- What is read at an offset is what the text up to the reported end is read as by itself, no
longer text is an expression, and text before the offset does not matter. A whole text is an
expression if just that is read at its front. -/
theorem parseAt?_longest (t : Text) (e : Expr) :
    (∀ start stop, parseAt? t start = some (e, stop) →
      (start ≤ stop ∧ stop ≤ t.length) ∧ parse? (t.slice start stop) = some e ∧
        (∀ stop', stop < stop' → stop' ≤ t.length → parse? (t.slice start stop') = none) ∧
        parseAt? (t.drop start) 0 = some (e, stop - start)) ∧
      (parse? t = some e ↔ parseAt? t 0 = some (e, t.length)) := by
  refine ⟨fun start stop h => ⟨(parseAt?_eq_some_iff.mp h).1, ?_⟩, parse?_eq_some_iff_parseAt?⟩
  exact ⟨parse?_slice_of_parseAt? h, fun _ => parse?_slice_eq_none_of_parseAt? h,
    parseAt?_drop h⟩

/-- Neither the dot without a name nor the parenthesis that is never closed is read. -/
theorem parseAt?_longest_unclosed :
    parseAt? "x = a [i].(b; 1".toList 4 =
        some (.index (.identifier ['a']) (.identifier ['i']), 9) ∧
      parse? "a [i]".toList = some (.index (.identifier ['a']) (.identifier ['i'])) ∧
      parse? "a [i].(b;".toList = none := by
  have h : parseAt? "x = a [i].(b; 1".toList 4 =
      some (.index (.identifier ['a']) (.identifier ['i']), 9) := by
    decide +kernel
  obtain ⟨-, hwhole, hlonger, -⟩ := (parseAt?_longest _ _).1 4 9 h
  exact ⟨h, hwhole, hlonger 13 (by decide) (by decide)⟩

end Gloss.Expr
