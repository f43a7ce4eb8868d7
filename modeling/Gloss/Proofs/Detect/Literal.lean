import Gloss.Detect.Arithmetic
import Gloss.Proofs.Candidate
import Gloss.Proofs.Mask.Position
import Gloss.Proofs.Text.Word

/-!
# Expressions and literals

To the grammar a blanked literal is nothing but blanks, and blanks may stand
between any two tokens. An expression therefore can reach across a literal. It
never begins or ends in one, since its first and its last character are no
blanks; so a literal that it meets stands in it as a whole, with the quotation
mark that opens it. Expressions that avoid all literals are recognised by this.
-/

namespace Gloss

namespace Arithmetic

/-- What it takes to recognise an expression behind `prev`: it is read from the front of the
text, `shown` is what it spans without the blanks at its end, and it is worth reporting. -/
structure Recognised (prev : Option Char) (t : Text) (e : Expr) (shown : Text) : Prop where
  /-- A token that can begin an expression begins here. -/
  starts : t.head?.any isExprStart = true
  /-- It is not the rest of a longer token. -/
  edge : isTokenEdge prev = true
  /-- The expression is read from here, and its span holds no exclusive or. -/
  parsed : ∃ rest, Expr.parseFront? t = some (e, rest) ∧
    shown = Text.dropEndWhile isBlank (t.take (t.length - rest.length)) ∧
    xorSign ∉ t.take (t.length - rest.length)
  /-- Something is shown. -/
  nonempty : shown ≠ []
  /-- It is not merely a call or a construction. -/
  proper : e.isInvocation = false
  /-- It ends where a token ends. -/
  ends : isTokenEdge (t.drop shown.length).head? = true
  /-- It has an operator. -/
  operator : e.hasOperator = true

/-- What is reported was recognised, and all that is shown of it is left behind. -/
theorem recognised_of_recognise_eq_some {prev : Option Char} {t behind : Text} {e : Expr}
    (h : recognise prev t = some (some e, behind)) :
    ∃ shown, Recognised prev t e shown ∧ behind = t.drop shown.length := by
  unfold recognise at h
  split at h
  · exact absurd h (by simp)
  · rename_i hbegin
    split at h
    · exact absurd h (by simp)
    · rename_i e' rest hparse
      dsimp only at h
      split at h
      · exact absurd h (by simp)
      · rename_i hpass
        obtain ⟨he, hbehind⟩ := Prod.mk.inj (Option.some.inj h)
        split at he
        · rename_i hop
          obtain rfl := Option.some.inj he
          simp only [Bool.or_eq_true, Bool.not_eq_true', not_or, Bool.not_eq_false,
            decide_eq_true_eq, Bool.not_eq_true, List.isEmpty_eq_false_iff] at hbegin hpass
          obtain ⟨⟨⟨hxor, hinvoke⟩, hempty⟩, hends⟩ := hpass
          exact ⟨_, ⟨hbegin.1, hbegin.2, ⟨rest, hparse, rfl, hxor⟩, hempty, hinvoke, hends, hop⟩,
            hbehind.symm⟩
        · exact absurd he (by simp)

/-- What is shown stands at the front of the text. -/
theorem Recognised.exists_append {prev : Option Char} {t shown : Text} {e : Expr}
    (h : Recognised prev t e shown) : ∃ u, t = shown ++ u := by
  obtain ⟨rest, -, hshown, -⟩ := h.parsed
  obtain ⟨g, -, hg⟩ := Text.exists_append_of_dropEndWhile isBlank (t.take (t.length - rest.length))
  refine ⟨g ++ t.drop (t.length - rest.length), ?_⟩
  rw [hshown, ← List.append_assoc, ← hg, List.take_append_drop]

/-- What is shown neither begins nor ends with a blank. -/
theorem Recognised.ends_visible {prev : Option Char} {t shown : Text} {e : Expr}
    (h : Recognised prev t e shown) :
    (∃ c, t[0]? = some c ∧ isBlank c = false) ∧
      ∃ c, t[shown.length - 1]? = some c ∧ isBlank c = false := by
  obtain ⟨u, hu⟩ := h.exists_append
  constructor
  · obtain ⟨c, hc, hstart⟩ := Option.any_eq_true _ _ |>.mp h.starts
    exact ⟨c, by rw [← List.head?_eq_getElem?, hc], isBlank_of_isExprStart hstart⟩
  · obtain ⟨rest, -, hshown, -⟩ := h.parsed
    obtain ⟨c, hc⟩ : ∃ c, shown.getLast? = some c :=
      ⟨_, List.getLast?_eq_some_getLast h.nonempty⟩
    have hpos := List.length_pos_iff.mpr h.nonempty
    refine ⟨c, ?_, Text.getLast?_dropEndWhile (by rw [← hshown]; exact hc)⟩
    rw [hu, List.getElem?_append_left (by omega), ← List.getLast?_eq_getElem?, hc]

/-- A finding is an expression that was recognised at its start and is shown up to its end. -/
theorem exists_recognised_of_mem_find {limit : Nat} {source masked : Text} {f : Finding}
    (h : f ∈ find limit source masked) :
    ∃ i e shown, Recognised (Text.before none masked i) (masked.drop i) e shown ∧
      i + shown.length ≤ masked.length ∧
      f = finding (LineIndex.ofText source) source ⟨i, i + shown.length, e⟩ := by
  obtain ⟨⟨start, stop, e⟩, ho, rfl⟩ := List.mem_map.mp h
  obtain ⟨i, rest, hi⟩ := Text.exists_reportedAt_of_mem_search ho
  obtain ⟨shown, hshown, rfl⟩ := recognised_of_recognise_eq_some hi.reported
  obtain ⟨u, hu⟩ := hshown.exists_append
  have hlength := congrArg List.length hu
  have hpos := List.length_pos_iff.mpr hshown.nonempty
  have hbound := hi.bound
  obtain rfl : start = i := by simpa only [Nat.zero_add] using hi.start
  obtain rfl : stop = start + shown.length := by
    have hstop := hi.stop
    simp only [List.length_drop, List.length_append] at hstop hlength
    omega
  rw [List.length_drop, List.length_append] at hlength
  exact ⟨start, e, shown, hshown, by omega, rfl⟩

open Mask in
/-- An expression meets no literal exactly if each quotation mark in its span stands in a comment.
As it begins with a visible character, it holds the opening mark of any literal that it meets. -/
theorem avoids_literals_iff {limit : Nat} {source : Text} {rs : List Region} (hrs : Lexed rs)
    (hsource : flatten rs = source) {f : Finding} (hf : f ∈ find limit source (mask source)) :
    (∀ o : Nat, f.start ≤ o → o < f.stop → ¬ InLiteral rs o) ↔
      ∀ o : Nat, f.start ≤ o → o < f.stop → QuoteAt source o → InComment rs o := by
  subst hsource
  constructor
  · intro havoid o hstart hstop hquote
    exact (hrs.inLiteral_or_inComment hquote).resolve_left (havoid o hstart hstop)
  · intro hcomment o hstart hstop hlit
    obtain ⟨i, e, shown, hshown, -, rfl⟩ := exists_recognised_of_mem_find hf
    obtain ⟨⟨c, hc, hvisible⟩, -⟩ := hshown.ends_visible
    obtain ⟨first, last, hfirst, hlast, hquote, hall⟩ := hlit.exists_start hrs
    simp only [finding, Finding.start, Finding.stop, LineIndex.location_offset,
      LineIndex.location_endOffset] at hstart hstop hcomment
    rw [List.getElem?_drop, Nat.add_zero] at hc
    have hbefore : i < first := by
      by_contra hle
      obtain ⟨-, d, hd, hblank⟩ := hall i (by omega) (by omega)
      rw [hc] at hd
      rw [Option.some.inj hd, hblank] at hvisible
      exact absurd hvisible (by simp)
    exact (hall first (Nat.le_refl _) (by omega)).1.not_inComment
      (hcomment first (by omega) (by omega) hquote)

open Mask in
/-- A quotation mark in a comment does no harm. -/
theorem avoids_literals_quoted_comment :
    ∃ rs, Lexed rs ∧ flatten rs = "a /* \" */ + b".toList ∧
      ∃ f ∈ find 500 (flatten rs) (mask (flatten rs)),
        (∀ o : Nat, f.start ≤ o → o < f.stop → ¬ InLiteral rs o) ↔
          ∀ o : Nat, f.start ≤ o → o < f.stop → QuoteAt (flatten rs) o → InComment rs o := by
  have htail : Lexed (" + b".toList.map .plain ++ []) :=
    Lexed.append_plain (by decide) .nil
  have hrs := Lexed.append_plain (t := "a ".toList) (by decide)
    (show Lexed (.masked .blockComment " \" ".toList true :: _) from
      .masked rfl (.marked rfl rfl) htail)
  obtain ⟨f, hf⟩ := List.exists_mem_of_ne_nil _
    (show find 500 "a /* \" */ + b".toList (mask "a /* \" */ + b".toList) ≠ [] by decide +kernel)
  exact ⟨_, hrs, rfl, f, hf, avoids_literals_iff hrs rfl hf⟩

open Mask in
/-- Not every expression avoids the literals of its source: between the two signs of
`a + "s" + b` stands one. -/
theorem not_avoids_literals :
    ¬ ∀ (source : Text) (rs : List Region), Lexed rs → flatten rs = source →
      ∀ f ∈ find 500 source (mask source), ∀ o : Nat, f.start ≤ o → o < f.stop →
        ¬ InLiteral rs o := by
  intro h
  have htail : Lexed (" + b".toList.map .plain ++ []) :=
    Lexed.append_plain (by decide) .nil
  have hrs := Lexed.append_plain (t := "a + ".toList) (by decide)
    (show Lexed (.masked (.quoted '"' false) ['s'] true :: _) from
      .masked rfl (.closed rfl rfl) htail)
  obtain ⟨f, hf, hstart, hstop⟩ : ∃ f ∈ find 500 "a + \"s\" + b".toList
      (mask "a + \"s\" + b".toList), f.start ≤ 5 ∧ 5 < f.stop := by decide +kernel
  exact h _ _ hrs rfl f hf 5 hstart hstop ⟨_, rfl, rfl⟩

end Arithmetic

end Gloss
