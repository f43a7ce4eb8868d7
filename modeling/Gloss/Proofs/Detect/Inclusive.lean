import Gloss.Detect.Loop
import Gloss.Expr.Inline
import Gloss.Proofs.Expr.Typeset
import Gloss.Proofs.Text.Row

/-!
# Inclusive bounds

A loop whose variable stays below a bound ends one earlier. Its last value is written as the text
of the bound and ` - 1` behind it, which is read as one more term behind the whole bound: whatever
the bound ends with, nothing of it is taken for an operand of the new term.
-/

namespace Gloss

open Text

namespace Grammar

variable {nested : Rule} {Inner : Reading} {b b' : Nat} {c : Char} {op : Operator}
  {t g k digits : Text} {e : Expr}

/-- A number behind a sum and a further sign is one more term of that sum. -/
theorem Spells.append_number (h : Spells nested Inner .sum b t e (b' + 2)) (hg : AllBlank g)
    (hop : Operator.additive? c = some op) (hk : AllBlank k) (hdigits : Numeral digits) :
    Spells nested Inner .sum b (t ++ (g ++ c :: (k ++ digits)))
      (.binary op e (.number digits)) b' := by
  have hterm : Spells nested Inner .product (b' + 2) (k ++ digits) (.number digits) (b' + 1) :=
    .factor (.unsigned hk (.number hdigits))
  exact .add h hg hop hterm

/-- A number behind a whole text and a further sign attaches to all of the text, if the two nodes
that it takes can be paid for. -/
theorem parse?_append_number (h : Expr.parse? t = some e) (hsize : e.size + 2 ≤ maxNodes)
    (hg : AllBlank g) (hop : Operator.additive? c = some op) (hk : AllBlank k)
    (hdigits : Numeral digits) :
    Expr.parse? (t ++ (g ++ c :: (k ++ digits))) = some (.binary op e (.number digits)) := by
  obtain ⟨hxor, u, g', left, rfl, hg', hu⟩ := parse?_eq_some_iff_reads.mp h
  have hpaid : maxNodes = left + e.size := Reads.pays _ hu
  obtain ⟨left, rfl⟩ : ∃ n, left = n + 2 := ⟨left - 2, by omega⟩
  have hblank {g : Text} (hg : AllBlank g) : xorSign ∉ g := fun hmem =>
    absurd (hg _ hmem) (by decide)
  have hsign : xorSign ≠ c := by
    rcases (Operator.additive?_eq_some hop).2 with rfl | rfl <;> decide
  have hnumber : xorSign ∉ digits := fun hmem =>
    absurd (List.all_eq_true.mp hdigits.all_isTokenPart _ hmem) (by decide)
  refine parse?_eq_some_iff_reads.mpr ⟨?_, u ++ (g' ++ g ++ c :: (k ++ digits)), [], left, ?_,
    allBlank_nil, hu.append_number (allBlank_append.mpr ⟨hg', hg⟩) hop hk hdigits⟩
  · simp only [List.mem_append, List.mem_cons, not_or] at hxor ⊢
    exact ⟨hxor, hblank hg, hsign, hblank hk, hnumber⟩
  · simp only [List.append_assoc, List.append_nil]

end Grammar

namespace Expr

/-- A difference whose left operand is shown as it is by itself. -/
theorem typeset_sub_number (e : Expr) (digits : Text) :
    (binary .sub e (number digits)).typeset =
      e.typeset ++ " - ".toList ++ Typeset.escape digits := by
  have hsymbols : (binary .sub e (number digits)).typeset =
      guarded 10 e e.typeset ++ [' '] ++ ['-'] ++ [' '] ++ Typeset.escape digits := rfl
  rw [hsymbols, guarded_eq_self (Typeset.ten_le_precedence e)]
  simp

end Expr

namespace Loop

open Gloss.Expr

/-- The condition in a loop header is that the variable is below a bound. -/
def AsksBelow (header index rhs : Text) : Prop :=
  ∃ initial condition more g bound, splitAt ';' header = initial :: condition :: more ∧
    trim condition = index ++ (g ++ '<' :: bound) ∧ AllLayout g ∧ bound.head? ≠ some '=' ∧
    trim bound = rhs

variable {header index rhs upper : Text} {loop : LoopHeader} {e : Expr}

/-- The upper bound of a header is read out of its second clause. -/
theorem exists_condition_of_readHeader? (h : readHeader? header = some loop) :
    ∃ initial condition more, splitAt ';' header = initial :: condition :: more ∧
      upperBound? loop.index (trim condition) = some loop.upper := by
  rw [readHeader?] at h
  split at h
  · rename_i initial condition update more hsplit
    simp only at h
    split at h
    · cases h
    · obtain ⟨⟨index, lower⟩, -, h⟩ := Option.bind_eq_some_iff.mp h
      obtain ⟨upper, hupper, h⟩ := Option.bind_eq_some_iff.mp h
      split at h
      · cases h
        exact ⟨initial, condition, update :: more, hsplit, hupper⟩
      · cases h
  · cases h

/-- The last value of a variable that stays below a bound is that bound less one. -/
theorem upper_of_asksBelow (h : readHeader? header = some loop)
    (hbelow : AsksBelow header loop.index rhs) : loop.upper = rhs ++ " - 1".toList := by
  obtain ⟨initial, condition, more, hsplit, hupper⟩ := exists_condition_of_readHeader? h
  obtain ⟨initial', condition', more', g, bound, hsplit', hcondition, hg, hequals, rfl⟩ := hbelow
  obtain ⟨rfl, rfl, rfl⟩ : initial = initial' ∧ condition = condition' ∧ more = more' := by
    simpa only [List.cons.injEq] using hsplit.symm.trans hsplit'
  have hskip : skipLayout (g ++ '<' :: bound) = '<' :: bound := by
    rw [skipLayout, List.dropWhile_append_of_pos hg]
    rfl
  rw [upperBound?, hcondition, after?_append, Option.bind_eq_bind, Option.bind_some, hskip]
    at hupper
  cases bound with
  | nil => cases hupper
  | cons c bound =>
    have hc : c ≠ '=' := fun he => hequals (by rw [he]; rfl)
    by_cases hless : c = '<'
    · subst hless
      cases hupper
    · simpa [hc, hless] using hupper.symm

/-- A bound less one is read as the difference of the whole bound and one. So the last value of a
variable that stays below a bound is shown as the bound with a difference behind it, and no operand
of the bound changes its place. -/
theorem upper_less_one (h : parse? rhs = some e) (hsize : e.size + 2 ≤ maxNodes) :
    parse? (rhs ++ " - 1".toList) = some (.binary .sub e (.number ['1'])) ∧
      ∀ (header : Text) (loop : LoopHeader), readHeader? header = some loop →
        AsksBelow header loop.index rhs → loop.upper = rhs ++ " - 1".toList ∧
          (parseOrRaw loop.upper).typeset = e.typeset ++ " - 1".toList ∧
          (parseOrRaw loop.upper).inlineText = e.inlineText ++ "-1".toList := by
  have hblank : AllBlank [' '] := allBlank_cons.mpr ⟨by decide, allBlank_nil⟩
  have hdifference : parse? (rhs ++ " - 1".toList) = some (.binary .sub e (.number ['1'])) :=
    Grammar.parse?_append_number h hsize hblank rfl hblank (.whole (by decide))
  refine ⟨hdifference, fun header loop hheader hbelow => ?_⟩
  have hupper := upper_of_asksBelow hheader hbelow
  have hshown : parseOrRaw loop.upper = .binary .sub e (.number ['1']) := by
    rw [parseOrRaw, hupper, hdifference, Option.getD_some]
  refine ⟨hupper, ?_, ?_⟩
  · rw [hshown, typeset_sub_number, List.append_assoc]
    rfl
  · rw [hshown, inlineText, List.append_assoc]
    rfl

/-- The bound ends with a construction that has no arguments. -/
theorem upper_less_one_construction :
    let e : Expr := .binary .sub (.identifier ['a']) (.construct (.identifier ['B']))
    let header := "int i = 0; i < a - new B; i++".toList
    parse? "a - new B - 1".toList = some (.binary .sub e (.number ['1'])) ∧
      ∃ loop, readHeader? header = some loop ∧
        (parseOrRaw loop.upper).typeset = e.typeset ++ " - 1".toList ∧
        (parseOrRaw loop.upper).inlineText = e.inlineText ++ "-1".toList := by
  intro e header
  have h : parse? "a - new B".toList = some e := by decide +kernel
  have hheader : readHeader? header = some ⟨['i'], ['0'], "a - new B - 1".toList⟩ := by
    decide +kernel
  have hbelow : AsksBelow header ['i'] "a - new B".toList :=
    ⟨"int i = 0".toList, " i < a - new B".toList, [" i++".toList], [' '], " a - new B".toList,
      by decide +kernel, by decide +kernel, by decide, by decide, by decide +kernel⟩
  obtain ⟨hdifference, hshown⟩ := upper_less_one h (by decide)
  exact ⟨hdifference, _, hheader, (hshown header _ hheader hbelow).2⟩

end Loop

end Gloss
