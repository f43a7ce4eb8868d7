import Gloss.Proofs.Expr.Front
import Gloss.Proofs.Expr.Inline

/-!
# What the inline form keeps

The inline form of an expression has every character of the text that was read, and no other,
if blanks and commas do not count and an operator counts as its symbol. So it has the same
brackets, and its operands stand in the order of the source.
-/

namespace Gloss

open Text

namespace Text

variable {t u : Text} {ps qs : List Text}

/-- The pieces stand in the text, each behind the one before. -/
def InOrder : List Text → Text → Prop
  | [], _ => True
  | p :: ps, t => ∃ g u, t = g ++ (p ++ u) ∧ InOrder ps u

theorem inOrder_singleton (t : Text) : InOrder [t] t :=
  ⟨[], [], by rw [List.nil_append, List.append_nil], trivial⟩

/-- More text in front does not matter to pieces in order. -/
theorem InOrder.behind (h : InOrder ps t) (g : Text) : InOrder ps (g ++ t) := by
  cases ps with
  | nil => trivial
  | cons p ps =>
    obtain ⟨k, u, rfl, hu⟩ := h
    exact ⟨g ++ k, u, (List.append_assoc ..).symm, hu⟩

/-- Pieces in order in two texts are so in both together. -/
theorem InOrder.append (ht : InOrder ps t) (hu : InOrder qs u) : InOrder (ps ++ qs) (t ++ u) := by
  induction ps generalizing t with
  | nil => exact hu.behind t
  | cons p ps ih =>
    obtain ⟨g, v, rfl, hv⟩ := ht
    exact ⟨g, v ++ u, by simp only [List.append_assoc], ih hv⟩

/-- More text behind does not matter to pieces in order. -/
theorem InOrder.before (h : InOrder ps t) (v : Text) : InOrder ps (t ++ v) := by
  have hnone : InOrder [] v := trivial
  rw [← List.append_nil ps]
  exact h.append hnone

/-- Rewriting character by character keeps the pieces and their order. -/
theorem InOrder.map {f : Text → Text} (hf : ∀ t u, f (t ++ u) = f t ++ f u) (h : InOrder ps t) :
    InOrder (ps.map f) (f t) := by
  induction ps generalizing t with
  | nil => trivial
  | cons p ps ih =>
    obtain ⟨g, u, rfl, hu⟩ := h
    exact ⟨f g, f u, by rw [hf, hf], ih hu⟩

end Text

namespace Expr

open Inline

variable {t : Text} {e : Expr} {c : Char}

/-- What counts of a text: all but its blanks and commas, with the operators of the source. -/
def erased (t : Text) : Text := (solid t).map sourceChar

theorem erased_append (t u : Text) : erased (t ++ u) = erased t ++ erased u := by
  rw [erased, solid_append, List.map_append, erased, erased]

/-- Only the two operators of the inline form stand for other characters. -/
theorem sourceChar_cases (c : Char) : sourceChar c = c ∨
    (c = middleDot ∧ sourceChar c = '*') ∨ (c = fractionSlash ∧ sourceChar c = '/') := by
  rw [sourceChar]
  split
  · exact .inr (.inl ⟨‹_›, rfl⟩)
  · split
    · exact .inr (.inr ⟨‹_›, rfl⟩)
    · exact .inl rfl

/-- It does not matter whether the operators are put back first. -/
theorem solid_map_sourceChar (t : Text) : solid (t.map sourceChar) = erased t := by
  have hkeep (c : Char) : (!(isBlank (sourceChar c) || decide (sourceChar c = ','))) =
      !(isBlank c || decide (c = ',')) := by
    rcases sourceChar_cases c with h | ⟨rfl, h⟩ | ⟨rfl, h⟩
    · rw [h]
    · rw [h]
      decide
    · rw [h]
      decide
  rw [erased, solid, solid, List.filter_map]
  simp only [Function.comp_def, hkeep]

/-- The inline form of what was read counts as the text that was read. -/
theorem erased_inlineText (h : parse? t = some e) : erased e.inlineText = erased t := by
  have hsolid : solid e.sourceText = solid t := (parse?_sourceText h).2
  calc erased e.inlineText
      = solid (e.inlineText.map sourceChar) := (solid_map_sourceChar _).symm
    _ = solid (e.sourceText.map sourceChar) := by rw [map_sourceChar_inlineText]
    _ = erased e.sourceText := solid_map_sourceChar _
    _ = erased t := by rw [erased, erased, hsolid]

/-- A character that no other one counts as is neither lost nor added. -/
theorem count_erased (hblank : isBlank c = false) (hcomma : c ≠ ',')
    (hother : c ∉ [middleDot, fractionSlash, '*', '/']) (t : Text) :
    (erased t).count c = t.count c := by
  have hself (d : Char) : sourceChar d = c ↔ d = c := by
    simp only [List.mem_cons, List.not_mem_nil, or_false, not_or] at hother
    obtain ⟨hdot, hfraction, hstar, hslash⟩ := hother
    rcases sourceChar_cases d with h | ⟨rfl, h⟩ | ⟨rfl, h⟩
    · rw [h]
    · rw [h]
      exact iff_of_false (Ne.symm hstar) (Ne.symm hdot)
    · rw [h]
      exact iff_of_false (Ne.symm hslash) (Ne.symm hfraction)
  calc (erased t).count c
      = (solid t).countP fun d => sourceChar d == c := by
        rw [erased, List.count_eq_countP, List.countP_map]
        rfl
    _ = (solid t).count c := by
        rw [List.count_eq_countP]
        exact List.countP_congr fun d _ => by rw [beq_iff_eq, beq_iff_eq, hself]
    _ = t.count c := List.count_filter (by simp [hblank, hcomma])

/-- Erasing leaves every bracket. -/
theorem count_erased_bracket (b : Bracket) (t : Text) :
    (erased t).count b.opener = t.count b.opener ∧
      (erased t).count b.closer = t.count b.closer := by
  cases b <;> exact ⟨count_erased (by decide) (by decide) (by decide) t,
    count_erased (by decide) (by decide) (by decide) t⟩

mutual

/-- The operands of an expression from left to right: its numbers, names and raw texts. -/
def operands : Expr → List Text
  | number digits => [digits]
  | identifier name => [name]
  | raw text => [text]
  | group _ e | unary _ e => e.operands
  | binary _ l r => l.operands ++ r.operands
  | member e name => e.operands ++ [name]
  | index e s => e.operands ++ s.operands
  | call f args => f.operands ++ argOperands args
  | construct type => type.operands
  | constructWith type args => type.operands ++ argOperands args

/-- The operands of several expressions. -/
def argOperands : List Expr → List Text
  | [] => []
  | e :: es => e.operands ++ argOperands es

end

mutual

/-- Operands are shown as they are, and in their order. -/
theorem inOrder_operands : (e : Expr) → InOrder e.operands e.inlineText
  | number t | identifier t | raw t => inOrder_singleton t
  | group fence e => ((inOrder_operands e).behind [fence.bracket.opener]).before _
  | unary sign e => (inOrder_operands e).behind sign.symbol
  | binary op l r => ((inOrder_operands l).before op.inlineText).append (inOrder_operands r)
  | member e name => (inOrder_operands e).append ((inOrder_singleton name).behind ['.'])
  | index e s => by
    rw [operands, inlineText, List.append_assoc]
    exact (inOrder_operands e).append (((inOrder_operands s).behind ['[']).before [']'])
  | call f args => by
    rw [operands, inlineText, List.append_assoc]
    exact (inOrder_operands f).append (((inOrder_argOperands args).behind ['(']).before [')'])
  | construct type => (inOrder_operands type).behind _
  | constructWith type args => by
    rw [operands, inlineText, List.append_assoc]
    exact ((inOrder_operands type).behind _).append
      (((inOrder_argOperands args).behind ['(']).before [')'])

/-- The same for arguments with commas between them. -/
theorem inOrder_argOperands :
    (es : List Expr) → InOrder (argOperands es) (commaSeparated (inlineTexts es))
  | [] => trivial
  | [e] => by
    rw [argOperands, argOperands, List.append_nil, inlineTexts, inlineTexts, commaSeparated,
      join_singleton]
    exact inOrder_operands e
  | e :: e' :: es => by
    rw [argOperands, inlineTexts, inlineTexts, commaSeparated, join_cons_cons]
    exact (inOrder_operands e).append ((inOrder_argOperands (e' :: es)).behind [','])

end

/-- What the inline form of an expression keeps of the text that was read. -/
structure Keeps (t : Text) (e : Expr) : Prop where
  /-- Every character but blanks and commas, and no other. -/
  erased_eq : erased e.inlineText = erased t
  /-- Every bracket, and no other. -/
  count_eq : ∀ b : Bracket, e.inlineText.count b.opener = t.count b.opener ∧
    e.inlineText.count b.closer = t.count b.closer
  /-- The operands as they are, from left to right. -/
  shown : InOrder e.operands e.inlineText
  /-- The order in which the operands were read. -/
  read : InOrder (e.operands.map erased) (erased t)

/-- The inline form of what a text is parsed as keeps what it has to. -/
theorem keeps_of_parse? (h : parse? t = some e) : Keeps t e where
  erased_eq := erased_inlineText h
  count_eq b := by
    have htext := count_erased_bracket b t
    have hinline := count_erased_bracket b e.inlineText
    rw [erased_inlineText h] at hinline
    exact ⟨hinline.1.symm.trans htext.1, hinline.2.symm.trans htext.2⟩
  shown := inOrder_operands e
  read := by
    rw [← erased_inlineText h]
    exact (inOrder_operands e).map erased_append

/-- The inline form loses and invents nothing but blanks and commas, whether a whole text was
read or the longest expression at an offset. -/
theorem inlineText_keeps (t : Text) (e : Expr) :
    (parse? t = some e → Keeps t e) ∧
      ∀ start stop, parseAt? t start = some (e, stop) → Keeps (t.slice start stop) e :=
  ⟨keeps_of_parse?, fun _ _ h => keeps_of_parse? (parse?_slice_of_parseAt? h)⟩

/-- Blanks and an empty argument get lost; the blank of the raw argument does not count. -/
theorem inlineText_keeps_call :
    parse? "f( a b, , 2*x) ".toList =
        some (.call (.identifier ['f'])
          [.raw ['a', ' ', 'b'], .binary .mul (.number ['2']) (.identifier ['x'])]) ∧
      erased "f(a b,2·x)".toList = erased "f( a b, , 2*x) ".toList ∧
      parseAt? "y = f( a b, , 2*x) ;".toList 4 =
        some (.call (.identifier ['f'])
          [.raw ['a', ' ', 'b'], .binary .mul (.number ['2']) (.identifier ['x'])], 19) ∧
      InOrder ["f".toList, "ab".toList, "2".toList, "x".toList]
        (erased (Text.slice "y = f( a b, , 2*x) ;".toList 4 19)) := by
  have h : parse? "f( a b, , 2*x) ".toList =
      some (.call (.identifier ['f'])
        [.raw ['a', ' ', 'b'], .binary .mul (.number ['2']) (.identifier ['x'])]) := by
    decide +kernel
  have hat : parseAt? "y = f( a b, , 2*x) ;".toList 4 =
      some (.call (.identifier ['f'])
        [.raw ['a', ' ', 'b'], .binary .mul (.number ['2']) (.identifier ['x'])], 19) := by
    decide +kernel
  exact ⟨h, ((inlineText_keeps _ _).1 h).erased_eq, hat,
    ((inlineText_keeps _ _).2 4 19 hat).read⟩

end Expr

end Gloss
