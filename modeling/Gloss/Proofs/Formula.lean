import Gloss.Formula
import Gloss.Proofs.Expr.Inline
import Gloss.Proofs.Expr.Typeset

/-!
# The base of a power

Both forms of a power put parentheses around a base with an operator anywhere in it, and around no
other. Of the bases that bind more loosely than a primary, those without an operator are signed
operands. They stand bare: what precedes the exponent is then no single operand, and the exponent
applies to what stands behind the signs.
-/

namespace Gloss

namespace Expr

open Text Inline

variable {base e : Expr} {front t : Text}

/-- A text is read as one operand, the thing an exponent behind it applies to: as a primary, or as
what stands between parentheses. -/
inductive ReadsOperand : Text → Expr → Prop
  | primary {t : Text} {e : Expr} : parse? t = some e → e.precedence = 40 → ReadsOperand t e
  | enclosed {t : Text} {e : Expr} : parse? t = some e → ReadsOperand (parenthesized t) e

/-- Nothing binds more strongly than a leaf. -/
theorem precedence_le (e : Expr) : e.precedence ≤ 40 := by
  fun_cases precedence e <;> decide

/-- What binds more loosely than a primary and has no operator is a signed operand. -/
theorem exists_unary_of_precedence_lt (hroot : e.precedence < 40) (hplain : e.hasOperator = false) :
    ∃ sign operand, e = .unary sign operand ∧ operand.hasOperator = false := by
  cases e with
  | unary sign operand => exact ⟨sign, operand, rfl, hplain⟩
  | binary => cases hplain
  | _ => exact absurd hroot (Nat.lt_irrefl 40)

/-- Without an operator nothing needs parentheses behind a sign. -/
theorem thirty_le_precedence (hplain : e.hasOperator = false) : 30 ≤ e.precedence := by
  cases e with
  | binary => cases hplain
  | _ => simp [precedence]

/-- An expression is not read from its own source form between parentheses. -/
theorem sourceText_ne_parenthesized (h : parse? t = some e) : e.sourceText ≠ parenthesized t := by
  intro he
  have hsolid := (parse?_sourceText h).2
  have hclosed : solid (parenthesized t) = '(' :: (solid t ++ [')']) := by
    rw [parenthesized, List.cons_append, solid_cons (by decide) (by decide), solid_append]
    rfl
  rw [he, hclosed] at hsolid
  have hlength := congrArg List.length hsolid
  rw [List.length_cons, List.length_append, List.length_singleton] at hlength
  omega

end Expr

namespace Typeset

open Gloss.Expr

variable {base e : Expr} {front : Text} {fs : List Frame}

/-- A typeset text stands for one operand, with nothing begun before it. -/
def ShowsOperand (t : Text) (e : Expr) : Prop :=
  ∃ ss : List Symbol, ss.all Symbol.isPlain = true ∧ ss.flatMap Symbol.written = t ∧
    ss.foldlM step ⟨none, []⟩ = some ⟨some e, []⟩

/-- Braces around a text are taken off again. -/
theorem braced_inj {t u : Text} (h : braced t = braced u) : t = u :=
  List.append_cancel_right (List.cons.inj h).2

/-- The symbols of a primary are read as that, whatever was begun before them. -/
theorem foldlM_step_of_primary (h : e.Arithmetic) (hroot : e.precedence = 40) :
    e.symbols.foldlM step ⟨none, fs⟩ = some ⟨some e.withoutParens, fs⟩ := by
  cases h with
  | number hdigits => exact foldlM_step_of_isNumeral hdigits fs
  | identifier hname => exact foldlM_step_of_isDottedName hname fs
  | @group fence e he =>
    have hinner : ReadsAs e.symbols e.withoutParens e.precedence (.bracket fence :: fs) :=
      readsAs_symbols he (fits_of_strength_eq_zero rfl e)
    have hread : (e.symbols ++ [Symbol.closer fence]).foldlM step ⟨none, .bracket fence :: fs⟩ =
        some ⟨some ((Frame.bracket fence).fill e.withoutParens), fs⟩ :=
      hinner.finished (ten_le_precedence e) (by simp [Frame.endsWith]) fun _ _ => rfl
    cases fence <;> exact hread
  | unary => cases hroot
  | @binary op => cases op <;> cases hroot

/-- Behind the symbols of a signed operand its signs still wait. -/
theorem foldlM_step_of_signed (h : e.Arithmetic) (hroot : e.precedence < 40)
    (hplain : e.hasOperator = false) :
    ∃ operand f gs, e.symbols.foldlM step ⟨none, fs⟩ = some ⟨some operand, f :: gs⟩ := by
  induction h generalizing fs with
  | number | identifier | group => exact absurd hroot (Nat.lt_irrefl 40)
  | binary => cases hplain
  | @unary sign e _ he ih =>
    have hplain : e.hasOperator = false := hplain
    have hbare : (unary sign e).symbols = .sign sign :: e.symbols := by
      rw [symbols, guardedSymbols, if_neg (not_lt.mpr (thirty_le_precedence hplain))]
    have hstep : (unary sign e).symbols.foldlM step ⟨none, fs⟩ =
        e.symbols.foldlM step ⟨none, .sign sign :: fs⟩ := by
      rw [hbare]
      rfl
    rw [hstep]
    rcases Nat.lt_or_ge e.precedence 40 with hlt | hge
    · exact ih hlt hplain
    · exact ⟨_, _, _, foldlM_step_of_primary he (Nat.le_antisymm (precedence_le e) hge)⟩

end Typeset

namespace Formula

open Text Gloss.Expr

variable {base exponent operand : Expr} {sign : Sign} {front t : Text}

/-- Both forms of a power have parentheses around the base. -/
def EnclosesBase (base exponent : Expr) : Prop :=
  (power base exponent).inlineText =
      Inline.parenthesized base.inlineText ++ inlineExponent exponent ∧
    (power base exponent).typeset =
      Typeset.braced (Typeset.parenthesized base.typeset) ++ '^' :: Typeset.braced exponent.typeset

/-- In both forms of a power a sign stands before the power of its operand alone. -/
def AppliesBehindSign (sign : Sign) (operand exponent : Expr) : Prop :=
  (power (.unary sign operand) exponent).inlineText =
      sign.symbol ++ (power operand exponent).inlineText ∧
    ∃ front,
      (power operand exponent).typeset =
        Typeset.braced front ++ '^' :: Typeset.braced exponent.typeset ∧
      (power (.unary sign operand) exponent).typeset =
        Typeset.braced (sign.symbol ++ front) ++ '^' :: Typeset.braced exponent.typeset

/-- No text is its own parenthesized form. -/
theorem inlineText_ne_parenthesized (t : Text) : t ≠ Inline.parenthesized t := by
  intro h
  have hlength := congrArg List.length h
  rw [Inline.parenthesized, List.length_append, List.length_cons] at hlength
  omega

/-- The parentheses depend on operators alone. -/
theorem enclosesBase_iff : EnclosesBase base exponent ↔ base.hasOperator = true := by
  constructor
  · rintro ⟨hinline, -⟩
    by_contra hplain
    rw [inlineText, if_neg hplain] at hinline
    exact inlineText_ne_parenthesized _ (List.append_cancel_right hinline)
  · intro h
    rw [EnclosesBase, inlineText, typeset, if_pos h, if_pos h]
    exact ⟨rfl, rfl⟩

/-- The exponent of a signed base that joins no operands applies behind the sign. -/
theorem appliesBehindSign (hplain : operand.hasOperator = false) :
    AppliesBehindSign sign operand exponent := by
  have hsigned : (Expr.unary sign operand).hasOperator = false := hplain
  have hbare : (Expr.unary sign operand).typeset = sign.symbol ++ operand.typeset := by
    rw [Expr.typeset, Expr.guarded_eq_self (thirty_le_precedence hplain)]
  refine ⟨?_, operand.typeset, ?_, ?_⟩
  · simp [inlineText, hplain, hsigned, Expr.inlineText]
  · simp [typeset, hplain]
  · simp [typeset, hsigned, hbare]

/-- What precedes the exponent in the inline form is read as the base if that has an operator or
is a primary, and only then. -/
theorem readsOperand_iff (h : parse? t = some base) (hdot : Inline.middleDot ∉ t)
    (hslash : Inline.fractionSlash ∉ t)
    (hfront : (power base exponent).inlineText = front ++ inlineExponent exponent) :
    ReadsOperand (front.map sourceChar) base ↔
      (base.precedence < 40 → base.hasOperator = true) := by
  have hsource := map_sourceChar_inlineText_of_parse? hdot hslash h
  have hread := (parse?_sourceText h).1
  rw [inlineText, List.append_left_inj] at hfront
  subst hfront
  by_cases hoperator : base.hasOperator = true
  · have henclosed : (Inline.parenthesized base.inlineText).map sourceChar =
        Inline.parenthesized base.sourceText := by
      rw [Inline.parenthesized, Inline.parenthesized, List.map_append, List.map_cons, hsource]
      rfl
    rw [if_pos hoperator, henclosed]
    exact iff_of_true (.enclosed hread) fun _ => hoperator
  · rw [if_neg hoperator, hsource]
    constructor
    · intro hone hroot
      generalize hu : base.sourceText = u at hone
      cases hone with
      | primary hu' hprimary => exact absurd hroot (by omega)
      | enclosed hinside => exact absurd hu (sourceText_ne_parenthesized hinside)
    · intro himp
      have hprimary : base.precedence = 40 :=
        Nat.le_antisymm (precedence_le base) (not_lt.mp fun hlt => hoperator (himp hlt))
      exact .primary hread hprimary

/-- The same for what precedes the exponent in the typeset form of an arithmetic base. Parentheses
around the base are typeset as those of a group are. -/
theorem showsOperand_iff (h : base.Arithmetic)
    (hfront : (power base exponent).typeset =
      Typeset.braced front ++ '^' :: Typeset.braced exponent.typeset) :
    Typeset.ShowsOperand front base.withoutParens ↔
      (base.precedence < 40 → base.hasOperator = true) := by
  have hshown : front =
      if base.hasOperator then Typeset.parenthesized base.typeset else base.typeset := by
    rw [typeset, List.append_left_inj] at hfront
    exact (Typeset.braced_inj hfront).symm
  by_cases hoperator : base.hasOperator = true
  · refine iff_of_true ?_ fun _ => hoperator
    have hgroup : (Expr.group .paren base).Arithmetic := .group h
    refine ⟨_, hgroup.all_isPlain_symbols, ?_, Typeset.foldlM_step_of_primary hgroup rfl⟩
    rw [hgroup.flatMap_written_symbols, hshown, if_pos hoperator]
    rfl
  · rw [if_neg hoperator] at hshown
    have hwritten := h.flatMap_written_symbols.trans hshown.symm
    constructor
    · rintro ⟨ss, hplain, hss, hread⟩ hroot
      have hsigned : ∃ operand f gs, base.symbols.foldlM Typeset.step ⟨none, []⟩ =
          some ⟨some operand, f :: gs⟩ :=
        Typeset.foldlM_step_of_signed h hroot (Bool.eq_false_iff.mpr hoperator)
      obtain ⟨operand, f, gs, hsigned⟩ := hsigned
      have hsame : ss = base.symbols := Typeset.Symbol.eq_of_flatMap_written_eq hplain
        h.all_isPlain_symbols (hss.trans hwritten.symm)
      rw [hsame, hsigned] at hread
      cases hread
    · intro himp
      have hprimary : base.precedence = 40 :=
        Nat.le_antisymm (precedence_le base) (not_lt.mp fun hlt => hoperator (himp hlt))
      exact ⟨_, h.all_isPlain_symbols, hwritten, Typeset.foldlM_step_of_primary h hprimary⟩

/-- Both forms of a power have parentheses around the base exactly if there is an operator in it.
A base that binds more loosely than a primary and has none is a signed operand, and its exponent
applies behind the sign. So it is just such a base that is not read back, as one operand, from
what precedes the exponent: in the inline form, with the symbols of the source put back, whatever
source the base was read from, and in the typeset form if the base is arithmetic. -/
theorem power_binds_base_iff (base exponent : Expr) :
    (EnclosesBase base exponent ↔ base.hasOperator = true) ∧
    (base.precedence < 40 → base.hasOperator = false →
      ∃ sign operand, base = .unary sign operand ∧ AppliesBehindSign sign operand exponent) ∧
    (∀ t front, parse? t = some base → Inline.middleDot ∉ t → Inline.fractionSlash ∉ t →
      (power base exponent).inlineText = front ++ inlineExponent exponent →
      (ReadsOperand (front.map sourceChar) base ↔
        (base.precedence < 40 → base.hasOperator = true))) ∧
    ∀ front, base.Arithmetic →
      (power base exponent).typeset =
        Typeset.braced front ++ '^' :: Typeset.braced exponent.typeset →
      (Typeset.ShowsOperand front base.withoutParens ↔
        (base.precedence < 40 → base.hasOperator = true)) := by
  refine ⟨enclosesBase_iff, fun hroot hplain => ?_, fun t front h hdot hslash hfront => ?_,
    fun front h hfront => ?_⟩
  · obtain ⟨sign, operand, rfl, hoperand⟩ := exists_unary_of_precedence_lt hroot hplain
    exact ⟨sign, operand, rfl, appliesBehindSign hoperand⟩
  · exact readsOperand_iff h hdot hslash hfront
  · exact showsOperand_iff h hfront

/-- A signed group with an operator in it gets parentheses and is read back from them. -/
theorem power_binds_base_signed_sum :
    let base : Expr := .unary .minus
      (.group .paren (.binary .add (.identifier ['a']) (.identifier ['b'])))
    EnclosesBase base (.number ['2']) ∧ ReadsOperand "(-(a+b))".toList base ∧
      Typeset.ShowsOperand "\\left(-\\left(a + b\\right)\\right)".toList base.withoutParens := by
  intro base
  obtain ⟨hencloses, -, hreads, hshows⟩ := power_binds_base_iff base (.number ['2'])
  have harithmetic : base.Arithmetic :=
    .unary rfl (.group (.binary rfl (.identifier rfl) (.identifier rfl)))
  refine ⟨hencloses.mpr rfl, ?_, ?_⟩
  · have hread : parse? "-(a + b)".toList = some base := by decide +kernel
    exact (hreads "-(a + b)".toList "(-(a+b))".toList hread (by decide) (by decide)
      (by decide)).mpr fun _ => rfl
  · exact (hshows _ harithmetic (by decide)).mpr fun _ => rfl

/-- A signed name binds more loosely than a primary and gets no parentheses: the square of `-x`
shows as `-x²`. -/
theorem not_enclosesBase_of_precedence_lt :
    ¬ ∀ base exponent : Expr, base.precedence < 40 → EnclosesBase base exponent := by
  intro h
  have hinline := (h (.unary .minus (.identifier ['x'])) (.number ['2']) (by decide)).1
  exact absurd hinline (by decide)

end Formula

end Gloss
