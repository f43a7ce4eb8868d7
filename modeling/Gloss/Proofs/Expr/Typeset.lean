import Gloss.Proofs.Expr.Escape
import Gloss.Proofs.Expr.Layout

/-!
# Reading the typeset form back

The typeset form of an arithmetic expression is a sequence of symbols, each of which is known by
its first characters. A stack of what has been begun, of which an operator closes all that binds
at least as strongly as itself, reads the symbols back. It finds the expression without its
parentheses, so expressions that are typeset alike differ in parentheses only.
-/

namespace Gloss

open Text Typeset

namespace Expr

mutual

/-- An expression without its parentheses; its braces stay. -/
def withoutParens : Expr → Expr
  | number digits => number digits
  | identifier name => identifier name
  | raw text => raw text
  | group .paren e => e.withoutParens
  | group .brace e => group .brace e.withoutParens
  | unary sign e => unary sign e.withoutParens
  | binary op l r => binary op l.withoutParens r.withoutParens
  | member e name => member e.withoutParens name
  | index e s => index e.withoutParens s.withoutParens
  | call f args => call f.withoutParens (allWithoutParens args)
  | construct type => construct type.withoutParens
  | constructWith type args => constructWith type.withoutParens (allWithoutParens args)

/-- Expressions without their parentheses. -/
def allWithoutParens : List Expr → List Expr
  | [] => []
  | e :: es => e.withoutParens :: allWithoutParens es

end

/-- Expressions with numbers and names for leaves, and nothing above them but brackets, signs and
operators. -/
inductive Arithmetic : Expr → Prop
  | number {digits : Text} : isNumeral digits = true → Arithmetic (number digits)
  | identifier {name : Text} : isDottedName name = true → Arithmetic (identifier name)
  | group {fence : Fence} {e : Expr} : Arithmetic e → Arithmetic (group fence e)
  | unary {sign : Sign} {e : Expr} : admitsSign sign = true → Arithmetic e →
      Arithmetic (unary sign e)
  | binary {op : Operator} {l r : Expr} : admitsOperator op = true → Arithmetic l →
      Arithmetic r → Arithmetic (binary op l r)

end Expr

namespace Typeset

/-- The symbols of the markup. -/
inductive Symbol where
  /-- A character of a number or a name. -/
  | char (c : Char)
  /-- A sign in front of an operand. -/
  | sign (sign : Sign)
  /-- An operator between its operands. -/
  | operator (op : Operator)
  /-- An opening bracket. -/
  | opener (fence : Fence)
  /-- A closing bracket. -/
  | closer (fence : Fence)
  /-- The beginning of a numerator. -/
  | numerator
  /-- The beginning of a denominator. -/
  | denominator
  /-- The end of a numerator or a denominator. -/
  | stop
  deriving DecidableEq, Repr

/-- The opening bracket of a fence that grows with what it encloses. -/
def growingOpener (fence : Fence) : Text := "\\left".toList ++ escapeChar fence.bracket.opener

/-- The closing bracket of a fence that grows with what it encloses. -/
def growingCloser (fence : Fence) : Text := "\\right".toList ++ escapeChar fence.bracket.closer

/-- What stands before a numerator. -/
def fractionOpener : Text := "\\frac".toList ++ ['{']

namespace Symbol

/-- How a symbol is written. -/
def written : Symbol → Text
  | char c => escapeChar c
  | sign s => s.symbol
  | operator op => [' '] ++ op.typeset ++ [' ']
  | opener fence => growingOpener fence
  | closer fence => growingCloser fence
  | numerator => fractionOpener
  | denominator => ['{']
  | stop => ['}']

/-- Whether a symbol occurs in arithmetic. -/
def isPlain : Symbol → Bool
  | char c => isTokenPart c
  | sign s => Expr.admitsSign s
  | operator op => op ≠ .div && Expr.admitsOperator op
  | _ => true

/-- The symbol that a text begins with. -/
def first? : Text → Option Symbol
  | '+' :: _ => some (sign .plus)
  | '-' :: _ => some (sign .minus)
  | ' ' :: '+' :: _ => some (operator .add)
  | ' ' :: '-' :: _ => some (operator .sub)
  | ' ' :: _ => some (operator .mul)
  | '{' :: _ => some denominator
  | '}' :: _ => some stop
  | '\\' :: '_' :: _ => some (char '_')
  | '\\' :: 'f' :: _ => some numerator
  | '\\' :: 'l' :: 'e' :: 'f' :: 't' :: '(' :: _ => some (opener .paren)
  | '\\' :: 'l' :: _ => some (opener .brace)
  | '\\' :: 'r' :: 'i' :: 'g' :: 'h' :: 't' :: ')' :: _ => some (closer .paren)
  | '\\' :: _ => some (closer .brace)
  | c :: _ => some (char c)
  | [] => none

/-- A token character stands for itself, or it is the underscore. -/
theorem escapeChar_of_isTokenPart {c : Char} (h : isTokenPart c = true) (hc : c ≠ '_') :
    escapeChar c = [c] := by
  refine escapeChar_of_not_mem fun hreserved => ?_
  rcases mem_reserved.mp hreserved with rfl | rfl | rfl | rfl | rfl | rfl | rfl | rfl | rfl
  case inr.inr.inr.inl => exact hc rfl
  all_goals exact absurd h (by decide)

/-- A character of a token is a symbol by itself. -/
theorem first?_cons {c : Char} (h : isTokenPart c = true) (t : Text) :
    first? (c :: t) = some (char c) := by
  rw [first?.eq_def]
  split
  case h_14 heq =>
    obtain ⟨rfl, -⟩ := List.cons.inj heq
    rfl
  case h_15 heq => cases heq
  all_goals
    rename_i heq
    obtain ⟨rfl, -⟩ := List.cons.inj heq
    exact absurd h (by decide)

/-- A symbol is known by its first characters. -/
theorem first?_written {s : Symbol} (h : s.isPlain = true) (t : Text) :
    first? (s.written ++ t) = some s := by
  cases s with
  | char c =>
    have htoken : isTokenPart c = true := h
    by_cases hc : c = '_'
    · subst hc
      rfl
    · rw [written, escapeChar_of_isTokenPart htoken hc]
      exact first?_cons htoken t
  | sign s => cases s with
    | other => cases h
    | _ => rfl
  | operator op => cases op with
    | div | other => cases h
    | _ => rfl
  | opener fence | closer fence => cases fence <;> rfl
  | _ => rfl

/-- Something is written for every symbol of arithmetic. -/
theorem written_append_ne_nil {s : Symbol} (h : s.isPlain = true) (t : Text) :
    s.written ++ t ≠ [] := by
  intro hnil
  have hfirst := first?_written h t
  rw [hnil] at hfirst
  cases hfirst

/-- Symbols that are written alike, one behind the other, are the same. -/
theorem eq_of_flatMap_written_eq {ss us : List Symbol} (hs : ss.all isPlain = true)
    (hu : us.all isPlain = true) (h : ss.flatMap written = us.flatMap written) : ss = us := by
  induction ss generalizing us with
  | nil =>
    cases us with
    | nil => rfl
    | cons u us =>
      rw [List.all_cons, Bool.and_eq_true] at hu
      exact absurd h.symm (written_append_ne_nil hu.1 _)
  | cons s ss ih =>
    rw [List.all_cons, Bool.and_eq_true] at hs
    cases us with
    | nil => exact absurd h (written_append_ne_nil hs.1 _)
    | cons u us =>
      rw [List.all_cons, Bool.and_eq_true] at hu
      rw [List.flatMap_cons, List.flatMap_cons] at h
      have hfirst := congrArg first? h
      rw [first?_written hs.1, first?_written hu.1, Option.some.injEq] at hfirst
      subst hfirst
      rw [ih hs.2 hu.2 (List.append_cancel_left h)]

end Symbol

end Typeset

/-- How strongly an operator binds its operands. -/
def Operator.strength (op : Operator) : Nat := if op.isAdditive then 10 else 20

namespace Expr

open Typeset (Symbol)

/-- Encloses the symbols of an operand in parentheses if its root binds more loosely than
`least`. -/
def guardedSymbols (least : Nat) (e : Expr) (ss : List Symbol) : List Symbol :=
  if e.precedence < least then .opener .paren :: (ss ++ [.closer .paren]) else ss

/-- The symbols of an arithmetic expression. -/
def symbols : Expr → List Symbol
  | number t | identifier t => t.map .char
  | group fence e => .opener fence :: (e.symbols ++ [.closer fence])
  | unary sign e => .sign sign :: guardedSymbols 30 e e.symbols
  | binary .div l r =>
    .numerator :: (l.symbols ++ .stop :: .denominator :: (r.symbols ++ [.stop]))
  | binary op l r => guardedSymbols op.strength l l.symbols ++
      .operator op :: guardedSymbols (op.strength + 1) r r.symbols
  | _ => []

variable {e : Expr}

/-- An operand that binds strongly enough is not enclosed. -/
theorem guarded_eq_self {least : Nat} {rendered : Text} (h : least ≤ e.precedence) :
    guarded least e rendered = rendered := by
  rw [guarded, if_neg (not_lt.mpr h)]

/-- Written as symbols, the characters of a token are escaped. -/
theorem flatMap_written_map_char (t : Text) :
    (t.map Symbol.char).flatMap Symbol.written = escape t := by
  rw [List.flatMap_map]
  rfl

/-- Symbols are guarded as the typeset operand is. -/
theorem flatMap_written_guardedSymbols (least : Nat) (e : Expr) (ss : List Symbol) :
    (guardedSymbols least e ss).flatMap Symbol.written =
      guarded least e (ss.flatMap Symbol.written) := by
  rw [guardedSymbols, guarded]
  split
  · rw [List.flatMap_cons, List.flatMap_append, List.flatMap_singleton, ← List.append_assoc]
    rfl
  · rfl

/-- An operator other than division stands between its guarded operands. -/
theorem symbols_binary {op : Operator} (hop : op ≠ .div) (l r : Expr) :
    (binary op l r).symbols = guardedSymbols op.strength l l.symbols ++
      .operator op :: guardedSymbols (op.strength + 1) r r.symbols := by
  cases op with
  | div => exact absurd rfl hop
  | _ => rfl

/-- An operator other than division is typeset between its guarded operands. -/
theorem typeset_binary {op : Operator} (hop : op ≠ .div) (l r : Expr) :
    (binary op l r).typeset = guarded op.strength l l.typeset ++ [' '] ++ op.typeset ++ [' '] ++
      guarded (op.strength + 1) r r.typeset := by
  cases op with
  | div => exact absurd rfl hop
  | _ => rfl

/-- A division is typeset as a fraction. -/
theorem typeset_div (l r : Expr) : (binary .div l r).typeset =
    fractionOpener ++ (l.typeset ++ '}' :: '{' :: (r.typeset ++ ['}'])) := by
  change "\\frac".toList ++ braced l.typeset ++ braced r.typeset = "\\frac".toList ++ ['{'] ++ _
  simp only [braced, List.append_assoc, List.cons_append, List.nil_append]

/-- The typeset form is its symbols, one behind the other. -/
theorem Arithmetic.flatMap_written_symbols (h : e.Arithmetic) :
    e.symbols.flatMap Symbol.written = e.typeset := by
  induction h with
  | number | identifier => exact flatMap_written_map_char _
  | @group fence _ _ ih =>
    rw [symbols, List.flatMap_cons, List.flatMap_append, List.flatMap_singleton, ih,
      ← List.append_assoc]
    cases fence <;> rfl
  | unary _ _ ih =>
    rw [symbols, List.flatMap_cons, flatMap_written_guardedSymbols, ih]
    rfl
  | @binary op l r _ _ _ ihl ihr =>
    by_cases hop : op = .div
    · subst hop
      simp only [symbols, typeset_div, List.flatMap_cons, List.flatMap_append, List.flatMap_nil,
        ihl, ihr, Symbol.written, List.cons_append, List.nil_append]
    · rw [symbols_binary hop, typeset_binary hop, List.flatMap_append, List.flatMap_cons,
        flatMap_written_guardedSymbols, flatMap_written_guardedSymbols, ihl, ihr, Symbol.written]
      simp only [List.append_assoc]

/-- Guarding adds no symbols but those of arithmetic. -/
theorem all_isPlain_guardedSymbols {ss : List Symbol} (h : ss.all Symbol.isPlain = true)
    (least : Nat) (e : Expr) : (guardedSymbols least e ss).all Symbol.isPlain = true := by
  rw [guardedSymbols]
  split
  · rw [List.all_cons, List.all_append, h]
    rfl
  · exact h

/-- The symbols of an arithmetic expression are those of arithmetic. -/
theorem Arithmetic.all_isPlain_symbols (h : e.Arithmetic) :
    e.symbols.all Symbol.isPlain = true := by
  induction h with
  | number h =>
    rw [symbols, List.all_map]
    exact (numeral_of_isNumeral h).all_isTokenPart
  | identifier h =>
    rw [symbols, List.all_map]
    exact all_isTokenPart_of_isDottedName h
  | group _ ih =>
    rw [symbols, List.all_cons, List.all_append, ih]
    rfl
  | unary hsign _ ih =>
    rw [symbols, List.all_cons, all_isPlain_guardedSymbols ih, Bool.and_true]
    exact hsign
  | @binary op l r hadmits _ _ ihl ihr =>
    by_cases hop : op = .div
    · subst hop
      simp only [symbols, List.all_cons, List.all_append, ihl, ihr]
      rfl
    · rw [symbols_binary hop, List.all_append, all_isPlain_guardedSymbols ihl, List.all_cons,
        all_isPlain_guardedSymbols ihr]
      simp [Symbol.isPlain, hop, hadmits]

end Expr

namespace Typeset

open Gloss.Expr

/-- What has been begun in front of an operand. -/
inductive Frame where
  /-- A signed operand. -/
  | sign (sign : Sign)
  /-- An operator behind its left operand. -/
  | left (op : Operator) (left : Expr)
  /-- An expression in brackets. -/
  | bracket (fence : Fence)
  /-- A numerator. -/
  | numerator
  /-- The denominator below a numerator. -/
  | denominator (numerator : Expr)
  deriving DecidableEq, Repr

namespace Frame

/-- How strongly a frame binds the operand behind it. -/
def strength : Frame → Nat
  | sign _ => 30
  | left op _ => op.strength
  | bracket _ | numerator | denominator _ => 0

/-- What a frame makes of its operand. -/
def fill : Frame → Expr → Expr
  | sign s, e => unary s e
  | left op l, r => binary op l r
  | bracket .paren, e => e
  | bracket .brace, e => group .brace e
  | numerator, e => e
  | denominator n, e => binary .div n e

/-- Whether a symbol ends what a frame has begun. -/
def endsWith : Frame → Symbol → Bool
  | bracket fence, .closer fence' => fence = fence'
  | numerator, .stop | denominator _, .stop => true
  | _, _ => false

end Frame

/-- Fills the frames that bind an operand at least as strongly as `least`. -/
def collapse (least : Nat) : Expr → List Frame → Expr × List Frame
  | e, [] => (e, [])
  | e, f :: fs => if least ≤ f.strength then collapse least (f.fill e) fs else (e, f :: fs)

/-- How far symbols have been read. -/
structure Progress where
  /-- The operand that was read last, if none is due. -/
  operand? : Option Expr
  /-- What has been begun, the last first. -/
  begun : List Frame
  deriving Repr

/-- The number or name that begins with a character. -/
def leaf (c : Char) : Expr := if c.isDigit then number [c] else identifier [c]

/-- A number or a name with one more character. -/
def extend? : Expr → Char → Option Expr
  | number t, c => some (number (t ++ [c]))
  | identifier t, c => some (identifier (t ++ [c]))
  | _, _ => none

/-- Finishes what was begun last that a symbol can end, with all that was begun behind it. -/
def finish (e : Expr) (fs : List Frame) (s : Symbol) : Option Progress :=
  match collapse 10 e fs with
  | (e, f :: fs) => if f.endsWith s then some ⟨some (f.fill e), fs⟩ else none
  | (_, []) => none

/-- Reads one symbol. -/
def step : Progress → Symbol → Option Progress
  | ⟨none, fs⟩, .char c => some ⟨some (leaf c), fs⟩
  | ⟨some e, fs⟩, .char c => (extend? e c).map fun e => ⟨some e, fs⟩
  | ⟨none, fs⟩, .sign s => some ⟨none, .sign s :: fs⟩
  | ⟨none, fs⟩, .opener fence => some ⟨none, .bracket fence :: fs⟩
  | ⟨none, fs⟩, .numerator => some ⟨none, .numerator :: fs⟩
  | ⟨some e, fs⟩, .denominator => some ⟨none, .denominator e :: fs⟩
  | ⟨some e, fs⟩, .operator op =>
    let (l, fs) := collapse op.strength e fs
    some ⟨none, .left op l :: fs⟩
  | ⟨some e, fs⟩, .closer fence => finish e fs (.closer fence)
  | ⟨some e, fs⟩, .stop => finish e fs .stop
  | _, _ => none

/-- The expression that symbols stand for. -/
def readSymbols? (ss : List Symbol) : Option Expr := do
  match ← ss.foldlM step ⟨none, []⟩ with
  | ⟨some e, fs⟩ =>
    match collapse 10 e fs with
    | (e, []) => some e
    | _ => none
  | ⟨none, _⟩ => none

variable {e : Expr} {f : Frame} {fs : List Frame} {s : Symbol} {ss : List Symbol} {least : Nat}

/-- What was begun last lets an operand of strength `least` grow to its end. Only sums and products
grow at all. -/
def Fits (least : Nat) (fs : List Frame) : Prop :=
  least < 30 → ∀ f ∈ fs.head?, f.strength < least

/-- Behind what has been begun, symbols are read as an operand. Frames that only binding more
strongly than `most` would fill may still be open then: to an operator or the end of a bracket
behind the symbols, that is the same as the operand itself. -/
def ReadsAs (ss : List Symbol) (e : Expr) (most : Nat) (fs : List Frame) : Prop :=
  ∃ e' gs, ss.foldlM step ⟨none, fs⟩ = some ⟨some e', gs⟩ ∧
    ∀ least ≤ most, collapse least e' gs = collapse least e fs

/-- Nothing is filled if the last frame binds too loosely. -/
theorem collapse_eq_self (h : ∀ f ∈ fs.head?, f.strength < least) :
    collapse least e fs = (e, fs) := by
  cases fs with
  | nil => rfl
  | cons f fs => rw [collapse, if_neg (not_le.mpr (h f rfl))]

theorem collapse_cons (h : least ≤ f.strength) :
    collapse least e (f :: fs) = collapse least (f.fill e) fs := by
  rw [collapse, if_pos h]

/-- Every expression binds at least as strongly as a sum. -/
theorem ten_le_precedence (e : Expr) : 10 ≤ e.precedence := by
  fun_cases precedence e <;> decide

/-- An operand fits behind a frame that binds more loosely than it. -/
theorem fits_cons (h : f.strength < least) : Fits least (f :: fs) := by
  rintro - g hg
  obtain rfl := Option.some.inj hg
  exact h

/-- Every operand fits behind what a symbol has to end. -/
theorem fits_of_strength_eq_zero (h : f.strength = 0) (e : Expr) :
    Fits e.precedence (f :: fs) :=
  fits_cons (h ▸ Nat.lt_of_lt_of_le (Nat.zero_lt_succ 9) (ten_le_precedence e))

/-- An operand that binds more strongly fits wherever one fits. -/
theorem Fits.mono {most : Nat} (h : Fits least fs) (hle : least ≤ most) : Fits most fs :=
  fun hmost f hf => lt_of_lt_of_le (h (lt_of_le_of_lt hle hmost) f hf) hle

namespace ReadsAs

variable {most most' : Nat} {l r : Expr} {us : List Symbol}

/-- Symbols are read as an operand if that is what is left of them. -/
theorem of_eq (h : ss.foldlM step ⟨none, fs⟩ = some ⟨some e, fs⟩) : ReadsAs ss e most fs :=
  ⟨e, fs, h, fun _ _ => rfl⟩

/-- What is read as an operand for strong binding is so for looser binding. -/
theorem mono (h : ReadsAs ss e most fs) (hle : least ≤ most) : ReadsAs ss e least fs := by
  obtain ⟨e', gs, hread, hcollapse⟩ := h
  exact ⟨e', gs, hread, fun n hn => hcollapse n (hn.trans hle)⟩

/-- The symbol that ends what has been begun finishes it with the operand in front of it. -/
theorem finished (h : ReadsAs ss e most (f :: fs)) (hmost : 10 ≤ most)
    (hs : f.endsWith s = true) (hstep : ∀ e gs, step ⟨some e, gs⟩ s = finish e gs s) :
    (ss ++ s :: us).foldlM step ⟨none, f :: fs⟩ = us.foldlM step ⟨some (f.fill e), fs⟩ := by
  obtain ⟨e', gs, hread, hcollapse⟩ := h
  have hself : collapse 10 e (f :: fs) = (e, f :: fs) := collapse_eq_self fun g hg => by
    obtain rfl := Option.some.inj hg
    cases f with
    | sign | left => cases hs
    | _ => exact Nat.zero_lt_succ 9
  have hfinish : finish e' gs s = some ⟨some (f.fill e), fs⟩ := by
    rw [finish, hcollapse 10 hmost, hself]
    exact if_pos hs
  rw [List.foldlM_append, hread, Option.bind_eq_bind, Option.bind_some, List.foldlM_cons, hstep,
    hfinish, Option.bind_eq_bind, Option.bind_some]

/-- An operand in brackets is read wherever it stands. -/
theorem enclosed {fence : Fence} (h : ReadsAs ss e most (.bracket fence :: fs))
    (hmost : 10 ≤ most) : ReadsAs (.opener fence :: (ss ++ [.closer fence]))
      ((Frame.bracket fence).fill e) least fs :=
  .of_eq (h.finished hmost (by simp [Frame.endsWith]) fun _ _ => rfl)

/-- A fraction is read wherever it stands. -/
theorem fraction (hl : ReadsAs ss l most (.numerator :: fs)) (hmost : 10 ≤ most)
    (hr : ReadsAs us r most' (.denominator l :: fs)) (hmost' : 10 ≤ most') :
    ReadsAs (.numerator :: (ss ++ .stop :: .denominator :: (us ++ [.stop]))) (binary .div l r)
      least fs := by
  have hdenominator : (us ++ [Symbol.stop]).foldlM step ⟨none, .denominator l :: fs⟩ =
      some ⟨some (binary .div l r), fs⟩ := hr.finished hmost' rfl fun _ _ => rfl
  exact .of_eq ((hl.finished hmost rfl fun _ _ => rfl).trans hdenominator)

/-- A sign is read with the operand behind it. -/
theorem signed {sign : Sign} (h : ReadsAs ss e 30 (.sign sign :: fs)) :
    ReadsAs (.sign sign :: ss) (unary sign e) 30 fs := by
  obtain ⟨e', gs, hread, hcollapse⟩ := h
  exact ⟨e', gs, hread, fun n hn => (hcollapse n hn).trans (collapse_cons hn)⟩

/-- Two operands are read with the operator between them. What is still open in the left operand
binds at least as strongly as the operator, which therefore closes it, and what was begun before
that operand does not. -/
theorem joined {op : Operator} (hl : ReadsAs ss l op.strength fs)
    (hfs : ∀ f ∈ fs.head?, f.strength < op.strength)
    (hr : ReadsAs us r (op.strength + 1) (.left op l :: fs)) :
    ReadsAs (ss ++ .operator op :: us) (binary op l r) op.strength fs := by
  obtain ⟨l', gs, hreadl, hcollapsel⟩ := hl
  obtain ⟨r', gs', hreadr, hcollapser⟩ := hr
  have hleft : step ⟨some l', gs⟩ (.operator op) = some ⟨none, .left op l :: fs⟩ := by
    rw [step, hcollapsel op.strength le_rfl, collapse_eq_self hfs]
  refine ⟨r', gs', ?_, fun n hn => ?_⟩
  · rw [List.foldlM_append, hreadl, Option.bind_eq_bind, Option.bind_some, List.foldlM_cons, hleft,
      Option.bind_eq_bind, Option.bind_some, hreadr]
  · rw [hcollapser n (hn.trans (Nat.le_succ _)), collapse_cons hn]
    rfl

/-- A guarded operand fits where its guard does. -/
theorem guarded {root : Expr}
    (h : ∀ {fs}, Fits root.precedence fs → ReadsAs ss e root.precedence fs)
    (hfs : Fits least fs) : ReadsAs (guardedSymbols least root ss) e least fs := by
  rw [guardedSymbols]
  split
  · exact (h (fits_of_strength_eq_zero rfl root)).enclosed (ten_le_precedence root)
  · rename_i hstrong
    exact (h (hfs.mono (not_lt.mp hstrong))).mono (not_lt.mp hstrong)

end ReadsAs

section Word

variable {t : Text}

/-- A number or a name is read character by character. -/
theorem foldlM_step_map_char {make : Text → Expr}
    (hmake : ∀ t c, extend? (make t) c = some (make (t ++ [c]))) (t u : Text)
    (fs : List Frame) : (u.map Symbol.char).foldlM step ⟨some (make t), fs⟩ =
      some ⟨some (make (t ++ u)), fs⟩ := by
  induction u generalizing t with
  | nil =>
    rw [List.append_nil]
    rfl
  | cons c u ih => simpa [step, hmake] using ih (t ++ [c])

/-- The characters of a numeral are read as a number. -/
theorem foldlM_step_of_isNumeral (h : isNumeral t = true) (fs : List Frame) :
    (t.map Symbol.char).foldlM step ⟨none, fs⟩ = some ⟨some (number t), fs⟩ := by
  obtain ⟨c, u, rfl, hc⟩ := (numeral_of_isNumeral h).exists_cons
  have hmake (t : Text) (c : Char) : extend? (number t) c = some (number (t ++ [c])) := rfl
  simpa [step, leaf, hc] using foldlM_step_map_char hmake [c] u fs

/-- The characters of a dotted name are read as that name. -/
theorem foldlM_step_of_isDottedName (h : isDottedName t = true) (fs : List Frame) :
    (t.map Symbol.char).foldlM step ⟨none, fs⟩ = some ⟨some (identifier t), fs⟩ := by
  obtain ⟨c, u, rfl, hc⟩ := (spellsName_of_isDottedName h).exists_cons
  have hmake (t : Text) (c : Char) : extend? (identifier t) c = some (identifier (t ++ [c])) := rfl
  simpa [step, leaf, isDigit_of_isIdentStart hc] using foldlM_step_map_char hmake [c] u fs

end Word

/-- The symbols of an arithmetic expression are read as the expression without its parentheses,
behind whatever it fits. Signs in front of a signed operand are all waiting for it, so it fits
behind them, too. -/
theorem readsAs_symbols (h : e.Arithmetic) (hfs : Fits e.precedence fs) :
    ReadsAs e.symbols e.withoutParens e.precedence fs := by
  induction h generalizing fs with
  | number h => exact .of_eq (foldlM_step_of_isNumeral h fs)
  | identifier h => exact .of_eq (foldlM_step_of_isDottedName h fs)
  | @group fence e _ ih =>
    have hinner : ReadsAs e.symbols e.withoutParens e.precedence (.bracket fence :: fs) :=
      ih (fits_of_strength_eq_zero rfl e)
    cases fence <;> exact hinner.enclosed (ten_le_precedence e)
  | unary _ _ ih => exact (ReadsAs.guarded ih fun hlt => absurd hlt (Nat.lt_irrefl 30)).signed
  | @binary op l r _ _ _ ihl ihr =>
    by_cases hop : op = .div
    · subst hop
      exact (ihl (fits_of_strength_eq_zero rfl l)).fraction (ten_le_precedence l)
        (ihr (fits_of_strength_eq_zero rfl r)) (ten_le_precedence r)
    · have hstrength : op.strength < 30 := by
        rw [Operator.strength]
        split <;> decide
      have hright : Fits (op.strength + 1) (.left op l.withoutParens :: fs) :=
        fits_cons (Nat.lt_succ_self op.strength)
      rw [symbols_binary hop]
      exact (ReadsAs.guarded ihl hfs).joined (hfs hstrength) (ReadsAs.guarded ihr hright)

/-- The symbols of an arithmetic expression are read back. -/
theorem readSymbols?_symbols (h : e.Arithmetic) :
    readSymbols? e.symbols = some e.withoutParens := by
  have hfits : Fits e.precedence [] := fun _ f hf => absurd hf (by simp)
  obtain ⟨e', gs, hread, hcollapse⟩ := readsAs_symbols h hfits
  rw [readSymbols?, hread, Option.bind_eq_bind, Option.bind_some]
  simp only [hcollapse 10 (ten_le_precedence e), collapse]

end Typeset

namespace Expr

/-- Arithmetic expressions that are typeset alike are the same up to parentheses: those that the
typeset form adds tell all shapes apart. -/
theorem withoutParens_eq_of_typeset_eq {e e' : Expr} (he : e.Arithmetic) (he' : e'.Arithmetic)
    (h : e.typeset = e'.typeset) : e.withoutParens = e'.withoutParens := by
  rw [← he.flatMap_written_symbols, ← he'.flatMap_written_symbols] at h
  have hsymbols : e.symbols = e'.symbols :=
    Symbol.eq_of_flatMap_written_eq he.all_isPlain_symbols he'.all_isPlain_symbols h
  have hread := readSymbols?_symbols he
  rw [hsymbols, readSymbols?_symbols he'] at hread
  exact (Option.some.inj hread).symm

/-- A difference whose right operand is a difference, with and without parentheses of its own. -/
theorem withoutParens_eq_of_typeset_eq_difference :
    let inner : Expr := .binary .sub (.identifier ['b']) (.unary .minus (.number ['1']))
    let e : Expr := .binary .sub (.identifier ['a', '_']) (.group .paren inner)
    let e' : Expr := .binary .sub (.identifier ['a', '_']) inner
    e ≠ e' ∧ e.typeset = e'.typeset ∧ e.withoutParens = e'.withoutParens := by
  intro inner e e'
  have hinner : inner.Arithmetic := .binary rfl (.identifier rfl) (.unary rfl (.number rfl))
  have htypeset : e.typeset = e'.typeset := rfl
  exact ⟨by decide, htypeset, withoutParens_eq_of_typeset_eq
    (.binary rfl (.identifier rfl) (.group hinner)) (.binary rfl (.identifier rfl) hinner) htypeset⟩

end Expr

end Gloss
