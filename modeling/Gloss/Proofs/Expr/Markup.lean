import Gloss.Formula
import Gloss.Proofs.Expr.Typeset
import Gloss.Proofs.Text.Join
import Mathlib.Combinatorics.Enumerative.DyckWord

/-!
# Nesting in the markup

A typesetter pairs up braces, unless a backslash stands before them and they are shown, and
brackets that grow with what they enclose. An escaped text leaves neither open, whatever it holds:
each escape ends before its last character could be read together with what follows. So the
pieces of a typeset form nest as the expressions do that they come from.
-/

namespace Gloss

namespace Typeset

open DyckStep

/-- What markup encloses other markup in. -/
inductive Enclosure where
  /-- Braces that are not shown. -/
  | braces
  /-- Brackets that grow with what they enclose. -/
  | growing (fence : Fence)
  deriving DecidableEq, Repr

/-- Where an enclosure begins or ends. -/
inductive Mark where
  /-- The beginning of an enclosure. -/
  | opening (kind : Enclosure)
  /-- The end of an enclosure. -/
  | closing (kind : Enclosure)
  /-- The command for a growing bracket without a bracket behind it. -/
  | stray
  deriving DecidableEq, Repr

/-- The fence of which one bracket stands at the front of a text, as it is shown. -/
def fenceAt? (bracket : Fence → Char) (t : Text) : Option Fence :=
  [Fence.paren, .brace].find? fun fence => (Text.after? (escapeChar (bracket fence)) t).isSome

/-- The mark that begins with a backslash, if the text behind that goes on with the name of a
command for growing brackets. -/
def growingMark? (t : Text) : Option Mark :=
  match Text.after? "left".toList t, Text.after? "right".toList t with
  | some u, _ =>
    some ((fenceAt? (·.bracket.opener) u).elim .stray fun fence => .opening (.growing fence))
  | none, some u =>
    some ((fenceAt? (·.bracket.closer) u).elim .stray fun fence => .closing (.growing fence))
  | none, none => none

/-- The mark that begins with a character before a text; `escaped` if a backslash stands before
the character. -/
def mark? (escaped : Bool) (c : Char) (t : Text) : Option Mark :=
  if c = '\\' then growingMark? t
  else if escaped then none
  else if c = '{' then some (.opening .braces)
  else if c = '}' then some (.closing .braces)
  else none

/-- The marks of a text that may stand behind a backslash. -/
def marksFrom : (escaped : Bool) → Text → List Mark
  | _, [] => []
  | escaped, c :: t => (mark? escaped c t).toList ++ marksFrom (c = '\\') t

/-- The marks of a text. -/
def marks (t : Text) : List Mark := marksFrom false t

/-- Each mark is paired with one of its kind, and pairs lie within or beside each other. -/
inductive Nested : List Mark → Prop
  | nil : Nested []
  | enclosed {kind : Enclosure} {inner rest : List Mark} : Nested inner → Nested rest →
      Nested (.opening kind :: (inner ++ .closing kind :: rest))

/-- A brace opens or closes unless a backslash stands before it. -/
def braceStep? (escaped : Bool) (c : Char) : Option DyckStep :=
  if escaped then none else if c = '{' then some U else if c = '}' then some D else none

/-- What the braces of a text that may stand behind a backslash open and close. -/
def braceStepsFrom : (escaped : Bool) → Text → List DyckStep
  | _, [] => []
  | escaped, c :: t => (braceStep? escaped c).toList ++ braceStepsFrom (c = '\\') t

/-- What the braces of a text open and close, those aside that a backslash stands before. -/
def braceSteps (t : Text) : List DyckStep := braceStepsFrom false t

/-- Markup that a typesetter can pair up. -/
structure WellFormed (t : Text) : Prop where
  /-- No beginning of it closes more braces than it opens. -/
  opened (n : Nat) : (braceSteps (t.take n)).count D ≤ (braceSteps (t.take n)).count U
  /-- As a whole it closes as many braces as it opens. -/
  closed : (braceSteps t).count D = (braceSteps t).count U
  /-- Its growing brackets are closed by their partners, in nested order among themselves and
  with the braces. -/
  nested : Nested (marks t)

section Braces

/-- What a mark is as a brace. -/
def Mark.braceSteps : Mark → List DyckStep
  | opening .braces => [U]
  | closing .braces => [D]
  | opening (.growing _) | closing (.growing _) | stray => []

/-- Nested marks in a row are nested. -/
theorem Nested.append {ms ns : List Mark} (hm : Nested ms) (hn : Nested ns) :
    Nested (ms ++ ns) := by
  induction hm with
  | nil => exact hn
  | enclosed inner _ _ ih =>
    rw [List.cons_append, List.append_assoc, List.cons_append]
    exact .enclosed inner ih

/-- The braces among nested marks are balanced. -/
theorem Nested.exists_dyckWord {ms : List Mark} (h : Nested ms) :
    ∃ w : DyckWord, w.toList = ms.flatMap Mark.braceSteps := by
  induction h with
  | nil => exact ⟨0, rfl⟩
  | @enclosed kind inner rest _ _ ihinner ihrest =>
    obtain ⟨v, hv⟩ := ihinner
    obtain ⟨w, hw⟩ := ihrest
    rw [List.flatMap_cons, List.flatMap_append, List.flatMap_cons, ← hv, ← hw]
    cases kind with
    | braces =>
      refine ⟨v.nest + w, ?_⟩
      change [U] ++ v.toList ++ [D] ++ w.toList = [U] ++ (v.toList ++ ([D] ++ w.toList))
      simp only [List.append_assoc]
    | growing fence => exact ⟨v + w, rfl⟩

/-- Braces are marks like others. -/
theorem flatMap_braceSteps_mark? (escaped : Bool) (c : Char) (t : Text) :
    (mark? escaped c t).toList.flatMap Mark.braceSteps = (braceStep? escaped c).toList := by
  by_cases hc : c = '\\'
  · subst hc
    have hgrowing : (growingMark? t).toList.flatMap Mark.braceSteps = [] := by
      unfold growingMark?
      split
      · cases fenceAt? _ _ <;> rfl
      · cases fenceAt? _ _ <;> rfl
      · rfl
    rw [mark?, if_pos rfl, hgrowing]
    cases escaped <;> rfl
  · rw [mark?, if_neg hc, braceStep?]
    split_ifs <;> rfl

/-- The braces among the marks of a text are the braces of the text. -/
theorem flatMap_braceSteps_marksFrom (escaped : Bool) (t : Text) :
    (marksFrom escaped t).flatMap Mark.braceSteps = braceStepsFrom escaped t := by
  induction t generalizing escaped with
  | nil => rfl
  | cons c t ih =>
    rw [marksFrom, braceStepsFrom, List.flatMap_append, flatMap_braceSteps_mark?, ih]

/-- The braces of a beginning come first among those of the whole text. -/
theorem braceStepsFrom_take_initial (escaped : Bool) (t : Text) (n : Nat) :
    braceStepsFrom escaped (t.take n) <+: braceStepsFrom escaped t := by
  induction t generalizing escaped n with
  | nil => rw [List.take_nil]
  | cons c t ih =>
    cases n with
    | zero => exact List.nil_prefix
    | succ n =>
      rw [List.take_succ_cons, braceStepsFrom, braceStepsFrom, List.prefix_append_right_inj]
      exact ih _ n

/-- Nested marks are all that is asked of markup. -/
theorem wellFormed_of_nested {t : Text} (h : Nested (marks t)) : WellFormed t := by
  obtain ⟨w, hw⟩ := h.exists_dyckWord
  rw [marks, flatMap_braceSteps_marksFrom] at hw
  refine ⟨fun n => ?_, ?_, h⟩
  · have hprefix := List.prefix_iff_eq_take.mp (braceStepsFrom_take_initial false t n)
    rw [braceSteps, hprefix, ← hw]
    exact w.count_D_le_count_U _
  · rw [braceSteps, ← hw]
    exact w.count_U_eq_count_D.symm

end Braces

/-- Markup that is nested whatever follows it: it leaves nothing open, and its end is not read
together with what follows. -/
def Whole (s : Text) : Prop :=
  ∃ ms, Nested ms ∧ ∀ t, marksFrom false (s ++ t) = ms ++ marksFrom false t

section Whole

variable {s t : Text}

/-- Markup without marks is whole. -/
theorem whole_of_unmarked (h : ∀ t, marksFrom false (s ++ t) = marksFrom false t) : Whole s :=
  ⟨[], .nil, h⟩

/-- So is markup without marks but for empty braces. -/
theorem whole_of_empty_braces (h : ∀ t, marksFrom false (s ++ t) =
    .opening .braces :: .closing .braces :: marksFrom false t) : Whole s :=
  ⟨[.opening .braces, .closing .braces], .enclosed .nil .nil, h⟩

theorem whole_nil : Whole [] := whole_of_unmarked fun _ => rfl

/-- A choice of two whole texts is whole. -/
theorem whole_ite {p : Prop} [Decidable p] (hs : Whole s) (ht : Whole t) :
    Whole (if p then s else t) := by
  split
  · exact hs
  · exact ht

/-- Whole texts in a row are whole. -/
theorem Whole.append (hs : Whole s) (ht : Whole t) : Whole (s ++ t) := by
  obtain ⟨ms, hms, hs⟩ := hs
  obtain ⟨ns, hns, ht⟩ := ht
  refine ⟨ms ++ ns, hms.append hns, fun u => ?_⟩
  rw [List.append_assoc, hs, ht, List.append_assoc]

/-- Whole markup is well formed. -/
theorem Whole.wellFormed (h : Whole t) : WellFormed t := by
  obtain ⟨ms, hms, ht⟩ := h
  refine wellFormed_of_nested ?_
  have hmarks := ht []
  rw [List.append_nil, marksFrom, List.append_nil] at hmarks
  rwa [marks, hmarks]

/-- A character that begins no mark and escapes nothing. -/
theorem whole_singleton {c : Char} (h : c ∉ ['\\', '{', '}']) : Whole [c] := by
  simp only [List.mem_cons, List.not_mem_nil, or_false, not_or] at h
  obtain ⟨hbackslash, hopen, hclose⟩ := h
  refine whole_of_unmarked fun t => ?_
  simp [marksFrom, mark?, hbackslash, hopen, hclose]

/-- The escape of a character is whole: the braces in it are shown or, for the backslash and the
circumflex, empty. -/
theorem whole_escapeChar (c : Char) : Whole (escapeChar c) := by
  by_cases hc : c ∈ reserved
  · rcases mem_reserved.mp hc with rfl | rfl | rfl | rfl | rfl | rfl | rfl | rfl | rfl
    any_goals exact whole_of_unmarked fun _ => rfl
    all_goals exact whole_of_empty_braces fun _ => rfl
  · rw [escapeChar_of_not_mem hc]
    exact whole_singleton fun hmem => hc (List.mem_append_left _ hmem)

/-- Whatever a text holds, its escape is whole. -/
theorem whole_escape (t : Text) : Whole (escape t) := by
  induction t with
  | nil => exact whole_nil
  | cons c t ih => exact (whole_escapeChar c).append ih

/-- Whole markup in an enclosure is whole, if the two ends of the enclosure are read as such. -/
theorem Whole.enclosed (kind : Enclosure) {first last : Text}
    (hfirst : ∀ t, marksFrom false (first ++ t) = .opening kind :: marksFrom false t)
    (hlast : ∀ t, marksFrom false (last ++ t) = .closing kind :: marksFrom false t)
    (hs : Whole s) : Whole (first ++ (s ++ last)) := by
  obtain ⟨ms, hms, hs⟩ := hs
  refine ⟨.opening kind :: (ms ++ [.closing kind]), .enclosed hms .nil, fun t => ?_⟩
  rw [List.append_assoc, hfirst, List.append_assoc, hs, hlast, List.cons_append,
    List.append_assoc, List.singleton_append]

/-- Whole markup in braces is whole. -/
theorem Whole.braced (hs : Whole s) : Whole (braced s) := by
  have hopen (t : Text) : marksFrom false (['{'] ++ t) = .opening .braces :: marksFrom false t :=
    rfl
  exact hs.enclosed .braces hopen fun _ => rfl

/-- Brackets that grow are read as such. -/
theorem Whole.grown (fence : Fence) (hs : Whole s) :
    Whole (growingOpener fence ++ (s ++ growingCloser fence)) := by
  cases fence with
  | paren => exact hs.enclosed (.growing .paren) (fun _ => rfl) fun _ => rfl
  | brace => exact hs.enclosed (.growing .brace) (fun _ => rfl) fun _ => rfl

/-- Whole markup in growing parentheses is whole. -/
theorem Whole.parenthesized (hs : Whole s) : Whole (parenthesized s) := by
  have hgrown := hs.grown .paren
  rwa [← List.append_assoc] at hgrown

/-- Whole markup in growing braces is whole. -/
theorem Whole.curly (hs : Whole s) : Whole (curly s) := by
  have hgrown := hs.grown .brace
  rwa [← List.append_assoc] at hgrown

/-- A fraction of whole markup is whole. -/
theorem Whole.fraction (hs : Whole s) (ht : Whole t) : Whole (fraction s t) := by
  have hcommand : Whole "\\frac".toList := whole_of_unmarked fun _ => rfl
  exact (hcommand.append hs.braced).append ht.braced

/-- The keyword of a construction is whole. -/
theorem whole_newKeyword : Whole newKeyword := whole_of_empty_braces fun _ => rfl

/-- A list of whole markup is whole. -/
theorem whole_commaSeparated {items : List Text} (h : ∀ s ∈ items, Whole s) :
    Whole (commaSeparated items) := by
  have hcomma : Whole [',', ' '] := whole_of_unmarked fun _ => rfl
  cases items with
  | nil => exact whole_nil
  | cons s items =>
    rw [commaSeparated, Text.join_cons]
    refine (h s List.mem_cons_self).append ?_
    have hrest (t : Text) (ht : t ∈ items) : Whole t := h t (List.mem_cons_of_mem s ht)
    clear h
    induction items with
    | nil => exact whole_nil
    | cons t items ih =>
      rw [List.flatMap_cons]
      exact (hcomma.append (hrest t List.mem_cons_self)).append
        (ih fun u hu => hrest u (List.mem_cons_of_mem t hu))

end Whole

end Typeset

namespace Expr

/-- Whether a symbol is one of the four of arithmetic. -/
def isBasicSymbol : (symbol : Text) → Bool
  | ['+'] | ['-'] | ['*'] | ['/'] => true
  | _ => false

mutual

/-- Whether the signs and operators of an expression are written with the four symbols of
arithmetic. -/
def hasBasicSymbols : Expr → Bool
  | number _ | identifier _ | raw _ => true
  | group _ e | member e _ | construct e => e.hasBasicSymbols
  | unary sign e => isBasicSymbol sign.symbol && e.hasBasicSymbols
  | binary op l r => isBasicSymbol op.symbol && l.hasBasicSymbols && r.hasBasicSymbols
  | index l r => l.hasBasicSymbols && r.hasBasicSymbols
  | call f args | constructWith f args => f.hasBasicSymbols && haveBasicSymbols args

/-- Whether that holds of several expressions. -/
def haveBasicSymbols : List Expr → Bool
  | [] => true
  | e :: es => e.hasBasicSymbols && haveBasicSymbols es

end

open Typeset

/-- The four symbols of arithmetic are whole. -/
theorem whole_of_isBasicSymbol {symbol : Text} (h : isBasicSymbol symbol = true) :
    Whole symbol := by
  unfold isBasicSymbol at h
  split at h
  · exact whole_singleton (by decide)
  · exact whole_singleton (by decide)
  · exact whole_singleton (by decide)
  · exact whole_singleton (by decide)
  · cases h

/-- An operator with one of these symbols is typeset as whole markup. -/
theorem whole_typeset_operator {op : Operator} (h : isBasicSymbol op.symbol = true) :
    Whole op.typeset := by
  cases op with
  | mul => exact whole_of_unmarked fun _ => rfl
  | add | sub | div | other => exact whole_of_isBasicSymbol h

/-- A guarded operand is whole if the operand is. -/
theorem whole_guarded {rendered : Text} (h : Whole rendered) (least : Nat) (e : Expr) :
    Whole (guarded least e rendered) := by
  rw [guarded]
  exact whole_ite h.parenthesized h

/-- Two operands and the operator between them. -/
theorem whole_typeset_binary {op : Operator} {l r : Expr} (hop : isBasicSymbol op.symbol = true)
    (hl : Whole l.typeset) (hr : Whole r.typeset) : Whole (binary op l r).typeset := by
  by_cases hdiv : op = .div
  · subst hdiv
    exact hl.fraction hr
  · have hblank : Whole [' '] := whole_singleton (by decide)
    rw [typeset_binary hdiv]
    exact ((((whole_guarded hl _ l).append hblank).append (whole_typeset_operator hop)).append
      hblank).append (whole_guarded hr _ r)

mutual

/-- The typeset form of an expression is whole, whatever its leaves hold. -/
theorem whole_typeset : (e : Expr) → e.hasBasicSymbols = true → Whole e.typeset
  | number digits, _ => whole_escape digits
  | identifier name, _ => whole_escape name
  | raw text, _ => by
    have hcommand : Whole "\\text".toList := whole_of_unmarked fun _ => rfl
    exact hcommand.append (whole_escape text).braced
  | group fence e, h => by
    have he : Whole e.typeset := whole_typeset e h
    cases fence
    · exact he.parenthesized
    · exact he.curly
  | unary sign e, h => by
    rw [hasBasicSymbols, Bool.and_eq_true] at h
    exact (whole_of_isBasicSymbol h.1).append (whole_guarded (whole_typeset e h.2) 30 e)
  | binary op l r, h => by
    rw [hasBasicSymbols, Bool.and_eq_true, Bool.and_eq_true] at h
    exact whole_typeset_binary h.1.1 (whole_typeset l h.1.2) (whole_typeset r h.2)
  | member e name, h => by
    have hdot : Whole ['.'] := whole_singleton (by decide)
    exact (whole_typeset e h).append (hdot.append (whole_escape name))
  | index e s, h => by
    rw [hasBasicSymbols, Bool.and_eq_true] at h
    have he : Whole e.typeset := whole_typeset e h.1
    have hlow : Whole ['_'] := whole_singleton (by decide)
    exact (whole_ite he.braced he).append (hlow.append (whole_typeset s h.2).braced)
  | call f args, h => by
    rw [hasBasicSymbols, Bool.and_eq_true] at h
    exact (whole_typeset f h.1).append
      (whole_commaSeparated (whole_typesets args h.2)).parenthesized
  | construct type, h => whole_newKeyword.append (whole_typeset type h)
  | constructWith type args, h => by
    rw [hasBasicSymbols, Bool.and_eq_true] at h
    exact (whole_newKeyword.append (whole_typeset type h.1)).append
      (whole_commaSeparated (whole_typesets args h.2)).parenthesized

/-- So are the typeset forms of several expressions. -/
theorem whole_typesets : (es : List Expr) → haveBasicSymbols es = true →
    ∀ s ∈ typesets es, Whole s
  | [], _ => fun _ hs => absurd hs List.not_mem_nil
  | e :: es, h => by
    rw [haveBasicSymbols, Bool.and_eq_true] at h
    rw [typesets, List.forall_mem_cons]
    exact ⟨whole_typeset e h.1, whole_typesets es h.2⟩

end

end Expr

namespace Formula

open Typeset

/-- The expressions of a formula. -/
def operands : Formula → List Expr
  | value e => [e]
  | power base exponent => [base, exponent]
  | sum total _ lower upper term => [total, lower, upper, term]
  | family element definition _ lower upper => [element, definition, lower, upper]

/-- The markup of a formula can be paired up, whatever its leaves and its index hold: braces that
no backslash stands before are balanced, and growing brackets are closed by their partners in
nested order. -/
theorem wellFormed_typeset (f : Formula) (h : ∀ e ∈ f.operands, e.hasBasicSymbols = true) :
    WellFormed f.typeset := by
  have hwhole : ∀ e ∈ f.operands, Whole e.typeset := fun e he => e.whole_typeset (h e he)
  have hcharacter (c : Char) (hc : c ∉ ['\\', '{', '}']) {s : Text} (hs : Whole s) :
      Whole (c :: s) := (whole_singleton hc).append hs
  refine Whole.wellFormed ?_
  cases f with
  | value e => exact hwhole e List.mem_cons_self
  | power base exponent =>
    simp only [operands, List.forall_mem_cons] at hwhole
    obtain ⟨hbase, hexponent, -⟩ := hwhole
    exact (whole_ite hbase.parenthesized hbase).braced.append
      (hcharacter '^' (by decide) hexponent.braced)
  | sum total index lower upper term =>
    simp only [operands, List.forall_mem_cons] at hwhole
    obtain ⟨htotal, hlower, hupper, hterm, -⟩ := hwhole
    have hcommand : Whole " = \\sum_".toList := whole_of_unmarked fun _ => rfl
    have hstart : Whole (escape index ++ '=' :: lower.typeset) :=
      (whole_escape index).append (hcharacter '=' (by decide) hlower)
    exact (((htotal.append hcommand).append hstart.braced).append
      (hcharacter '^' (by decide) hupper.braced)).append (hcharacter ' ' (by decide) hterm)
  | family element definition index lower upper =>
    simp only [operands, List.forall_mem_cons] at hwhole
    obtain ⟨helement, hdefinition, hlower, hupper, -⟩ := hwhole
    have hequals : Whole " = ".toList := whole_of_unmarked fun _ => rfl
    have hquad : Whole ",\\quad ".toList := whole_of_unmarked fun _ => rfl
    have hdots : Whole ",\\ldots,".toList := whole_of_unmarked fun _ => rfl
    have hrange : Whole (element.typeset ++ " = ".toList ++ definition.typeset ++
        ",\\quad ".toList ++ escape index) :=
      (((helement.append hequals).append hdefinition).append hquad).append (whole_escape index)
    exact (((hrange.append hequals).append hlower).append hdots).append hupper

/-- Brackets and backslashes without partners in the leaves and in the index. -/
theorem wellFormed_typeset_unbalanced :
    let base : Expr :=
      .binary .div (.raw "\x7d\\left(\\".toList) (.group .brace (.identifier ['^']))
    let f : Formula := .sum base "\x7b\\right".toList (.unary (.other ['*']) (.number ['}']))
      (.call (.identifier ['m']) [base, .constructWith (.identifier ['C']) []]) base
    (∀ e ∈ f.operands, e.hasBasicSymbols = true) ∧ WellFormed f.typeset := by
  intro base f
  have h : ∀ e ∈ f.operands, e.hasBasicSymbols = true := by decide
  exact ⟨h, wellFormed_typeset f h⟩

end Formula

end Gloss
