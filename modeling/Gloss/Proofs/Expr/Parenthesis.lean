import Gloss.Proofs.Expr.Node
import Gloss.Proofs.Expr.Reading
import Gloss.Proofs.Expr.Typeset
import Gloss.Proofs.Text.Join
import Mathlib.Data.List.Infix

/-!
# Parentheses in the markup

The typeset form encloses an operand in parentheses if it binds more loosely than its place allows.
In an expression that was read none does, at whatever depth, since the source would have needed
parentheses of its own. So each opening parenthesis of the markup comes from a group, a call or a
construction with arguments, and the text of a leaf never makes one.
-/

namespace Gloss

open Text

namespace Text

/-- At how many places of a text a part of it stands. -/
def timesIn (part t : Text) : Nat := t.tails.countP part.isPrefixOf

theorem timesIn_cons (part t : Text) (c : Char) :
    timesIn part (c :: t) = timesIn part t + if part.isPrefixOf (c :: t) then 1 else 0 := by
  rw [timesIn, List.tails_cons, List.countP_cons, timesIn]

end Text

namespace Expr

mutual

/-- Whether the operands of an expression bind strongly enough for the places where they stand, raw
text counting as an operand that does. -/
def isLayered : Expr → Bool
  | number _ | identifier _ | raw _ => true
  | group _ e | member e _ | construct e => e.isLayered
  | unary sign e => admitsSign sign && 30 ≤ e.precedence && e.isLayered
  | binary op l r => admitsOperands op l r && l.isLayered && r.isLayered
  | index e s => e.isLayered && s.isLayered
  | call f args | constructWith f args => f.isLayered && areLayered args

/-- Whether that holds of all of several expressions. -/
def areLayered : List Expr → Bool
  | [] => true
  | e :: es => e.isLayered && areLayered es

end

end Expr

namespace Grammar

variable {nested : Rule} {Inner : Reading} {level : Level} {room b b' : Nat} {t : Text} {e : Expr}
  {ts : List Text} {es : List Expr}

/-- The least strength with which an expression of a level binds. -/
def Level.strength : Level → Nat
  | .sum => 10
  | .product => 20
  | .operand => 30
  | .primary | .trailed => 40

/-- What a level reads binds as strongly as its operators, or more strongly. -/
theorem Spells.strength_le (h : Spells nested Inner level b t e b') :
    level.strength ≤ e.precedence := by
  induction h with
  | name | member | index | call | number | group | construct | constructWith => exact le_rfl
  | signed => exact le_rfl
  | trailed _ ih => exact ih
  | unsigned _ _ ih | factor _ ih | term _ ih => exact Nat.le_trans (by decide) ih
  | multiply _ _ hop =>
    rcases (Operator.multiplicative?_eq_some hop).2 with rfl | rfl <;> cases hop <;> exact le_rfl
  | add _ _ hop =>
    rcases (Operator.additive?_eq_some hop).2 with rfl | rfl <;> cases hop <;> exact le_rfl

/-- What a whole text is read as is layered, be it an expression or a raw leaf. -/
theorem isLayered_of_readWhole (hnested : Sound nested Inner)
    (hinner : ∀ {b t e b'}, Inner b t e b' → e.isLayered = true)
    (h : readWhole nested t b = some (e, b')) : e.isLayered = true := by
  rcases readWhole_cases hnested h with ⟨rfl, -⟩ | ⟨-, u, g, -, -, hu⟩
  · rfl
  · exact hinner hu

/-- What each of several texts is read as is layered. -/
theorem areLayered_of_readEach (hnested : Sound nested Inner)
    (hinner : ∀ {b t e b'}, Inner b t e b' → e.isLayered = true)
    (h : readEach nested ts b = some (es, b')) : Expr.areLayered es = true := by
  induction ts generalizing b es with
  | nil =>
    cases h
    rfl
  | cons t ts ih =>
    obtain ⟨e, b₁, es, rfl, he, hes⟩ := readEach_cons.mp h
    rw [Expr.areLayered, isLayered_of_readWhole hnested hinner he, ih hes]
    rfl

/-- Every operator has operands of the levels below its own. -/
theorem Spells.isLayered (hnested : Sound nested Inner)
    (hinner : ∀ {b t e b'}, Inner b t e b' → e.isLayered = true)
    (h : Spells nested Inner level b t e b') : e.isLayered = true := by
  induction h with
  | name | number | construct => rfl
  | member _ _ _ _ _ ih => exact ih
  | index _ _ _ hs ih =>
    rw [Expr.isLayered, ih, isLayered_of_readWhole hnested hinner hs]
    rfl
  | call _ _ _ hargs ih =>
    rw [Expr.isLayered, ih, areLayered_of_readEach hnested hinner hargs]
    rfl
  | group he =>
    rw [Expr.isLayered]
    exact hinner he
  | constructWith _ _ _ _ _ hargs =>
    rw [Expr.isLayered, areLayered_of_readEach hnested hinner hargs]
    rfl
  | trailed _ ih | unsigned _ _ ih | factor _ ih | term _ ih => exact ih
  | signed _ hsign he ih =>
    have hstrong : 30 ≤ Expr.precedence _ := he.strength_le
    rw [Expr.isLayered, ih, decide_eq_true hstrong]
    rcases (Sign.ofChar?_eq_some hsign).2 with rfl | rfl <;> cases hsign <;> rfl
  | multiply hl _ hop hr ihl ihr =>
    have hleft : 20 ≤ Expr.precedence _ := hl.strength_le
    have hright : 30 ≤ Expr.precedence _ := hr.strength_le
    rw [Expr.isLayered, ihl, ihr]
    rcases (Operator.multiplicative?_eq_some hop).2 with rfl | rfl <;> cases hop <;>
      simp [Expr.admitsOperands, hleft, hright]
  | add _ _ hop hr ihl ihr =>
    have hright : 20 ≤ Expr.precedence _ := hr.strength_le
    rw [Expr.isLayered, ihl, ihr]
    rcases (Operator.additive?_eq_some hop).2 with rfl | rfl <;> cases hop <;>
      simp [Expr.admitsOperands, hright]

/-- What is read in any room is layered. -/
theorem Reads.isLayered (room : Nat) : ∀ {b t e b'}, Reads room b t e b' → e.isLayered = true := by
  induction room with
  | zero => exact fun h => h.elim
  | succ room ih => exact fun h => Spells.isLayered (expression_sound room) ih h

end Grammar

namespace Typeset

/-- The opening of a parenthesis that grows stands in a text at `n` places more than in what
follows the text. -/
def Opens (s : Text) (n : Nat) : Prop :=
  ∀ t, timesIn "\\left(".toList (s ++ t) = timesIn "\\left(".toList t + n

section Opens

variable {s t : Text} {m n : Nat}

theorem opens_nil : Opens [] 0 := fun _ => rfl

/-- Two texts in a row open as many growing parentheses as both together. -/
theorem Opens.append (hs : Opens s m) (ht : Opens t n) : Opens (s ++ t) (m + n) := by
  intro u
  rw [List.append_assoc, hs, ht, Nat.add_assoc, Nat.add_comm n]

/-- Markup without the opening may stand before other markup. -/
theorem Opens.prepend (hs : Opens s 0) (ht : Opens t n) : Opens (s ++ t) n := by
  have happend := hs.append ht
  rwa [Nat.zero_add] at happend

/-- What a text opens stands in it so many times. -/
theorem Opens.timesIn_eq (h : Opens s n) : timesIn "\\left(".toList s = n := by
  have hself := h []
  have hnil : timesIn "\\left(".toList [] = 0 := rfl
  rwa [List.append_nil, hnil, Nat.zero_add] at hself

/-- Only a backslash begins the opening. -/
theorem opens_singleton {c : Char} (h : c ≠ '\\') : Opens [c] 0 := by
  intro t
  have hfirst : "\\left(".toList.isPrefixOf (c :: t) = false := by
    rw [← Bool.not_eq_true, List.isPrefixOf_iff_prefix]
    exact fun hprefix => h (List.cons_prefix_cons.mp hprefix).1.symm
  rw [List.singleton_append, timesIn_cons, hfirst]
  rfl

/-- No escape holds an opening, since what it puts behind a backslash is another word or a
character that the markup reserves. -/
theorem opens_escapeChar (c : Char) : Opens (escapeChar c) 0 := by
  by_cases hc : c ∈ reserved
  · rcases mem_reserved.mp hc with rfl | rfl | rfl | rfl | rfl | rfl | rfl | rfl | rfl <;>
      exact fun _ => rfl
  · rw [escapeChar_of_not_mem hc]
    exact opens_singleton fun hbackslash => hc (mem_reserved.mpr (Or.inl hbackslash))

/-- Whatever the text of a leaf is, its escape opens no parenthesis. -/
theorem opens_escape (t : Text) : Opens (escape t) 0 := by
  induction t with
  | nil => exact opens_nil
  | cons c t ih => exact (opens_escapeChar c).append ih

/-- Braces around a text open no growing parenthesis. -/
theorem Opens.braced (h : Opens s n) : Opens (braced s) n := by
  have hopening : Opens ['{'] 0 := opens_singleton (by decide)
  have hclosing : Opens ['}'] 0 := opens_singleton (by decide)
  exact (hopening.prepend h).append hclosing

/-- Growing parentheses around a text open one more. -/
theorem Opens.parenthesized (h : Opens s n) : Opens (parenthesized s) (n + 1) := by
  have hopening : Opens "\\left(".toList 1 := fun t => timesIn_cons _ _ '\\'
  have hclosing : Opens "\\right)".toList 0 := fun _ => rfl
  have hends := (hopening.append h).append hclosing
  rwa [Nat.add_comm 1] at hends

/-- Visible braces around a text open no growing parenthesis. -/
theorem Opens.curly (h : Opens s n) : Opens (curly s) n := by
  have hopening : Opens "\\left\\\x7b".toList 0 := fun _ => rfl
  have hclosing : Opens "\\right\\\x7d".toList 0 := fun _ => rfl
  exact (hopening.prepend h).append hclosing

/-- A fraction opens the growing parentheses of its two parts. -/
theorem Opens.fraction (hs : Opens s m) (ht : Opens t n) : Opens (fraction s t) (m + n) := by
  have hcommand : Opens "\\frac".toList 0 := fun _ => rfl
  exact (hcommand.prepend hs.braced).append ht.braced

/-- The keyword of a construction opens no growing parenthesis. -/
theorem opens_newKeyword : Opens newKeyword 0 := fun _ => rfl

end Opens

end Typeset

namespace Expr

open Typeset

/-- A sign of the grammar opens no growing parenthesis. -/
theorem opens_sign {sign : Sign} (h : admitsSign sign = true) : Opens sign.symbol 0 := by
  cases sign with
  | other => cases h
  | plus | minus => exact opens_singleton (by decide)

/-- Operands that bind strongly enough are not enclosed, whatever the operator. -/
theorem opens_typeset_binary {op : Operator} {l r : Expr} {m n : Nat}
    (hop : admitsOperands op l r = true) (hl : Opens l.typeset m) (hr : Opens r.typeset n) :
    Opens (binary op l r).typeset (m + n) := by
  by_cases hdiv : op = .div
  · subst hdiv
    exact hl.fraction hr
  · have hblank : Opens [' '] 0 := opens_singleton (by decide)
    have hsymbol : Opens op.typeset 0 := by
      cases op with
      | other => cases hop
      | _ => exact fun _ => rfl
    obtain ⟨hleft, hright⟩ : op.strength ≤ l.precedence ∧ op.strength + 1 ≤ r.precedence := by
      rcases cases_of_admitsOperands hop with ⟨-, -, -, hadd, hr⟩ | ⟨-, -, -, hmul, hl, hr⟩
      · rw [Operator.strength, if_pos hadd]
        exact ⟨ten_le_precedence l, Nat.le_trans (by decide) hr⟩
      · rw [Operator.strength, if_neg (hmul ▸ Bool.false_ne_true)]
        exact ⟨hl, Nat.le_trans (by decide) hr⟩
    rw [typeset_binary hdiv, guarded_eq_self hleft, guarded_eq_self hright]
    exact (((hl.append hblank).append hsymbol).append hblank).append hr

mutual

/-- The markup of an expression whose operands bind strongly enough opens a parenthesis for each
node that is written with parentheses. -/
theorem opens_typeset : (n : Nat) → (e : Expr) → e.isLayered = true →
    Opens e.typeset ((e.nodes n).countP (·.2.hasParens))
  | _, number digits, _ => opens_escape digits
  | _, identifier name, _ => opens_escape name
  | _, raw text, _ => by
    have hcommand : Opens "\\text".toList 0 := fun _ => rfl
    exact hcommand.append (opens_escape text).braced
  | n, group fence e, h => by
    have he : Opens e.typeset _ := opens_typeset (n + 1) e h
    rw [nodes, List.countP_cons]
    cases fence
    · exact he.parenthesized
    · exact he.curly
  | n, unary sign e, h => by
    rw [isLayered, Bool.and_eq_true, Bool.and_eq_true, decide_eq_true_iff] at h
    rw [typeset, guarded_eq_self h.1.2]
    exact (opens_sign h.1.1).prepend (opens_typeset n e h.2)
  | n, binary op l r, h => by
    rw [isLayered, Bool.and_eq_true, Bool.and_eq_true] at h
    rw [nodes, List.countP_cons, List.countP_append]
    have hbinary := opens_typeset_binary h.1.1 (opens_typeset n l h.1.2) (opens_typeset n r h.2)
    exact hbinary
  | n, member e name, h => by
    have hdot : Opens ['.'] 0 := opens_singleton (by decide)
    exact (opens_typeset n e h).append (hdot.append (opens_escape name))
  | n, index e s, h => by
    rw [isLayered, Bool.and_eq_true] at h
    have he : Opens e.typeset _ := opens_typeset n e h.1
    have hs : Opens s.typeset _ := opens_typeset (n + 1) s h.2
    have hlow : Opens ['_'] 0 := opens_singleton (by decide)
    rw [nodes, List.countP_cons, List.countP_append, typeset]
    split
    · exact he.braced.append (hlow.prepend hs.braced)
    · exact he.append (hlow.prepend hs.braced)
  | n, call f args, h => by
    rw [isLayered, Bool.and_eq_true] at h
    rw [nodes, List.countP_cons, List.countP_append]
    exact (opens_typeset n f h.1).append (opens_typesets (n + 1) args h.2).parenthesized
  | n, construct type, h => opens_newKeyword.prepend (opens_typeset n type h)
  | n, constructWith type args, h => by
    rw [isLayered, Bool.and_eq_true] at h
    rw [nodes, List.countP_cons, List.countP_append]
    exact (opens_newKeyword.prepend (opens_typeset n type h.1)).append
      (opens_typesets (n + 1) args h.2).parenthesized

/-- So does the markup of several expressions with commas between them. -/
theorem opens_typesets : (n : Nat) → (es : List Expr) → areLayered es = true →
    Opens (commaSeparated (typesets es)) ((argNodes n es).countP (·.2.hasParens))
  | _, [], _ => opens_nil
  | n, [e], h => by
    rw [areLayered, Bool.and_eq_true] at h
    rw [typesets, typesets, commaSeparated, join_singleton, argNodes, List.countP_append]
    exact opens_typeset n e h.1
  | n, e :: e' :: es, h => by
    rw [areLayered, Bool.and_eq_true] at h
    have hcomma : Opens [',', ' '] 0 := fun _ => rfl
    rw [typesets, typesets, commaSeparated, join_cons_cons, argNodes, List.countP_append]
    exact (opens_typeset n e h.1).append (hcomma.prepend (opens_typesets n (e' :: es) h.2))

end

/-- The typeset form encloses nothing that the source did not enclose: growing parentheses open as
often as there are groups in parentheses, calls and constructions with arguments. -/
theorem timesIn_typeset_of_parse? {t : Text} {e : Expr} (h : parse? t = some e) :
    timesIn "\\left(".toList e.typeset = e.parens := by
  obtain ⟨-, _, _, _, -, -, hreads⟩ := Grammar.parse?_eq_some_iff_reads.mp h
  exact (opens_typeset 0 e (Grammar.Reads.isLayered _ hreads)).timesIn_eq

/-- A group, a call and a construction, with the opening in the text of a raw argument. -/
theorem timesIn_typeset_of_parse?_raw :
    let t := "f(\\left(x), -(a) / new C(y))".toList
    let quotient : Expr := .binary .div (.unary .minus (.group .paren (.identifier ['a'])))
      (.constructWith (.identifier ['C']) [.identifier ['y']])
    let e : Expr := .call (.identifier ['f']) [.raw "\\left(x)".toList, quotient]
    parse? t = some e ∧ timesIn "\\left(".toList e.typeset = e.parens ∧ e.parens = 3 := by
  intro t quotient e
  have hparse : parse? t = some e := by decide +kernel
  exact ⟨hparse, timesIn_typeset_of_parse? hparse, rfl⟩

end Expr

end Gloss
