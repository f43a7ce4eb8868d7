import Gloss.Proofs.Expr.Complete

/-!
# Printed source

An expression of the grammar's own shape is printed as a list of tokens, and a layout of
these puts blanks between them as one likes. Reading any layout of an expression that
respects the two bounds of the parser gives that expression back.
-/

namespace Gloss

open Text

/-- A piece of printed source. -/
inductive Token where
  /-- The word `new`, which has to be set off from the name behind it. -/
  | keyword
  /-- A number, a name, an operator, a bracket, a comma or a dot. -/
  | lexeme (text : Text)
  deriving DecidableEq, Repr

/-- The texts that show tokens in order, with blanks before each of them, and with at least
one behind the word `new`. -/
inductive Layout : List Token → Text → Prop
  | nil : Layout [] []
  | keyword {g h t : Text} {tokens : List Token} : AllBlank g → AllBlank h → h ≠ [] →
      Layout tokens t → Layout (.keyword :: tokens) (g ++ (['n', 'e', 'w'] ++ (h ++ t)))
  | lexeme {g u t : Text} {tokens : List Token} : AllBlank g → Layout tokens t →
      Layout (.lexeme u :: tokens) (g ++ (u ++ t))

namespace Expr

mutual

/-- The printed form of an expression, with the operators and brackets of the source. -/
def tokens : Expr → List Token
  | number digits => [.lexeme digits]
  | identifier name => [.lexeme name]
  | raw text => [.lexeme text]
  | group fence e =>
    .lexeme [fence.bracket.opener] :: (e.tokens ++ [.lexeme [fence.bracket.closer]])
  | unary sign e => .lexeme sign.symbol :: e.tokens
  | binary op l r => l.tokens ++ .lexeme op.symbol :: r.tokens
  | member e name => e.tokens ++ [.lexeme ['.'], .lexeme name]
  | index e s => e.tokens ++ .lexeme ['['] :: (s.tokens ++ [.lexeme [']']])
  | call f args => f.tokens ++ .lexeme ['('] :: (argTokens args ++ [.lexeme [')']])
  | construct type => .keyword :: type.tokens
  | constructWith type args =>
    .keyword :: (type.tokens ++ .lexeme ['('] :: (argTokens args ++ [.lexeme [')']]))

/-- The printed form of arguments, with commas between them. -/
def argTokens : List Expr → List Token
  | [] => []
  | [e] => e.tokens
  | e :: e' :: es => e.tokens ++ .lexeme [','] :: argTokens (e' :: es)

end

mutual

/-- The most brackets that enclose a node of an expression. -/
def depth : Expr → Nat
  | number _ | identifier _ | raw _ => 0
  | group _ e => e.depth + 1
  | unary _ e | member e _ | construct e => e.depth
  | binary _ l r => max l.depth r.depth
  | index e s => max e.depth (s.depth + 1)
  | call f args | constructWith f args => max f.depth (argDepth args)

/-- The most brackets that enclose a node of one of several arguments, those of the argument
list included. -/
def argDepth : List Expr → Nat
  | [] => 0
  | e :: es => max (e.depth + 1) (argDepth es)

end

/-- Whether an expression is a name, possibly with what may follow one. -/
def isTrailed : Expr → Bool
  | identifier _ | member .. | index .. | call .. => true
  | _ => false

/-- Whether an expression is a name alone. -/
def isName : Expr → Bool
  | identifier _ => true
  | _ => false

/-- Whether an operand binds strongly enough for its place beside an operator. -/
def admitsOperands : Operator → Expr → Expr → Bool
  | .add, _, r | .sub, _, r => 20 ≤ r.precedence
  | .mul, l, r | .div, l, r => 20 ≤ l.precedence && 30 ≤ r.precedence
  | .other _, _, _ => false

/-- Whether a sign is one that the grammar knows. -/
def admitsSign : Sign → Bool
  | .plus | .minus => true
  | .other _ => false

/-- Whether an operator is one that the grammar knows. -/
def admitsOperator : Operator → Bool
  | .add | .sub | .mul | .div => true
  | .other _ => false

mutual

/-- Whether an expression has the shape of the grammar: its numbers and names are tokens, its
operands bind strongly enough for the places where they stand, and it has no raw leaf. -/
def isCanonical : Expr → Bool
  | number digits => isNumeral digits
  | identifier name => isDottedName name
  | raw _ => false
  | group _ e => e.isCanonical
  | unary sign e => admitsSign sign && 30 ≤ e.precedence && e.isCanonical
  | binary op l r => admitsOperands op l r && l.isCanonical && r.isCanonical
  | member e name => e.isApplied && e.isCanonical && isDottedName name
  | index e s => e.isTrailed && e.isCanonical && s.isCanonical
  | call f args => f.isTrailed && f.isCanonical && areCanonical args
  | construct type => type.isName && type.isCanonical
  | constructWith type args => type.isName && type.isCanonical && areCanonical args

/-- Whether all of several expressions have the shape of the grammar. -/
def areCanonical : List Expr → Bool
  | [] => true
  | e :: es => e.isCanonical && areCanonical es

end

end Expr

namespace Layout

variable {g t u : Text} {ts us : List Token}

/-- Only the empty text lays out no tokens. -/
theorem nil_iff : Layout [] t ↔ t = [] := by
  constructor
  · rintro ⟨⟩
    rfl
  · rintro rfl
    exact .nil

/-- A layout begins with the blanks and the text of its first token. -/
theorem lexeme_iff : Layout (.lexeme u :: ts) t ↔
    ∃ g v, t = g ++ (u ++ v) ∧ AllBlank g ∧ Layout ts v := by
  constructor
  · rintro (_ | _ | ⟨hg, hv⟩)
    exact ⟨_, _, rfl, hg, hv⟩
  · rintro ⟨g, v, rfl, hg, hv⟩
    exact .lexeme hg hv

/-- The word `new` is laid out with blanks around it, of which those behind it are not missing. -/
theorem keyword_iff : Layout (.keyword :: ts) t ↔
    ∃ g h v, t = g ++ (['n', 'e', 'w'] ++ (h ++ v)) ∧ AllBlank g ∧ AllBlank h ∧ h ≠ [] ∧
      Layout ts v := by
  constructor
  · rintro (_ | ⟨hg, hh, hne, hv⟩ | _)
    exact ⟨_, _, _, rfl, hg, hh, hne, hv⟩
  · rintro ⟨g, h, v, rfl, hg, hh, hne, hv⟩
    exact .keyword hg hh hne hv

/-- A layout of some tokens and then others is a layout of each, one behind the other. -/
theorem append_iff : Layout (ts ++ us) t ↔
    ∃ t₁ t₂, t = t₁ ++ t₂ ∧ Layout ts t₁ ∧ Layout us t₂ := by
  induction ts generalizing t with
  | nil => simp [nil_iff]
  | cons token ts ih =>
    cases token with
    | keyword =>
      simp only [List.cons_append, keyword_iff, ih]
      constructor
      · rintro ⟨g, h, v, rfl, hg, hh, hne, t₁, t₂, rfl, ht₁, ht₂⟩
        refine ⟨g ++ (['n', 'e', 'w'] ++ (h ++ t₁)), t₂, ?_, ⟨g, h, t₁, rfl, hg, hh, hne, ht₁⟩, ht₂⟩
        simp only [List.append_assoc, List.cons_append, List.nil_append]
      · rintro ⟨_, t₂, rfl, ⟨g, h, t₁, rfl, hg, hh, hne, ht₁⟩, ht₂⟩
        refine ⟨g, h, t₁ ++ t₂, ?_, hg, hh, hne, t₁, t₂, rfl, ht₁, ht₂⟩
        simp only [List.append_assoc, List.cons_append, List.nil_append]
    | lexeme u =>
      simp only [List.cons_append, lexeme_iff, ih]
      constructor
      · rintro ⟨g, v, rfl, hg, t₁, t₂, rfl, ht₁, ht₂⟩
        refine ⟨g ++ (u ++ t₁), t₂, ?_, ⟨g, t₁, rfl, hg, ht₁⟩, ht₂⟩
        simp only [List.append_assoc]
      · rintro ⟨_, t₂, rfl, ⟨g, t₁, rfl, hg, ht₁⟩, ht₂⟩
        refine ⟨g, t₁ ++ t₂, ?_, hg, t₁, t₂, rfl, ht₁, ht₂⟩
        simp only [List.append_assoc]

/-- One token behind others. -/
theorem snoc_iff : Layout (ts ++ [.lexeme u]) t ↔
    ∃ v g, t = v ++ (g ++ u) ∧ Layout ts v ∧ AllBlank g := by
  simp only [append_iff, lexeme_iff, nil_iff]
  constructor
  · rintro ⟨v, _, rfl, hv, g, _, rfl, hg, rfl⟩
    exact ⟨v, g, by rw [List.append_nil], hv, hg⟩
  · rintro ⟨v, g, rfl, hv, hg⟩
    exact ⟨v, g ++ u, rfl, hv, g, [], by rw [List.append_nil], hg, rfl⟩

/-- A token alone is laid out as its text behind blanks. -/
theorem single_iff : Layout [.lexeme u] t ↔ ∃ g, t = g ++ u ∧ AllBlank g := by
  rw [← List.nil_append [Token.lexeme u], snoc_iff]
  simp only [nil_iff]
  constructor
  · rintro ⟨_, g, rfl, rfl, hg⟩
    exact ⟨g, rfl, hg⟩
  · rintro ⟨g, rfl, hg⟩
    exact ⟨[], g, rfl, rfl, hg⟩

end Layout

/-- A text whose brackets belong together and that has no exclusive or. -/
structure Tidy (t : Text) : Prop extends Bracket.Balanced t where
  /-- No exclusive or stands in it. -/
  no_xor : xorSign ∉ t

namespace Tidy

variable {t u : Text}

/-- Two tidy texts in a row are tidy. -/
theorem append (ht : Tidy t) (hu : Tidy u) : Tidy (t ++ u) where
  toBalanced := ht.toBalanced.append hu.toBalanced
  no_xor h := (List.mem_append.mp h).elim ht.no_xor hu.no_xor

/-- A tidy text in brackets is tidy. -/
theorem enclosed (ht : Tidy t) (b : Bracket) : Tidy (b.opener :: (t ++ [b.closer])) where
  toBalanced := ht.toBalanced.enclosed b
  no_xor h := by
    simp only [List.mem_cons, List.mem_append, List.not_mem_nil, or_false] at h
    rcases h with h | h | h
    · cases b <;> exact absurd h (by decide)
    · exact ht.no_xor h
    · cases b <;> exact absurd h (by decide)

/-- A text without brackets and without exclusive or is tidy. -/
theorem of_forall (h : ∀ c ∈ t, Bracket.isBracket c = false ∧ c ≠ xorSign) : Tidy t where
  toBalanced := Bracket.balanced_of_forall fun c hc => (h c hc).1
  no_xor hxor := (h xorSign hxor).2 rfl

/-- Blanks are tidy. -/
theorem blank (h : AllBlank t) : Tidy t := by
  refine of_forall fun c hc => ⟨Bracket.isBracket_eq_false (.inl (h c hc)), ?_⟩
  rintro rfl
  exact absurd (h _ hc) (by decide)

/-- Blanks may stand before the opening bracket and before the closing one. -/
theorem fenced {g k : Text} (hg : AllBlank g) (ht : Tidy t) (hk : AllBlank k) (b : Bracket) :
    Tidy (g ++ b.opener :: (t ++ (k ++ [b.closer]))) := by
  have hinside := (ht.append (blank hk)).enclosed b
  rw [List.append_assoc] at hinside
  exact (blank hg).append hinside

/-- The text of a number or name is tidy. -/
theorem token (h : t.all isTokenPart = true) : Tidy t := by
  refine of_forall fun c hc => ?_
  have htoken := List.all_eq_true.mp h c hc
  constructor
  · rcases Bracket.opener_or_closer_or c with ⟨b, rfl⟩ | ⟨b, rfl⟩ | hno
    · cases b <;> exact absurd htoken (by decide)
    · cases b <;> exact absurd htoken (by decide)
    · exact hno
  · rintro rfl
    exact absurd htoken (by decide)

/-- A character that is no bracket and no exclusive or is tidy. -/
theorem singleton {c : Char} (hbracket : Bracket.isBracket c = false) (hxor : c ≠ xorSign) :
    Tidy [c] :=
  of_forall (List.forall_mem_singleton.mpr ⟨hbracket, hxor⟩)

end Tidy

/-- The signs of the grammar are tidy. -/
theorem tidy_of_admitsSign {sign : Sign} (h : Expr.admitsSign sign = true) :
    Tidy sign.symbol := by
  cases sign with
  | plus | minus => exact .singleton rfl (by decide)
  | other => cases h

/-- The operators of the grammar are tidy. -/
theorem tidy_of_admitsOperands {op : Operator} {l r : Expr}
    (h : Expr.admitsOperands op l r = true) : Tidy op.symbol := by
  cases op with
  | add | sub | mul | div => exact .singleton rfl (by decide)
  | other => cases h

mutual

/-- A layout of a canonical expression is tidy. -/
theorem Layout.tidy : (e : Expr) → e.isCanonical = true → ∀ {t}, Layout e.tokens t → Tidy t
  | .number digits, he, t, h => by
    obtain ⟨g, rfl, hg⟩ := single_iff.mp h
    exact (Tidy.blank hg).append (.token (numeral_of_isNumeral he).all_isTokenPart)
  | .identifier name, he, t, h => by
    obtain ⟨g, rfl, hg⟩ := single_iff.mp h
    exact (Tidy.blank hg).append (.token (all_isTokenPart_of_isDottedName he))
  | .raw _, he, _, _ => by cases he
  | .group fence e, he, t, h => by
    obtain ⟨g, _, rfl, hg, hv⟩ := lexeme_iff.mp h
    obtain ⟨v, k, rfl, hv, hk⟩ := snoc_iff.mp hv
    exact .fenced hg (Layout.tidy e he hv) hk fence.bracket
  | .unary sign e, he, t, h => by
    simp only [Expr.isCanonical, Bool.and_eq_true] at he
    obtain ⟨g, v, rfl, hg, hv⟩ := lexeme_iff.mp h
    have hsign := tidy_of_admitsSign he.1.1
    exact (Tidy.blank hg).append (hsign.append (Layout.tidy e he.2 hv))
  | .binary op l r, he, t, h => by
    simp only [Expr.isCanonical, Bool.and_eq_true] at he
    obtain ⟨t₁, _, rfl, ht₁, hrest⟩ := append_iff.mp h
    obtain ⟨g, t₂, rfl, hg, ht₂⟩ := lexeme_iff.mp hrest
    have hop := tidy_of_admitsOperands he.1.1
    have hr := (Tidy.blank hg).append (hop.append (Layout.tidy r he.2 ht₂))
    exact (Layout.tidy l he.1.2 ht₁).append hr
  | .member e name, he, t, h => by
    simp only [Expr.isCanonical, Bool.and_eq_true] at he
    obtain ⟨t₁, _, rfl, ht₁, hrest⟩ := append_iff.mp h
    obtain ⟨g, _, rfl, hg, hname⟩ := lexeme_iff.mp hrest
    obtain ⟨k, rfl, hk⟩ := single_iff.mp hname
    have hdot : Tidy ['.'] := .singleton rfl (by decide)
    have hname := (Tidy.blank hk).append (.token (all_isTokenPart_of_isDottedName he.2))
    exact (Layout.tidy e he.1.2 ht₁).append ((Tidy.blank hg).append (hdot.append hname))
  | .index e s, he, t, h => by
    simp only [Expr.isCanonical, Bool.and_eq_true] at he
    obtain ⟨t₁, _, rfl, ht₁, hrest⟩ := append_iff.mp h
    obtain ⟨g, _, rfl, hg, hv⟩ := lexeme_iff.mp hrest
    obtain ⟨v, k, rfl, hv, hk⟩ := snoc_iff.mp hv
    exact (Layout.tidy e he.1.2 ht₁).append (.fenced hg (Layout.tidy s he.2 hv) hk .square)
  | .call f args, he, t, h => by
    simp only [Expr.isCanonical, Bool.and_eq_true] at he
    obtain ⟨t₁, _, rfl, ht₁, hrest⟩ := append_iff.mp h
    obtain ⟨g, _, rfl, hg, hv⟩ := lexeme_iff.mp hrest
    obtain ⟨v, k, rfl, hv, hk⟩ := snoc_iff.mp hv
    have hargs := Layout.args_tidy args he.2 hv
    exact (Layout.tidy f he.1.2 ht₁).append (.fenced hg hargs hk .paren)
  | .construct type, he, t, h => by
    simp only [Expr.isCanonical, Bool.and_eq_true] at he
    obtain ⟨g, k, v, rfl, hg, hk, -, hv⟩ := keyword_iff.mp h
    have hnew : Tidy ['n', 'e', 'w'] := .token rfl
    have htype := (Tidy.blank hk).append (Layout.tidy type he.2 hv)
    exact (Tidy.blank hg).append (hnew.append htype)
  | .constructWith type args, he, t, h => by
    simp only [Expr.isCanonical, Bool.and_eq_true] at he
    obtain ⟨g, k, w, rfl, hg, hk, -, hw⟩ := keyword_iff.mp h
    obtain ⟨t₁, _, rfl, ht₁, hrest⟩ := append_iff.mp hw
    obtain ⟨m, _, rfl, hm, hv⟩ := lexeme_iff.mp hrest
    obtain ⟨v, n, rfl, hv, hn⟩ := snoc_iff.mp hv
    have hnew : Tidy ['n', 'e', 'w'] := .token rfl
    have hargs := Tidy.fenced hm (Layout.args_tidy args he.2 hv) hn .paren
    have htype := (Layout.tidy type he.1.2 ht₁).append hargs
    exact (Tidy.blank hg).append (hnew.append ((Tidy.blank hk).append htype))

/-- A layout of canonical arguments is tidy. -/
theorem Layout.args_tidy : (es : List Expr) → Expr.areCanonical es = true →
    ∀ {t}, Layout (Expr.argTokens es) t → Tidy t
  | [], _, t, h => by
    rw [nil_iff.mp h]
    exact .blank allBlank_nil
  | [e], hes, t, h => by
    simp only [Expr.areCanonical, Bool.and_eq_true] at hes
    exact Layout.tidy e hes.1 h
  | e :: e' :: es, hes, t, h => by
    rw [Expr.areCanonical, Bool.and_eq_true] at hes
    obtain ⟨t₁, _, rfl, ht₁, hrest⟩ := append_iff.mp h
    obtain ⟨g, t₂, rfl, hg, ht₂⟩ := lexeme_iff.mp hrest
    have hcomma : Tidy [','] := .singleton rfl (by decide)
    have hmore := (Tidy.blank hg).append (hcomma.append (Layout.args_tidy (e' :: es) hes.2 ht₂))
    exact (Layout.tidy e hes.1 ht₁).append hmore

end

namespace Expr

open Grammar

/-- The level of the grammar that makes an expression of this form. -/
def level : Expr → Level
  | binary op _ _ => if op.isAdditive then .sum else .product
  | unary .. => .operand
  | identifier _ | member .. | index .. | call .. => .trailed
  | number _ | raw _ | group .. | construct _ | constructWith .. => .primary

/-- What binds as strongly as a product is no sum. -/
theorem level_ne_sum {e : Expr} (h : 20 ≤ e.precedence) : e.level ≠ .sum := by
  cases e with
  | binary op l r =>
    rw [precedence] at h
    rw [level]
    cases hop : op.isAdditive with
    | true => simp [hop] at h
    | false => simp
  | _ => simp [level]

/-- What binds as strongly as a signed operand is no product. -/
theorem level_ne_product {e : Expr} (h : 30 ≤ e.precedence) : e.level ≠ .product := by
  cases e with
  | binary op l r =>
    rw [precedence] at h
    split at h <;> omega
  | _ => simp [level]

/-- A name with what follows it stands on the level of trailers. -/
theorem level_of_isTrailed {e : Expr} (h : e.isTrailed = true) : e.level = .trailed := by
  cases e <;> first | rfl | cases h

/-- What a dot may follow is a name with what follows it. -/
theorem isTrailed_of_isApplied {e : Expr} (h : e.isApplied = true) : e.isTrailed = true := by
  cases e <;> first | rfl | cases h

/-- An operator of the grammar is one character, additive or multiplicative, and its operands bind
as strongly as its level asks. -/
theorem cases_of_admitsOperands {op : Operator} {l r : Expr}
    (h : admitsOperands op l r = true) :
    (∃ c, op.symbol = [c] ∧ Operator.additive? c = some op ∧ op.isAdditive = true ∧
        20 ≤ r.precedence) ∨
      ∃ c, op.symbol = [c] ∧ Operator.multiplicative? c = some op ∧ op.isAdditive = false ∧
        20 ≤ l.precedence ∧ 30 ≤ r.precedence := by
  cases op with
  | add => exact .inl ⟨'+', rfl, rfl, rfl, by simpa [admitsOperands] using h⟩
  | sub => exact .inl ⟨'-', rfl, rfl, rfl, by simpa [admitsOperands] using h⟩
  | mul => exact .inr ⟨'*', rfl, rfl, rfl, by simpa [admitsOperands] using h⟩
  | div => exact .inr ⟨'/', rfl, rfl, rfl, by simpa [admitsOperands] using h⟩
  | other => cases h

/-- A sign of the grammar is one character, and is known by it. -/
theorem exists_ofChar?_of_admitsSign {sign : Sign} (h : admitsSign sign = true) :
    ∃ c, sign.symbol = [c] ∧ Sign.ofChar? c = some sign := by
  cases sign with
  | plus => exact ⟨'+', rfl, rfl⟩
  | minus => exact ⟨'-', rfl, rfl⟩
  | other => cases h

/-- A bare name is an identifier. -/
theorem exists_of_isName {e : Expr} (h : e.isName = true) : ∃ name, e = .identifier name := by
  cases e <;> first | exact ⟨_, rfl⟩ | cases h

end Expr

namespace Grammar

open Outcome

variable {nested : Rule} {Inner : Reading} {level : Level} {room b b' : Nat} {t u g h : Text}
  {e : Expr}

/-- What is read above the levels of sums and products is read as an operand. -/
theorem Spells.toOperand (h : Spells nested Inner level b t e b') (hsum : level ≠ .sum)
    (hproduct : level ≠ .product) : Spells nested Inner .operand b t e b' := by
  cases level with
  | sum => exact absurd rfl hsum
  | product => exact absurd rfl hproduct
  | operand => exact h
  | primary => exact .unsigned allBlank_nil h
  | trailed => exact .unsigned allBlank_nil (.trailed h)

/-- What is read above the level of sums is read as a product. -/
theorem Spells.toProduct (h : Spells nested Inner level b t e b') (hsum : level ≠ .sum) :
    Spells nested Inner .product b t e b' := by
  by_cases hproduct : level = .product
  · exact hproduct ▸ h
  · exact .factor (h.toOperand hsum hproduct)

/-- What a stronger level reads is a sum, too. -/
theorem Spells.toSum (h : Spells nested Inner level b t e b') :
    Spells nested Inner .sum b t e b' := by
  by_cases hsum : level = .sum
  · exact hsum ▸ h
  · exact .term (h.toProduct hsum)

/-- Blanks aside, the text is read as the expression, at the cost of its nodes. -/
def Laid (room : Nat) (t : Text) (e : Expr) : Prop :=
  ∃ g c v, t = g ++ c :: v ∧ AllBlank g ∧ isBlank c = false ∧
    ∀ b, Spells (expression room) (Reads room) e.level (b + e.size) (c :: v) e b

namespace Laid

/-- A laid out expression is read as a sum. -/
theorem sum (h : Laid room t e) (b : Nat) :
    Spells (expression room) (Reads room) .sum (b + e.size) t e b := by
  obtain ⟨g, c, v, rfl, hg, -, hspells⟩ := h
  exact (hspells b).toSum.skip hg nofun nofun

/-- A laid out expression that binds as strongly as a product is read as one. -/
theorem product (h : Laid room t e) (he : 20 ≤ e.precedence) (b : Nat) :
    Spells (expression room) (Reads room) .product (b + e.size) t e b := by
  obtain ⟨g, c, v, rfl, hg, -, hspells⟩ := h
  exact ((hspells b).toProduct (e.level_ne_sum he)).skip hg nofun nofun

/-- A laid out expression that binds as strongly as an operand is read as one. -/
theorem operand (h : Laid room t e) (he : 30 ≤ e.precedence) (b : Nat) :
    Spells (expression room) (Reads room) .operand (b + e.size) t e b := by
  have hsum := e.level_ne_sum (by omega)
  obtain ⟨g, c, v, rfl, hg, -, hspells⟩ := h
  exact ((hspells b).toOperand hsum (e.level_ne_product he)).skip hg nofun nofun

/-- What is read behind an expression, and makes another one of it, costs `k` more nodes. -/
theorem append {w : Text} {e' : Expr} (k : Nat) (h : Laid room t e)
    (hsize : e'.size = k + e.size)
    (hstep : ∀ {u b}, Spells (expression room) (Reads room) e.level (b + k + e.size) u e (b + k) →
      Spells (expression room) (Reads room) e'.level (b + k + e.size) (u ++ w) e' b) :
    Laid room (t ++ w) e' := by
  obtain ⟨g, c, v, rfl, hg, hc, hspells⟩ := h
  refine ⟨g, c, v ++ w, ?_, hg, hc, fun b => ?_⟩
  · rw [List.append_assoc, List.cons_append]
  · rw [hsize, ← Nat.add_assoc]
    exact hstep (hspells (b + k))

/-- What has been laid out is read when a whole text is wanted, at the ends of which blanks
are cut off. -/
theorem readWhole (hlaid : Laid room t e) (hxor : xorSign ∉ t) (hh : AllBlank h) (b : Nat) :
    trim (t ++ h) ≠ [] ∧
      readWhole (expression (room + 1)) (trim (t ++ h)) (b + e.size) = some (e, b) := by
  obtain ⟨g, c, v, rfl, hg, hc, hspells⟩ := hlaid
  have hstart : ∀ d ∈ (c :: v).head?, isBlank d = false := by
    intro d hd
    rwa [← Option.mem_some_iff.mp hd]
  have htrim : trim (g ++ c :: v ++ h) = c :: v := by
    rw [List.append_assoc, trim_append hg hh, trim_eq_self hstart (hspells b).endsVisible]
  have hno : xorSign ∉ c :: v := fun hm => hxor (List.mem_append_right g hm)
  have hreads : Reads (room + 1) (b + e.size) (c :: v) e b := (hspells b).toSum
  rw [htrim]
  exact ⟨List.cons_ne_nil c v, readWhole_of_reads hreads hno⟩

/-- A laid out expression, with blanks behind it, has no comma outside all brackets. -/
theorem uncut (hlaid : Laid room t e) (hh : AllBlank h) (n : Bracket.Nesting) :
    Uncut n (t ++ h) := by
  have hreads : Reads (room + 1) (0 + e.size) t e 0 := hlaid.sum 0
  exact uncut_append.mpr ⟨Reads.uncut (room + 1) hreads n, uncut_allBlank hh⟩

end Laid

/-- What the parts of an argument list come to when they are joined by commas and read. -/
def LaidArgs (room : Nat) (t : Text) (es : List Expr) : Prop :=
  ∃ parts, parts ≠ [] ∧ join [','] parts = t ∧ Separable parts ∧
    ∀ b, readEach (expression room) ((parts.map trim).filter fun part => !part.isEmpty)
      (b + Expr.sizes es) = some (es, b)

/-- Laid out arguments are read as they are, at the cost of their nodes. -/
theorem LaidArgs.readArgs {es : List Expr} (hes : LaidArgs room t es) (b : Nat) :
    readArgs (expression room) t (b + Expr.sizes es) = some (es, b) := by
  obtain ⟨parts, -, rfl, hparts, hread⟩ := hes
  rw [Grammar.readArgs, splitTopLevel_join hparts, hread]

/-- An argument in front of others. -/
theorem LaidArgs.cons {es : List Expr} (he : Laid room t e) (htidy : Tidy t) (hg : AllBlank g)
    (hes : LaidArgs (room + 1) u es) : LaidArgs (room + 1) (t ++ (g ++ ',' :: u)) (e :: es) := by
  obtain ⟨parts, hne, hjoin, hparts, hread⟩ := hes
  refine ⟨(t ++ g) :: parts, by simp, ?_, ?_, fun b => ?_⟩
  · cases parts with
    | nil => exact absurd rfl hne
    | cons part parts =>
      rw [join_cons_cons, hjoin]
      simp only [List.append_assoc, List.cons_append, List.nil_append]
  · have hflat : (Bracket.Nesting.after {} (t ++ g)).isFlat = true := by
      rw [Bracket.Nesting.after_append, htidy.after_eq, Bracket.Nesting.after_allBlank hg]
      rfl
    exact ⟨List.forall_mem_cons.mpr ⟨he.uncut hg _, hparts.uncut⟩,
      List.pairwise_cons.mpr ⟨fun _ _ => hflat, hparts.flat⟩⟩
  · obtain ⟨hvisible, hwhole⟩ := he.readWhole htidy.no_xor hg (b + Expr.sizes es)
    have hbudget : b + Expr.sizes (e :: es) = b + Expr.sizes es + e.size := by
      rw [Expr.sizes]
      omega
    rw [List.map_cons, List.filter_cons_of_pos (by simpa using hvisible), hbudget]
    exact readEach_cons.mpr ⟨e, _, es, rfl, hwhole, hread b⟩

/-- One laid out expression, with blanks behind it, is a list of one argument. -/
theorem LaidArgs.single (he : Laid room t e) (htidy : Tidy t) (hg : AllBlank g) :
    LaidArgs (room + 1) (t ++ g) [e] := by
  refine ⟨[t ++ g], by simp, join_singleton, ⟨by simpa using he.uncut hg _, by simp⟩, fun b => ?_⟩
  obtain ⟨hvisible, hwhole⟩ := he.readWhole htidy.no_xor hg b
  rw [List.map_singleton, List.filter_cons_of_pos (by simpa using hvisible)]
  exact readEach_cons.mpr ⟨e, _, [], rfl, hwhole, rfl⟩

/-- Blanks alone are a list of no arguments. -/
theorem LaidArgs.nil (hg : AllBlank g) : LaidArgs room g [] := by
  have htrim : trim g = [] := by
    rw [trim, hg.skipBlanks_eq]
    rfl
  refine ⟨[g], by simp, join_singleton, ⟨?_, by simp⟩, fun b => ?_⟩
  · simpa using uncut_allBlank hg
  · rw [List.map_singleton, htrim]
    rfl

section Form

variable {k : Text} {name : Text} {args : List Expr}

/-- Brackets of its own are the one form for which an expression needs more room. -/
theorem Laid.group (fence : Fence) (hg : AllBlank g) (hlaid : Laid room t e) (hh : AllBlank h) :
    Laid (room + 1) (g ++ fence.bracket.opener :: (t ++ (h ++ [fence.bracket.closer])))
      (.group fence e) := by
  have hblank : isBlank fence.bracket.opener = false := by cases fence <;> decide
  refine ⟨g, _, _, rfl, hg, hblank, fun b => ?_⟩
  have hbudget : b + (Expr.group fence e).size = b + 1 + e.size := by
    rw [Expr.size]
    omega
  rw [hbudget]
  exact .group (hlaid.sum (b + 1)) hh

/-- A sign in front of a laid out operand lays out the signed operand. -/
theorem Laid.unary {sign : Sign} (hsign : Expr.admitsSign sign = true) (hg : AllBlank g)
    (hlaid : Laid room t e) (he : 30 ≤ e.precedence) :
    Laid room (g ++ (sign.symbol ++ t)) (.unary sign e) := by
  obtain ⟨c, hsymbol, hc⟩ := Expr.exists_ofChar?_of_admitsSign hsign
  rw [hsymbol]
  refine ⟨g, c, t, rfl, hg, Sign.isBlank_of_ofChar? hc, fun b => ?_⟩
  exact .signed allBlank_nil hc (hlaid.operand he b)

/-- Two laid out operands of suitable strength lay out the operation with its operator between. -/
theorem Laid.binary {op : Operator} {l r : Expr} (hop : Expr.admitsOperands op l r = true)
    (hl : Laid room t l) (hg : AllBlank g) (hr : Laid room u r) :
    Laid room (t ++ (g ++ (op.symbol ++ u))) (.binary op l r) := by
  refine hl.append (1 + r.size) (by rw [Expr.size]; omega) fun {v b} hv => ?_
  rw [← Nat.add_assoc] at hv ⊢
  rcases Expr.cases_of_admitsOperands hop with
    ⟨c, hsymbol, hc, hadditive, hprec⟩ | ⟨c, hsymbol, hc, hadditive, hleft, hright⟩
  · rw [hsymbol, Expr.level, hadditive]
    exact .add hv.toSum hg hc (hr.product hprec (b + 1))
  · rw [hsymbol, Expr.level, hadditive]
    exact .multiply (hv.toProduct (Expr.level_ne_sum hleft)) hg hc (hr.operand hright (b + 1))

/-- A dot and a name behind a laid out expression that a dot may follow lay out the selection. -/
theorem Laid.member (hlaid : Laid room t e) (he : e.isApplied = true) (hg : AllBlank g)
    (hh : AllBlank h) (hu : SpellsName u name) :
    Laid room (t ++ (g ++ '.' :: (h ++ u))) (.member e name) := by
  refine hlaid.append 1 (by rw [Expr.size]; omega) fun hv => ?_
  rw [Expr.level_of_isTrailed (Expr.isTrailed_of_isApplied he)] at hv
  exact .member hv he hg hh hu

/-- A laid out subscript in square brackets behind a laid out name lays out the subscripted name. -/
theorem Laid.index {s : Expr} (hlaid : Laid (room + 1) t e) (he : e.isTrailed = true)
    (hg : AllBlank g) (hs : Laid room u s) (htidy : Tidy u) (hh : AllBlank h) :
    Laid (room + 1) (t ++ (g ++ '[' :: (u ++ (h ++ [']'])))) (.index e s) := by
  have hencloses : Bracket.square.Encloses (u ++ h) :=
    (htidy.append (.blank hh)).encloses .square
  refine hlaid.append (1 + s.size) (by rw [Expr.size]; omega) fun {v b} hv => ?_
  rw [Expr.level_of_isTrailed he, ← Nat.add_assoc] at hv
  rw [← Nat.add_assoc, ← List.append_assoc u]
  exact .index hv hg hencloses (hs.readWhole htidy.no_xor hh (b + 1)).2

/-- Laid out arguments in parentheses behind a laid out name lay out the call. -/
theorem Laid.call (hlaid : Laid room t e) (he : e.isTrailed = true) (hg : AllBlank g)
    (hargs : LaidArgs room (u ++ h) args) (htidy : Tidy u) (hh : AllBlank h) :
    Laid room (t ++ (g ++ '(' :: (u ++ (h ++ [')'])))) (.call e args) := by
  have hencloses : Bracket.paren.Encloses (u ++ h) :=
    (htidy.append (.blank hh)).encloses .paren
  refine hlaid.append (1 + Expr.sizes args) (by rw [Expr.size]; omega) fun {v b} hv => ?_
  rw [Expr.level_of_isTrailed he, ← Nat.add_assoc] at hv
  rw [← Nat.add_assoc, ← List.append_assoc u]
  exact .call hv hg hencloses (hargs.readArgs (b + 1))

/-- The word `new` and a name behind blanks lay out the construction. -/
theorem Laid.construct (hg : AllBlank g) (hh : AllBlank h) (hne : h ≠ []) (hk : AllBlank k)
    (hu : SpellsName u name) :
    Laid room (g ++ (['n', 'e', 'w'] ++ (h ++ (k ++ u)))) (.construct (.identifier name)) := by
  have hgap : AllBlank (h ++ k) := allBlank_append.mpr ⟨hh, hk⟩
  refine ⟨g, 'n', ['e', 'w'] ++ (h ++ (k ++ u)), rfl, hg, by decide, fun b => ?_⟩
  rw [← List.append_assoc h]
  exact .construct hgap (by simp [hne]) hu

/-- The word `new`, a name and laid out arguments in parentheses lay out the construction with
these. -/
theorem Laid.constructWith {m w p : Text} (hg : AllBlank g) (hh : AllBlank h) (hne : h ≠ [])
    (hk : AllBlank k) (hu : SpellsName u name) (hm : AllBlank m)
    (hargs : LaidArgs room (w ++ p) args) (htidy : Tidy w) (hp : AllBlank p) :
    Laid room (g ++ (['n', 'e', 'w'] ++ (h ++ (k ++ u ++ (m ++ '(' :: (w ++ (p ++ [')'])))))))
      (.constructWith (.identifier name) args) := by
  have hgap : AllBlank (h ++ k) := allBlank_append.mpr ⟨hh, hk⟩
  have hencloses : Bracket.paren.Encloses (w ++ p) :=
    (htidy.append (.blank hp)).encloses .paren
  refine ⟨g, 'n', ['e', 'w'] ++ (h ++ (k ++ u ++ (m ++ '(' :: (w ++ (p ++ [')']))))), rfl, hg,
    by decide, fun b => ?_⟩
  have hbudget : b + (Expr.constructWith (.identifier name) args).size =
      b + 2 + Expr.sizes args := by
    simp only [Expr.size]
    omega
  rw [hbudget, List.append_assoc k, ← List.append_assoc h, ← List.append_assoc w]
  exact .constructWith hgap (by simp [hne]) hu hm hencloses (hargs.readArgs (b + 2))

end Form

end Grammar

open Grammar

mutual

/-- Every layout of a canonical expression is read as that expression. -/
theorem Layout.laid : (e : Expr) → e.isCanonical = true → ∀ room, e.depth ≤ room →
    ∀ {t}, Layout e.tokens t → Laid room t e
  | .number digits, he, room, _, t, h => by
    obtain ⟨g, rfl, hg⟩ := single_iff.mp h
    have hnumeral := numeral_of_isNumeral he
    obtain ⟨c, v, rfl, hc⟩ := hnumeral.exists_cons
    have hblank := isBlank_of_isIdentPart (isIdentPart_of_isDigit hc)
    exact ⟨g, c, v, rfl, hg, hblank, fun b => .number hnumeral⟩
  | .identifier name, he, room, _, t, h => by
    obtain ⟨g, rfl, hg⟩ := single_iff.mp h
    have hname := spellsName_of_isDottedName he
    obtain ⟨c, v, rfl, hc⟩ := hname.exists_cons
    have hblank := isBlank_of_isIdentPart (isIdentPart_of_isIdentStart hc)
    exact ⟨g, c, v, rfl, hg, hblank, fun b => .name hname⟩
  | .raw _, he, _, _, _, _ => by cases he
  | .group fence e, he, room, hroom, t, h => by
    obtain ⟨g, _, rfl, hg, hv⟩ := lexeme_iff.mp h
    obtain ⟨v, k, rfl, hv, hk⟩ := snoc_iff.mp hv
    rw [Expr.depth] at hroom
    obtain ⟨room, rfl⟩ := Nat.exists_eq_add_one_of_ne_zero (show room ≠ 0 by omega)
    exact .group fence hg (Layout.laid e he room (by omega) hv) hk
  | .unary sign e, he, room, hroom, t, h => by
    simp only [Expr.isCanonical, Bool.and_eq_true, decide_eq_true_eq] at he
    obtain ⟨g, v, rfl, hg, hv⟩ := lexeme_iff.mp h
    exact .unary he.1.1 hg (Layout.laid e he.2 room hroom hv) he.1.2
  | .binary op l r, he, room, hroom, t, h => by
    simp only [Expr.isCanonical, Bool.and_eq_true] at he
    obtain ⟨t₁, _, rfl, ht₁, hrest⟩ := append_iff.mp h
    obtain ⟨g, t₂, rfl, hg, ht₂⟩ := lexeme_iff.mp hrest
    rw [Expr.depth] at hroom
    have hl := Layout.laid l he.1.2 room (by omega) ht₁
    have hr := Layout.laid r he.2 room (by omega) ht₂
    exact .binary he.1.1 hl hg hr
  | .member e name, he, room, hroom, t, h => by
    simp only [Expr.isCanonical, Bool.and_eq_true] at he
    obtain ⟨t₁, _, rfl, ht₁, hrest⟩ := append_iff.mp h
    obtain ⟨g, _, rfl, hg, hname⟩ := lexeme_iff.mp hrest
    obtain ⟨k, rfl, hk⟩ := single_iff.mp hname
    have hobject := Layout.laid e he.1.2 room hroom ht₁
    exact .member (h := k) hobject he.1.1 hg hk (spellsName_of_isDottedName he.2)
  | .index e s, he, room, hroom, t, h => by
    simp only [Expr.isCanonical, Bool.and_eq_true] at he
    obtain ⟨t₁, _, rfl, ht₁, hrest⟩ := append_iff.mp h
    obtain ⟨g, _, rfl, hg, hv⟩ := lexeme_iff.mp hrest
    obtain ⟨w, k, rfl, hw, hk⟩ := snoc_iff.mp hv
    rw [Expr.depth] at hroom
    obtain ⟨room, rfl⟩ := Nat.exists_eq_add_one_of_ne_zero (show room ≠ 0 by omega)
    have hobject := Layout.laid e he.1.2 (room + 1) (by omega) ht₁
    have hs := Layout.laid s he.2 room (by omega) hw
    exact .index hobject he.1.1 hg hs (Layout.tidy s he.2 hw) hk
  | .call f args, he, room, hroom, t, h => by
    simp only [Expr.isCanonical, Bool.and_eq_true] at he
    obtain ⟨t₁, _, rfl, ht₁, hrest⟩ := append_iff.mp h
    obtain ⟨g, _, rfl, hg, hv⟩ := lexeme_iff.mp hrest
    obtain ⟨w, k, rfl, hw, hk⟩ := snoc_iff.mp hv
    rw [Expr.depth] at hroom
    have hcallee := Layout.laid f he.1.2 room (by omega) ht₁
    have hargs := Layout.args_laid args he.2 room (by omega) hw hk
    exact .call hcallee he.1.1 hg hargs (Layout.args_tidy args he.2 hw) hk
  | .construct type, he, room, _, t, h => by
    simp only [Expr.isCanonical, Bool.and_eq_true] at he
    obtain ⟨name, rfl⟩ := Expr.exists_of_isName he.1
    obtain ⟨g, k, _, rfl, hg, hk, hne, hv⟩ := keyword_iff.mp h
    obtain ⟨m, rfl, hm⟩ := single_iff.mp hv
    exact .construct hg hk hne hm (spellsName_of_isDottedName he.2)
  | .constructWith type args, he, room, hroom, t, h => by
    simp only [Expr.isCanonical, Bool.and_eq_true] at he
    obtain ⟨name, rfl⟩ := Expr.exists_of_isName he.1.1
    obtain ⟨g, k, _, rfl, hg, hk, hne, hv⟩ := keyword_iff.mp h
    obtain ⟨_, _, rfl, htype, hrest⟩ := append_iff.mp hv
    obtain ⟨m, rfl, hm⟩ := single_iff.mp htype
    obtain ⟨n, _, rfl, hn, hw⟩ := lexeme_iff.mp hrest
    obtain ⟨w, p, rfl, hw, hp⟩ := snoc_iff.mp hw
    rw [Expr.depth] at hroom
    have hname := spellsName_of_isDottedName he.1.2
    have hargs := Layout.args_laid args he.2 room (by omega) hw hp
    exact .constructWith hg hk hne hm hname hn hargs (Layout.args_tidy args he.2 hw) hp

/-- Every layout of canonical arguments is read as these arguments. -/
theorem Layout.args_laid : (es : List Expr) → Expr.areCanonical es = true → ∀ room,
    Expr.argDepth es ≤ room → ∀ {t g}, Layout (Expr.argTokens es) t → AllBlank g →
    LaidArgs room (t ++ g) es
  | [], _, room, _, t, g, h, hg => by
    rw [nil_iff.mp h]
    exact .nil hg
  | [e], hes, room, hroom, t, g, h, hg => by
    simp only [Expr.areCanonical, Bool.and_eq_true] at hes
    rw [Expr.argDepth] at hroom
    obtain ⟨room, rfl⟩ := Nat.exists_eq_add_one_of_ne_zero (show room ≠ 0 by omega)
    exact .single (Layout.laid e hes.1 room (by omega) h) (Layout.tidy e hes.1 h) hg
  | e :: e' :: es, hes, room, hroom, t, g, h, hg => by
    rw [Expr.areCanonical, Bool.and_eq_true] at hes
    obtain ⟨t₁, _, rfl, ht₁, hrest⟩ := append_iff.mp h
    obtain ⟨k, t₂, rfl, hk, ht₂⟩ := lexeme_iff.mp hrest
    rw [Expr.argDepth] at hroom
    obtain ⟨room, rfl⟩ := Nat.exists_eq_add_one_of_ne_zero (show room ≠ 0 by omega)
    have hmore := Layout.args_laid (e' :: es) hes.2 (room + 1) (by omega) ht₂ hg
    have hlaid := Layout.laid e hes.1 room (by omega) ht₁
    have := LaidArgs.cons hlaid (Layout.tidy e hes.1 ht₁) hk hmore
    simpa only [List.append_assoc, List.cons_append, List.nil_append] using this

end

namespace Expr

/-- Reading printed source gives back the expression that was printed, whatever blanks stand
between its tokens and at its ends. -/
theorem parse?_layout {e : Expr} {t g : Text} (hcanonical : e.isCanonical = true)
    (hsize : e.size ≤ maxNodes) (hdepth : e.depth ≤ maxDepth) (ht : Layout e.tokens t)
    (hg : AllBlank g) : parse? (t ++ g) = some e := by
  have hlaid := Layout.laid e hcanonical maxDepth hdepth ht
  have hreads : Reads (maxDepth + 1) (maxNodes - e.size + e.size) t e (maxNodes - e.size) :=
    hlaid.sum (maxNodes - e.size)
  rw [Nat.sub_add_cancel hsize] at hreads
  refine parse?_eq_some_iff_reads.mpr ⟨?_, t, g, _, rfl, hg, hreads⟩
  exact ((Layout.tidy e hcanonical ht).append (.blank hg)).no_xor

/-- A construction and a number, with a blank between any two of their tokens. -/
theorem parse?_layout_construction :
    parse? ['n', 'e', 'w', ' ', 'T', ' ', '(', 'x', ' ', ')', '-', '2', ' '] = some
      (.binary .sub (.constructWith (.identifier ['T']) [.identifier ['x']]) (.number ['2'])) := by
  have hspace : AllBlank [' '] := allBlank_cons.mpr ⟨by decide, allBlank_nil⟩
  have ht : Layout
      (tokens (.binary .sub (.constructWith (.identifier ['T']) [.identifier ['x']])
        (.number ['2'])))
      ['n', 'e', 'w', ' ', 'T', ' ', '(', 'x', ' ', ')', '-', '2'] :=
    .keyword allBlank_nil hspace (by simp) (.lexeme allBlank_nil (.lexeme hspace
      (.lexeme allBlank_nil (.lexeme hspace (.lexeme allBlank_nil (.lexeme allBlank_nil .nil))))))
  exact @parse?_layout _ _ [' '] (by decide) (by decide) (by decide) ht hspace

end Expr

end Gloss
