import Gloss.Expr.Parser
import Gloss.Proofs.Text.Bracket
import Gloss.Proofs.Text.Word

/-!
# The grammar as a relation

`Spells` says which texts are read as which tree, rule by rule and without looking at what
follows. Every rule of the parser is sound for it: what a rule consumes is such a text and
blanks behind it. Budgets are threaded through the relation as they are through the parser,
since a raw leaf stands only for text whose reading did not run out of them.
-/

namespace Gloss

/-- Whether an expression is an element of an object or a call, from which a member can be
selected. -/
def Expr.isApplied : Expr → Bool
  | .index .. | .call .. => true
  | _ => false

/-- A sign is one character, plus or minus. -/
theorem Sign.ofChar?_eq_some {c : Char} {sign : Sign} (h : ofChar? c = some sign) :
    sign.symbol = [c] ∧ (c = '+' ∨ c = '-') := by
  unfold ofChar? at h
  split at h <;> cases h <;> simp [symbol]

/-- A multiplicative operator is one character, an asterisk or a slash. -/
theorem Operator.multiplicative?_eq_some {c : Char} {op : Operator}
    (h : multiplicative? c = some op) : op.symbol = [c] ∧ (c = '*' ∨ c = '/') := by
  unfold multiplicative? at h
  split at h <;> cases h <;> simp [symbol]

/-- An additive operator is one character, plus or minus. -/
theorem Operator.additive?_eq_some {c : Char} {op : Operator} (h : additive? c = some op) :
    op.symbol = [c] ∧ (c = '+' ∨ c = '-') := by
  unfold additive? at h
  split at h <;> cases h <;> simp [symbol]

/-- No sign is blank. -/
theorem Sign.isBlank_of_ofChar? {c : Char} {sign : Sign} (h : ofChar? c = some sign) :
    isBlank c = false := by
  rcases (ofChar?_eq_some h).2 with rfl | rfl <;> decide

/-- No multiplicative operator is blank. -/
theorem Operator.isBlank_of_multiplicative? {c : Char} {op : Operator}
    (h : multiplicative? c = some op) : isBlank c = false := by
  rcases (multiplicative?_eq_some h).2 with rfl | rfl <;> decide

/-- No additive operator is blank. -/
theorem Operator.isBlank_of_additive? {c : Char} {op : Operator} (h : additive? c = some op) :
    isBlank c = false := by
  rcases (additive?_eq_some h).2 with rfl | rfl <;> decide

namespace Grammar

open Text Outcome

/-- The levels of the grammar, from the weakest binding to the strongest. -/
inductive Level where
  /-- Products joined by `+` and `-`. -/
  | sum
  /-- Operands joined by `*` and `/`. -/
  | product
  /-- A primary behind signs and blanks. -/
  | operand
  /-- A number, a group, a construction or a name with what follows it. -/
  | primary
  /-- A name with selections, subscripts and argument lists. -/
  | trailed
  deriving DecidableEq, Repr

/-- A relation between a text and an expression that it spells within a budget. -/
abbrev Reading := (budget : Nat) → Text → Expr → (left : Nat) → Prop

/-- The texts of the grammar at each level. Groups hold what `Inner` admits; subscripts and
arguments are read by `nested`. -/
inductive Spells (nested : Rule) (Inner : Reading) : Level → Reading
  | name {b : Nat} {t name : Text} : SpellsName t name →
      Spells nested Inner .trailed (b + 1) t (.identifier name) b
  | member {b b' : Nat} {t g h u name : Text} {e : Expr} :
      Spells nested Inner .trailed b t e (b' + 1) → e.isApplied = true → AllBlank g →
      AllBlank h → SpellsName u name →
      Spells nested Inner .trailed b (t ++ (g ++ '.' :: (h ++ u))) (.member e name) b'
  | index {b b₁ b' : Nat} {t g inside : Text} {e s : Expr} :
      Spells nested Inner .trailed b t e b₁ → AllBlank g → Bracket.square.Encloses inside →
      readWhole nested inside.trim b₁ = some (s, b' + 1) →
      Spells nested Inner .trailed b (t ++ (g ++ '[' :: (inside ++ [']']))) (.index e s) b'
  | call {b b₁ b' : Nat} {t g inside : Text} {e : Expr} {args : List Expr} :
      Spells nested Inner .trailed b t e b₁ → AllBlank g → Bracket.paren.Encloses inside →
      readArgs nested inside b₁ = some (args, b' + 1) →
      Spells nested Inner .trailed b (t ++ (g ++ '(' :: (inside ++ [')']))) (.call e args) b'
  | trailed {b b' : Nat} {t : Text} {e : Expr} : Spells nested Inner .trailed b t e b' →
      Spells nested Inner .primary b t e b'
  | number {b : Nat} {t : Text} : Numeral t → Spells nested Inner .primary (b + 1) t (.number t) b
  | group {b b' : Nat} {fence : Fence} {t g : Text} {e : Expr} : Inner b t e (b' + 1) →
      AllBlank g → Spells nested Inner .primary b
        (fence.bracket.opener :: (t ++ (g ++ [fence.bracket.closer]))) (.group fence e) b'
  | construct {b : Nat} {g u name : Text} : AllBlank g → g ≠ [] → SpellsName u name →
      Spells nested Inner .primary (b + 2) (['n', 'e', 'w'] ++ (g ++ u))
        (.construct (.identifier name)) b
  | constructWith {b b' : Nat} {g u h inside name : Text} {args : List Expr} : AllBlank g →
      g ≠ [] → SpellsName u name → AllBlank h → Bracket.paren.Encloses inside →
      readArgs nested inside b = some (args, b' + 2) →
      Spells nested Inner .primary b
        (['n', 'e', 'w'] ++ (g ++ (u ++ (h ++ '(' :: (inside ++ [')'])))))
        (.constructWith (.identifier name) args) b'
  | unsigned {b b' : Nat} {g t : Text} {e : Expr} : AllBlank g →
      Spells nested Inner .primary b t e b' → Spells nested Inner .operand b (g ++ t) e b'
  | signed {b b' : Nat} {g t : Text} {c : Char} {sign : Sign} {e : Expr} : AllBlank g →
      Sign.ofChar? c = some sign → Spells nested Inner .operand b t e b' →
      Spells nested Inner .operand (b + 1) (g ++ c :: t) (.unary sign e) b'
  | factor {b b' : Nat} {t : Text} {e : Expr} : Spells nested Inner .operand b t e b' →
      Spells nested Inner .product b t e b'
  | multiply {b b₁ b' : Nat} {t g u : Text} {c : Char} {op : Operator} {l r : Expr} :
      Spells nested Inner .product b t l b₁ → AllBlank g → Operator.multiplicative? c = some op →
      Spells nested Inner .operand b₁ u r (b' + 1) →
      Spells nested Inner .product b (t ++ (g ++ c :: u)) (.binary op l r) b'
  | term {b b' : Nat} {t : Text} {e : Expr} : Spells nested Inner .product b t e b' →
      Spells nested Inner .sum b t e b'
  | add {b b₁ b' : Nat} {t g u : Text} {c : Char} {op : Operator} {l r : Expr} :
      Spells nested Inner .sum b t l b₁ → AllBlank g → Operator.additive? c = some op →
      Spells nested Inner .product b₁ u r (b' + 1) →
      Spells nested Inner .sum b (t ++ (g ++ c :: u)) (.binary op l r) b'

/-- The texts of whole expressions within brackets that may nest `room - 1` deep. -/
def Reads : (room : Nat) → Reading
  | 0 => fun _ _ _ _ => False
  | room + 1 => Spells (expression room) (Reads room) .sum

/-- What a rule consumes is a text of a relation and blanks behind it. -/
def Sound (rule : Rule) (R : Reading) : Prop :=
  ∀ ⦃t : Text⦄ ⦃b : Nat⦄ ⦃e : Expr⦄ ⦃rest : Text⦄ ⦃b' : Nat⦄, rule t b = parsed e rest b' →
    ∃ u g, t = u ++ (g ++ rest) ∧ AllBlank g ∧ R b u e b'

section Outcome

variable {α β : Type} {o : Outcome α} {v w : α} {x : β} {t rest : Text} {k b b' : Nat}
  {next : α → Text → Nat → Outcome β}

/-- Two rules in a row read something if the first does and the second goes on from there. -/
theorem andThen_eq_parsed_iff : o.andThen next = parsed x rest b' ↔
    ∃ v t b, o = parsed v t b ∧ next v t b = parsed x rest b' := by
  cases o <;> simp [andThen]

/-- What is charged was in the budget. -/
theorem charge_eq_parsed_iff : charge k v t b = parsed w rest b' ↔
    v = w ∧ t = rest ∧ b = b' + k := by
  rw [charge]
  split
  · rw [parsed.injEq]
    constructor
    · rintro ⟨hv, ht, hb⟩
      exact ⟨hv, ht, by omega⟩
    · rintro ⟨hv, ht, hb⟩
      exact ⟨hv, ht, by omega⟩
  · refine iff_of_false nofun ?_
    rintro ⟨-, -, hb⟩
    omega

@[simp] theorem charge_add (k : Nat) (v : α) (t : Text) (b : Nat) :
    charge k v t (b + k) = parsed v t b := by
  rw [charge, if_pos (Nat.le_add_left k b), Nat.add_sub_cancel]

@[simp] theorem parsed_andThen (v : α) (t : Text) (b : Nat) :
    (parsed v t b).andThen next = next v t b := rfl

end Outcome

section Word

variable {t u name rest : Text}

/-- The name taken is spelled, and it is the longest. -/
theorem takeName?_eq_some_iff : takeName? t = some (name, rest) ↔
    ∃ u, t = u ++ rest ∧ SpellsName u name ∧ NameEnds isBlank rest := by
  rw [takeName?, Option.map_eq_some_iff]
  simp only [Prod.exists, takeDotted?_eq_some_iff fun _ => isBlank_of_isTokenPart,
    Prod.mk.injEq]
  constructor
  · rintro ⟨ss, rest, ⟨u, rfl, hu, hends⟩, rfl, rfl⟩
    exact ⟨u, rfl, ⟨ss, hu, rfl⟩, hends⟩
  · rintro ⟨u, rfl, ⟨ss, hu, rfl⟩, hends⟩
    exact ⟨ss, rest, ⟨u, rfl, hu, hends⟩, rfl, rfl⟩

/-- A name begins just where an identifier does. -/
theorem takeName?_eq_none_iff : takeName? t = none ↔ t.head?.any isIdentStart = false := by
  rw [takeName?, takeDotted?, Option.map_eq_none_iff, Option.map_eq_none_iff,
    takeIdent?_eq_none_iff]

/-- The keyword of a construction stands in front of what it leaves, and is a word of its own. -/
theorem afterNew?_eq_some_iff : afterNew? t = some u ↔
    t = ['n', 'e', 'w'] ++ u ∧ u.head?.any isIdentPart = false := by
  rw [afterNew?, Option.filter_eq_some_iff, after?_eq_some_iff, Bool.not_eq_true']

end Word

section Sound

variable {nested : Rule} {Inner : Reading} {fuel b b₀ b' : Nat} {p t u rest : Text} {e e' : Expr}

/-- Before a dot with a name behind it no name has ended. -/
theorem not_nameEnds {v : Text} {name : Text} (hdot : t.skipBlanks = '.' :: u)
    (hname : takeName? u.skipBlanks = some (name, v)) : ¬ NameEnds isBlank t := by
  intro hends
  have hnone : takeName? u.skipBlanks = none := takeName?_eq_none_iff.mpr (hends.2 u hdot)
  rw [hnone] at hname
  cases hname

/-- A name either ends where it is, or is continued by one thing. -/
theorem trailers_cases (h : trailers nested (fuel + 1) e t b = parsed e' rest b')
    (hname : e.isApplied = true ∨ NameEnds isBlank t) :
    (e' = e ∧ rest = t.skipBlanks ∧ b' = b) ∨
    ∃ e₁ w t₁ b₁, t = w ++ t₁ ∧ (e₁.isApplied = true ∨ NameEnds isBlank t₁) ∧
      (∀ {b₀ p}, Spells nested Inner .trailed b₀ p e b →
        Spells nested Inner .trailed b₀ (p ++ w) e₁ b₁) ∧
      trailers nested fuel e₁ t₁ b₁ = parsed e' rest b' := by
  obtain ⟨g, hg, ht⟩ := exists_allBlank_append_skipBlanks t
  rw [trailers] at h
  split at h
  · rename_i u hdot
    split at h
    · rename_i name v hv
      obtain ⟨e₁, t₁, b₁, hcharge, hmore⟩ := andThen_eq_parsed_iff.mp h
      obtain ⟨rfl, rfl, rfl⟩ := charge_eq_parsed_iff.mp hcharge
      obtain ⟨w, hw, hspells, hends⟩ := takeName?_eq_some_iff.mp hv
      obtain ⟨k, hk, hu⟩ := exists_allBlank_append_skipBlanks u
      have happlied := hname.resolve_right (not_nameEnds hdot hv)
      refine .inr ⟨_, g ++ '.' :: (k ++ w), v, b₁, ?_, .inr hends, ?_, hmore⟩
      · rw [List.append_assoc, List.cons_append, List.append_assoc, ← hw, ← hu, ← hdot, ← ht]
      · exact fun hp => .member hp happlied hg hk hspells
    · cases h
      exact .inl ⟨rfl, hdot.symm, rfl⟩
  · rename_i u hopen
    split at h
    · rename_i inside v hclose
      split at h
      · rename_i s left hs
        obtain ⟨e₁, t₁, b₁, hcharge, hmore⟩ := andThen_eq_parsed_iff.mp h
        obtain ⟨rfl, rfl, rfl⟩ := charge_eq_parsed_iff.mp hcharge
        obtain ⟨rfl, hinside⟩ := Bracket.close?_eq_some_iff.mp hclose
        refine .inr ⟨_, g ++ '[' :: (inside ++ [']']), v, b₁, ?_, .inl rfl, ?_, hmore⟩
        · rw [List.append_assoc, List.cons_append, List.append_assoc, List.singleton_append]
          exact ht.trans (by rw [hopen]; rfl)
        · exact fun hp => .index hp hg hinside hs
      · cases h
    · cases h
      exact .inl ⟨rfl, hopen.symm, rfl⟩
  · rename_i u hopen
    split at h
    · rename_i inside v hclose
      split at h
      · rename_i args left hargs
        obtain ⟨e₁, t₁, b₁, hcharge, hmore⟩ := andThen_eq_parsed_iff.mp h
        obtain ⟨rfl, rfl, rfl⟩ := charge_eq_parsed_iff.mp hcharge
        obtain ⟨rfl, hinside⟩ := Bracket.close?_eq_some_iff.mp hclose
        refine .inr ⟨_, g ++ '(' :: (inside ++ [')']), v, b₁, ?_, .inl rfl, ?_, hmore⟩
        · rw [List.append_assoc, List.cons_append, List.append_assoc, List.singleton_append]
          exact ht.trans (by rw [hopen]; rfl)
        · exact fun hp => .call hp hg hinside hargs
      · cases h
    · cases h
      exact .inl ⟨rfl, hopen.symm, rfl⟩
  · cases h
    exact .inl ⟨rfl, rfl, rfl⟩

/-- What follows a name is read as far as it continues the name. -/
theorem trailers_sound (h : trailers nested fuel e t b = parsed e' rest b')
    (hname : e.isApplied = true ∨ NameEnds isBlank t)
    (hp : Spells nested Inner .trailed b₀ p e b) :
    ∃ u g, t = u ++ (g ++ rest) ∧ AllBlank g ∧ Spells nested Inner .trailed b₀ (p ++ u) e' b' := by
  induction fuel generalizing e t b p with
  | zero => cases h
  | succ fuel ih =>
    rcases trailers_cases h hname with ⟨rfl, rfl, rfl⟩ | ⟨e₁, w, t₁, b₁, rfl, hname₁, hw, h₁⟩
    · obtain ⟨g, hg, ht⟩ := exists_allBlank_append_skipBlanks t
      exact ⟨[], g, ht, hg, by rwa [List.append_nil]⟩
    · obtain ⟨u, g, rfl, hg, hu⟩ := ih h₁ hname₁ (hw hp)
      refine ⟨w ++ u, g, by rw [List.append_assoc], hg, ?_⟩
      rwa [← List.append_assoc]

/-- An atom consumes a numeral, or a name with its trailers. -/
theorem atom_sound (h : atom nested t b = parsed e rest b') :
    ∃ u g, t = u ++ (g ++ rest) ∧ AllBlank g ∧ Spells nested Inner .primary b u e b' := by
  rw [atom] at h
  split at h
  · rename_i digits v hnumber
    obtain ⟨rfl, rfl, rfl⟩ := charge_eq_parsed_iff.mp h
    obtain ⟨rfl, hnumeral⟩ := numeral_of_takeNumber? hnumber
    exact ⟨digits, [], rfl, allBlank_nil, .number hnumeral⟩
  · split at h
    · rename_i name v hname
      obtain ⟨e₁, t₁, b₁, hcharge, hmore⟩ := andThen_eq_parsed_iff.mp h
      obtain ⟨rfl, rfl, rfl⟩ := charge_eq_parsed_iff.mp hcharge
      obtain ⟨w, rfl, hspells, hends⟩ := takeName?_eq_some_iff.mp hname
      obtain ⟨u, g, rfl, hg, hu⟩ := trailers_sound hmore (.inr hends) (.name hspells)
      exact ⟨w ++ u, g, by rw [List.append_assoc], hg, .trailed hu⟩
    · cases h

/-- A group consumes an expression in its brackets. -/
theorem group_sound (fence : Fence) (hnested : Sound nested Inner)
    (h : group nested fence t b = parsed e rest b') :
    ∃ u, fence.bracket.opener :: t = u ++ rest ∧ Spells nested Inner .primary b u e b' := by
  obtain ⟨e₁, t₁, b₁, hinner, hclose⟩ := andThen_eq_parsed_iff.mp h
  obtain ⟨w, g, rfl, hg, hw⟩ := hnested hinner
  obtain ⟨k, hk, ht₁⟩ := exists_allBlank_append_skipBlanks t₁
  split at hclose
  · rename_i c v hv
    split at hclose
    · rename_i hc
      obtain ⟨rfl, rfl, rfl⟩ := charge_eq_parsed_iff.mp hclose
      refine ⟨_, ?_, @Spells.group _ _ _ _ fence _ _ _ hw (allBlank_append.mpr ⟨hg, hk⟩)⟩
      rw [ht₁, hv, hc]
      simp only [List.append_assoc, List.cons_append, List.nil_append]
    · cases hclose
  · cases hclose

/-- What is taken in parentheses is enclosed by them, behind blanks. -/
theorem takeParens?_eq_some {v inside : Text} (h : takeParens? t = some (inside, v)) :
    ∃ g, AllBlank g ∧ Bracket.paren.Encloses inside ∧ t = g ++ '(' :: (inside ++ ')' :: v) := by
  obtain ⟨g, hg, ht⟩ := exists_allBlank_append_skipBlanks t
  rw [takeParens?] at h
  split at h
  · rename_i u hopen
    obtain ⟨hu, hinside⟩ := Bracket.close?_eq_some_iff.mp h
    refine ⟨g, hg, hinside, ht.trans ?_⟩
    rw [hopen, hu]
    rfl
  · cases h

/-- A construction consumes the keyword, a name and possibly arguments. -/
theorem construction_sound (Inner : Reading)
    (h : construction? nested t b = some (parsed e rest b')) :
    ∃ u, t = u ++ rest ∧ Spells nested Inner .primary b u e b' := by
  obtain ⟨⟨name, v⟩, hname, houtcome⟩ := Option.map_eq_some_iff.mp h
  obtain ⟨u, hnew, hu⟩ := Option.bind_eq_some_iff.mp hname
  obtain ⟨rfl, hpart⟩ := afterNew?_eq_some_iff.mp hnew
  obtain ⟨g, hg, hskip⟩ := exists_allBlank_append_skipBlanks u
  obtain ⟨w, hw, hspells, -⟩ := takeName?_eq_some_iff.mp hu
  have hgap : g ≠ [] := by
    rintro rfl
    obtain ⟨c, w, rfl, hc⟩ := hspells.exists_cons
    rw [hskip, hw, List.nil_append, List.cons_append, List.head?_cons, Option.any_some,
      isIdentPart_of_isIdentStart hc] at hpart
    cases hpart
  rw [hw] at hskip
  simp only at houtcome
  split at houtcome
  · rename_i inside v' hparens
    obtain ⟨k, hk, hinside, rfl⟩ := takeParens?_eq_some hparens
    split at houtcome
    · rename_i args left hargs
      obtain ⟨rfl, rfl, rfl⟩ := charge_eq_parsed_iff.mp houtcome
      refine ⟨_, ?_, .constructWith hg hgap hspells hk hinside hargs⟩
      rw [hskip]
      simp only [List.append_assoc, List.cons_append, List.nil_append]
    · cases houtcome
  · obtain ⟨rfl, rfl, rfl⟩ := charge_eq_parsed_iff.mp houtcome
    refine ⟨_, ?_, .construct hg hgap hspells⟩
    rw [hskip]
    simp only [List.append_assoc, List.cons_append, List.nil_append]

/-- A primary consumes a text of its level if the rule for what it nests is sound. -/
theorem primary_sound (hnested : Sound nested Inner)
    (h : primary nested t b = parsed e rest b') :
    ∃ u g, t = u ++ (g ++ rest) ∧ AllBlank g ∧ Spells nested Inner .primary b u e b' := by
  unfold primary at h
  split at h
  · rename_i hnew
    subst h
    obtain ⟨u, rfl, hu⟩ := construction_sound Inner hnew
    exact ⟨u, [], rfl, allBlank_nil, hu⟩
  · split at h
    · obtain ⟨u, hu, hspells⟩ := group_sound .paren hnested h
      exact ⟨u, [], hu, allBlank_nil, hspells⟩
    · obtain ⟨u, hu, hspells⟩ := group_sound .brace hnested h
      exact ⟨u, [], hu, allBlank_nil, hspells⟩
    · exact atom_sound h

/-- Blanks may stand before everything that is not itself a primary. -/
theorem Spells.skip {level : Level} {g : Text} (h : Spells nested Inner level b t e b')
    (hg : AllBlank g) (hprimary : level ≠ .primary) (htrailed : level ≠ .trailed) :
    Spells nested Inner level b (g ++ t) e b' := by
  induction h with
  | name | member | index | call => exact absurd rfl htrailed
  | trailed | number | group | construct | constructWith => exact absurd rfl hprimary
  | unsigned hk hp =>
    rw [← List.append_assoc]
    exact .unsigned (allBlank_append.mpr ⟨hg, hk⟩) hp
  | signed hk hsign hp =>
    rw [← List.append_assoc]
    exact .signed (allBlank_append.mpr ⟨hg, hk⟩) hsign hp
  | factor _ ih => exact .factor (ih nofun nofun)
  | multiply _ hk hop hr ihl _ =>
    rw [← List.append_assoc]
    exact .multiply (ihl nofun nofun) hk hop hr
  | term _ ih => exact .term (ih nofun nofun)
  | add _ hk hop hr ihl _ =>
    rw [← List.append_assoc]
    exact .add (ihl nofun nofun) hk hop hr

/-- A primary behind the signs that are read makes an operand. -/
theorem signs_sound {ss : List Sign} (h : signs t b = parsed ss rest b') :
    ∃ v, t = v ++ rest ∧ ∀ {w e b''}, Spells nested Inner .primary b' w e b'' →
      Spells nested Inner .operand b (v ++ w) (ss.foldr Expr.unary e) b'' := by
  induction t generalizing b ss with
  | nil =>
    cases h
    exact ⟨[], rfl, fun hw => .unsigned allBlank_nil hw⟩
  | cons c t ih =>
    rw [signs.eq_def] at h
    simp only at h
    split at h
    · rename_i hc
      obtain ⟨v, rfl, hv⟩ := ih h
      refine ⟨c :: v, rfl, fun hw => ?_⟩
      have hblank : AllBlank [c] := allBlank_cons.mpr ⟨hc, allBlank_nil⟩
      exact (hv hw).skip hblank nofun nofun
    · split at h
      · cases h
        exact ⟨[], rfl, fun hw => .unsigned allBlank_nil hw⟩
      · rename_i sign hsign
        cases b with
        | zero => cases h
        | succ b =>
          obtain ⟨more, t₁, b₁, hmore, hsigns⟩ := andThen_eq_parsed_iff.mp h
          cases hsigns
          obtain ⟨v, rfl, hv⟩ := ih hmore
          exact ⟨c :: v, rfl, fun hw => .signed allBlank_nil hsign (hv hw)⟩

/-- An operand consumes a text of its level if the rule for what it nests is sound. -/
theorem operand_sound (hnested : Sound nested Inner) :
    Sound (operand nested) (Spells nested Inner .operand) := by
  intro t b e rest b' h
  obtain ⟨ss, t₁, b₁, hsigns, hmore⟩ := andThen_eq_parsed_iff.mp h
  obtain ⟨e₁, t₂, b₂, hprimary, hresult⟩ := andThen_eq_parsed_iff.mp hmore
  cases hresult
  obtain ⟨v, rfl, hv⟩ := signs_sound hsigns
  obtain ⟨u, g, rfl, hg, hu⟩ := primary_sound hnested hprimary
  exact ⟨v ++ u, g, by rw [List.append_assoc], hg, hv hu⟩

/-- The blanks before the next operator do not matter. -/
theorem chain_skip {level? : Char → Option Operator} {item : Rule} {g : Text} (hg : AllBlank g) :
    chain level? item fuel e (g ++ t) b = chain level? item fuel e t b := by
  cases fuel with
  | zero => rfl
  | succ fuel => rw [chain, chain, skipBlanks_append hg]

/-- A chain is read as far as operators continue it. `Chain` holds of what has been read, and
is kept by each step. -/
theorem chain_sound {level? : Char → Option Operator} {item : Rule} {Item Chain : Reading}
    (hitem : Sound item Item)
    (hstep : ∀ {b b₁ b' t g u c op l r}, Chain b t l b₁ → AllBlank g → level? c = some op →
      Item b₁ u r (b' + 1) → Chain b (t ++ (g ++ c :: u)) (.binary op l r) b')
    (h : chain level? item fuel e t b = parsed e' rest b') (hp : Chain b₀ p e b) :
    ∃ u g, t = u ++ (g ++ rest) ∧ AllBlank g ∧ Chain b₀ (p ++ u) e' b' := by
  induction fuel generalizing e t b p with
  | zero => cases h
  | succ fuel ih =>
    obtain ⟨g, hg, ht⟩ := exists_allBlank_append_skipBlanks t
    have hend (hskip : t.skipBlanks = rest) (hval : e = e' ∧ b = b') :
        ∃ u g, t = u ++ (g ++ rest) ∧ AllBlank g ∧ Chain b₀ (p ++ u) e' b' := by
      obtain ⟨rfl, rfl⟩ := hval
      exact ⟨[], g, by rw [← hskip, List.nil_append, ← ht], hg, by rwa [List.append_nil]⟩
    rw [chain] at h
    split at h
    · rename_i hnil
      cases h
      exact hend hnil ⟨rfl, rfl⟩
    · rename_i c u hc
      split at h
      · cases h
        exact hend hc ⟨rfl, rfl⟩
      · rename_i op hop
        obtain ⟨r, t₁, b₁, hr, hmore⟩ := andThen_eq_parsed_iff.mp h
        obtain ⟨e₁, t₂, b₂, hcharge, hnext⟩ := andThen_eq_parsed_iff.mp hmore
        obtain ⟨rfl, rfl, rfl⟩ := charge_eq_parsed_iff.mp hcharge
        obtain ⟨w, k, rfl, hk, hw⟩ := hitem hr
        rw [← chain_skip hk] at hnext
        obtain ⟨v, m, hv, hm, hchain⟩ := ih hnext (hstep hp hg hop hw)
        refine ⟨g ++ c :: w ++ v, m, ?_, hm, by rwa [← List.append_assoc]⟩
        rw [ht, hc, hv]
        simp only [List.append_assoc, List.cons_append]

/-- A chain is sound for a relation if its items are and the relation admits each of its steps. -/
theorem chained_sound {level? : Char → Option Operator} {item : Rule} {Item Chain : Reading}
    (hitem : Sound item Item) (hfirst : ∀ {b t e b'}, Item b t e b' → Chain b t e b')
    (hstep : ∀ {b b₁ b' t g u c op l r}, Chain b t l b₁ → AllBlank g → level? c = some op →
      Item b₁ u r (b' + 1) → Chain b (t ++ (g ++ c :: u)) (.binary op l r) b') :
    Sound (chained level? item) Chain := by
  intro t b e rest b' h
  obtain ⟨l, t₁, b₁, hl, hmore⟩ := andThen_eq_parsed_iff.mp h
  obtain ⟨w, k, rfl, hk, hw⟩ := hitem hl
  rw [← chain_skip hk] at hmore
  obtain ⟨v, m, hv, hm, hchain⟩ := chain_sound hitem hstep hmore (hfirst hw)
  exact ⟨w ++ v, m, by rw [hv, List.append_assoc], hm, hchain⟩

/-- A product of operands consumes a text of its level if the rule for what it nests is sound. -/
theorem product_sound (hnested : Sound nested Inner) :
    Sound (product nested) (Spells nested Inner .product) :=
  chained_sound (operand_sound hnested) .factor .multiply

/-- A sum of products consumes a text of its level if the rule for what it nests is sound. -/
theorem sum_sound (hnested : Sound nested Inner) :
    Sound (sum nested) (Spells nested Inner .sum) :=
  chained_sound (product_sound hnested) .term .add

/-- Whatever is read as an expression is a text of the grammar. -/
theorem expression_sound (room : Nat) : Sound (expression room) (Reads room) := by
  induction room with
  | zero => exact fun _ _ _ _ _ h => by cases h
  | succ room ih => exact sum_sound ih

end Sound

end Grammar

end Gloss
