import Gloss.Proofs.Expr.Complete
import Gloss.Proofs.Expr.Front
import Gloss.Proofs.Expr.Node
import Gloss.Proofs.Expr.Reading
import Mathlib.Logic.Relation

/-!
# The limits of a reading

Both limits are kept exactly. What the budget has lost at the end of a reading is the number of
nodes of the tree, and no node but a raw one lies under more brackets than may be open. A budget
that runs out is felt everywhere: the relation between a rule and those that it comes to while it
reads leads from an argument, however deep it lies, back to the whole text, and hands on that the
budget ran out at every step.
-/

namespace Gloss

open Text

namespace Expr

/-- Whether no node but raw ones lies under more than `limit` brackets. -/
def NestsWithin (limit : Nat) (ps : List (Nat × Expr)) : Prop :=
  ∀ p ∈ ps, p.2.isRaw = false → p.1 ≤ limit

section NestsWithin

variable {limit n : Nat} {e : Expr} {ps qs : List (Nat × Expr)}

theorem nestsWithin_append :
    NestsWithin limit (ps ++ qs) ↔ NestsWithin limit ps ∧ NestsWithin limit qs :=
  List.forall_mem_append

/-- A node within the limit may be put in front. -/
theorem NestsWithin.cons (hn : n ≤ limit) (h : NestsWithin limit ps) :
    NestsWithin limit ((n, e) :: ps) :=
  List.forall_mem_cons.mpr ⟨fun _ => hn, h⟩

theorem nestsWithin_singleton (hn : n ≤ limit) : NestsWithin limit [(n, e)] :=
  NestsWithin.cons hn fun _ hp => absurd hp List.not_mem_nil

end NestsWithin

end Expr

namespace Grammar

open Outcome Gloss.Expr

section Depth

variable {nested : Rule} {Inner : Reading} {level : Level} {limit n room b b' : Nat} {t : Text}
  {e : Expr} {ts : List Text} {es : List Expr}

/-- What a whole text is read as nests within the limit, be it an expression or a raw leaf. -/
theorem nestsWithin_of_readWhole (hnested : Sound nested Inner)
    (hinner : ∀ {b t e b'}, Inner b t e b' → NestsWithin limit (e.nodes n))
    (h : readWhole nested t b = some (e, b')) : NestsWithin limit (e.nodes n) := by
  rcases readWhole_cases hnested h with ⟨rfl, -⟩ | ⟨-, u, g, -, -, hu⟩
  · rintro p hp hraw
    obtain rfl := List.mem_singleton.mp hp
    cases hraw
  · exact hinner hu

/-- What several texts are read as nests within the limit. -/
theorem nestsWithin_of_readEach (hnested : Sound nested Inner)
    (hinner : ∀ {b t e b'}, Inner b t e b' → NestsWithin limit (e.nodes n))
    (h : readEach nested ts b = some (es, b')) : NestsWithin limit (argNodes n es) := by
  induction ts generalizing b es with
  | nil =>
    cases h
    exact fun _ hp => absurd hp List.not_mem_nil
  | cons t ts ih =>
    obtain ⟨e, b₁, es, rfl, he, hes⟩ := readEach_cons.mp h
    exact nestsWithin_append.mpr ⟨nestsWithin_of_readWhole hnested hinner he, ih hes⟩

/-- A text of the grammar nests one bracket deeper than what its brackets hold. -/
theorem Spells.nestsWithin (hnested : Sound nested Inner)
    (hinner : ∀ {b t e b'}, Inner b t e b' → NestsWithin limit (e.nodes (n + 1))) (hn : n ≤ limit)
    (h : Spells nested Inner level b t e b') : NestsWithin limit (e.nodes n) := by
  induction h with
  | name | number => exact nestsWithin_singleton hn
  | construct => exact .cons hn (nestsWithin_singleton hn)
  | member _ _ _ _ _ ih | signed _ _ _ ih => exact .cons hn ih
  | index _ _ _ hs ih =>
    have hsubscript := nestsWithin_of_readWhole hnested hinner hs
    exact .cons hn (nestsWithin_append.mpr ⟨ih, hsubscript⟩)
  | call _ _ _ hargs ih =>
    have harguments := nestsWithin_of_readEach hnested hinner hargs
    exact .cons hn (nestsWithin_append.mpr ⟨ih, harguments⟩)
  | group he => exact .cons hn (hinner he)
  | constructWith _ _ _ _ _ hargs =>
    have harguments := nestsWithin_of_readEach hnested hinner hargs
    exact .cons hn (nestsWithin_append.mpr ⟨nestsWithin_singleton hn, harguments⟩)
  | trailed _ ih | unsigned _ _ ih | factor _ ih | term _ ih => exact ih
  | multiply _ _ _ _ ihl ihr | add _ _ _ _ ihl ihr =>
    exact .cons hn (nestsWithin_append.mpr ⟨ihl, ihr⟩)

/-- The brackets around a text and those that may still open inside it are at most `limit`. -/
theorem Reads.nestsWithin (h : Reads room b t e b') (hroom : room + n ≤ limit + 1) :
    NestsWithin limit (e.nodes n) := by
  induction room generalizing n b t e b' with
  | zero => exact h.elim
  | succ room ih =>
    have hinner {b t e b'} (h : Reads room b t e b') : NestsWithin limit (e.nodes (n + 1)) :=
      ih h (by omega)
    exact Spells.nestsWithin (expression_sound room) hinner (by omega) h

end Depth

/-- A rule at the front of a text, with the nodes that may still be made. -/
structure Call where
  /-- The rule. -/
  rule : Rule
  /-- The text it reads from. -/
  text : Text
  /-- The nodes that may still be made. -/
  budget : Nat

/-- What a rule finds. -/
def Call.outcome (c : Call) : Outcome Expr := c.rule c.text c.budget

/-- A whole text as a rule: one that is no expression is kept as a raw leaf. -/
def whole (nested : Rule) : Rule := fun t b =>
  match readWhole nested t b with
  | some (e, left) => parsed e [] left
  | none => overflow

/-- The arguments that a text between parentheses lists are read up to `part`, with `left` nodes
still to make then. -/
def ComesTo (nested : Rule) (inside : Text) (b : Nat) (part : Text) (left : Nat) : Prop :=
  ∃ before behind es, splitTopLevel [','] inside = before ++ part :: behind ∧
    readEach nested before b = some (es, left)

/-- Which rules a rule comes to while it reads, with what has been read before that. -/
inductive Asks : Call → Call → Prop
  /-- The first operand of a chain. -/
  | first {level? : Char → Option Operator} {item : Rule} {t : Text} {b : Nat} :
      Asks ⟨chained level? item, t, b⟩ ⟨item, t, b⟩
  /-- What follows the first operand. -/
  | behindFirst {level? : Char → Option Operator} {item : Rule} {t rest : Text} {b b' : Nat}
      {l : Expr} : item t b = parsed l rest b' →
      Asks ⟨chained level? item, t, b⟩ ⟨chain level? item (b' + 1) l, rest, b'⟩
  /-- The right operand of an operator. -/
  | right {level? : Char → Option Operator} {item : Rule} {fuel b : Nat} {t u : Text} {c : Char}
      {op : Operator} {l : Expr} : t.skipBlanks = c :: u → level? c = some op →
      Asks ⟨chain level? item (fuel + 1) l, t, b⟩ ⟨item, u, b⟩
  /-- What follows a right operand. -/
  | behindRight {level? : Char → Option Operator} {item : Rule} {fuel b b' : Nat}
      {t u rest : Text} {c : Char} {op : Operator} {l r : Expr} : t.skipBlanks = c :: u →
      level? c = some op → item u b = parsed r rest (b' + 1) →
      Asks ⟨chain level? item (fuel + 1) l, t, b⟩
        ⟨chain level? item fuel (.binary op l r), rest, b'⟩
  /-- What the signs of an operand stand before. -/
  | behindSigns {nested : Rule} {t rest : Text} {b b' : Nat} {ss : List Sign} :
      signs t b = parsed ss rest b' → Asks ⟨operand nested, t, b⟩ ⟨primary nested, rest, b'⟩
  /-- What a group encloses. -/
  | grouped {nested : Rule} {fence : Fence} {t : Text} {b : Nat} :
      Asks ⟨primary nested, fence.bracket.opener :: t, b⟩ ⟨nested, t, b⟩
  /-- An argument of a construction. -/
  | constructed {nested : Rule} {t u rest rest' inside part name : Text} {b left : Nat} :
      afterNew? t = some u → takeName? u.skipBlanks = some (name, rest) →
      takeParens? rest = some (inside, rest') → ComesTo nested inside b part left →
      Asks ⟨primary nested, t, b⟩ ⟨whole nested, part, left⟩
  /-- What follows a name. -/
  | behindName {nested : Rule} {t rest name : Text} {b : Nat} :
      construction? nested t (b + 1) = none → takeName? t = some (name, rest) →
      Asks ⟨primary nested, t, b + 1⟩ ⟨trailers nested (b + 1) (.identifier name), rest, b⟩
  /-- What follows a selection. -/
  | behindMember {nested : Rule} {fuel b : Nat} {t u rest name : Text} {e : Expr} :
      t.skipBlanks = '.' :: u → takeName? u.skipBlanks = some (name, rest) →
      Asks ⟨trailers nested (fuel + 1) e, t, b + 1⟩ ⟨trailers nested fuel (.member e name), rest, b⟩
  /-- A subscript. -/
  | subscript {nested : Rule} {fuel b : Nat} {t u rest inside : Text} {e : Expr} :
      t.skipBlanks = '[' :: u → Bracket.square.close? 0 u = some (inside, rest) →
      Asks ⟨trailers nested (fuel + 1) e, t, b⟩ ⟨whole nested, inside.trim, b⟩
  /-- What follows a subscript. -/
  | behindSubscript {nested : Rule} {fuel b b' : Nat} {t u rest inside : Text} {e s : Expr} :
      t.skipBlanks = '[' :: u → Bracket.square.close? 0 u = some (inside, rest) →
      readWhole nested inside.trim b = some (s, b' + 1) →
      Asks ⟨trailers nested (fuel + 1) e, t, b⟩ ⟨trailers nested fuel (.index e s), rest, b'⟩
  /-- An argument of a call. -/
  | argument {nested : Rule} {fuel b left : Nat} {t u rest inside part : Text} {e : Expr} :
      t.skipBlanks = '(' :: u → Bracket.paren.close? 0 u = some (inside, rest) →
      ComesTo nested inside b part left →
      Asks ⟨trailers nested (fuel + 1) e, t, b⟩ ⟨whole nested, part, left⟩
  /-- What follows the arguments of a call. -/
  | behindArguments {nested : Rule} {fuel b b' : Nat} {t u rest inside : Text} {e : Expr}
      {args : List Expr} : t.skipBlanks = '(' :: u →
      Bracket.paren.close? 0 u = some (inside, rest) →
      readArgs nested inside b = some (args, b' + 1) →
      Asks ⟨trailers nested (fuel + 1) e, t, b⟩ ⟨trailers nested fuel (.call e args), rest, b'⟩
  /-- A whole text as an expression. -/
  | whole {nested : Rule} {t : Text} {b : Nat} : xorSign ∉ t →
      Asks ⟨Grammar.whole nested, t, b⟩ ⟨nested, t, b⟩

section Overflow

variable {nested : Rule} {inside part t : Text} {b left : Nat} {c c' : Call}

@[simp] theorem overflow_andThen {α β : Type} (next : α → Text → Nat → Outcome β) :
    (overflow : Outcome α).andThen next = overflow := rfl

/-- A whole text overflows exactly if there is no reading for it. -/
theorem whole_eq_overflow_iff : whole nested t b = overflow ↔ readWhole nested t b = none := by
  rw [whole]
  cases readWhole nested t b <;> simp

/-- Arguments cannot be made if one of them cannot. -/
theorem readArgs_eq_none (h : ComesTo nested inside b part left)
    (hpart : readWhole nested part left = none) : readArgs nested inside b = none := by
  obtain ⟨before, behind, es, hsplit, hbefore⟩ := h
  rw [readArgs, hsplit]
  clear hsplit
  induction before generalizing b es with
  | nil =>
    cases hbefore
    rw [List.nil_append, readEach, hpart, Option.bind_none]
  | cons s before ih =>
    obtain ⟨e, b₁, es, rfl, hs, hes⟩ := readEach_cons.mp hbefore
    simp only [List.cons_append, readEach, hs, Option.bind_some, ih es hes, Option.map_none]

/-- A rule runs out of its budget if one does that it comes to. -/
theorem Asks.overflow (h : Asks c c') (hc : c'.outcome = overflow) : c.outcome = overflow := by
  obtain ⟨rule, t, b⟩ := c
  obtain ⟨rule', t', b'⟩ := c'
  change rule' t' b' = overflow at hc
  change rule t b = overflow
  cases h with
  | first => rw [chained, hc, overflow_andThen]
  | behindFirst hitem => rw [chained, hitem, parsed_andThen, hc]
  | right hskip hop =>
    simp only [chain, hskip, hop]
    rw [hc, overflow_andThen]
  | behindRight hskip hop hitem =>
    simp only [chain, hskip, hop]
    rw [hitem, parsed_andThen, charge_add, parsed_andThen, hc]
  | behindSigns hsigns => rw [operand, hsigns, parsed_andThen, hc, overflow_andThen]
  | @grouped _ fence =>
    have hgroup : group rule' fence t' b = overflow := by rw [group, hc, overflow_andThen]
    have hnew : construction? rule' (fence.bracket.opener :: t') b = none :=
      construction?_cons_eq_none (by cases fence <;> decide)
    unfold primary
    rw [hnew]
    cases fence <;> exact hgroup
  | constructed hnew hname hparens hpart =>
    have hargs := readArgs_eq_none hpart (whole_eq_overflow_iff.mp hc)
    unfold primary
    rw [construction?, hnew, Option.bind_some, hname, Option.map_some]
    simp only [hparens, hargs]
  | behindName hnew hname =>
    obtain ⟨u, rfl, hu, hends⟩ := takeName?_eq_some_iff.mp hname
    rw [primary_name hu hends hnew, hc]
  | behindMember hskip hname =>
    simp only [trailers, hskip, hname]
    rw [charge_add, parsed_andThen, hc]
  | subscript hskip hclose =>
    simp only [trailers, hskip, hclose, whole_eq_overflow_iff.mp hc]
  | behindSubscript hskip hclose hs =>
    simp only [trailers, hskip, hclose, hs]
    rw [charge_add, parsed_andThen, hc]
  | argument hskip hclose hpart =>
    have hargs := readArgs_eq_none hpart (whole_eq_overflow_iff.mp hc)
    simp only [trailers, hskip, hclose, hargs]
  | behindArguments hskip hclose hargs =>
    simp only [trailers, hskip, hclose, hargs]
    rw [charge_add, parsed_andThen, hc]
  | whole hxor =>
    refine whole_eq_overflow_iff.mpr ?_
    rw [readWhole, if_neg hxor]
    simp only [hc]

/-- So it does if one does that it comes to in any number of steps. -/
theorem overflow_of_asks (h : Relation.ReflTransGen Asks c c') (hc : c'.outcome = overflow) :
    c.outcome = overflow := by
  induction h with
  | refl => exact hc
  | tail _ hstep ih => exact ih (hstep.overflow hc)

end Overflow

/-- Reading a text as an expression comes to reading `part` as a subscript or an argument, inside
brackets that leave `room`, with `left` nodes still to make. -/
def Attempts (t : Text) (room : Nat) (part : Text) (left : Nat) : Prop :=
  Relation.ReflTransGen Asks ⟨expression (maxDepth + 1), t, maxNodes⟩
    ⟨whole (expression room), part, left⟩

/-- What the front of a text is read as, within both limits. -/
structure Counted (t : Text) (e : Expr) : Prop where
  /-- The nodes that the reading has counted at its end are those of the tree. -/
  counted : ∃ rest left, expression (maxDepth + 1) t maxNodes = parsed e rest left ∧
    maxNodes - left = (e.nodes 0).length
  /-- There are at most as many as a tree may have. -/
  length_le : (e.nodes 0).length ≤ maxNodes
  /-- Brackets nest no deeper than they may around any node that is not raw. -/
  nested : NestsWithin maxDepth (e.nodes 0)

/-- What is read within the limits has as many nodes as were counted. -/
theorem counted_of_parsed {t rest : Text} {e : Expr} {left : Nat}
    (h : expression (maxDepth + 1) t maxNodes = parsed e rest left) : Counted t e := by
  obtain ⟨u, g, -, -, hu⟩ := expression_sound _ h
  have hpaid : maxNodes = left + e.size := Reads.pays _ hu
  rw [← length_nodes 0] at hpaid
  exact ⟨⟨rest, left, h, by omega⟩, by omega, hu.nestsWithin le_rfl⟩

/-- A part that cannot be made within the budget leaves nothing of the whole text. -/
theorem parseFront?_eq_none_of_attempts {t part : Text} {room left : Nat}
    (h : Attempts t room part left) (hpart : readWhole (expression room) part left = none) :
    parseFront? t = none := by
  have hwhole : expression (maxDepth + 1) t maxNodes = overflow :=
    overflow_of_asks h (whole_eq_overflow_iff.mpr hpart)
  rw [parseFront?, hwhole]

end Grammar

namespace Expr

open Grammar Outcome

/-- Both limits are exact. A reading that succeeds has counted just the nodes of its tree; one in
which a subscript or an argument, at whatever depth, could not be made within the budget fails as a
whole. -/
theorem limits_exact (t : Text) (start : Nat) :
    (∀ e, parse? t = some e → Counted t e) ∧
      (∀ e stop, parseAt? t start = some (e, stop) → Counted (t.drop start) e) ∧
        ∀ room part left, readWhole (expression room) part left = none →
          (Attempts t room part left → parse? t = none) ∧
            (Attempts (t.drop start) room part left → parseAt? t start = none) := by
  refine ⟨fun e h => ?_, fun e stop h => ?_, fun room part left hpart => ⟨fun h => ?_, fun h => ?_⟩⟩
  · obtain ⟨-, rest, left, hread, -⟩ := parse?_eq_some_iff.mp h
    exact counted_of_parsed hread
  · obtain ⟨-, -, hfront⟩ := parseAt?_eq_some_iff.mp h
    obtain ⟨left, hread⟩ := parseFront?_eq_some_iff.mp hfront
    exact counted_of_parsed hread
  · rw [parse?, parseFront?_eq_none_of_attempts h hpart, Option.bind_none, ite_self]
  · rw [parseAt?, parseFront?_eq_none_of_attempts h hpart, Option.bind_none]

/-- Signs without an operand are a raw argument, unless there are more than the budget allows. -/
theorem limits_exact_signs :
    let signs (n : Nat) : Text := "f(".toList ++ (List.replicate n '-' ++ [')'])
    Counted (signs 1) (.call (.identifier ['f']) [.raw ['-']]) ∧
      Counted (signs 2) (.call (.identifier ['f']) [.raw ['-', '-']]) ∧
        parse? (signs maxNodes) = none ∧ parseAt? ('=' :: signs maxNodes) 1 = none := by
  intro signs
  have hone : parse? (signs 1) = some (.call (.identifier ['f']) [.raw ['-']]) := by decide +kernel
  have htwo : parseAt? ('=' :: signs 2) 1 =
      some (.call (.identifier ['f']) [.raw ['-', '-']], 6) := by decide +kernel
  let part : Text := List.replicate maxNodes '-'
  have hpart : readWhole (expression maxDepth) part (maxNodes - 1) = none := by decide +kernel
  have hcomes : ComesTo (expression maxDepth) part (maxNodes - 1) part (maxNodes - 1) :=
    ⟨[], [], [], by decide +kernel, rfl⟩
  have hclose : Bracket.paren.close? 0 (part ++ [')']) = some (part, []) := by decide +kernel
  have hsigns : Grammar.signs (signs maxNodes) maxNodes = parsed [] (signs maxNodes) maxNodes := rfl
  have hname : takeName? (signs maxNodes) = some (['f'], '(' :: (part ++ [')'])) := by
    decide +kernel
  have hnew : construction? (expression maxDepth) (signs maxNodes) maxNodes = none := rfl
  have hattempts : Attempts (signs maxNodes) maxDepth part (maxNodes - 1) :=
    ((((Relation.ReflTransGen.single .first).tail .first).tail (.behindSigns hsigns)).tail
      (.behindName hnew hname)).tail (.argument rfl hclose hcomes)
  obtain ⟨hparse, -, -⟩ := limits_exact (signs 1) 0
  obtain ⟨-, hparseAt, -⟩ := limits_exact ('=' :: signs 2) 1
  obtain ⟨-, -, hfails⟩ := limits_exact (signs maxNodes) 0
  obtain ⟨-, -, hfailsAt⟩ := limits_exact ('=' :: signs maxNodes) 1
  exact ⟨hparse _ hone, hparseAt _ _ htwo, (hfails _ _ _ hpart).1 hattempts,
    (hfailsAt _ _ _ hpart).2 hattempts⟩

end Expr

end Gloss
