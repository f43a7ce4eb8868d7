import Gloss.Proofs.Expr.Reading

/-!
# Completeness of the parser

Every text of the grammar is read as the tree it spells, provided that what follows it
cannot continue it. The levels that loop are followed up to the loop: having read a text,
a chain stands before what follows with the tree in hand, so that each further operator
is one step of the same loop.
-/

namespace Gloss

namespace Grammar

open Text Outcome

/-- The characters that, behind blanks, may continue an expression of a level. -/
def Level.continues : Level → Char → Bool
  | .trailed | .primary | .operand => fun c => isTokenPart c || c = '[' || c = '('
  | .product => fun c =>
    isTokenPart c || c = '[' || c = '(' || (Operator.multiplicative? c).isSome
  | .sum => fun c =>
    isTokenPart c || c = '[' || c = '(' || (Operator.multiplicative? c).isSome ||
      (Operator.additive? c).isSome

/-- What follows an expression does not continue it. -/
def Ends (level : Level) (rest : Text) : Prop :=
  rest.skipBlanks.head?.any level.continues = false

/-- What follows a name does not continue it, and is no name either. -/
structure NameStops (rest : Text) : Prop where
  /-- No identifier goes on or begins. -/
  head : rest.skipBlanks.head?.any isIdentPart = false
  /-- No identifier stands behind a dot. -/
  dot : ∀ u : Text, rest.skipBlanks = '.' :: u → u.skipBlanks.head?.any isIdentStart = false

/-- Nothing behind a name or what already follows one continues it: no name stands behind a dot,
and no bracket is closed. -/
structure NoTrailer (rest : Text) : Prop where
  /-- No name is selected. -/
  dot : ∀ u : Text, rest.skipBlanks = '.' :: u → takeName? u.skipBlanks = none
  /-- There is no subscript. -/
  square : ∀ u : Text, rest.skipBlanks = '[' :: u → Bracket.square.close? 0 u = none
  /-- There are no arguments. -/
  paren : ∀ u : Text, rest.skipBlanks = '(' :: u → Bracket.paren.close? 0 u = none

/-- What a text of a level may be followed by for its rule to stop, or to stand before its
next step, behind that text. -/
def MayFollow : Level → Expr → Text → Prop
  | .trailed, e, rest => e.isApplied = true ∨ NameStops rest
  | .primary, _, rest | .operand, _, rest | .product, _, rest => Ends .primary rest
  | .sum, _, rest => Ends .product rest

/-- The rule of a level has read `e` and stands before `rest`. -/
def Reaches (nested : Rule) : Level → Text → Nat → Expr → Text → Nat → Prop
  | .trailed, t, b, e, rest, b' => ∃ fuel, b' < fuel ∧
      primary nested t b = trailers nested fuel e rest b'
  | .primary, t, b, e, rest, b' => ∃ rest', primary nested t b = parsed e rest' b' ∧
      rest'.skipBlanks = rest.skipBlanks
  | .operand, t, b, e, rest, b' => ∃ rest', operand nested t b = parsed e rest' b' ∧
      rest'.skipBlanks = rest.skipBlanks
  | .product, t, b, e, rest, b' => ∃ fuel, b' < fuel ∧
      product nested t b = chain Operator.multiplicative? (operand nested) fuel e rest b'
  | .sum, t, b, e, rest, b' => ∃ fuel, b' < fuel ∧
      sum nested t b = chain Operator.additive? (product nested) fuel e rest b'

/-- A rule reads each text of a relation as what it spells, where an expression ends. -/
def Complete (rule : Rule) (R : Reading) : Prop :=
  ∀ ⦃b u e b'⦄, R b u e b' → ∀ rest, Ends .sum rest →
    ∃ rest', rule (u ++ rest) b = parsed e rest' b' ∧ rest'.skipBlanks = rest.skipBlanks

section Follow

variable {t rest g : Text} {c : Char} {level : Level}

/-- Whether an expression ends is told by the first visible character behind it. -/
theorem ends_iff_of_cons (hg : AllBlank g) (hc : isBlank c = false) :
    Ends level (g ++ c :: t) ↔ level.continues c = false := by
  rw [Ends, skipBlanks_append hg, skipBlanks_cons hc]
  rfl

/-- An expression ends in front of blanks alone. -/
theorem ends_of_allBlank (h : AllBlank rest) : Ends level rest := by
  rw [Ends, h.skipBlanks_eq]
  rfl

/-- Where a sum ends, a product does. -/
theorem Ends.product (h : Ends .sum rest) : Ends .product rest := by
  rw [Ends] at h ⊢
  cases hr : rest.skipBlanks.head? with
  | none => rfl
  | some c =>
    rw [hr, Option.any_some, Level.continues, Bool.or_eq_false_iff] at h
    exact h.1

/-- Where a product ends, a primary does. -/
theorem Ends.primary (h : Ends .product rest) : Ends .primary rest := by
  rw [Ends] at h ⊢
  cases hr : rest.skipBlanks.head? with
  | none => rfl
  | some c =>
    rw [hr, Option.any_some, Level.continues, Bool.or_eq_false_iff] at h
    exact h.1

/-- The first character of a text is a blank, or the first behind its blanks. -/
theorem head?_cases {c : Char} (h : c ∈ t.head?) :
    isBlank c = true ∨ t.skipBlanks = t := by
  cases t with
  | nil => cases h
  | cons d t =>
    rw [List.head?_cons, Option.mem_some_iff] at h
    subst h
    cases hc : isBlank d with
    | true => exact .inl rfl
    | false => exact .inr (skipBlanks_cons hc)

/-- Where a name stops, its segments do. -/
theorem NameStops.nameEnds (h : NameStops rest) : NameEnds isBlank rest := by
  refine ⟨?_, h.dot⟩
  cases hr : rest.head? with
  | none => rfl
  | some c =>
    rcases head?_cases hr with hc | hskip
    · rw [Option.any_some, Bool.eq_false_iff]
      intro hpart
      rw [isBlank_of_isIdentPart hpart] at hc
      cases hc
    · have := h.head
      rwa [hskip, hr] at this

/-- A name stops before anything that is neither a dot nor part of an identifier. -/
theorem nameStops_of_cons (hg : AllBlank g) (hblank : isBlank c = false)
    (hc : isTokenPart c = false) : NameStops (g ++ c :: t) := by
  rw [isTokenPart, Bool.or_eq_false_iff, decide_eq_false_iff_not] at hc
  constructor
  · rw [skipBlanks_append hg, skipBlanks_cons hblank]
    exact hc.1
  · intro u hu
    rw [skipBlanks_append hg, skipBlanks_cons hblank, List.cons.injEq] at hu
    exact absurd hu.1 hc.2

/-- The first visible character behind a primary is none of those that could continue it. -/
theorem Ends.not_continues (h : Ends .primary rest) {u : Text} (hu : rest.skipBlanks = c :: u) :
    isTokenPart c = false ∧ c ≠ '[' ∧ c ≠ '(' := by
  rw [Ends, hu] at h
  simpa [Level.continues, and_assoc] using h

/-- Where a primary ends, a name stops. -/
theorem Ends.nameStops (h : Ends .primary rest) : NameStops rest := by
  obtain ⟨g, hg, hrest⟩ := exists_allBlank_append_skipBlanks rest
  cases hu : rest.skipBlanks with
  | nil => exact ⟨by rw [hu]; rfl, fun u hdot => by rw [hu] at hdot; cases hdot⟩
  | cons c u =>
    rw [hrest, hu]
    exact nameStops_of_cons hg (skipBlanks_head hu) (h.not_continues hu).1

/-- Where a primary ends, no trailer follows. -/
theorem Ends.noTrailer (h : Ends .primary rest) : NoTrailer rest where
  dot _ hu := absurd (h.not_continues hu).1 (by decide)
  square _ hu := absurd rfl (h.not_continues hu).2.1
  paren _ hu := absurd rfl (h.not_continues hu).2.2

/-- Where a primary ends, a numeral or name does not run on. -/
theorem Ends.isTokenEdge (h : Ends .primary rest) : isTokenEdge rest.head? = true := by
  rw [Gloss.isTokenEdge, Bool.not_eq_true']
  cases hr : rest.head? with
  | none => rfl
  | some c =>
    rcases head?_cases hr with hc | hskip
    · rw [Option.any_some, Bool.eq_false_iff]
      intro htoken
      rw [isBlank_of_isTokenPart htoken] at hc
      cases hc
    · obtain ⟨u, hu⟩ : ∃ u, rest = c :: u := by
        cases rest with
        | nil => cases hr
        | cons d u => exact ⟨u, by rw [Option.some.inj hr]⟩
      exact (h.not_continues (hskip.trans hu)).1

end Follow

section Step

variable {nested : Rule} {fuel b b₁ b' : Nat} {t u g h inside rest : Text} {e s : Expr}
  {args : List Expr} {name : Text}

/-- A dot and a name are read as a selection. -/
theorem trailers_member (hg : AllBlank g) (hh : AllBlank h) (hu : SpellsName u name)
    (hrest : NameEnds isBlank rest) :
    trailers nested (fuel + 1) e (g ++ '.' :: (h ++ (u ++ rest))) (b + 1) =
      trailers nested fuel (.member e name) rest b := by
  obtain ⟨c, v, hcons, hc⟩ := hu.exists_cons
  have hblank : isBlank c = false := isBlank_of_isIdentPart (isIdentPart_of_isIdentStart hc)
  have hname : takeName? (u ++ rest) = some (name, rest) :=
    takeName?_eq_some_iff.mpr ⟨u, rfl, hu, hrest⟩
  have hskip : (h ++ (u ++ rest)).skipBlanks = u ++ rest := by
    rw [skipBlanks_append hh, hcons]
    exact skipBlanks_cons hblank
  rw [trailers, skipBlanks_append hg, skipBlanks_cons (by decide)]
  simp only [hskip, hname, charge_add, parsed_andThen]

/-- A subscript in square brackets is read as one. -/
theorem trailers_index (hg : AllBlank g) (hinside : Bracket.square.Encloses inside)
    (hs : readWhole nested inside.trim b₁ = some (s, b' + 1)) :
    trailers nested (fuel + 1) e (g ++ '[' :: (inside ++ ']' :: rest)) b₁ =
      trailers nested fuel (.index e s) rest b' := by
  have hclose : Bracket.square.close? 0 (inside ++ ']' :: rest) = some (inside, rest) :=
    hinside.close? rest
  rw [trailers, skipBlanks_append hg, skipBlanks_cons (by decide)]
  simp only [hclose, hs, charge_add, parsed_andThen]

/-- A list of arguments in parentheses is read as a call. -/
theorem trailers_call (hg : AllBlank g) (hinside : Bracket.paren.Encloses inside)
    (hargs : readArgs nested inside b₁ = some (args, b' + 1)) :
    trailers nested (fuel + 1) e (g ++ '(' :: (inside ++ ')' :: rest)) b₁ =
      trailers nested fuel (.call e args) rest b' := by
  have hclose : Bracket.paren.close? 0 (inside ++ ')' :: rest) = some (inside, rest) :=
    hinside.close? rest
  rw [trailers, skipBlanks_append hg, skipBlanks_cons (by decide)]
  simp only [hclose, hargs, charge_add, parsed_andThen]

/-- Without a trailer what was read is the result. -/
theorem trailers_stop (hrest : NoTrailer rest) :
    trailers nested (fuel + 1) e rest b = parsed e rest.skipBlanks b := by
  rw [trailers]
  split
  · rename_i u hu
    rw [hu]
    simp only [hrest.dot u hu]
  · rename_i u hu
    rw [hu]
    simp only [hrest.square u hu]
  · rename_i u hu
    rw [hu]
    simp only [hrest.paren u hu]
  · rfl

/-- Only a name that is exactly the keyword, and has a further name behind it, begins a
construction. -/
theorem construction?_eq_none (nested : Rule) (hu : SpellsName u name) (hrest : NameStops rest) :
    construction? nested (u ++ rest) b = none := by
  obtain ⟨ss, ⟨hs, hsegments⟩, -⟩ := hu
  rename_i s t ss
  rw [construction?, Option.map_eq_none_iff, Option.bind_eq_none_iff]
  intro v hv
  obtain ⟨hnew, hpart⟩ := afterNew?_eq_some_iff.mp hv
  have htake : takeIdent? (s ++ t ++ rest) = some (s, t ++ rest) := by
    rw [List.append_assoc]
    refine takeIdent?_eq_some_iff.mpr ⟨rfl, hs, ?_⟩
    exact hsegments.head?_append (fun _ => isBlank_of_isTokenPart) hrest.nameEnds
  have hkeyword : takeIdent? (s ++ t ++ rest) = some (['n', 'e', 'w'], v) :=
    takeIdent?_eq_some_iff.mpr ⟨hnew, by decide, hpart⟩
  rw [htake, Option.some.injEq, Prod.mk.injEq] at hkeyword
  rw [← hkeyword.2]
  refine takeName?_eq_none_iff.mpr ?_
  cases hsegments with
  | nil =>
    cases hr : rest.skipBlanks.head? with
    | none => rw [List.nil_append, hr]; rfl
    | some c =>
      rw [List.nil_append, hr, Option.any_some, Bool.eq_false_iff]
      intro hc
      have := hrest.head
      rw [hr, Option.any_some, isIdentPart_of_isIdentStart hc] at this
      cases this
  | @cons g h s t ss hg =>
    rw [List.append_assoc, skipBlanks_append (List.all_eq_true.mp hg), List.cons_append,
      skipBlanks_cons (by decide)]
    rfl

/-- A construction begins with the first letter of its keyword. -/
theorem construction?_cons_eq_none {c : Char} (hc : c ≠ 'n') :
    construction? nested (c :: t) b = none := by
  have hnew : afterNew? (c :: t) = none := by
    cases hv : afterNew? (c :: t) with
    | none => rfl
    | some v =>
      have := (afterNew?_eq_some_iff.mp hv).1
      exact absurd (List.cons.inj this).1 hc
  rw [construction?, hnew]
  rfl

/-- A text in parentheses is taken, whatever follows it. -/
theorem takeParens?_append (hg : AllBlank g) (hinside : Bracket.paren.Encloses inside) :
    takeParens? (g ++ '(' :: (inside ++ ')' :: rest)) = some (inside, rest) := by
  rw [takeParens?, skipBlanks_append hg, skipBlanks_cons (by decide)]
  exact hinside.close? rest

/-- Where a primary ends, there are no parentheses to take. -/
theorem takeParens?_eq_none (hrest : Ends .primary rest) : takeParens? rest = none := by
  rw [takeParens?]
  split
  · rename_i u hu
    exact absurd rfl (hrest.not_continues hu).2.2
  · rfl

/-- Signs and blanks end before a primary. -/
theorem signs_primary {c : Char} (hc : isIdentPart c = true ∨ c = '(' ∨ c = '{') :
    signs (c :: t) b = parsed [] (c :: t) b := by
  have hblank : isBlank c = false := by
    rcases hc with hc | rfl | rfl
    · exact isBlank_of_isIdentPart hc
    · decide
    · decide
  have hsign : Sign.ofChar? c = none := by
    cases hs : Sign.ofChar? c with
    | none => rfl
    | some sign =>
      rcases (Sign.ofChar?_eq_some hs).2 with rfl | rfl <;> exact absurd hc (by decide)
  rw [signs.eq_def]
  simp only [hblank, hsign, Bool.false_eq_true, if_false]

/-- Signs are read behind blanks as without them. -/
theorem signs_skip (hg : AllBlank g) : signs (g ++ t) b = signs t b := by
  induction g with
  | nil => rfl
  | cons c g ih =>
    obtain ⟨hc, hg⟩ := allBlank_cons.mp hg
    rw [List.cons_append, signs.eq_def]
    simp only [hc, if_true, ih hg]

/-- An operand is read behind blanks as without them. -/
theorem operand_skip (hg : AllBlank g) : operand nested (g ++ t) b = operand nested t b := by
  rw [operand, operand, signs_skip hg]

/-- A sign in front of an operand is read as its sign. -/
theorem operand_sign {c : Char} {sign : Sign} (hsign : Sign.ofChar? c = some sign) :
    operand nested (c :: t) (b + 1) =
      (operand nested t b).andThen fun e rest left => parsed (.unary sign e) rest left := by
  have hblank := Sign.isBlank_of_ofChar? hsign
  rw [operand, signs.eq_def]
  simp only [hblank, hsign, Bool.false_eq_true, if_false]
  cases hs : signs t b with
  | parsed ss rest left =>
    simp only [operand, hs, parsed_andThen]
    cases primary nested rest left <;> rfl
  | mismatch | overflow => simp only [operand, hs, andThen]

section Loop

variable {o o' : Outcome Expr} {loop next : Nat → Outcome Expr}

/-- A loop with more fuel than its budget has the fuel for a step, and if the step is paid for,
there is again more fuel than budget. -/
theorem advance (h : ∃ fuel, b₁ < fuel ∧ o = loop fuel)
    (hstep : ∀ fuel, loop (fuel + 1) = next fuel) (hpaid : b' < b₁) :
    ∃ fuel, b' < fuel ∧ o = next fuel := by
  obtain ⟨fuel, hfuel, ho⟩ := h
  obtain ⟨fuel, rfl⟩ := Nat.exists_eq_add_one_of_ne_zero (Nat.ne_zero_of_lt hfuel)
  exact ⟨fuel, by omega, ho.trans (hstep fuel)⟩

/-- A loop with fuel left over that stops at its next step has the outcome of that step. -/
theorem settle (h : ∃ fuel, b < fuel ∧ o = loop fuel) (hstop : ∀ fuel, loop (fuel + 1) = o') :
    o = o' := by
  obtain ⟨fuel, hfuel, ho⟩ := h
  obtain ⟨fuel, rfl⟩ := Nat.exists_eq_add_one_of_ne_zero (Nat.ne_zero_of_lt hfuel)
  exact ho.trans (hstop fuel)

end Loop

variable {level? : Char → Option Operator} {item : Rule} {l r : Expr}

/-- An operator and what is read behind it make one step of a chain. -/
theorem chain_step {c : Char} {op : Operator} (hg : AllBlank g) (hc : isBlank c = false)
    (hop : level? c = some op) (hr : item u b₁ = parsed r rest (b' + 1)) :
    chain level? item (fuel + 1) l (g ++ c :: u) b₁ =
      chain level? item fuel (.binary op l r) rest b' := by
  rw [chain, skipBlanks_append hg, skipBlanks_cons hc]
  simp only [hop, hr, parsed_andThen, charge_add]

/-- Without an operator of the level the left operand is the result. -/
theorem chain_stop (hrest : ∀ c ∈ rest.skipBlanks.head?, level? c = none) :
    chain level? item (fuel + 1) e rest b = parsed e rest.skipBlanks b := by
  rw [chain]
  cases hu : rest.skipBlanks with
  | nil => rfl
  | cons c u =>
    have hc : level? c = none := hrest c (by rw [hu]; rfl)
    simp only [hc]

/-- Blanks in front of the next operator do not matter to a chain. -/
theorem chain_congr (h : t.skipBlanks = u.skipBlanks) :
    chain level? item fuel e t b = chain level? item fuel e u b := by
  cases fuel with
  | zero => rfl
  | succ fuel => rw [chain, chain, h]

/-- A chain that has read its first operand stands before what follows. -/
theorem chained_of_item (hitem : item t b = parsed e u b') (h : u.skipBlanks = rest.skipBlanks) :
    chained level? item t b = chain level? item (b' + 1) e rest b' := by
  rw [chained, hitem, parsed_andThen, chain_congr h]

/-- Where a product ends, no multiplicative operator follows. -/
theorem Ends.multiplicative (h : Ends .product rest) :
    ∀ c ∈ rest.skipBlanks.head?, Operator.multiplicative? c = none := by
  intro c hc
  rw [Ends, Option.mem_def.mp hc, Option.any_some, Level.continues, Bool.or_eq_false_iff] at h
  exact Option.not_isSome_iff_eq_none.mp (by simp [h.2])

/-- Where a sum ends, no additive operator follows. -/
theorem Ends.additive (h : Ends .sum rest) :
    ∀ c ∈ rest.skipBlanks.head?, Operator.additive? c = none := by
  intro c hc
  rw [Ends, Option.mem_def.mp hc, Option.any_some, Level.continues, Bool.or_eq_false_iff] at h
  exact Option.not_isSome_iff_eq_none.mp (by simp [h.2])

/-- A product before which its loop stands is read once no further operator follows. -/
theorem Reaches.product (h : Reaches nested .product t b e rest b') (hrest : Ends .product rest) :
    product nested t b = parsed e rest.skipBlanks b' :=
  settle h fun _ => chain_stop hrest.multiplicative

/-- A sum that is reached in front of its end is what is read. -/
theorem Reaches.sum (h : Reaches nested .sum t b e rest b') (hrest : Ends .sum rest) :
    sum nested t b = parsed e rest.skipBlanks b' :=
  settle h fun _ => chain_stop hrest.additive

/-- What begins neither a construction nor a bracket is read as an atom. -/
theorem primary_of_atom {c : Char} (hnew : construction? nested (c :: t) b = none)
    (hparen : c ≠ '(') (hbrace : c ≠ '{') :
    primary nested (c :: t) b = atom nested (c :: t) b := by
  unfold primary
  simp only [hnew]
  split
  · rename_i hcons
    exact absurd (List.cons.inj hcons).1 hparen
  · rename_i hcons
    exact absurd (List.cons.inj hcons).1 hbrace
  · rfl

/-- A name that begins no construction stands before what may follow it. -/
theorem primary_name (hu : SpellsName u name) (hrest : NameEnds isBlank rest)
    (hnew : construction? nested (u ++ rest) (b + 1) = none) :
    primary nested (u ++ rest) (b + 1) = trailers nested (b + 1) (.identifier name) rest b := by
  have hname : takeName? (u ++ rest) = some (name, rest) :=
    takeName?_eq_some_iff.mpr ⟨u, rfl, hu, hrest⟩
  obtain ⟨c, v, hcons, hc⟩ := hu.exists_cons
  rw [hcons, List.cons_append] at hnew hname ⊢
  have hnumber : takeNumber? (c :: (v ++ rest)) = none :=
    takeNumber?_eq_none (isDigit_of_isIdentStart hc)
  have hparen : c ≠ '(' := fun he => absurd (he ▸ hc) (by decide)
  have hbrace : c ≠ '{' := fun he => absurd (he ▸ hc) (by decide)
  rw [primary_of_atom hnew hparen hbrace, atom, hnumber]
  simp only [hname, charge_add, parsed_andThen]

/-- A numeral in front of its edge is read as a number. -/
theorem primary_number (hu : Numeral u) (hrest : isTokenEdge rest.head? = true) :
    primary nested (u ++ rest) (b + 1) = parsed (.number u) rest b := by
  have hnumber := takeNumber?_append hu hrest
  obtain ⟨c, v, hcons, hc⟩ := hu.exists_cons
  rw [hcons, List.cons_append] at hnumber ⊢
  have hn : c ≠ 'n' := fun he => absurd (he ▸ hc) (by decide)
  have hparen : c ≠ '(' := fun he => absurd (he ▸ hc) (by decide)
  have hbrace : c ≠ '{' := fun he => absurd (he ▸ hc) (by decide)
  rw [primary_of_atom (construction?_cons_eq_none hn) hparen hbrace, atom, hnumber]
  exact charge_add 1 _ _ _

/-- An expression in front of its closing bracket is read as a group. -/
theorem primary_group {fence : Fence} (h : nested t b = parsed e u (b' + 1))
    (hu : u.skipBlanks = fence.bracket.closer :: rest) :
    primary nested (fence.bracket.opener :: t) b = parsed (.group fence e) rest b' := by
  have hgroup : group nested fence t b = parsed (.group fence e) rest b' := by
    rw [group, h, parsed_andThen, hu]
    simp only [if_true, charge_add]
  cases fence with
  | paren =>
    have hnew : construction? nested (Fence.paren.bracket.opener :: t) b = none :=
      construction?_cons_eq_none (by decide)
    unfold primary
    rw [hnew]
    exact hgroup
  | brace =>
    have hnew : construction? nested (Fence.brace.bracket.opener :: t) b = none :=
      construction?_cons_eq_none (by decide)
    unfold primary
    rw [hnew]
    exact hgroup

/-- The keyword of a construction ends where blanks follow it. -/
theorem afterNew?_append (hg : AllBlank g) (hne : g ≠ []) (t : Text) :
    afterNew? (['n', 'e', 'w'] ++ (g ++ t)) = some (g ++ t) := by
  refine afterNew?_eq_some_iff.mpr ⟨rfl, ?_⟩
  cases g with
  | nil => exact absurd rfl hne
  | cons c g =>
    rw [List.cons_append, List.head?_cons, Option.any_some, Bool.eq_false_iff]
    intro hc
    have := (allBlank_cons.mp hg).1
    rw [isBlank_of_isIdentPart hc] at this
    cases this

/-- The name behind the keyword of a construction is found. -/
theorem name_of_construction (hg : AllBlank g) (hne : g ≠ []) (hu : SpellsName u name)
    (hrest : NameEnds isBlank rest) :
    ((afterNew? (['n', 'e', 'w'] ++ (g ++ (u ++ rest)))).bind fun v => takeName? v.skipBlanks) =
      some (name, rest) := by
  obtain ⟨c, v, hcons, hc⟩ := hu.exists_cons
  have hskip : (g ++ (u ++ rest)).skipBlanks = u ++ rest := by
    rw [skipBlanks_append hg, hcons]
    exact skipBlanks_cons (isBlank_of_isIdentPart (isIdentPart_of_isIdentStart hc))
  rw [afterNew?_append hg hne, Option.bind_some, hskip]
  exact takeName?_eq_some_iff.mpr ⟨u, rfl, hu, hrest⟩

/-- The keyword and a name are read as a construction. -/
theorem primary_construct (hg : AllBlank g) (hne : g ≠ []) (hu : SpellsName u name)
    (hrest : Ends .primary rest) :
    primary nested (['n', 'e', 'w'] ++ (g ++ (u ++ rest))) (b + 2) =
      parsed (.construct (.identifier name)) rest b := by
  unfold primary
  rw [construction?, name_of_construction hg hne hu hrest.nameStops.nameEnds, Option.map_some]
  simp only [takeParens?_eq_none hrest, charge_add]

/-- The keyword, a name and a list of arguments in parentheses are read as a construction with
these. -/
theorem primary_constructWith (hg : AllBlank g) (hne : g ≠ []) (hu : SpellsName u name)
    (hh : AllBlank h) (hinside : Bracket.paren.Encloses inside)
    (hargs : readArgs nested inside b = some (args, b' + 2)) :
    primary nested
        (['n', 'e', 'w'] ++ (g ++ (u ++ (h ++ '(' :: (inside ++ ')' :: rest))))) b =
      parsed (.constructWith (.identifier name) args) rest b' := by
  have hends : NameStops (h ++ '(' :: (inside ++ ')' :: rest)) :=
    nameStops_of_cons hh (by decide) (by decide)
  unfold primary
  rw [construction?, name_of_construction hg hne hu hends.nameEnds, Option.map_some]
  simp only [takeParens?_append hh hinside, hargs, charge_add]

end Step

section Complete

variable {nested : Rule} {Inner : Reading} {level : Level} {b b' : Nat} {u : Text} {e : Expr}

/-- The rule of a level reads each text of that level, and stands behind it. -/
theorem Spells.reaches (hsound : Sound nested Inner) (hpays : Pays Inner)
    (hcomplete : Complete nested Inner) (h : Spells nested Inner level b u e b') :
    ∀ rest, MayFollow level e rest → Reaches nested level (u ++ rest) b e rest b' := by
  induction h with
  | @name b u name hname =>
    intro rest hrest
    have hstops : NameStops rest := hrest.resolve_left nofun
    have hnew := construction?_eq_none (b := b + 1) nested hname hstops
    exact ⟨b + 1, Nat.lt_succ_self b, primary_name hname hstops.nameEnds hnew⟩
  | @member b b' t g h u name e he happlied hg hh hname ih =>
    intro rest hrest
    have hstops : NameStops rest := hrest.resolve_left nofun
    have hreach := ih (g ++ '.' :: (h ++ (u ++ rest))) (.inl happlied)
    simp only [List.append_assoc, List.cons_append]
    apply advance hreach _ (Nat.lt_succ_self b')
    intro fuel
    exact trailers_member hg hh hname hstops.nameEnds
  | @index b b₁ b' t g inside e s he hg hinside hs ih =>
    intro rest _
    have hnext : NameStops (g ++ '[' :: (inside ++ ']' :: rest)) :=
      nameStops_of_cons hg (by decide) (by decide)
    have hpaid := readWhole_pays hsound hpays hs
    simp only [List.append_assoc, List.cons_append, List.nil_append]
    apply advance (ih _ (.inr hnext)) _ (by omega)
    intro fuel
    exact trailers_index hg hinside hs
  | @call b b₁ b' t g inside e args he hg hinside hargs ih =>
    intro rest _
    have hnext : NameStops (g ++ '(' :: (inside ++ ')' :: rest)) :=
      nameStops_of_cons hg (by decide) (by decide)
    have hpaid := readEach_pays hsound hpays hargs
    simp only [List.append_assoc, List.cons_append, List.nil_append]
    apply advance (ih _ (.inr hnext)) _ (by omega)
    intro fuel
    exact trailers_call hg hinside hargs
  | trailed _ ih =>
    intro rest hrest
    have hreach := ih rest (.inr (Ends.nameStops hrest))
    refine ⟨rest.skipBlanks, ?_, skipBlanks_skipBlanks rest⟩
    exact settle hreach fun _ => trailers_stop (Ends.noTrailer hrest)
  | number hnumeral =>
    intro rest hrest
    exact ⟨rest, primary_number hnumeral (Ends.isTokenEdge hrest), rfl⟩
  | @group b b' fence t g e he hg =>
    intro rest _
    have hblank : isBlank fence.bracket.closer = false := by cases fence <;> decide
    have hends : Ends .sum (g ++ fence.bracket.closer :: rest) := by
      rw [ends_iff_of_cons hg hblank]
      cases fence <;> decide
    obtain ⟨rest', hnested, hskip⟩ := hcomplete he _ hends
    rw [skipBlanks_append hg, skipBlanks_cons hblank] at hskip
    refine ⟨rest, ?_, rfl⟩
    simp only [List.append_assoc, List.cons_append, List.nil_append]
    exact primary_group hnested hskip
  | construct hg hne hname =>
    intro rest hrest
    refine ⟨rest, ?_, rfl⟩
    rw [List.append_assoc, List.append_assoc, primary_construct hg hne hname hrest]
  | constructWith hg hne hname hh hinside hargs =>
    intro rest _
    refine ⟨rest, ?_, rfl⟩
    simp only [List.append_assoc, List.cons_append, List.nil_append]
    exact primary_constructWith hg hne hname hh hinside hargs
  | @unsigned b b' g t e hg hp ih =>
    intro rest hrest
    obtain ⟨rest', hprimary, hskip⟩ := ih rest hrest
    obtain ⟨c, v, rfl, hc⟩ := hp.exists_cons (.inl rfl)
    refine ⟨rest', ?_, hskip⟩
    rw [List.cons_append] at hprimary
    rw [List.append_assoc, operand_skip hg, operand, List.cons_append, signs_primary hc,
      parsed_andThen, hprimary]
    rfl
  | signed hg hsign _ ih =>
    intro rest hrest
    obtain ⟨rest', hoperand, hskip⟩ := ih rest hrest
    refine ⟨rest', ?_, hskip⟩
    rw [List.append_assoc, operand_skip hg, List.cons_append, operand_sign hsign, hoperand,
      parsed_andThen]
  | @factor b b' t e _ ih =>
    intro rest hrest
    obtain ⟨rest', hoperand, hskip⟩ := ih rest hrest
    exact ⟨b' + 1, Nat.lt_succ_self b', chained_of_item hoperand hskip⟩
  | @multiply b b₁ b' t g u c op l r _ hg hop hr ihl ihr =>
    intro rest hrest
    have hblank := Operator.isBlank_of_multiplicative? hop
    have hends : Ends .primary (g ++ c :: (u ++ rest)) := by
      rw [ends_iff_of_cons hg hblank]
      rcases (Operator.multiplicative?_eq_some hop).2 with rfl | rfl <;> decide
    have hpaid := hr.pays hsound hpays
    obtain ⟨rest', hoperand, hskip⟩ := ihr rest hrest
    rw [List.append_assoc, List.append_assoc, List.cons_append]
    apply advance (ihl _ hends) _ (by omega)
    intro fuel
    rw [chain_step hg hblank hop hoperand, chain_congr hskip]
  | @term b b' t e _ ih =>
    intro rest hrest
    have hproduct := (ih rest (Ends.primary hrest)).product hrest
    exact ⟨b' + 1, Nat.lt_succ_self b', chained_of_item hproduct (skipBlanks_skipBlanks rest)⟩
  | @add b b₁ b' t g u c op l r _ hg hop hr ihl ihr =>
    intro rest hrest
    have hblank := Operator.isBlank_of_additive? hop
    have hends : Ends .product (g ++ c :: (u ++ rest)) := by
      rw [ends_iff_of_cons hg hblank]
      rcases (Operator.additive?_eq_some hop).2 with rfl | rfl <;> decide
    have hpaid := hr.pays hsound hpays
    have hproduct := (ihr rest (Ends.primary hrest)).product hrest
    rw [List.append_assoc, List.append_assoc, List.cons_append]
    apply advance (ihl _ hends) _ (by omega)
    intro fuel
    rw [chain_step hg hblank hop hproduct, chain_congr (skipBlanks_skipBlanks rest)]

/-- Every text of the grammar is read as what it spells. -/
theorem expression_complete (room : Nat) : Complete (expression room) (Reads room) := by
  induction room with
  | zero => exact fun _ _ _ _ h => h.elim
  | succ room ih =>
    intro b u e b' h rest hrest
    have hreach := h.reaches (expression_sound room) (Reads.pays room) ih rest hrest.product
    exact ⟨rest.skipBlanks, hreach.sum hrest, skipBlanks_skipBlanks rest⟩

end Complete

section Whole

variable {room b b' : Nat} {t u g rest : Text} {e : Expr}

/-- A text of the grammar is read to its end, blanks at either end aside. -/
theorem expression_of_reads (h : Reads room b u e b') (hg : AllBlank g) :
    ∃ rest, expression room (u ++ g) b = parsed e rest b' ∧ rest.skipBlanks = [] := by
  obtain ⟨rest, hparsed, hskip⟩ := expression_complete room h g (ends_of_allBlank hg)
  exact ⟨rest, hparsed, by rw [hskip, hg.skipBlanks_eq]⟩

/-- A text of the grammar is read as what it spells wherever a whole text is wanted. -/
theorem readWhole_of_reads (h : Reads room b u e b') (hxor : xorSign ∉ u) :
    readWhole (expression room) u b = some (e, b') := by
  obtain ⟨rest, hparsed, hrest⟩ := expression_of_reads h allBlank_nil
  rw [List.append_nil] at hparsed
  rw [readWhole, if_neg hxor, hparsed]
  exact if_pos hrest

/-- A text is an expression if it holds no exclusive or and the rule leaves nothing but blanks of
it. -/
theorem parse?_eq_some_iff : Expr.parse? t = some e ↔ xorSign ∉ t ∧
    ∃ rest b', expression (maxDepth + 1) t maxNodes = parsed e rest b' ∧
      rest.skipBlanks = [] := by
  rw [Expr.parse?, Expr.parseFront?]
  split
  · rename_i hxor
    exact iff_of_false nofun fun h => h.1 hxor
  · rename_i hxor
    cases expression (maxDepth + 1) t maxNodes with
    | mismatch | overflow => simp
    | parsed e' rest' b' =>
      simp only [Option.bind_some, hxor, not_false_eq_true, true_and, parsed.injEq]
      constructor
      · intro h
        split at h
        · rename_i hrest
          exact ⟨rest', b', ⟨Option.some.inj h, rfl, rfl⟩, hrest⟩
        · cases h
      · rintro ⟨rest, b', ⟨rfl, rfl, rfl⟩, hrest⟩
        exact if_pos hrest

/-- The expressions of whole texts are those that the grammar admits. -/
theorem parse?_eq_some_iff_reads : Expr.parse? t = some e ↔ xorSign ∉ t ∧
    ∃ u g b', t = u ++ g ∧ AllBlank g ∧ Reads (maxDepth + 1) maxNodes u e b' := by
  rw [parse?_eq_some_iff]
  refine and_congr_right fun _ => ?_
  constructor
  · rintro ⟨rest, b', hparsed, hrest⟩
    obtain ⟨u, g, rfl, hg, hu⟩ := expression_sound _ hparsed
    have hblank : AllBlank (g ++ rest) :=
      allBlank_append.mpr ⟨hg, skipBlanks_eq_nil_iff.mp hrest⟩
    exact ⟨u, g ++ rest, b', rfl, hblank, hu⟩
  · rintro ⟨u, g, b', rfl, hg, hu⟩
    obtain ⟨rest, hparsed, hrest⟩ := expression_of_reads hu hg
    exact ⟨rest, b', hparsed, hrest⟩

end Whole

end Grammar

end Gloss
