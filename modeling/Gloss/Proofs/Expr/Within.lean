import Gloss.Proofs.Expr.Bound
import Gloss.Proofs.Expr.Local
import Gloss.Proofs.Text.Start

/-!
# Reading from within an expression

Where an expression is read, its later tokens may begin one too. If it joins no operands, no text
that is read from within it does either: not from a further segment of a name, not from within a
subscript or an argument, and not from the parenthesis of a call. This holds as long as the
expression has no raw leaf and no word `new` begins within it. Raw text may hold anything; and a
name that a construction ends with goes on if it is read by itself, as in `-new a[i] + b`.
-/

namespace Gloss

/-- Whether the last token of an expression belongs to a name or to what follows one, so that the
text behind it might have continued it. -/
def Expr.endsTrailed : Expr → Bool
  | unary _ e => e.endsTrailed
  | e => e.isTrailed

namespace Grammar

open Text Outcome

/-- No operator stands behind the blanks of a text. -/
def Unjoined (rest : Text) : Prop :=
  ∀ c ∈ rest.skipBlanks.head?, Operator.multiplicative? c = none ∧ Operator.additive? c = none

/-- A text does not begin with the keyword of a construction. -/
def NotNew (s : Text) : Prop := afterNew? s = none

/-- What is read from a text as an operand, within any budget from `n` on, joins no operands, and
nothing joins it to another one. -/
def Inert (full n : Nat) (s : Text) : Prop :=
  ∀ ⦃b e rest b'⦄, n ≤ b → operand (expression full) s b = parsed e rest b' →
    e.hasOperator = false ∧ Unjoined rest

/-- From a text the expression `e` is read up to `rest`, where it may be continued. -/
def Stands (full : Nat) (s : Text) (e : Expr) (rest : Text) : Prop :=
  ∀ b, ∃ fuel, b < fuel ∧
    operand (expression full) s (b + e.size) = trailers (expression full) fuel e rest b

/-- From a text nothing with an operator is read within the size of `e`, unless it is continued
behind `rest`. -/
def Continues (full : Nat) (e : Expr) (rest s : Text) : Prop :=
  (∃ e' : Expr, e'.hasOperator = false ∧ e'.size ≤ e.size ∧ Stands full s e' rest) ∨
    Inert full e.size s

/-- Nothing behind an expression continues it or joins it to another one. -/
structure Stops (e : Expr) (rest : Text) : Prop where
  /-- No operator follows. -/
  unjoined : Unjoined rest
  /-- Its last token ends. -/
  edge : isTokenEdge rest.head? = true
  /-- If it ends like a name, it is not continued like one. -/
  trailer : e.endsTrailed = true → NoTrailer rest

/-- What may stand behind an expression of a level. A name that may yet be continued has to end,
unless what continues it already has ended. -/
def Follow : Level → Expr → Text → Prop
  | .trailed, e, rest => Unjoined rest ∧ (e.isApplied = true ∨ NameEnds isBlank rest)
  | _, e, rest => Stops e rest

/-- What is known of the text from a place within an expression of a level on. -/
def Outlook (full : Nat) : Level → Expr → (rest s : Text) → Prop
  | .trailed, e, rest => Continues full e rest
  | _, e, _ => Inert full e.size

/-- An expression that is nothing but operands, each of which can be read within `full` brackets. -/
structure Plain (full : Nat) (e : Expr) : Prop where
  /-- It joins no operands. -/
  operator : e.hasOperator = false
  /-- It has no raw leaf. -/
  raw : e.hasRaw = false
  /-- Its brackets nest no deeper. -/
  depth : e.depth ≤ full

/-- Within a plain expression of a relation, nothing with an operator is read from any place. -/
def Quiet (full : Nat) (R : Reading) : Prop :=
  ∀ ⦃b t e b'⦄, R b t e b' → Plain full e → ∀ prev rest, isTokenEdge prev = true →
    Stops e rest → AtStarts NotNew prev t rest → AtStarts (Inert full e.size) prev t rest

section Follow

variable {full n m : Nat} {level : Level} {c : Char} {g s t u rest : Text} {e e' : Expr}

/-- What joins no operands from one budget on does not from a larger one on. -/
theorem Inert.mono (h : Inert full n s) (hn : n ≤ m) : Inert full m s :=
  fun _ _ _ _ hb => h (hn.trans hb)

theorem unjoined_append (hg : AllBlank g) : Unjoined (g ++ rest) ↔ Unjoined rest := by
  rw [Unjoined, skipBlanks_append hg, Unjoined]

/-- Skipping blanks does not matter to whether an operator follows. -/
theorem unjoined_skipBlanks : Unjoined rest.skipBlanks ↔ Unjoined rest := by
  rw [Unjoined, skipBlanks_skipBlanks, Unjoined]

/-- A text that begins with a visible character is unjoined if that is no operator. -/
theorem unjoined_cons (hblank : isBlank c = false) : Unjoined (c :: t) ↔
    Operator.multiplicative? c = none ∧ Operator.additive? c = none := by
  rw [Unjoined, skipBlanks_cons hblank]
  simp

/-- Where an expression ends nothing continues it. -/
theorem Ends.stops (h : Ends .sum rest) : Stops e rest where
  unjoined c hc := ⟨h.product.multiplicative c hc, h.additive c hc⟩
  edge := h.product.primary.isTokenEdge
  trailer _ := h.product.primary.noTrailer

/-- A name ends where nothing continues it. -/
theorem NoTrailer.nameEnds (h : NoTrailer rest) (hedge : isTokenEdge rest.head? = true) :
    NameEnds isBlank rest := by
  refine ⟨?_, fun u hu => takeName?_eq_none_iff.mp (h.dot u hu)⟩
  cases rest with
  | nil => rfl
  | cons c t =>
    rw [List.head?_cons, isTokenEdge_some, isTokenPart, Bool.or_eq_false_iff] at hedge
    exact hedge.1

/-- A subscript or an argument list may follow whatever can be continued. -/
theorem follow_opener (hg : AllBlank g) (hc : c = '[' ∨ c = '(') :
    Follow .trailed e (g ++ c :: t) := by
  have hblank : isBlank c = false := by rcases hc with rfl | rfl <;> decide
  have htoken : isTokenPart c = false := by rcases hc with rfl | rfl <;> decide
  have hnone : Operator.multiplicative? c = none ∧ Operator.additive? c = none := by
    rcases hc with rfl | rfl <;> decide
  refine ⟨(unjoined_append hg).mpr ((unjoined_cons hblank).mpr hnone), .inr ?_⟩
  exact (nameStops_of_cons hg hblank htoken).nameEnds

/-- A name with what follows it ends with a name or with what follows one. -/
theorem Spells.endsTrailed {nested : Rule} {Inner : Reading} {b b' : Nat}
    (h : Spells nested Inner .trailed b t e b') : e.endsTrailed = true := by
  cases h <;> rfl

end Follow

section Operand

variable {nested : Rule} {Inner : Reading} {level : Level} {full n b b' : Nat} {c : Char}
  {t rest : Text} {e : Expr}

/-- A text of the grammar opens, behind blanks, with a character that may begin an expression; and
that is no square bracket. -/
theorem Spells.opens (h : Spells nested Inner level b t e b') :
    ∃ g c u, t = g ++ c :: u ∧ AllBlank g ∧ isExprStart c = true ∧ c ≠ '[' := by
  have hopen {t : Text} (h : ∃ c u, t = c :: u ∧ (isIdentPart c = true ∨ c = '(' ∨ c = '{')) :
      ∃ g c u, t = g ++ c :: u ∧ AllBlank g ∧ isExprStart c = true ∧ c ≠ '[' := by
    obtain ⟨c, u, rfl, hc⟩ := h
    refine ⟨[], c, u, rfl, allBlank_nil, ?_⟩
    rcases hc with hc | rfl | rfl
    · exact ⟨by simp [isExprStart, hc], fun he => absurd (he ▸ hc) (by decide)⟩
    · decide
    · decide
  have happend {t : Text} (v : Text)
      (h : ∃ g c u, t = g ++ c :: u ∧ AllBlank g ∧ isExprStart c = true ∧ c ≠ '[') :
      ∃ g c u, t ++ v = g ++ c :: u ∧ AllBlank g ∧ isExprStart c = true ∧ c ≠ '[' := by
    obtain ⟨g, c, u, rfl, h⟩ := h
    exact ⟨g, c, u ++ v, by rw [List.append_assoc, List.cons_append], h⟩
  induction h with
  | name hname =>
    obtain ⟨c, u, rfl, hc⟩ := hname.exists_cons
    exact hopen ⟨c, u, rfl, .inl (isIdentPart_of_isIdentStart hc)⟩
  | member _ _ _ _ _ ih | index _ _ _ _ ih | call _ _ _ _ ih => exact happend _ ih
  | multiply _ _ _ _ ih | add _ _ _ _ ih => exact happend _ ih
  | trailed _ ih | factor _ ih | term _ ih => exact ih
  | number hnumeral =>
    obtain ⟨c, u, rfl, hc⟩ := hnumeral.exists_cons
    exact hopen ⟨c, u, rfl, .inl (isIdentPart_of_isDigit hc)⟩
  | @group _ _ fence => exact hopen ⟨_, _, rfl, .inr (by cases fence <;> decide)⟩
  | construct | constructWith => exact hopen ⟨'n', _, rfl, .inl (by decide)⟩
  | @unsigned _ _ g _ _ hg _ ih =>
    obtain ⟨k, c, u, rfl, hk, hc⟩ := ih
    exact ⟨g ++ k, c, u, by rw [List.append_assoc], allBlank_append.mpr ⟨hg, hk⟩, hc⟩
  | @signed _ _ g t c _ _ hg hsign =>
    refine ⟨g, c, t, rfl, hg, ?_⟩
    rcases (Sign.ofChar?_eq_some hsign).2 with rfl | rfl <;> decide

/-- A rule of the grammar reads nothing behind blanks but what opens a text of it. -/
theorem opens_of_parsed {rule : Rule} (hsound : Sound rule (Spells nested Inner level))
    {g : Text} (hg : AllBlank g) (hc : isBlank c = false)
    (h : rule (g ++ c :: t) b = parsed e rest b') : isExprStart c = true ∧ c ≠ '[' := by
  obtain ⟨u, k, hu, -, hspells⟩ := hsound h
  obtain ⟨m, d, v, rfl, hm, hd⟩ := hspells.opens
  have hskip := congrArg skipBlanks hu
  rw [List.append_assoc, List.cons_append, skipBlanks_append hg, skipBlanks_append hm,
    skipBlanks_cons hc, skipBlanks_cons (isBlank_of_isExprStart hd.1)] at hskip
  rwa [(List.cons.inj hskip).1]

/-- No expression begins with a square bracket. -/
theorem inert_square : Inert full n ('[' :: t) := by
  intro b e rest b' _ h
  have hsound := operand_sound (expression_sound full)
  exact absurd rfl (opens_of_parsed hsound allBlank_nil (by decide) h).2

/-- Where no sign stands in front, an operand is a primary. -/
theorem operand_eq_primary (hc : isIdentPart c = true ∨ c = '(' ∨ c = '{') :
    operand nested (c :: t) b = primary nested (c :: t) b := by
  rw [operand, signs_primary hc, parsed_andThen]
  cases primary nested (c :: t) b <;> rfl

/-- From the front of a name on the whole name is read. -/
theorem stands_name {u name : Text} (hu : SpellsName u name) (hrest : NameEnds isBlank rest)
    (hnew : NotNew (u ++ rest)) : Stands full (u ++ rest) (.identifier name) rest := by
  intro b
  have hconstruction : construction? (expression full) (u ++ rest) (b + 1) = none := by
    rw [construction?, hnew]
    rfl
  have hprimary := primary_name hu hrest hconstruction
  obtain ⟨c, v, rfl, hc⟩ := hu.exists_cons
  refine ⟨b + 1, Nat.lt_succ_self b, ?_⟩
  rw [List.cons_append, operand_eq_primary (.inl (isIdentPart_of_isIdentStart hc))]
  exact hprimary

/-- A number joins nothing. -/
theorem inert_number {u : Text} (hu : Numeral u) (hrest : Stops (.number u) rest) :
    Inert full 1 (u ++ rest) := by
  intro b e rest' b' hb h
  obtain ⟨b, rfl⟩ : ∃ k, b = k + 1 := ⟨b - 1, by omega⟩
  have hprimary : primary (expression full) (u ++ rest) (b + 1) = parsed (.number u) rest b :=
    primary_number hu hrest.edge
  obtain ⟨c, v, rfl, hc⟩ := hu.exists_cons
  rw [List.cons_append, operand_eq_primary (.inl (isIdentPart_of_isDigit hc)), ← List.cons_append,
    hprimary, parsed.injEq] at h
  obtain ⟨rfl, rfl, -⟩ := h
  exact ⟨rfl, hrest.unjoined⟩

/-- What is read from a sign on is what is read from behind it, with the sign. -/
theorem Inert.sign {sign : Sign} (hsign : Sign.ofChar? c = some sign) (h : Inert full n t) :
    Inert full (n + 1) (c :: t) := by
  intro b e rest b' hb hparsed
  obtain ⟨b, rfl⟩ : ∃ k, b = k + 1 := ⟨b - 1, by omega⟩
  rw [operand_sign hsign] at hparsed
  obtain ⟨e₁, t₁, b₁, hoperand, hresult⟩ := andThen_eq_parsed_iff.mp hparsed
  cases hresult
  have hinert := h (Nat.le_of_succ_le_succ hb) hoperand
  exact hinert

/-- Blanks in front of a text do not matter to what is read from it. -/
theorem Inert.skip {g : Text} (hg : AllBlank g) (h : Inert full n t) : Inert full n (g ++ t) := by
  intro b e rest b' hb hparsed
  rw [operand_skip hg] at hparsed
  exact h hb hparsed

/-- From an opening bracket on nothing is read unless the bracket is closed behind what is read
there as a whole. -/
theorem operand_fence (fence : Fence)
    (h : operand nested (fence.bracket.opener :: t) b = parsed e rest b') : ∃ e₁ u b₁,
      nested t b = parsed e₁ u b₁ ∧ u.skipBlanks = fence.bracket.closer :: rest ∧
        e = .group fence e₁ := by
  have hgroup : group nested fence t b = parsed e rest b' := by
    have hnew : construction? nested (fence.bracket.opener :: t) b = none := by
      cases fence <;> exact construction?_cons_eq_none (by decide)
    have hopener : isIdentPart fence.bracket.opener = true ∨ fence.bracket.opener = '(' ∨
        fence.bracket.opener = '{' := by
      cases fence <;> decide
    rw [operand_eq_primary hopener] at h
    unfold primary at h
    rw [hnew] at h
    cases fence <;> exact h
  obtain ⟨e₁, u, b₁, hnested, hclose⟩ := andThen_eq_parsed_iff.mp hgroup
  refine ⟨e₁, u, b₁, hnested, ?_⟩
  split at hclose
  · rename_i c v hu
    split at hclose
    · rename_i hc
      obtain ⟨rfl, rfl, -⟩ := charge_eq_parsed_iff.mp hclose
      exact ⟨by rw [hu, hc], rfl⟩
    · cases hclose
  · cases hclose

end Operand

section Step

variable {full n : Nat} {g h inside s u name rest rest' : Text} {e f : Expr} {args : List Expr}

/-- What stands before a dot and a name is read as the selection. -/
theorem Stands.member (hs : Stands full s e (g ++ '.' :: (h ++ (u ++ rest)))) (hg : AllBlank g)
    (hh : AllBlank h) (hu : SpellsName u name) (hrest : NameEnds isBlank rest) :
    Stands full s (.member e name) rest := by
  intro b
  have hb : b + (Expr.member e name).size = b + 1 + e.size := by
    rw [Expr.size]
    omega
  rw [hb]
  exact advance (hs (b + 1)) (fun _ => trailers_member hg hh hu hrest) (Nat.lt_succ_self b)

/-- What stands before a subscript is read as the subscripted name. -/
theorem Stands.index (hs : Stands full s e (g ++ '[' :: (inside ++ ']' :: rest))) (hg : AllBlank g)
    (hinside : Bracket.square.Encloses inside)
    (hread : ∀ c, readWhole (expression full) inside.trim (c + f.size) = some (f, c)) :
    Stands full s (.index e f) rest := by
  intro b
  have hb : b + (Expr.index e f).size = b + 1 + f.size + e.size := by
    rw [Expr.size]
    omega
  rw [hb]
  exact advance (hs (b + 1 + f.size)) (fun _ => trailers_index hg hinside (hread (b + 1)))
    (by omega)

/-- What stands before a list of arguments is read as the call. -/
theorem Stands.call (hs : Stands full s e (g ++ '(' :: (inside ++ ')' :: rest))) (hg : AllBlank g)
    (hinside : Bracket.paren.Encloses inside)
    (hread : ∀ c, readArgs (expression full) inside (c + Expr.sizes args) = some (args, c)) :
    Stands full s (.call e args) rest := by
  intro b
  have hb : b + (Expr.call e args).size = b + 1 + Expr.sizes args + e.size := by
    rw [Expr.size]
    omega
  rw [hb]
  exact advance (hs (b + 1 + Expr.sizes args))
    (fun _ => trailers_call hg hinside (hread (b + 1))) (by omega)

/-- A further trailer continues all that could be continued. -/
theorem Continues.step (hs : Continues full e rest s) (hsize : e.size ≤ f.size)
    (hstep : ∀ e', e'.hasOperator = false → e'.size ≤ e.size → Stands full s e' rest →
      ∃ f', f'.hasOperator = false ∧ f'.size ≤ f.size ∧ Stands full s f' rest') :
    Continues full f rest' s := by
  rcases hs with ⟨e', hop, hle, hstands⟩ | hinert
  · exact .inl (hstep e' hop hle hstands)
  · exact .inr (hinert.mono hsize)

/-- Where nothing continues it, what could be continued ends. -/
theorem Continues.inert (hs : Continues full e rest s) (hrest : NoTrailer rest)
    (hunjoined : Unjoined rest) : Inert full e.size s := by
  rcases hs with ⟨e', hop, hle, hstands⟩ | hinert
  · intro b e₁ rest₁ b₁ hb hparsed
    obtain ⟨b, rfl⟩ : ∃ k, b = k + e'.size := ⟨b - e'.size, by omega⟩
    rw [settle (hstands b) fun _ => trailers_stop hrest, parsed.injEq] at hparsed
    obtain ⟨rfl, rfl, -⟩ := hparsed
    exact ⟨hop, unjoined_skipBlanks.mpr hunjoined⟩
  · exact hinert

end Step

section Plain

variable {full : Nat} {fence : Fence} {sign : Sign} {e f : Expr} {name : Text} {args : List Expr}

/-- What a plain group encloses is plain and leaves room for its brackets. -/
theorem Plain.group (h : Plain full (.group fence e)) : Plain full e ∧ e.depth < full := by
  obtain ⟨hop, hraw, hdepth⟩ := h
  rw [Expr.depth] at hdepth
  exact ⟨⟨hop, hraw, by omega⟩, by omega⟩

/-- The operand of a plain signed operand is plain. -/
theorem Plain.unary (h : Plain full (.unary sign e)) : Plain full e :=
  ⟨h.operator, h.raw, h.depth⟩

/-- What a plain selection is made from is plain. -/
theorem Plain.member (h : Plain full (.member e name)) : Plain full e :=
  ⟨h.operator, h.raw, h.depth⟩

/-- The parts of a plain subscripted name are plain, and the subscript leaves room for its brackets.
-/
theorem Plain.index (h : Plain full (.index e f)) :
    Plain full e ∧ Plain full f ∧ f.depth < full := by
  obtain ⟨hop, hraw, hdepth⟩ := h
  rw [Expr.hasOperator, Bool.or_eq_false_iff] at hop
  rw [Expr.hasRaw, Bool.or_eq_false_iff] at hraw
  rw [Expr.depth] at hdepth
  exact ⟨⟨hop.1, hraw.1, by omega⟩, ⟨hop.2, hraw.2, by omega⟩, by omega⟩

/-- Arguments that are plain and leave room for the brackets around them. -/
structure PlainArgs (full : Nat) (args : List Expr) : Prop where
  /-- None of them joins operands. -/
  operator : Expr.anyHasOperator args = false
  /-- None of them has a raw leaf. -/
  raw : Expr.anyHasRaw args = false
  /-- Their brackets nest no deeper. -/
  depth : Expr.argDepth args ≤ full

/-- The parts of a plain call are plain. -/
theorem Plain.call (h : Plain full (.call e args)) : Plain full e ∧ PlainArgs full args := by
  obtain ⟨hop, hraw, hdepth⟩ := h
  rw [Expr.hasOperator, Bool.or_eq_false_iff] at hop
  rw [Expr.hasRaw, Bool.or_eq_false_iff] at hraw
  rw [Expr.depth] at hdepth
  exact ⟨⟨hop.1, hraw.1, by omega⟩, hop.2, hraw.2, by omega⟩

/-- Each of several plain arguments is plain and leaves room for the brackets around them. -/
theorem PlainArgs.cons (h : PlainArgs full (e :: args)) :
    Plain full e ∧ e.depth < full ∧ PlainArgs full args := by
  obtain ⟨hop, hraw, hdepth⟩ := h
  rw [Expr.anyHasOperator, Bool.or_eq_false_iff] at hop
  rw [Expr.anyHasRaw, Bool.or_eq_false_iff] at hraw
  rw [Expr.argDepth] at hdepth
  exact ⟨⟨hop.1, hraw.1, by omega⟩, by omega, hop.2, hraw.2, by omega⟩

end Plain

section Trailer

variable {room full b b' : Nat} {g h inside s u name rest : Text} {e f : Expr} {args : List Expr}

/-- A dot and a name carry on what is known from a place within the expression before them. -/
theorem Continues.member (hs : Continues full e (g ++ '.' :: (h ++ (u ++ rest))) s)
    (hg : AllBlank g) (hh : AllBlank h) (hu : SpellsName u name) (hrest : NameEnds isBlank rest) :
    Continues full (.member e name) rest s := by
  refine hs.step (Nat.le_succ _) fun e' hop hle hstands => ?_
  exact ⟨.member e' name, hop, Nat.succ_le_succ hle, hstands.member hg hh hu hrest⟩

/-- A subscript carries on what is known from a place within the expression before it. -/
theorem Continues.index (hs : Continues full e (g ++ '[' :: (inside ++ ']' :: rest)) s)
    (hg : AllBlank g) (hinside : Bracket.square.Encloses inside)
    (hread : readWhole (expression room) inside.trim b = some (f, b')) (hf : Plain full f)
    (hdepth : f.depth < full) : Continues full (.index e f) rest s := by
  have hsize (e : Expr) : (Expr.index e f).size = e.size + f.size + 1 := Expr.size.eq_def _
  refine hs.step (by rw [hsize]; omega) fun e' hop hle hstands => ?_
  refine ⟨.index e' f, ?_, by rw [hsize, hsize]; omega, ?_⟩
  · rw [Expr.hasOperator, hop, hf.operator]
    rfl
  · exact hstands.index hg hinside (rereads_expression room full hread hf.raw hdepth)

/-- A list of arguments carries on what is known from a place within the expression before it. -/
theorem Continues.call (hs : Continues full e (g ++ '(' :: (inside ++ ')' :: rest)) s)
    (hg : AllBlank g) (hinside : Bracket.paren.Encloses inside)
    (hread : readArgs (expression room) inside b = some (args, b')) (hargs : PlainArgs full args) :
    Continues full (.call e args) rest s := by
  have hsize (e : Expr) : (Expr.call e args).size = e.size + Expr.sizes args + 1 :=
    Expr.size.eq_def _
  refine hs.step (by rw [hsize]; omega) fun e' hop hle hstands => ?_
  refine ⟨.call e' args, ?_, by rw [hsize, hsize]; omega, ?_⟩
  · rw [Expr.hasOperator, hop, hargs.operator]
    rfl
  · refine hstands.call hg hinside fun c => ?_
    exact (rereads_expression room full).readEach hread hargs.raw (Nat.lt_succ_of_le hargs.depth) c

end Trailer

section Args

variable {room full n b b' : Nat} {prev : Option Char} {c : Char} {g p rest : Text}
  {ps : List Text} {e : Expr} {args : List Expr}

/-- A whole text that is read without a raw leaf is a text of the grammar among blanks. -/
theorem exists_reads_of_readWhole (h : readWhole (expression room) p.trim b = some (e, b'))
    (hraw : e.hasRaw = false) :
    ∃ g u k, p = g ++ (u ++ k) ∧ AllBlank g ∧ AllBlank k ∧ Reads room b u e b' := by
  obtain ⟨g, k, hg, hk, hp⟩ := exists_allBlank_append_trim p
  rcases readWhole_cases (expression_sound room) h with ⟨rfl, -⟩ | ⟨-, u, m, hu, hm, hreads⟩
  · cases hraw
  · refine ⟨g, u, m ++ k, ?_, hg, allBlank_append.mpr ⟨hm, hk⟩, hreads⟩
    rw [hp, hu, List.append_assoc]

/-- The first part of an argument list is blank or its first argument. -/
theorem readEach_parts_cons {nested : Rule}
    (h : readEach nested (((p :: ps).map trim).filter fun part => !part.isEmpty) b =
      some (args, b')) :
    (AllBlank p ∧
      readEach nested ((ps.map trim).filter fun part => !part.isEmpty) b = some (args, b')) ∨
    ∃ e b₁ es, args = e :: es ∧ readWhole nested p.trim b = some (e, b₁) ∧
      readEach nested ((ps.map trim).filter fun part => !part.isEmpty) b₁ = some (es, b') := by
  rw [List.map_cons] at h
  by_cases hp : p.trim = []
  · refine .inl ⟨?_, ?_⟩
    · obtain ⟨g, k, hg, hk, htext⟩ := exists_allBlank_append_trim p
      rw [htext, hp]
      exact allBlank_append.mpr ⟨hg, hk⟩
    · rwa [hp, List.filter_cons_of_neg (by simp)] at h
  · rw [List.filter_cons_of_pos (by simpa using hp)] at h
    exact .inr (readEach_cons.mp h)

/-- Blanks in front of a text do not matter to what is read. -/
theorem Reads.skip (h : Reads room b p e b') (hg : AllBlank g) : Reads room b (g ++ p) e b' := by
  cases room with
  | zero => exact h.elim
  | succ room => exact Spells.skip h hg nofun nofun

/-- Nothing is read from within a subscript or an argument that is quiet. -/
theorem Quiet.part (hquiet : Quiet full (Reads room))
    (hread : readWhole (expression room) p.trim b = some (e, b')) (he : Plain full e)
    (hprev : isTokenEdge prev = true) (hrest : Ends .sum rest)
    (hnew : AtStarts NotNew prev p rest) : AtStarts (Inert full e.size) prev p rest := by
  obtain ⟨g, u, k, rfl, hg, hk, hu⟩ := exists_reads_of_readWhole hread he.raw
  rw [atStarts_append, atStarts_append] at hnew ⊢
  have hends : Ends .sum (k ++ rest) := by
    rw [Ends, skipBlanks_append hk]
    exact hrest
  refine ⟨atStarts_allBlank hg, ?_, atStarts_allBlank hk⟩
  exact hquiet hu he _ _ (isTokenEdge_allBlank hg hprev) hends.stops hnew.2.1

/-- Nothing is read from within arguments that are quiet: not from the first part, whatever stands
behind it, and not from the others. -/
theorem Quiet.arguments (hquiet : Quiet full (Reads room))
    (hread : readEach (expression room) ((ps.map trim).filter fun part => !part.isEmpty) b =
      some (args, b')) (hargs : PlainArgs full args) (hprev : isTokenEdge prev = true)
    (hrest : Ends .sum rest) (hnew : AtStarts NotNew prev (join [','] ps) rest) :
    AtStarts (Inert full (Expr.sizes args)) prev (join [','] ps) rest := by
  induction ps generalizing args b prev with
  | nil => trivial
  | cons p ps ih =>
    have hpart : ∃ es b₁, readEach (expression room)
        ((ps.map trim).filter fun part => !part.isEmpty) b₁ = some (es, b') ∧
        PlainArgs full es ∧ Expr.sizes es ≤ Expr.sizes args ∧
        ∀ rest, Ends .sum rest → AtStarts NotNew prev p rest →
          AtStarts (Inert full (Expr.sizes args)) prev p rest := by
      rcases readEach_parts_cons hread with ⟨hp, hmore⟩ | ⟨e, b₁, es, rfl, he, hmore⟩
      · exact ⟨args, b, hmore, hargs, Nat.le_refl _, fun _ _ _ => atStarts_allBlank hp⟩
      · obtain ⟨hplain, -, hes⟩ := hargs.cons
        refine ⟨es, b₁, hmore, hes, by rw [Expr.sizes]; omega, fun rest hrest hnew => ?_⟩
        refine (hquiet.part he hplain hprev hrest hnew).imp fun s hs => hs.mono ?_
        rw [Expr.sizes]
        omega
    obtain ⟨es, b₁, hmore, hes, hsize, hpart⟩ := hpart
    cases ps with
    | nil =>
      rw [join_singleton] at hnew ⊢
      exact hpart rest hrest hnew
    | cons q qs =>
      rw [join_cons_cons, atStarts_append] at hnew ⊢
      refine ⟨hpart _ ?_ hnew.1, fun hstart => absurd hstart (by decide), ?_⟩
      · exact (ends_iff_of_cons allBlank_nil (by decide)).mpr (by decide)
      · exact (ih hmore hes (by decide) hnew.2.2).imp fun s hs => hs.mono hsize

/-- Within bounds that suffice a text of the grammar is read up to where it ends. -/
theorem exists_parsed_of_reads (h : Reads room b p e b') (hraw : e.hasRaw = false)
    (hdepth : e.depth < full) (hn : e.size ≤ n) (hrest : Ends .sum rest) :
    ∃ u c, expression full (p ++ rest) n = parsed e u c ∧ u.skipBlanks = rest.skipBlanks := by
  obtain ⟨c, rfl⟩ : ∃ c, n = c + e.size := ⟨n - e.size, by omega⟩
  obtain ⟨u, hparsed, hskip⟩ := expression_complete full (h.rebound hraw hdepth c) rest hrest
  exact ⟨u, c, hparsed, hskip⟩

/-- From a bracket on no more is read than an expression behind it that is closed at once. -/
theorem inert_group (fence : Fence) (h : Reads room b p e b') (he : Plain full e)
    (hdepth : e.depth < full) (hg : AllBlank g) (hc : isBlank c = false)
    (hends : Level.sum.continues c = false) (hrest : c = fence.bracket.closer → Unjoined rest) :
    Inert full e.size (fence.bracket.opener :: (p ++ (g ++ c :: rest))) := by
  intro n e' rest' n' hn hparsed
  obtain ⟨e₁, u, n₁, hnested, hclose, rfl⟩ := operand_fence fence hparsed
  obtain ⟨u', m, hcomplete, hskip⟩ := exists_parsed_of_reads h he.raw hdepth hn
    ((ends_iff_of_cons hg hc).mpr hends)
  rw [hcomplete, parsed.injEq] at hnested
  obtain ⟨rfl, rfl, -⟩ := hnested
  rw [hskip, skipBlanks_append hg, skipBlanks_cons hc, List.cons.injEq] at hclose
  obtain ⟨hcloser, rfl⟩ := hclose
  exact ⟨he.operator, hrest hcloser⟩

/-- From a parenthesis on nothing is read if a comma or another parenthesis follows. -/
theorem inert_paren_of_allBlank (hg : AllBlank g) (hc : c = ',' ∨ c = ')') :
    Inert full n ('(' :: (g ++ c :: rest)) := by
  intro b e rest' b' _ hparsed
  obtain ⟨e₁, u, b₁, hnested, -⟩ := operand_fence .paren hparsed
  cases full with
  | zero => cases hnested
  | succ full =>
    have hblank : isBlank c = false := by rcases hc with rfl | rfl <;> decide
    have hsound : Sound (expression (full + 1)) (Reads (full + 1)) := expression_sound _
    have hstart := (opens_of_parsed hsound hg hblank hnested).1
    rcases hc with rfl | rfl <;> exact absurd hstart (by decide)

/-- From the parenthesis of a call on nothing is read but an argument that is the only one, since
the first part ends at a comma or at the closing parenthesis. -/
theorem inert_paren
    (hread : readEach (expression room) ((ps.map trim).filter fun part => !part.isEmpty) b =
      some (args, b')) (hargs : PlainArgs full args) (hrest : Unjoined rest) :
    Inert full (Expr.sizes args) ('(' :: (join [','] ps ++ ')' :: rest)) := by
  cases ps with
  | nil => exact inert_paren_of_allBlank allBlank_nil (.inr rfl)
  | cons p ps =>
    obtain ⟨c, v, htext, hc⟩ : ∃ c v, join [','] (p :: ps) ++ ')' :: rest = p ++ c :: v ∧
        (c = ',' ∨ c = ')' ∧ v = rest) := by
      cases ps with
      | nil => exact ⟨')', rest, by rw [join_singleton], .inr ⟨rfl, rfl⟩⟩
      | cons q qs =>
        refine ⟨',', join [','] (q :: qs) ++ ')' :: rest, ?_, .inl rfl⟩
        rw [join_cons_cons, List.append_assoc]
        rfl
    rw [htext]
    rcases readEach_parts_cons hread with ⟨hp, -⟩ | ⟨e, b₁, es, rfl, he, -⟩
    · exact inert_paren_of_allBlank hp (hc.imp_right And.left)
    · obtain ⟨hplain, hdepth, -⟩ := hargs.cons
      obtain ⟨g, w, k, rfl, hg, hk, hw⟩ := exists_reads_of_readWhole he hplain.raw
      have hgroup : Inert full e.size ('(' :: (g ++ w ++ (k ++ c :: v))) := by
        refine inert_group .paren (hw.skip hg) hplain hdepth hk ?_ ?_ ?_
        · rcases hc with rfl | ⟨rfl, -⟩ <;> decide
        · rcases hc with rfl | ⟨rfl, -⟩ <;> decide
        · rcases hc with rfl | ⟨rfl, rfl⟩
          · exact fun he => absurd he (by decide)
          · exact fun _ => hrest
      rw [List.append_assoc] at hgroup
      rw [List.append_assoc, List.append_assoc]
      exact hgroup.mono (by rw [Expr.sizes]; omega)

end Args

section Quiet

variable {nested : Rule} {Inner : Reading} {room full n b b' : Nat} {level : Level}
  {prev : Option Char} {t rest : Text} {e : Expr}

/-- What holds of the first token of an expression holds of the whole text. -/
theorem Inert.of_atStarts (h : AtStarts (Inert full n) prev t rest)
    (ht : Spells nested Inner level b t e b') (hprev : isTokenEdge prev = true) :
    Inert full n (t ++ rest) := by
  obtain ⟨g, c, u, rfl, hg, hc, -⟩ := ht.opens
  rw [List.append_assoc]
  exact (h.at hc (isTokenEdge_allBlank hg hprev)).skip hg

/-- A construction begins with its keyword. -/
theorem not_atStarts_new {g : Text} (hg : AllBlank g) (hne : g ≠ [])
    (hprev : isTokenEdge prev = true) :
    ¬ AtStarts NotNew prev (['n', 'e', 'w'] ++ (g ++ t)) rest := by
  intro hnew
  have hnone : NotNew ('n' :: (['e', 'w'] ++ (g ++ t) ++ rest)) := hnew.1 (by decide) hprev
  have htext : 'n' :: (['e', 'w'] ++ (g ++ t) ++ rest) = ['n', 'e', 'w'] ++ (g ++ (t ++ rest)) := by
    simp only [List.append_assoc, List.cons_append, List.nil_append]
  rw [NotNew, htext, afterNew?_append hg hne] at hnone
  cases hnone

/-- Within a plain expression of any level, nothing with an operator is read from any place, if so
much is known of the expressions in brackets. -/
theorem Spells.quiet (hquiet : Quiet full (Reads room))
    (h : Spells (expression room) (Reads room) level b t e b') :
    Plain full e → ∀ prev rest, isTokenEdge prev = true → Follow level e rest →
      AtStarts NotNew prev t rest → AtStarts (Outlook full level e rest) prev t rest := by
  induction h with
  | name hname =>
    intro _ prev rest _ hrest hnew
    have hends := hrest.2.resolve_left Bool.false_ne_true
    refine (hname.atStarts.and hnew).imp ?_
    rintro s ⟨⟨u, name, rfl, hu⟩, hs⟩
    exact .inl ⟨.identifier name, rfl, Nat.le_refl _, stands_name hu hends hs⟩
  | @member b b' t g k u name e he happlied hg hk hname ih =>
    intro hplain prev rest hprev hrest hnew
    have hends := hrest.2.resolve_left Bool.false_ne_true
    have htext : g ++ '.' :: (k ++ u) ++ rest = g ++ '.' :: (k ++ (u ++ rest)) := by
      simp only [List.append_assoc, List.cons_append]
    have hunjoined : Unjoined (g ++ '.' :: (k ++ (u ++ rest))) :=
      (unjoined_append hg).mpr ((unjoined_cons (by decide)).mpr ⟨rfl, rfl⟩)
    rw [atStarts_append, atStarts_append] at hnew ⊢
    obtain ⟨hobject, -, -, hnew⟩ := hnew
    rw [htext] at hobject ⊢
    refine ⟨?_, atStarts_allBlank hg, fun hstart => absurd hstart (by decide),
      atStarts_append.mpr ⟨atStarts_allBlank hk, ?_⟩⟩
    · refine (ih hplain.member prev _ hprev ⟨hunjoined, .inl happlied⟩ hobject).imp fun s hs => ?_
      exact hs.member hg hk hname hends
    · refine (hname.atStarts.and (atStarts_append.mp hnew).2).imp ?_
      rintro s ⟨⟨v, name', rfl, hv⟩, hs⟩
      exact .inl ⟨.identifier name', rfl, Nat.succ_le_succ (Nat.zero_le _), stands_name hv hends hs⟩
  | @index b b₁ b' t g inside e f he hg hinside hf ih =>
    intro hplain prev rest hprev hrest hnew
    obtain ⟨he', hf', hdepth⟩ := hplain.index
    obtain ⟨hobject, hsubscript⟩ := hnew.of_bracketed
    have hends : Ends .sum (']' :: rest) :=
      (ends_iff_of_cons allBlank_nil (by decide)).mpr (by decide)
    refine atStarts_bracketed hg (by decide) ?_ (.inr inert_square) ?_
    · refine (ih he' prev _ hprev (follow_opener hg (.inl rfl)) hobject).imp fun s hs => ?_
      exact hs.index hg hinside hf hf' hdepth
    · refine (hquiet.part hf hf' (by decide) hends hsubscript).imp fun s hs => .inr (hs.mono ?_)
      rw [Expr.size]
      omega
  | @call b b₁ b' t g inside e args he hg hinside hargs ih =>
    intro hplain prev rest hprev hrest hnew
    obtain ⟨he', hargs'⟩ := hplain.call
    obtain ⟨hcallee, hlist⟩ := hnew.of_bracketed
    have hends : Ends .sum (')' :: rest) :=
      (ends_iff_of_cons allBlank_nil (by decide)).mpr (by decide)
    have hsize : Expr.sizes args ≤ (Expr.call e args).size := by
      rw [Expr.size]
      omega
    have hjoin := (separable_cutTopLevel inside).2
    refine atStarts_bracketed hg (by decide) ?_ (.inr ?_) ?_
    · refine (ih he' prev _ hprev (follow_opener hg (.inr rfl)) hcallee).imp fun s hs => ?_
      exact hs.call hg hinside hargs hargs'
    · have hparen := inert_paren hargs hargs' hrest.1
      rw [hjoin] at hparen
      exact hparen.mono hsize
    · rw [← hjoin] at hlist
      have hinner := hquiet.arguments hargs hargs' (by decide) hends hlist
      rw [hjoin] at hinner
      exact hinner.imp fun s hs => .inr (hs.mono hsize)
  | trailed he ih =>
    intro hplain prev rest hprev hrest hnew
    have htrailer := hrest.trailer he.endsTrailed
    have hname : NameEnds isBlank rest := htrailer.nameEnds hrest.edge
    refine (ih hplain prev rest hprev ⟨hrest.unjoined, .inr hname⟩ hnew).imp fun s hs => ?_
    exact hs.inert htrailer hrest.unjoined
  | number hnumeral =>
    intro _ prev rest _ hrest _
    refine atStarts_token (List.all_eq_true.mp hnumeral.all_isTokenPart) fun _ => ?_
    exact inert_number hnumeral hrest
  | @group b b' fence t g e he hg =>
    intro hplain prev rest hprev hrest hnew
    obtain ⟨he', hdepth⟩ := hplain.group
    have hblank : isBlank fence.bracket.closer = false := by cases fence <;> decide
    have hcloses : Level.sum.continues fence.bracket.closer = false := by cases fence <;> decide
    have hstart : isExprStart fence.bracket.closer = false := by cases fence <;> decide
    have hedge : isTokenEdge (some fence.bracket.opener) = true := by cases fence <;> decide
    obtain ⟨-, hnew⟩ := hnew
    rw [atStarts_append, List.append_assoc, List.singleton_append] at hnew
    refine ⟨fun _ _ => ?_, atStarts_append.mpr ⟨?_,
      atStarts_append.mpr ⟨atStarts_allBlank hg, atStarts_of_forall (by simpa using hstart)⟩⟩⟩
    · have hgroup := inert_group fence he he' hdepth hg hblank hcloses fun _ => hrest.unjoined
      simp only [List.append_assoc, List.singleton_append]
      exact hgroup.mono (Nat.le_succ _)
    · have hends : Ends .sum (g ++ fence.bracket.closer :: rest) :=
        (ends_iff_of_cons hg hblank).mpr hcloses
      rw [List.append_assoc, List.singleton_append]
      refine (hquiet he he' _ _ hedge hends.stops hnew.1).imp fun s hs => ?_
      exact hs.mono (Nat.le_succ _)
  | construct hg hne | constructWith hg hne =>
    exact fun _ _ _ hprev _ hnew => absurd hnew (not_atStarts_new hg hne hprev)
  | @unsigned b b' g t e hg he ih =>
    intro hplain prev rest hprev hrest hnew
    rw [atStarts_append] at hnew ⊢
    exact ⟨atStarts_allBlank hg, ih hplain _ rest (isTokenEdge_allBlank hg hprev) hrest hnew.2⟩
  | @signed b b' g t c sign e hg hsign he ih =>
    intro hplain prev rest hprev hrest hnew
    have hedge : isTokenEdge (some c) = true := by
      rcases (Sign.ofChar?_eq_some hsign).2 with rfl | rfl <;> decide
    rw [atStarts_append] at hnew ⊢
    have hinner := ih hplain.unary (some c) rest hedge
      ⟨hrest.unjoined, hrest.edge, hrest.trailer⟩ hnew.2.2
    refine ⟨atStarts_allBlank hg, fun _ _ => ?_, hinner.imp fun s hs => hs.mono (Nat.le_succ _)⟩
    exact (Inert.of_atStarts hinner he hedge).sign hsign
  | factor _ ih | term _ ih => exact ih
  | multiply | add => exact fun hplain => absurd hplain.operator.symm Bool.false_ne_true

/-- Within a plain expression nothing with an operator is read from any place. -/
theorem Reads.quiet (full room : Nat) : Quiet full (Reads room) := by
  induction room with
  | zero => exact fun _ _ _ _ h => h.elim
  | succ room ih =>
    intro b t e b' h hplain prev rest hprev hrest hnew
    exact Spells.quiet ih h hplain prev rest hprev hrest hnew

end Quiet

section Run

variable {nested : Rule} {level? : Char → Option Operator} {item : Rule}
  {full fuel n b b' : Nat} {prev : Option Char} {c : Char} {t u rest rest' : Text} {e e' l : Expr}

/-- A chain either goes no further than its first operand or joins operands. -/
theorem chain_idle (h : chain level? item fuel l t b = parsed e rest b') :
    (e = l ∧ rest = t.skipBlanks ∧ ∀ c ∈ t.skipBlanks.head?, level? c = none) ∨
      e.hasOperator = true := by
  induction fuel generalizing l t b with
  | zero => cases h
  | succ fuel ih =>
    rw [chain] at h
    split at h
    · rename_i hnil
      cases h
      exact .inl ⟨rfl, hnil.symm, by simp [hnil]⟩
    · rename_i c u hc
      split at h
      · rename_i hnone
        cases h
        refine .inl ⟨rfl, hc.symm, fun d hd => ?_⟩
        rw [hc, List.head?_cons, Option.mem_some_iff] at hd
        rwa [← hd]
      · obtain ⟨r, t₁, b₁, -, hmore⟩ := andThen_eq_parsed_iff.mp h
        obtain ⟨e₁, t₂, b₂, hcharge, hnext⟩ := andThen_eq_parsed_iff.mp hmore
        obtain ⟨rfl, -, -⟩ := charge_eq_parsed_iff.mp hcharge
        refine .inr ?_
        rcases ih hnext with ⟨rfl, -⟩ | hop
        · rfl
        · exact hop

/-- An expression that joins no operands is an operand that none is joined to. -/
theorem operand_of_expression (h : expression (full + 1) t b = parsed e rest b')
    (hop : e.hasOperator = false) : ∃ rest' b₁, operand (expression full) t b = parsed e rest' b₁ ∧
      rest'.skipBlanks = rest ∧ Unjoined rest' := by
  have hidle {level? : Char → Option Operator} {item : Rule} {t rest : Text} {b b' : Nat}
      (h : chained level? item t b = parsed e rest b') : ∃ t₁ b₁, item t b = parsed e t₁ b₁ ∧
        t₁.skipBlanks = rest ∧ ∀ c ∈ rest.head?, level? c = none := by
    obtain ⟨l, t₁, b₁, hitem, hchain⟩ := andThen_eq_parsed_iff.mp h
    rcases chain_idle hchain with ⟨rfl, rfl, hnone⟩ | hjoins
    · exact ⟨t₁, b₁, hitem, rfl, hnone⟩
    · rw [hop] at hjoins
      cases hjoins
  obtain ⟨t₁, b₁, hproduct, rfl, hadditive⟩ := hidle h
  obtain ⟨t₂, b₂, hoperand, rfl, hmultiplicative⟩ := hidle hproduct
  rw [skipBlanks_skipBlanks] at hadditive
  exact ⟨t₂, b₂, hoperand, (skipBlanks_skipBlanks t₂).symm,
    fun c hc => ⟨hmultiplicative c hc, hadditive c hc⟩⟩

/-- An operand that nothing joins to another one is the whole expression. -/
theorem Inert.expression (hs : Inert full n t) (hn : n ≤ b)
    (h : expression (full + 1) t b = parsed e rest b') : e.hasOperator = false := by
  obtain ⟨l, t₁, b₁, hproduct, hsum⟩ := andThen_eq_parsed_iff.mp h
  obtain ⟨o, t₂, b₂, hoperand, hchain⟩ := andThen_eq_parsed_iff.mp hproduct
  obtain ⟨hop, hunjoined⟩ := hs hn hoperand
  rw [chain_stop fun c hc => (hunjoined c hc).1, parsed.injEq] at hchain
  obtain ⟨rfl, rfl, -⟩ := hchain
  have hadditive : ∀ c ∈ t₂.skipBlanks.skipBlanks.head?, Operator.additive? c = none := by
    rw [skipBlanks_skipBlanks]
    exact fun c hc => (hunjoined c hc).2
  rw [chain_stop hadditive, parsed.injEq] at hsum
  rwa [← hsum.1]

/-- Blanks do not matter to whether a trailer follows. -/
theorem noTrailer_skipBlanks : NoTrailer t.skipBlanks ↔ NoTrailer t := by
  constructor
  · rintro ⟨hdot, hsquare, hparen⟩
    rw [skipBlanks_skipBlanks] at hdot hsquare hparen
    exact ⟨hdot, hsquare, hparen⟩
  · rintro ⟨hdot, hsquare, hparen⟩
    rw [← skipBlanks_skipBlanks] at hdot hsquare hparen
    exact ⟨hdot, hsquare, hparen⟩

/-- What may follow a name is read up to where nothing continues it. -/
theorem noTrailer_of_trailers (h : trailers nested fuel l t b = parsed e rest b') :
    NoTrailer rest := by
  induction fuel generalizing l t b with
  | zero => cases h
  | succ fuel ih =>
    have hother {c d : Char} {u : Text} {p : Text → Prop} (hu : t.skipBlanks = c :: u)
        (hcd : c ≠ d) : ∀ v : Text, t.skipBlanks = d :: v → p v :=
      fun v hv => absurd (List.cons.inj (hu.symm.trans hv)).1 hcd
    have hsame {c : Char} {u : Text} {p : Text → Prop} (hu : t.skipBlanks = c :: u) (hp : p u) :
        ∀ v : Text, t.skipBlanks = c :: v → p v :=
      fun v hv => (List.cons.inj (hu.symm.trans hv)).2 ▸ hp
    rw [trailers] at h
    split at h
    · rename_i u hu
      split at h
      · obtain ⟨e₁, t₁, b₁, -, hnext⟩ := andThen_eq_parsed_iff.mp h
        exact ih hnext
      · rename_i hnone
        cases h
        rw [← hu, noTrailer_skipBlanks]
        exact ⟨hsame hu hnone, hother hu (by decide), hother hu (by decide)⟩
    · rename_i u hu
      split at h
      · split at h
        · obtain ⟨e₁, t₁, b₁, -, hnext⟩ := andThen_eq_parsed_iff.mp h
          exact ih hnext
        · cases h
      · rename_i hnone
        cases h
        rw [← hu, noTrailer_skipBlanks]
        exact ⟨hother hu (by decide), hsame hu hnone, hother hu (by decide)⟩
    · rename_i u hu
      split at h
      · split at h
        · obtain ⟨e₁, t₁, b₁, -, hnext⟩ := andThen_eq_parsed_iff.mp h
          exact ih hnext
        · cases h
      · rename_i hnone
        cases h
        rw [← hu, noTrailer_skipBlanks]
        exact ⟨hother hu (by decide), hother hu (by decide), hsame hu hnone⟩
    · rename_i hdot hsquare hparen
      cases h
      rw [noTrailer_skipBlanks]
      exact ⟨fun u hu => (hdot u hu).elim, fun u hu => (hsquare u hu).elim,
        fun u hu => (hparen u hu).elim⟩

/-- Nothing continues a construction. -/
theorem endsTrailed_of_construction (h : construction? nested t b = some (parsed e rest b')) :
    e.endsTrailed = false := by
  obtain ⟨⟨name, v⟩, -, houtcome⟩ := Option.map_eq_some_iff.mp h
  dsimp only at houtcome
  split at houtcome
  · split at houtcome
    · obtain ⟨rfl, -⟩ := charge_eq_parsed_iff.mp houtcome
      rfl
    · cases houtcome
  · obtain ⟨rfl, -⟩ := charge_eq_parsed_iff.mp houtcome
    rfl

/-- Nothing continues a group. -/
theorem endsTrailed_of_group {fence : Fence} (h : group nested fence t b = parsed e rest b') :
    e.endsTrailed = false := by
  obtain ⟨e₁, u, b₁, -, hclose⟩ := andThen_eq_parsed_iff.mp h
  split at hclose
  · split at hclose
    · obtain ⟨rfl, -⟩ := charge_eq_parsed_iff.mp hclose
      rfl
    · cases hclose
  · cases hclose

/-- A primary that ends like a name ends where nothing continues it like one. -/
theorem noTrailer_of_primary (h : primary nested t b = parsed e rest b')
    (he : e.endsTrailed = true) : NoTrailer rest := by
  unfold primary at h
  split at h
  · rename_i hnew
    subst h
    rw [endsTrailed_of_construction hnew] at he
    cases he
  · split at h
    · rw [endsTrailed_of_group h] at he
      cases he
    · rw [endsTrailed_of_group h] at he
      cases he
    · rw [atom] at h
      split at h
      · obtain ⟨rfl, -⟩ := charge_eq_parsed_iff.mp h
        cases he
      · split at h
        · obtain ⟨e₁, t₁, b₁, -, htrailers⟩ := andThen_eq_parsed_iff.mp h
          exact noTrailer_of_trailers htrailers
        · cases h

/-- An operand that could be continued was read as far as it goes. -/
theorem noTrailer_of_operand (h : operand nested t b = parsed e rest b')
    (he : e.endsTrailed = true) : NoTrailer rest := by
  obtain ⟨ss, t₁, b₁, -, hmore⟩ := andThen_eq_parsed_iff.mp h
  obtain ⟨e₁, t₂, b₂, hprimary, hresult⟩ := andThen_eq_parsed_iff.mp hmore
  cases hresult
  refine noTrailer_of_primary hprimary ?_
  clear h hmore
  induction ss with
  | nil => exact he
  | cons sign ss ih => exact ih he

/-- A token that begins a text does not reach behind a place where tokens end. -/
theorem exists_append_of_isTokenEdge {w v : Text} (hw : ∀ c ∈ w, isTokenPart c = true)
    (hrest : isTokenEdge rest.head? = true) (h : t ++ rest = w ++ v) :
    ∃ u, t = w ++ u ∧ v = u ++ rest := by
  induction w generalizing t with
  | nil => exact ⟨t, rfl, h.symm⟩
  | cons c w ih =>
    obtain ⟨hc, htail⟩ := List.forall_mem_cons.mp hw
    cases t with
    | nil =>
      rw [List.nil_append] at h
      rw [h, List.cons_append, List.head?_cons, isTokenEdge_some, hc] at hrest
      cases hrest
    | cons d t =>
      obtain ⟨rfl, htext⟩ := List.cons.inj h
      obtain ⟨u, rfl, hv⟩ := ih htail htext
      exact ⟨u, rfl, hv⟩

/-- Where the word `new` does not stand no construction begins. -/
theorem atStarts_notNew (hword : containsWord ['n', 'e', 'w'] prev t = false)
    (hrest : isTokenEdge rest.head? = true) : AtStarts NotNew prev t rest := by
  induction t generalizing prev with
  | nil => trivial
  | cons c t ih =>
    rw [containsWord, Bool.or_eq_false_iff] at hword
    refine ⟨fun _ hprev => ?_, ih hword.2⟩
    cases hnew : afterNew? (c :: (t ++ rest)) with
    | none => exact hnew
    | some v =>
      obtain ⟨htext, hv⟩ := afterNew?_eq_some_iff.mp hnew
      have hkeyword : (['n', 'e', 'w'] : Text).all isTokenPart = true := rfl
      obtain ⟨u, hu, rfl⟩ :=
        exists_append_of_isTokenEdge (t := c :: t) (List.all_eq_true.mp hkeyword) hrest htext
      have hafter : after? ['n', 'e', 'w'] (c :: t) = some u := after?_eq_some_iff.mpr hu
      obtain ⟨rfl, -⟩ := List.cons.inj hu
      have hbefore : prev.any isIdentPart = false := by
        cases prev with
        | none => rfl
        | some d =>
          rw [isTokenEdge_some, isTokenPart, Bool.or_eq_false_iff] at hprev
          exact hprev.1
      have hbehind : u.head?.any isIdentPart = false := head?_any_of_append rest hv
      have hlast : (['n', 'e', 'w'] : Text).getLast?.or prev = some 'w' := rfl
      have hboundary := hword.1
      simp only [hafter, hlast, isWordBoundary, hbefore, hbehind] at hboundary
      exact absurd hboundary (by decide)

/-- Within an expression that joins no operands, nor has a raw leaf nor a word `new`, no expression
that joins operands is read from any place. -/
theorem atStarts_hasOperator {shown : Text}
    (hread : expression (full + 1) (shown ++ rest) b = parsed e rest.skipBlanks b')
    (hshown : Reads (full + 1) b shown e b') (hop : e.hasOperator = false)
    (hraw : e.hasRaw = false) (hword : containsWord ['n', 'e', 'w'] none shown = false)
    (hedge : isTokenEdge rest.head? = true) :
    AtStarts (fun s => ∀ ⦃e' v k⦄, expression (full + 1) s b = parsed e' v k →
      e'.hasOperator = false) none shown rest := by
  obtain ⟨v, b₁, hoperand, hv, hunjoined⟩ := operand_of_expression hread hop
  have hplain : Plain full e := ⟨hop, hraw, Nat.le_of_lt_succ (hshown.depth_lt hraw)⟩
  have hstops : Stops e rest := by
    refine ⟨?_, hedge, fun he => ?_⟩
    · rwa [← unjoined_skipBlanks, hv, unjoined_skipBlanks] at hunjoined
    · rw [← noTrailer_skipBlanks, ← hv, noTrailer_skipBlanks]
      exact noTrailer_of_operand hoperand he
  have hpaid := Reads.pays (full + 1) hshown
  refine (Reads.quiet full (full + 1) hshown hplain none rest rfl hstops
    (atStarts_notNew hword hedge)).imp fun s hs => ?_
  exact fun _ _ _ h => hs.expression (by omega) h

end Run

end Grammar

end Gloss
