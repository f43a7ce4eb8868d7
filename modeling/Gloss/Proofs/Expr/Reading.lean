import Gloss.Proofs.Expr.Grammar

/-!
# Texts of the grammar

What every text of the grammar has in common, by induction on how it is read: it pays one
node of the budget for each node of the tree, its ends are visible characters, and no
comma of it stands outside all brackets.
-/

namespace Gloss

namespace Grammar

open Text Outcome

variable {nested : Rule} {Inner : Reading} {level : Level} {b b' : Nat} {t : Text} {e : Expr}

/-- A whole text is kept as it is, or is a text of the grammar but for blanks behind it. -/
theorem readWhole_cases (hnested : Sound nested Inner)
    (h : readWhole nested t b = some (e, b')) :
    (e = .raw t ∧ b = b' + 1) ∨
      (xorSign ∉ t ∧ ∃ u g, t = u ++ g ∧ AllBlank g ∧ Inner b u e b') := by
  have hraw (h : (if 1 ≤ b then some (Expr.raw t, b - 1) else none) = some (e, b')) :
      e = .raw t ∧ b = b' + 1 := by
    split at h
    · cases h
      exact ⟨rfl, by omega⟩
    · cases h
  rw [readWhole] at h
  split at h
  · exact .inl (hraw h)
  · rename_i hxor
    split at h
    · rename_i e₁ rest left hparsed
      split at h
      · rename_i hrest
        cases h
        obtain ⟨u, g, rfl, hg, hu⟩ := hnested hparsed
        have hblank : AllBlank (g ++ rest) :=
          allBlank_append.mpr ⟨hg, skipBlanks_eq_nil_iff.mp hrest⟩
        exact .inr ⟨hxor, u, g ++ rest, rfl, hblank, hu⟩
      · exact .inl (hraw h)
    · exact .inl (hraw h)
    · cases h

/-- Of several texts the first is read first, and the others with the budget it leaves. -/
theorem readEach_cons {ts : List Text} {es : List Expr} :
    readEach nested (t :: ts) b = some (es, b') ↔ ∃ e b₁ es', es = e :: es' ∧
      readWhole nested t b = some (e, b₁) ∧ readEach nested ts b₁ = some (es', b') := by
  simp only [readEach, Option.bind_eq_some_iff, Option.map_eq_some_iff, Prod.exists,
    Prod.mk.injEq]
  constructor
  · rintro ⟨e, b₁, he, es', _, hes, rfl, rfl⟩
    exact ⟨e, b₁, es', rfl, he, hes⟩
  · rintro ⟨e, b₁, es', rfl, he, hes⟩
    exact ⟨e, b₁, he, es', b', hes, rfl, rfl⟩

section Budget

/-- A relation that pays for what it reads. -/
def Pays (R : Reading) : Prop := ∀ ⦃b t e b'⦄, R b t e b' → b = b' + e.size

/-- What a whole text is read as is paid for node by node. -/
theorem readWhole_pays (hnested : Sound nested Inner) (hinner : Pays Inner)
    (h : readWhole nested t b = some (e, b')) : b = b' + e.size := by
  rcases readWhole_cases hnested h with ⟨rfl, hb⟩ | ⟨-, u, g, -, -, hu⟩
  · exact hb
  · exact hinner hu

/-- What several texts are read as is paid for node by node. -/
theorem readEach_pays (hnested : Sound nested Inner) (hinner : Pays Inner) {ts : List Text}
    {es : List Expr} (h : readEach nested ts b = some (es, b')) : b = b' + Expr.sizes es := by
  induction ts generalizing b es with
  | nil =>
    cases h
    rfl
  | cons t ts ih =>
    obtain ⟨e, b₁, es', rfl, he, hes⟩ := readEach_cons.mp h
    have hpaid := readWhole_pays hnested hinner he
    have hrest := ih hes
    rw [Expr.sizes]
    omega

/-- Each node of the tree costs one. -/
theorem Spells.pays (hnested : Sound nested Inner) (hinner : Pays Inner) :
    Pays (Spells nested Inner level) := by
  intro b t e b' h
  induction h with
  | name | number | construct => simp only [Expr.size]
  | member _ _ _ _ _ ih =>
    rw [Expr.size]
    omega
  | index _ _ _ hs ih =>
    have := readWhole_pays hnested hinner hs
    rw [Expr.size]
    omega
  | call _ _ _ hargs ih =>
    have := readEach_pays hnested hinner hargs
    rw [Expr.size]
    omega
  | group he =>
    have := hinner he
    rw [Expr.size]
    omega
  | constructWith _ _ _ _ _ hargs =>
    have := readEach_pays hnested hinner hargs
    simp only [Expr.size]
    omega
  | signed _ _ _ ih =>
    rw [Expr.size]
    omega
  | multiply _ _ _ _ ihl ihr | add _ _ _ _ ihl ihr =>
    rw [Expr.size]
    omega
  | trailed _ ih | unsigned _ _ ih | factor _ ih | term _ ih => exact ih

/-- What is read in any room is paid for. -/
theorem Reads.pays (room : Nat) : Pays (Reads room) := by
  induction room with
  | zero => exact fun _ _ _ _ h => h.elim
  | succ room ih => exact Spells.pays (expression_sound room) ih

end Budget

section Ends

/-- A primary begins with a character of a number or a name, or with a bracket. -/
theorem Spells.exists_cons (h : Spells nested Inner level b t e b')
    (hlevel : level = .primary ∨ level = .trailed) :
    ∃ c u, t = c :: u ∧ (isIdentPart c = true ∨ c = '(' ∨ c = '{') := by
  have happend {t : Text} (u : Text)
      (h : ∃ c v, t = c :: v ∧ (isIdentPart c = true ∨ c = '(' ∨ c = '{')) :
      ∃ c v, t ++ u = c :: v ∧ (isIdentPart c = true ∨ c = '(' ∨ c = '{') := by
    obtain ⟨c, v, rfl, hc⟩ := h
    exact ⟨c, v ++ u, rfl, hc⟩
  induction h with
  | name hname =>
    obtain ⟨c, u, rfl, hc⟩ := hname.exists_cons
    exact ⟨c, u, rfl, .inl (isIdentPart_of_isIdentStart hc)⟩
  | member _ _ _ _ _ ih | index _ _ _ _ ih | call _ _ _ _ ih => exact happend _ (ih hlevel)
  | trailed _ ih => exact ih (.inr rfl)
  | number hnumeral =>
    obtain ⟨c, u, rfl, hc⟩ := hnumeral.exists_cons
    exact ⟨c, u, rfl, .inl (isIdentPart_of_isDigit hc)⟩
  | @group _ _ fence => cases fence <;> exact ⟨_, _, rfl, .inr (by decide)⟩
  | construct | constructWith => exact ⟨'n', _, rfl, .inl (by decide)⟩
  | unsigned | signed | factor | multiply | term | add => simp at hlevel

/-- Texts of the grammar end with a visible character. -/
theorem Spells.endsVisible (h : Spells nested Inner level b t e b') : EndsVisible t := by
  have hclosed {t : Text} {c : Char} (hc : isBlank c = false) : EndsVisible (t ++ [c]) :=
    (endsVisible_of_forall (by simpa using hc)).append_left (by simp) t
  induction h with
  | name hname => exact hname.endsVisible
  | @member _ _ t g h u _ _ _ _ _ _ hname =>
    obtain ⟨c, v, hu, -⟩ := hname.exists_cons
    have := hname.endsVisible.append_left (by simp [hu]) (t ++ (g ++ '.' :: h))
    simpa only [List.append_assoc, List.cons_append] using this
  | @index _ _ _ t g inside =>
    have := @hclosed (t ++ (g ++ '[' :: inside)) ']' (by decide)
    simpa only [List.append_assoc, List.cons_append] using this
  | @call _ _ _ t g inside =>
    have := @hclosed (t ++ (g ++ '(' :: inside)) ')' (by decide)
    simpa only [List.append_assoc, List.cons_append] using this
  | trailed _ ih | factor _ ih | term _ ih => exact ih
  | number hnumeral =>
    refine endsVisible_of_forall fun c hc => isBlank_of_isTokenPart ?_
    exact List.all_eq_true.mp hnumeral.all_isTokenPart c hc
  | @group _ _ fence t g =>
    have := @hclosed (fence.bracket.opener :: (t ++ g)) fence.bracket.closer
      (by cases fence <;> decide)
    simpa only [List.append_assoc, List.cons_append] using this
  | @construct _ g u _ _ _ hname =>
    obtain ⟨c, v, hu, -⟩ := hname.exists_cons
    have := hname.endsVisible.append_left (by simp [hu]) (['n', 'e', 'w'] ++ g)
    simpa only [List.append_assoc] using this
  | @constructWith _ _ g u h inside =>
    have := @hclosed (['n', 'e', 'w'] ++ (g ++ (u ++ (h ++ '(' :: inside)))) ')' (by decide)
    simpa only [List.append_assoc, List.cons_append] using this
  | @unsigned _ _ g _ _ _ hp ih =>
    obtain ⟨c, u, rfl, -⟩ := hp.exists_cons (.inl rfl)
    exact ih.append_left (by simp) g
  | @signed _ _ g t c _ _ _ hsign _ ih =>
    have := (@hclosed g c (Sign.isBlank_of_ofChar? hsign)).append ih
    rwa [List.append_assoc] at this
  | @multiply _ _ _ t g _ c _ _ _ _ _ hop _ _ ih =>
    have := (@hclosed (t ++ g) c (Operator.isBlank_of_multiplicative? hop)).append ih
    rwa [List.append_assoc, List.append_assoc] at this
  | @add _ _ _ t g _ c _ _ _ _ _ hop _ _ ih =>
    have := (@hclosed (t ++ g) c (Operator.isBlank_of_additive? hop)).append ih
    rwa [List.append_assoc, List.append_assoc] at this

end Ends

section Commas

/-- Token characters are no commas. -/
theorem ne_comma_of_isTokenPart {c : Char} (h : isTokenPart c = true) : c ≠ ',' := by
  rintro rfl
  exact absurd h (by decide)

/-- No comma stands in the spelling of a name. -/
theorem uncut_of_spellsName {n : Bracket.Nesting} {name : Text} (h : SpellsName t name) :
    Uncut n t := by
  refine uncut_of_forall fun c hc => ?_
  rcases h.chars c hc with hblank | htoken
  · rintro rfl
    exact absurd hblank (by decide)
  · exact ne_comma_of_isTokenPart htoken

theorem uncut_cons {n : Bracket.Nesting} {c : Char} (hc : c ≠ ',') (ht : Uncut (n.step c) t) :
    Uncut n (c :: t) :=
  ⟨fun he => absurd he hc, ht⟩

/-- In whatever nesting a text of the grammar stands, it is not cut at a comma. -/
theorem Spells.uncut (hinner : ∀ {b t e b'}, Inner b t e b' → ∀ n, Uncut n t)
    (h : Spells nested Inner level b t e b') : ∀ n, Uncut n t := by
  induction h with
  | name hname => exact fun n => uncut_of_spellsName hname
  | member _ _ hg hh hname ih =>
    intro n
    refine uncut_append.mpr ⟨ih n, uncut_append.mpr ⟨uncut_allBlank hg, ?_⟩⟩
    refine uncut_cons (by decide) (uncut_append.mpr ⟨uncut_allBlank hh, ?_⟩)
    exact uncut_of_spellsName hname
  | index _ hg hinside _ ih =>
    intro n
    refine uncut_append.mpr ⟨ih n, uncut_append.mpr ⟨uncut_allBlank hg, ?_⟩⟩
    exact uncut_enclosed hinside
  | call _ hg hinside _ ih =>
    intro n
    refine uncut_append.mpr ⟨ih n, uncut_append.mpr ⟨uncut_allBlank hg, ?_⟩⟩
    exact uncut_enclosed hinside
  | trailed _ ih | factor _ ih | term _ ih => exact ih
  | number hnumeral =>
    intro n
    refine uncut_of_forall fun c hc => ne_comma_of_isTokenPart ?_
    exact List.all_eq_true.mp hnumeral.all_isTokenPart c hc
  | @group _ _ fence t g _ he hg =>
    intro n
    refine uncut_cons (by cases fence <;> decide) ?_
    refine uncut_append.mpr ⟨hinner he _, uncut_append.mpr ⟨uncut_allBlank hg, ?_⟩⟩
    exact uncut_cons (by cases fence <;> decide) trivial
  | construct hg _ hname =>
    intro n
    refine uncut_append.mpr ⟨uncut_of_forall (by simp), uncut_append.mpr ⟨?_, ?_⟩⟩
    · exact uncut_allBlank hg
    · exact uncut_of_spellsName hname
  | constructWith hg _ hname hh hinside _ =>
    intro n
    refine uncut_append.mpr ⟨uncut_of_forall (by simp), uncut_append.mpr ⟨?_, ?_⟩⟩
    · exact uncut_allBlank hg
    · refine uncut_append.mpr ⟨uncut_of_spellsName hname, ?_⟩
      exact uncut_append.mpr ⟨uncut_allBlank hh, uncut_enclosed hinside⟩
  | unsigned hg _ ih => exact fun n => uncut_append.mpr ⟨uncut_allBlank hg, ih _⟩
  | signed hg hsign _ ih =>
    intro n
    refine uncut_append.mpr ⟨uncut_allBlank hg, uncut_cons ?_ (ih _)⟩
    rcases (Sign.ofChar?_eq_some hsign).2 with rfl | rfl <;> decide
  | multiply _ hg hop _ ihl ihr =>
    intro n
    refine uncut_append.mpr ⟨ihl n, uncut_append.mpr ⟨uncut_allBlank hg, ?_⟩⟩
    refine uncut_cons ?_ (ihr _)
    rcases (Operator.multiplicative?_eq_some hop).2 with rfl | rfl <;> decide
  | add _ hg hop _ ihl ihr =>
    intro n
    refine uncut_append.mpr ⟨ihl n, uncut_append.mpr ⟨uncut_allBlank hg, ?_⟩⟩
    refine uncut_cons ?_ (ihr _)
    rcases (Operator.additive?_eq_some hop).2 with rfl | rfl <;> decide

/-- No comma stands outside all brackets of what is read in any room. -/
theorem Reads.uncut (room : Nat) : ∀ {b t e b'}, Reads room b t e b' → ∀ n, Uncut n t := by
  induction room with
  | zero => exact fun h => h.elim
  | succ room ih => exact fun h => Spells.uncut ih h

end Commas

end Grammar

end Gloss
