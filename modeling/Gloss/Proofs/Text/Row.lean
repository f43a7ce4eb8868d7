import Gloss.Proofs.Text.Blank
import Gloss.Proofs.Text.Word

/-!
# Rows of tokens

The line-oriented recognisers allow layout between their tokens. A clause is a row of tokens with
layout around each of them; skipping layout takes the tokens off it one by one, and trimming takes
off the layout at its ends.
-/

namespace Gloss

/-- No character of a token is layout. -/
theorem isLayout_of_isTokenPart {c : Char} (h : isTokenPart c = true) : isLayout c = false := by
  have hblank := isBlank_of_isTokenPart h
  rw [Bool.eq_false_iff]
  intro hc
  rw [isBlank_of_isLayout hc] at hblank
  cases hblank

/-- No character of an identifier is layout. -/
theorem isLayout_of_isIdentPart {c : Char} (h : isIdentPart c = true) : isLayout c = false :=
  isLayout_of_isTokenPart (isTokenPart_of_isIdentPart h)

/-- No layout character stands in an identifier. -/
theorem isIdentPart_of_isLayout {c : Char} (h : isLayout c = true) : isIdentPart c = false := by
  rw [Bool.eq_false_iff]
  intro hc
  rw [isLayout_of_isIdentPart hc] at h
  cases h

namespace Text

/-- A text of layout characters only. -/
def AllLayout (t : Text) : Prop := ∀ c ∈ t, isLayout c = true

instance (t : Text) : Decidable (AllLayout t) :=
  decidable_of_iff (t.all isLayout = true) List.all_eq_true

/-- A text that is not empty and has no blanks at its ends. -/
structure IsToken (t : Text) : Prop where
  /-- It is not empty. -/
  ne_nil : t ≠ []
  /-- No blanks stand at its ends. -/
  trim_eq : trim t = t

/-- The texts of a row of tokens, each with layout before it. Two tokens that would run together
are kept apart. -/
inductive Row : List Text → Text → Prop
  | nil : Row [] []
  | cons {tok g t : Text} {toks : List Text} : AllLayout g → Row toks t →
      (tok.getLast?.any isIdentPart && t.head?.any isIdentPart) = false →
      Row (tok :: toks) (g ++ (tok ++ t))

/-- The texts of a row of tokens with layout behind it. -/
def Clause (toks : List Text) (t : Text) : Prop := ∃ s g, Row toks s ∧ AllLayout g ∧ t = s ++ g

variable {g s t tok : Text} {toks : List Text} {c : Char}

theorem after?_append (head t : Text) : after? head (head ++ t) = some t :=
  after?_eq_some_iff.mpr rfl

/-- A text of other characters than the given ones has none of them. -/
theorem not_mem_of_all {cs : List Char} (h : t.all (· ∉ cs) = true) (hc : c ∈ cs) : c ∉ t :=
  fun hmem => of_decide_eq_true (List.all_eq_true.mp h c hmem) hc

/-- Layout is blank. -/
theorem AllLayout.allBlank (h : AllLayout g) : AllBlank g := fun c hc =>
  isBlank_of_isLayout (h c hc)

/-- Layout holds no other character. -/
theorem AllLayout.not_mem (h : AllLayout g) (hc : isLayout c = false) : c ∉ g := fun hmem => by
  rw [h c hmem] at hc
  cases hc

/-- A text without blanks that is not empty is a token. -/
theorem isToken_of_forall (hne : t ≠ []) (h : ∀ c ∈ t, isBlank c = false) : IsToken t :=
  ⟨hne, trim_eq_self (fun c hc => h c (List.mem_of_mem_head? hc)) (endsVisible_of_forall h)⟩

/-- An identifier is a token. -/
theorem isToken_of_isIdent (h : isIdent t = true) : IsToken t := by
  refine isToken_of_forall ?_ fun c hc => ?_
  · obtain ⟨c, u, rfl, -⟩ := isIdent_iff.mp h
    exact List.cons_ne_nil c u
  · exact isBlank_of_isIdentPart (List.all_eq_true.mp (all_isIdentPart_of_isIdent h) c hc)

/-- A token begins with a visible character. -/
theorem IsToken.head (h : IsToken t) : ∀ c ∈ t.head?, isBlank c = false := by
  rw [← h.trim_eq]
  exact fun _ => head?_trim

/-- A token ends with a visible character. -/
theorem IsToken.endsVisible (h : IsToken t) : EndsVisible t := by
  rw [← h.trim_eq]
  exact endsVisible_trim t

/-- Layout is skipped up to a token. -/
theorem IsToken.skipLayout_append (h : IsToken tok) (hg : AllLayout g) (t : Text) :
    skipLayout (g ++ (tok ++ t)) = tok ++ t := by
  rw [skipLayout, List.dropWhile_append_of_pos hg]
  cases tok with
  | nil => exact absurd rfl h.ne_nil
  | cons c tok =>
    refine List.dropWhile_cons_of_neg fun hc => ?_
    have hvisible := h.head c rfl
    rw [isBlank_of_isLayout hc] at hvisible
    cases hvisible

/-- The longest ending of one class of characters is determined by the text. -/
theorem append_inj_of_class {p : Char → Bool} {s s' u u' : Text} (h : s ++ u = s' ++ u')
    (hu : u.all p = true) (hu' : u'.all p = true) (hs : s.getLast?.any p = false)
    (hs' : s'.getLast?.any p = false) : s = s' ∧ u = u' := by
  have hfront {s u : Text} (hu : u.all p = true) (hs : s.getLast?.any p = false) :
      (s ++ u).reverse.takeWhile p = u.reverse ∧ (s ++ u).reverse.dropWhile p = s.reverse :=
    span_eq_iff.mpr ⟨List.reverse_append, by rwa [List.all_reverse], by rwa [List.head?_reverse]⟩
  obtain ⟨htake, hdrop⟩ := hfront hu hs
  obtain ⟨htake', hdrop'⟩ := hfront hu' hs'
  rw [h, hdrop', List.reverse_inj] at hdrop
  rw [h, htake', List.reverse_inj] at htake
  exact ⟨hdrop.symm, htake.symm⟩

section Row

/-- A row begins with layout and its first token, which does not run into the next one. -/
theorem Row.of_cons (h : Row (tok :: toks) t) : ∃ g u, AllLayout g ∧ Row toks u ∧
    (tok.getLast?.any isIdentPart && u.head?.any isIdentPart) = false ∧ t = g ++ (tok ++ u) := by
  cases h with
  | cons hg hrow hapart => exact ⟨_, _, hg, hrow, hapart, rfl⟩

/-- A character that no token contains is not in the row, unless it is layout. -/
theorem Row.not_mem (h : Row toks t) (hc : isLayout c = false) (htoks : ∀ tok ∈ toks, c ∉ tok) :
    c ∉ t := by
  induction h with
  | nil => exact List.not_mem_nil
  | cons hg _ _ ih =>
    obtain ⟨htok, htoks⟩ := List.forall_mem_cons.mp htoks
    simp only [List.mem_append, not_or]
    exact ⟨hg.not_mem hc, htok, ih htoks⟩

/-- A row of tokens ends with a visible character. -/
theorem Row.endsVisible (h : Row toks t) (htoks : ∀ tok ∈ toks, IsToken tok) : EndsVisible t := by
  induction h with
  | nil => exact endsVisible_of_forall fun c hc => absurd hc List.not_mem_nil
  | cons _ _ _ ih =>
    obtain ⟨htok, htoks⟩ := List.forall_mem_cons.mp htoks
    exact (htok.endsVisible.append (ih htoks)).append_left (by simp [htok.ne_nil]) _

/-- The layout before a row is skipped. -/
theorem Row.exists_skipLayout (h : Row (tok :: toks) t) (htok : IsToken tok) :
    ∃ u, skipLayout t = tok ++ u ∧ Row toks u := by
  obtain ⟨g, u, hg, hrow, -, rfl⟩ := h.of_cons
  exact ⟨u, htok.skipLayout_append hg u, hrow⟩

/-- Trimming takes off the layout around a clause. -/
theorem Clause.exists_trim (h : Clause (tok :: toks) t)
    (htoks : ∀ tok' ∈ tok :: toks, IsToken tok') :
    ∃ u, trim t = tok ++ u ∧ Row toks u ∧
      (tok.getLast?.any isIdentPart && u.head?.any isIdentPart) = false := by
  obtain ⟨s, h, hrow, hh, rfl⟩ := h
  obtain ⟨g, u, hg, hrow', hapart, rfl⟩ := hrow.of_cons
  obtain ⟨htok, hrest⟩ := List.forall_mem_cons.mp htoks
  refine ⟨u, ?_, hrow', hapart⟩
  rw [List.append_assoc, trim_append hg.allBlank hh.allBlank]
  refine trim_eq_self (fun c hc => ?_) (htok.endsVisible.append (hrow'.endsVisible hrest))
  rw [List.head?_append_of_ne_nil _ htok.ne_nil] at hc
  exact htok.head c hc

/-- A character that is neither layout nor part of a token is not in the clause. -/
theorem Clause.not_mem (h : Clause toks t) (hc : isLayout c = false)
    (htoks : ∀ tok ∈ toks, c ∉ tok) : c ∉ t := by
  obtain ⟨s, g, hrow, hg, rfl⟩ := h
  rw [List.mem_append, not_or]
  exact ⟨hrow.not_mem hc htoks, hg.not_mem hc⟩

end Row

end Text

end Gloss
