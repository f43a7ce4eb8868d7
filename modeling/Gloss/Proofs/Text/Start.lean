import Gloss.Proofs.Occurrence
import Gloss.Proofs.Text.Word

/-!
# Where expressions may begin

An expression may begin at a character of a token, a bracket or a sign that no token stands
before. A property of texts holds at the starts of a text if it holds of what follows, from each
such place on. It is put together from its parts: blanks have no starts, a token has its front at
most, and the starts of a concatenation are those of its two texts.
-/

namespace Gloss

/-- A token ends in front of a character that is part of none. -/
theorem isTokenEdge_some {c : Char} : isTokenEdge (some c) = true ↔ isTokenPart c = false := by
  rw [isTokenEdge, Option.any_some, Bool.not_eq_true']

namespace Text

/-- What holds of the text from each place on in `t` where a token may begin an expression, if `t`
stands behind the character `prev` and in front of `rest`. -/
def AtStarts (P : Text → Prop) : (prev : Option Char) → (t rest : Text) → Prop
  | _, [], _ => True
  | prev, c :: t, rest =>
    (isExprStart c = true → isTokenEdge prev = true → P (c :: (t ++ rest))) ∧
      AtStarts P (some c) t rest

variable {P Q : Text → Prop} {prev : Option Char} {c : Char} {g t u name rest : Text}

/-- The last character of a text is that of its tail or, if that is empty, its first one. -/
theorem getLast?_cons_or (c : Char) (t : Text) (prev : Option Char) :
    (c :: t).getLast?.or prev = t.getLast?.or (some c) := by
  rw [List.getLast?_cons, Option.some_or]
  cases t.getLast? <;> rfl

/-- What holds at the starts may be weakened. -/
theorem AtStarts.imp (h : AtStarts P prev t rest) (hPQ : ∀ s, P s → Q s) :
    AtStarts Q prev t rest := by
  induction t generalizing prev with
  | nil => trivial
  | cons c t ih => exact ⟨fun hc hprev => hPQ _ (h.1 hc hprev), ih h.2⟩

/-- Two things that hold at the starts hold there together. -/
theorem AtStarts.and (hP : AtStarts P prev t rest) (hQ : AtStarts Q prev t rest) :
    AtStarts (fun s => P s ∧ Q s) prev t rest := by
  induction t generalizing prev with
  | nil => trivial
  | cons c t ih => exact ⟨fun hc hprev => ⟨hP.1 hc hprev, hQ.1 hc hprev⟩, ih hP.2 hQ.2⟩

/-- The starts in two texts in a row are those in the first and those in the second. -/
theorem atStarts_append : AtStarts P prev (t ++ u) rest ↔
    AtStarts P prev t (u ++ rest) ∧ AtStarts P (t.getLast?.or prev) u rest := by
  induction t generalizing prev with
  | nil => exact ⟨fun h => ⟨trivial, h⟩, fun h => h.2⟩
  | cons c t ih =>
    rw [List.cons_append, AtStarts, AtStarts, ih, getLast?_cons_or, List.append_assoc, and_assoc]

/-- What holds at the starts of a text holds at each of them. -/
theorem AtStarts.at (h : AtStarts P prev (t ++ c :: u) rest) (hc : isExprStart c = true)
    (hprev : isTokenEdge (t.getLast?.or prev) = true) : P (c :: (u ++ rest)) :=
  (atStarts_append.mp h).2.1 hc hprev

/-- What holds at the starts of a text holds at each position where one is. -/
theorem AtStarts.at_position {i : Nat} (h : AtStarts P prev t rest)
    (hstart : t[i]?.any isExprStart = true)
    (hedge : isTokenEdge (before prev t i) = true) : P (t.drop i ++ rest) := by
  induction t generalizing prev i with
  | nil => cases hstart
  | cons c t ih =>
    cases i with
    | zero => exact h.1 hstart hedge
    | succ i =>
      rw [before_cons] at hedge
      exact ih h.2 hstart hedge

/-- A text of characters that start nothing has no starts. -/
theorem atStarts_of_forall (h : ∀ c ∈ t, isExprStart c = false) : AtStarts P prev t rest := by
  induction t generalizing prev with
  | nil => trivial
  | cons c t ih =>
    obtain ⟨hc, ht⟩ := List.forall_mem_cons.mp h
    refine ⟨fun hstart => ?_, ih ht⟩
    rw [hc] at hstart
    cases hstart

/-- No expression starts at a blank. -/
theorem atStarts_allBlank (hg : AllBlank g) : AtStarts P prev g rest := by
  refine atStarts_of_forall fun c hc => ?_
  rw [Bool.eq_false_iff]
  intro hstart
  have := hg c hc
  rw [isBlank_of_isExprStart hstart] at this
  cases this

/-- What holds at the starts of a text with brackets at its end holds at those of what stands before
the brackets and at those of what they enclose. -/
theorem AtStarts.of_bracketed {d : Char} (h : AtStarts P prev (t ++ (g ++ c :: (u ++ [d]))) rest) :
    AtStarts P prev t (g ++ c :: (u ++ d :: rest)) ∧ AtStarts P (some c) u (d :: rest) := by
  rw [atStarts_append, atStarts_append] at h
  obtain ⟨ht, -, -, hu⟩ := h
  rw [List.append_assoc, List.cons_append, List.append_assoc, List.singleton_append] at ht
  exact ⟨ht, (atStarts_append.mp hu).1⟩

/-- What holds at the starts of a text, of what stands in brackets behind it and from the opening
bracket on holds at the starts of the whole. -/
theorem atStarts_bracketed {d : Char} (hg : AllBlank g) (hd : isExprStart d = false)
    (ht : AtStarts P prev t (g ++ c :: (u ++ d :: rest))) (hc : P (c :: (u ++ d :: rest)))
    (hu : AtStarts P (some c) u (d :: rest)) :
    AtStarts P prev (t ++ (g ++ c :: (u ++ [d]))) rest := by
  have hlast : AtStarts P (u.getLast?.or (some c)) [d] rest :=
    atStarts_of_forall (List.forall_mem_singleton.mpr hd)
  have hinside : AtStarts P (some c) (u ++ [d]) rest := atStarts_append.mpr ⟨hu, hlast⟩
  rw [atStarts_append, List.append_assoc, List.cons_append, List.append_assoc,
    List.singleton_append]
  refine ⟨ht, atStarts_append.mpr ⟨atStarts_allBlank hg, fun _ _ => ?_, hinside⟩⟩
  rwa [List.append_assoc, List.singleton_append]

/-- Within a token nothing begins but the token itself. -/
theorem atStarts_token (ht : ∀ c ∈ t, isTokenPart c = true)
    (h : isTokenEdge prev = true → P (t ++ rest)) : AtStarts P prev t rest := by
  have hinner {t : Text} {c : Char} (hc : isTokenPart c = true)
      (ht : ∀ c ∈ t, isTokenPart c = true) : AtStarts P (some c) t rest := by
    induction t generalizing c with
    | nil => trivial
    | cons d t ih =>
      obtain ⟨hd, ht⟩ := List.forall_mem_cons.mp ht
      refine ⟨fun _ hedge => ?_, ih hd ht⟩
      rw [isTokenEdge_some, hc] at hedge
      cases hedge
  cases t with
  | nil => trivial
  | cons c t =>
    obtain ⟨hc, ht⟩ := List.forall_mem_cons.mp ht
    exact ⟨fun _ => h, hinner hc ht⟩

/-- A token may begin behind blanks. -/
theorem isTokenEdge_allBlank (hg : AllBlank g) (hprev : isTokenEdge prev = true) :
    isTokenEdge (g.getLast?.or prev) = true := by
  cases hlast : g.getLast? with
  | none => exact hprev
  | some c =>
    rw [Option.some_or, isTokenEdge_some, Bool.eq_false_iff]
    intro hc
    have := hg c (List.mem_of_getLast? hlast)
    rw [isBlank_of_isTokenPart hc] at this
    cases this

/-- Where a token may begin within a name, a name is spelled from there on. -/
theorem Segments.atStarts {ss : List Text} (h : Segments isBlank t ss) :
    AtStarts (fun s => ∃ u name, s = u ++ rest ∧ SpellsName u name) prev t rest := by
  induction h generalizing prev with
  | nil => trivial
  | @cons g h s t ss hg hh hs hsegments ih =>
    refine atStarts_append.mpr ⟨atStarts_allBlank (List.all_eq_true.mp hg), ?_⟩
    refine ⟨fun hstart => absurd hstart (by decide), ?_⟩
    refine atStarts_append.mpr ⟨atStarts_allBlank (List.all_eq_true.mp hh), ?_⟩
    refine atStarts_append.mpr ⟨atStarts_token (isTokenPart_of_isIdent hs) fun _ => ?_, ih⟩
    exact ⟨s ++ t, _, (List.append_assoc ..).symm, _, .mk hs hsegments, rfl⟩

/-- At each start in a name the rest of it spells a name. -/
theorem SpellsName.atStarts (h : SpellsName t name) :
    AtStarts (fun s => ∃ u name, s = u ++ rest ∧ SpellsName u name) prev t rest := by
  obtain ⟨ss, ⟨hs, hsegments⟩, -⟩ := h
  rename_i s t ss
  refine atStarts_append.mpr ⟨atStarts_token (isTokenPart_of_isIdent hs) fun _ => ?_,
    hsegments.atStarts⟩
  exact ⟨s ++ t, _, (List.append_assoc ..).symm, _, .mk hs hsegments, rfl⟩

end Text

end Gloss
