import Gloss.Proofs.Text.Bracket

/-!
# Proper nesting

In a properly nested text each closing bracket closes the bracket opened last. Reading the text
with a stack of open brackets decides that, and the stack falls back below a bracket exactly
where that one is closed. Since a properly nested stretch keeps the depth of each kind, matching
by one kind alone finds that place.
-/

namespace Gloss.Bracket

variable {b : Bracket} {c : Char} {k st st' : List Bracket} {inside rest t u : Text}

/-- The open brackets behind a character, the last one first, if `st` are open before it. There
is no answer where the character closes another bracket than the last one. -/
def openStep? (st : List Bracket) (c : Char) : Option (List Bracket) :=
  match ofOpener? c, ofCloser? c with
  | some b, _ => some (b :: st)
  | none, some b =>
    match st with
    | [] => none
    | last :: st => if last = b then some st else none
  | none, none => some st

/-- The open brackets behind a text, if `st` are open before it. -/
def openAfter? (st : List Bracket) (t : Text) : Option (List Bracket) := t.foldlM openStep? st

/-- The brackets of all three kinds are properly nested. -/
def Nested (t : Text) : Prop := openAfter? [] t = some []

instance (t : Text) : Decidable (Nested t) := inferInstanceAs (Decidable (_ = _))

section Step

@[simp] theorem openStep?_opener (b : Bracket) (st : List Bracket) :
    openStep? st b.opener = some (b :: st) := by
  rw [openStep?, ofOpener?_opener]

@[simp] theorem openStep?_closer_cons (b : Bracket) (st : List Bracket) :
    openStep? (b :: st) b.closer = some st := by
  rw [openStep?, ofOpener?_closer, ofCloser?_closer]
  exact if_pos rfl

/-- Any other character leaves what is open. -/
theorem openStep?_other (h : isBracket c = false) (st : List Bracket) :
    openStep? st c = some st := by
  rw [isBracket, Bool.or_eq_false_iff, Option.isSome_eq_false_iff, Option.isSome_eq_false_iff,
    Option.isNone_iff_eq_none, Option.isNone_iff_eq_none] at h
  rw [openStep?, h.1, h.2]

/-- A bracket can only be closed if it is the last one open. -/
theorem openStep?_closer_eq_some_iff : openStep? st b.closer = some st' ↔ st = b :: st' := by
  constructor
  · intro h
    rw [openStep?, ofOpener?_closer, ofCloser?_closer] at h
    cases st with
    | nil => cases h
    | cons last st =>
      dsimp only at h
      split at h
      · rename_i hlast
        rw [hlast, Option.some.inj h]
      · cases h
  · rintro rfl
    exact openStep?_closer_cons b st'

@[simp] theorem openAfter?_nil (st : List Bracket) : openAfter? st [] = some st := rfl

theorem openAfter?_cons :
    openAfter? st (c :: t) = (openStep? st c).bind fun st' => openAfter? st' t :=
  List.foldlM_cons

theorem openAfter?_append :
    openAfter? st (t ++ u) = (openAfter? st t).bind fun st' => openAfter? st' u :=
  List.foldlM_append

/-- Characters that are no brackets leave everything open that is. -/
theorem openAfter?_of_forall (h : ∀ c ∈ t, isBracket c = false) (st : List Bracket) :
    openAfter? st t = some st := by
  induction t with
  | nil => rfl
  | cons c t ih =>
    obtain ⟨hc, ht⟩ := List.forall_mem_cons.mp h
    rw [openAfter?_cons, openStep?_other hc, Option.bind_some, ih ht]

end Step

section Frame

/-- Brackets that were open before and are not looked at stay open. -/
theorem openAfter?_frame (base : List Bracket) (h : openAfter? st t = some st') :
    openAfter? (st ++ base) t = some (st' ++ base) := by
  induction t generalizing st with
  | nil => rw [openAfter?_nil, Option.some.inj h]
  | cons c t ih =>
    rw [openAfter?_cons] at h ⊢
    obtain ⟨st₁, hstep, h⟩ := Option.bind_eq_some_iff.mp h
    have hframe : openStep? (st ++ base) c = some (st₁ ++ base) := by
      rcases opener_or_closer_or c with ⟨b, rfl⟩ | ⟨b, rfl⟩ | hc
      · rw [openStep?_opener, Option.some.injEq] at hstep ⊢
        rw [← hstep, List.cons_append]
      · rw [openStep?_closer_eq_some_iff] at hstep ⊢
        rw [hstep, List.cons_append]
      · rw [openStep?_other hc, Option.some.injEq] at hstep ⊢
        rw [hstep]
    rw [hframe, Option.bind_some, ih h]

/-- A properly nested stretch leaves everything open that is. -/
theorem Nested.openAfter?_eq (h : Nested t) (st : List Bracket) : openAfter? st t = some st :=
  openAfter?_frame st h

/-- Behind a nested text, nesting is a matter of what follows. -/
theorem nested_append_iff (h : Nested t) : Nested (t ++ u) ↔ Nested u := by
  rw [Nested, Nested, openAfter?_append, h, Option.bind_some]

/-- Two nested texts in a row are nested. -/
theorem Nested.append (ht : Nested t) (hu : Nested u) : Nested (t ++ u) :=
  (nested_append_iff ht).mpr hu

/-- A text without brackets is nested. -/
theorem nested_of_forall (h : ∀ c ∈ t, isBracket c = false) : Nested t := openAfter?_of_forall h []

/-- Two brackets around a properly nested text belong together. -/
theorem Nested.enclosed (h : Nested t) (b : Bracket) : Nested (b.opener :: (t ++ [b.closer])) := by
  rw [Nested, openAfter?_cons, openStep?_opener, Option.bind_some, openAfter?_append,
    h.openAfter?_eq, Option.bind_some, openAfter?_cons, openStep?_closer_cons, Option.bind_some,
    openAfter?_nil]

end Frame

section Match

/-- If no more brackets are open in the end than stood below a bracket, then that one is closed:
before its end all is closed that was opened behind it. -/
theorem exists_closed (h : openAfter? (k ++ b :: st) t = some st') (hle : st'.length ≤ st.length) :
    ∃ inside rest, t = inside ++ b.closer :: rest ∧ openAfter? k inside = some [] ∧
      openAfter? st rest = some st' := by
  induction t generalizing k with
  | nil =>
    obtain rfl := Option.some.inj h
    rw [List.length_append, List.length_cons] at hle
    omega
  | cons c t ih =>
    rw [openAfter?_cons] at h
    obtain ⟨st₁, hstep, h⟩ := Option.bind_eq_some_iff.mp h
    rcases opener_or_closer_or c with ⟨b', rfl⟩ | ⟨b', rfl⟩ | hc
    · rw [openStep?_opener, Option.some.injEq] at hstep
      subst hstep
      obtain ⟨inside, rest, rfl, hinside, hrest⟩ := ih (k := b' :: k) h
      refine ⟨b'.opener :: inside, rest, rfl, ?_, hrest⟩
      rw [openAfter?_cons, openStep?_opener, Option.bind_some, hinside]
    · rw [openStep?_closer_eq_some_iff] at hstep
      cases k with
      | nil =>
        obtain ⟨rfl, rfl⟩ := List.cons.inj hstep
        exact ⟨[], t, rfl, rfl, h⟩
      | cons last k =>
        obtain ⟨rfl, rfl⟩ := List.cons.inj hstep
        obtain ⟨inside, rest, rfl, hinside, hrest⟩ := ih h
        refine ⟨last.closer :: inside, rest, rfl, ?_, hrest⟩
        rw [openAfter?_cons, openStep?_closer_cons, Option.bind_some, hinside]
    · rw [openStep?_other hc, Option.some.injEq] at hstep
      subst hstep
      obtain ⟨inside, rest, rfl, hinside, hrest⟩ := ih h
      refine ⟨c :: inside, rest, rfl, ?_, hrest⟩
      rw [openAfter?_cons, openStep?_other hc, Option.bind_some, hinside]

/-- The depth of one kind is the number of its brackets among those open. -/
theorem depthAfter?_count (h : openAfter? st t = some st') (b : Bracket) :
    b.depthAfter? (st.count b) t = some (st'.count b) := by
  induction t generalizing st with
  | nil => rw [Option.some.inj h, depthAfter?_nil]
  | cons c t ih =>
    rw [openAfter?_cons] at h
    obtain ⟨st₁, hstep, h⟩ := Option.bind_eq_some_iff.mp h
    have hdepth : b.step? (st.count b) c = some (st₁.count b) := by
      rcases opener_or_closer_or c with ⟨b', rfl⟩ | ⟨b', rfl⟩ | hc
      · rw [openStep?_opener, Option.some.injEq] at hstep
        rw [← hstep]
        by_cases hb : b' = b
        · rw [hb, step?_opener, List.count_cons_self]
        · rw [step?_other (fun he => hb (opener_inj he)) (closer_ne_opener b b').symm,
            List.count_cons_of_ne hb]
      · rw [openStep?_closer_eq_some_iff] at hstep
        rw [hstep]
        by_cases hb : b' = b
        · rw [hb, List.count_cons_self, step?_closer]
        · rw [List.count_cons_of_ne hb,
            step?_other (closer_ne_opener b' b) fun he => hb (closer_inj he)]
      · rw [openStep?_other hc, Option.some.injEq] at hstep
        obtain ⟨ho, hcl⟩ := ne_of_isBracket_eq_false hc b
        rw [hstep, step?_other ho hcl]
    rw [depthAfter?_cons, hdepth, Option.bind_some, ih h]

/-- A nested text can stand in brackets of any kind. -/
theorem Nested.encloses (h : Nested t) (b : Bracket) : b.Encloses t := depthAfter?_count h b

/-- Brackets that match by their own kind match by all three, if no bracket from before them is
closed in the end: what stands between them is properly nested. -/
theorem Encloses.nested (hdepth : b.Encloses inside)
    (h : openAfter? st (b.opener :: (inside ++ b.closer :: rest)) = some st')
    (hle : st'.length ≤ st.length) : Nested inside ∧ openAfter? st rest = some st' := by
  rw [openAfter?_cons, openStep?_opener, Option.bind_some] at h
  obtain ⟨inside', rest', htext, hinside, hrest⟩ := exists_closed (k := []) h hle
  have hnested : Nested inside' := hinside
  have hclose := hdepth.close? rest
  rw [htext, (hnested.encloses b).close? rest', Option.some.injEq, Prod.mk.injEq] at hclose
  obtain ⟨rfl, rfl⟩ := hclose
  exact ⟨hnested, hrest⟩

end Match

end Gloss.Bracket
