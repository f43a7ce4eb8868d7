import Gloss.Text.Bracket
import Gloss.Proofs.Text.Blank
import Gloss.Proofs.Text.Join

/-!
# Matching and splitting

A bracket is closed where the depth of its kind first falls below the one it was opened
at. A text is cut at the commas before which the nesting is flat; the nesting is flat again
behind each cut, so parts can be cut off, trimmed and dropped independently of each other.
-/

namespace Gloss

namespace Bracket

variable {b : Bracket} {c : Char} {d : Nat} {n : Nesting} {t u inside rest : Text}

@[simp] theorem ofOpener?_opener (b : Bracket) : ofOpener? b.opener = some b := by
  cases b <;> rfl

@[simp] theorem ofOpener?_closer (b : Bracket) : ofOpener? b.closer = none := by
  cases b <;> rfl

@[simp] theorem ofCloser?_closer (b : Bracket) : ofCloser? b.closer = some b := by
  cases b <;> rfl

/-- A bracket that opens a kind is the opening one of that kind. -/
theorem eq_opener_of_ofOpener? (h : ofOpener? c = some b) : c = b.opener := by
  have := List.find?_some h
  exact (of_decide_eq_true this).symm

/-- A bracket that closes a kind is the closing one of that kind. -/
theorem eq_closer_of_ofCloser? (h : ofCloser? c = some b) : c = b.closer := by
  have := List.find?_some h
  exact (of_decide_eq_true this).symm

/-- Each character opens a bracket, closes one, or does neither. -/
theorem opener_or_closer_or (c : Char) :
    (∃ b : Bracket, c = b.opener) ∨ (∃ b : Bracket, c = b.closer) ∨ isBracket c = false := by
  cases ho : ofOpener? c with
  | some b => exact .inl ⟨b, eq_opener_of_ofOpener? ho⟩
  | none =>
    cases hc : ofCloser? c with
    | some b => exact .inr (.inl ⟨b, eq_closer_of_ofCloser? hc⟩)
    | none => exact .inr (.inr (by rw [isBracket, ho, hc]; rfl))

theorem isBracket_opener (b : Bracket) : isBracket b.opener = true := by
  cases b <;> rfl

theorem isBracket_closer (b : Bracket) : isBracket b.closer = true := by
  cases b <;> rfl

/-- No bracket both opens and closes, whatever the kinds. -/
theorem closer_ne_opener (b b' : Bracket) : b.closer ≠ b'.opener := by
  cases b <;> cases b' <;> decide

theorem opener_inj {b b' : Bracket} (h : b.opener = b'.opener) : b = b' := by
  cases b <;> cases b' <;> first | rfl | exact absurd h (by decide)

theorem closer_inj {b b' : Bracket} (h : b.closer = b'.closer) : b = b' := by
  cases b <;> cases b' <;> first | rfl | exact absurd h (by decide)

/-- A character that is no bracket is none of the two of any kind. -/
theorem ne_of_isBracket_eq_false (h : isBracket c = false) (b : Bracket) :
    c ≠ b.opener ∧ c ≠ b.closer := by
  constructor
  · rintro rfl
    rw [isBracket_opener] at h
    cases h
  · rintro rfl
    rw [isBracket_closer] at h
    cases h

/-- Neither blanks nor the comma are brackets. -/
theorem isBracket_eq_false (h : isBlank c = true ∨ c = ',') : isBracket c = false := by
  rcases h with h | rfl
  · rcases opener_or_closer_or c with ⟨b, rfl⟩ | ⟨b, rfl⟩ | hc
    · cases b <;> exact absurd h (by decide)
    · cases b <;> exact absurd h (by decide)
    · exact hc
  · rfl

section Count

/-- The brackets of a text are those of its first character and those behind it. -/
theorem count_cons_eq_add (x c : Char) (t : Text) :
    (c :: t).count x = [c].count x + t.count x := by
  rw [← List.count_append, List.singleton_append]

/-- A character alone does not count as another one. -/
theorem count_singleton_of_ne {x : Char} (h : c ≠ x) : [c].count x = 0 :=
  List.count_eq_zero_of_not_mem fun hmem => h (List.mem_singleton.mp hmem).symm

@[simp] theorem count_opener_closer (b : Bracket) : [b.opener].count b.closer = 0 :=
  count_singleton_of_ne (closer_ne_opener b b).symm

@[simp] theorem count_closer_opener (b : Bracket) : [b.closer].count b.opener = 0 :=
  count_singleton_of_ne (closer_ne_opener b b)

end Count

section Depth

/-- The number of open brackets of one kind behind a character, if `depth` are open before it.
There is no answer where the character closes one that is not open. -/
def step? (b : Bracket) (depth : Nat) (c : Char) : Option Nat :=
  if c = b.opener then some (depth + 1)
  else if c = b.closer then if depth = 0 then none else some (depth - 1)
  else some depth

/-- The number of open brackets of one kind behind a text, if `depth` are open before it. -/
def depthAfter? (b : Bracket) (depth : Nat) (t : Text) : Option Nat := t.foldlM b.step? depth

/-- The text can stand between two brackets of a kind that belong together. -/
def Encloses (b : Bracket) (inside : Text) : Prop := b.depthAfter? 0 inside = some 0

@[simp] theorem step?_opener (b : Bracket) (d : Nat) : b.step? d b.opener = some (d + 1) :=
  if_pos rfl

@[simp] theorem step?_closer (b : Bracket) (d : Nat) : b.step? (d + 1) b.closer = some d := by
  rw [step?, if_neg (closer_ne_opener b b), if_pos rfl]
  rfl

/-- Any other character stays on its level. -/
theorem step?_other (ho : c ≠ b.opener) (hc : c ≠ b.closer) : b.step? d c = some d := by
  rw [step?, if_neg ho, if_neg hc]

/-- Only a closing bracket on the outermost level closes what was opened before. -/
theorem step?_eq_none_iff : b.step? d c = none ↔ d = 0 ∧ c = b.closer := by
  by_cases ho : c = b.opener
  · subst ho
    simp [(closer_ne_opener b b).symm]
  · by_cases hc : c = b.closer
    · subst hc
      cases d <;> simp [step?, closer_ne_opener]
    · simp [step?, ho, hc]

/-- Behind a character as many brackets are open as counting says. -/
theorem step?_eq_some_iff {e : Nat} :
    b.step? d c = some e ↔ d + [c].count b.opener = e + [c].count b.closer := by
  by_cases ho : c = b.opener
  · subst ho
    rw [step?_opener, Option.some.injEq, List.count_singleton_self, count_opener_closer]
    omega
  · by_cases hc : c = b.closer
    · subst hc
      rw [count_closer_opener, List.count_singleton_self]
      cases d with
      | zero =>
        rw [step?_eq_none_iff.mpr ⟨rfl, rfl⟩]
        simp
      | succ d =>
        rw [step?_closer, Option.some.injEq]
        omega
    · rw [step?_other ho hc, Option.some.injEq, count_singleton_of_ne ho,
        count_singleton_of_ne hc]
      omega

@[simp] theorem depthAfter?_nil : b.depthAfter? d [] = some d := rfl

theorem depthAfter?_cons :
    b.depthAfter? d (c :: t) = (b.step? d c).bind fun e => b.depthAfter? e t :=
  List.foldlM_cons

theorem depthAfter?_append :
    b.depthAfter? d (t ++ u) = (b.depthAfter? d t).bind fun e => b.depthAfter? e u :=
  List.foldlM_append

/-- Blanks and commas do not change the depth. -/
@[simp] theorem depthAfter?_solid (b : Bracket) (d : Nat) (t : Text) :
    b.depthAfter? d (Text.solid t) = b.depthAfter? d t := by
  induction t generalizing d with
  | nil => rfl
  | cons c t ih =>
    by_cases hc : isBlank c = true ∨ c = ','
    · obtain ⟨ho, hcl⟩ := ne_of_isBracket_eq_false (isBracket_eq_false hc) b
      have hdrop : Text.solid (c :: t) = Text.solid t :=
        List.filter_cons_of_neg (by simpa [imp_iff_not_or] using hc)
      rw [hdrop, depthAfter?_cons, step?_other ho hcl, Option.bind_some, ih]
    · obtain ⟨hblank, hcomma⟩ := not_or.mp hc
      rw [Text.solid_cons (Bool.eq_false_iff.mpr hblank) hcomma, depthAfter?_cons,
        depthAfter?_cons]
      simp only [ih]

/-- The closing bracket is the first character, or is sought on the level behind it. -/
theorem close?_cons : b.close? d (c :: t) = match b.step? d c with
    | none => some ([], t)
    | some e => (b.close? e t).map fun (inside, rest) => (c :: inside, rest) := by
  by_cases ho : c = b.opener
  · rw [close?.eq_def, step?, if_pos ho]
    simp only [ho, if_true]
  · by_cases hc : c = b.closer
    · subst hc
      cases d <;> simp [close?, step?, closer_ne_opener]
    · rw [step?_other ho hc]
      simp only [close?, if_neg ho, if_neg hc]

/-- A bracket is closed where the depth falls below that of the bracket. -/
theorem close?_eq_some_iff : b.close? d t = some (inside, rest) ↔
    t = inside ++ b.closer :: rest ∧ b.depthAfter? d inside = some 0 := by
  induction t generalizing d inside rest with
  | nil => simp [close?]
  | cons c t ih =>
    rw [close?_cons]
    cases hstep : b.step? d c with
    | none =>
      obtain ⟨rfl, rfl⟩ := step?_eq_none_iff.mp hstep
      cases inside with
      | nil => simp
      | cons c' inside =>
        simp only [Option.some.injEq, Prod.mk.injEq, reduceCtorEq, false_and, List.cons_append,
          List.cons.injEq, false_iff, not_and]
        rintro ⟨rfl, -⟩
        rw [depthAfter?_cons, hstep]
        simp
    | some e =>
      simp only [Option.map_eq_some_iff, Prod.exists, Prod.mk.injEq, ih]
      constructor
      · rintro ⟨v, _, ⟨rfl, hdepth⟩, rfl, rfl⟩
        refine ⟨rfl, ?_⟩
        rw [depthAfter?_cons, hstep, Option.bind_some, hdepth]
      · rintro ⟨ht, hdepth⟩
        cases inside with
        | nil =>
          obtain ⟨rfl, rfl⟩ := List.cons.inj ht
          obtain rfl : d = 0 := Option.some.inj hdepth
          rw [step?_eq_none_iff.mpr ⟨rfl, rfl⟩] at hstep
          cases hstep
        | cons c' inside =>
          obtain ⟨rfl, rfl⟩ := List.cons.inj ht
          rw [depthAfter?_cons, hstep, Option.bind_some] at hdepth
          exact ⟨inside, rest, ⟨rfl, hdepth⟩, rfl, rfl⟩

/-- A bracket behind a text that it can enclose is closed there. -/
theorem Encloses.close? (h : b.Encloses inside) (rest : Text) :
    b.close? 0 (inside ++ b.closer :: rest) = some (inside, rest) :=
  close?_eq_some_iff.mpr ⟨rfl, h⟩

/-- Whether a text can be enclosed does not depend on blanks and commas. -/
theorem encloses_congr (h : Text.solid t = Text.solid u) : b.Encloses t ↔ b.Encloses u := by
  rw [Encloses, Encloses, ← depthAfter?_solid b 0 t, h, depthAfter?_solid]

end Depth

namespace Nesting

/-- The number of open brackets of one kind. -/
def count (n : Nesting) : Bracket → Nat
  | paren => n.parens
  | brace => n.braces
  | square => n.squares

/-- The nesting behind a text. -/
def after (n : Nesting) (t : Text) : Nesting := t.foldl step n

/-- Nothing is open exactly in the empty nesting. -/
theorem isFlat_iff : n.isFlat = true ↔ n = {} := by
  obtain ⟨p, b, s⟩ := n
  simp [isFlat, and_assoc]

/-- Where a bracket of some kind is open, the nesting is not flat. -/
theorem isFlat_of_count_pos (h : 0 < n.count b) : n.isFlat = false := by
  rw [Bool.eq_false_iff]
  intro hflat
  rw [isFlat_iff.mp hflat] at h
  cases b <;> exact absurd h (by decide)

@[simp] theorem step_opener (n : Nesting) (b : Bracket) : n.step b.opener = n.push b := by
  rw [step, ofOpener?_opener]

@[simp] theorem step_closer (n : Nesting) (b : Bracket) : n.step b.closer = n.pop b := by
  rw [step, ofOpener?_closer, ofCloser?_closer]

/-- Any other character leaves the nesting. -/
theorem step_other (h : isBracket c = false) : n.step c = n := by
  rw [isBracket, Bool.or_eq_false_iff] at h
  rw [step, Option.isSome_eq_false_iff.mp h.1 |> Option.isNone_iff_eq_none.mp,
    Option.isSome_eq_false_iff.mp h.2 |> Option.isNone_iff_eq_none.mp]

@[simp] theorem pop_push (n : Nesting) (b : Bracket) : (n.push b).pop b = n := by
  cases b <;> rfl

/-- Pushing a bracket counts it in its own kind. -/
theorem count_push (n : Nesting) (b b' : Bracket) :
    (n.push b).count b' = if b = b' then n.count b' + 1 else n.count b' := by
  cases b <;> cases b' <;> rfl

/-- Popping a bracket takes it off its own kind, if one was open there. -/
theorem count_pop (n : Nesting) (b b' : Bracket) :
    (n.pop b).count b' = if b = b' then n.count b' - 1 else n.count b' := by
  cases b <;> cases b' <;> rfl

/-- A closing bracket that closes nothing is not counted. -/
theorem count_step_eq (n : Nesting) (b : Bracket) (c : Char) :
    (n.step c).count b = n.count b + [c].count b.opener - [c].count b.closer := by
  rcases opener_or_closer_or c with ⟨b', rfl⟩ | ⟨b', rfl⟩ | hc
  · rw [step_opener, count_push, count_singleton_of_ne (closer_ne_opener b b').symm]
    by_cases hb : b' = b
    · rw [if_pos hb, hb, List.count_singleton_self, Nat.sub_zero]
    · rw [if_neg hb, count_singleton_of_ne fun h => hb (opener_inj h)]
      rfl
  · rw [step_closer, count_pop, count_singleton_of_ne (closer_ne_opener b' b)]
    by_cases hb : b' = b
    · rw [if_pos hb, hb, List.count_singleton_self, Nat.add_zero]
    · rw [if_neg hb, count_singleton_of_ne fun h => hb (closer_inj h)]
      rfl
  · obtain ⟨ho, hcl⟩ := ne_of_isBracket_eq_false hc b
    rw [step_other hc, count_singleton_of_ne ho, count_singleton_of_ne hcl]
    rfl

/-- While no bracket of a kind is closed that is not open, the nesting counts that kind. -/
theorem count_step {e : Nat} (h : b.step? d c = some e) (hle : d ≤ n.count b) :
    (n.step c).count b + d = n.count b + e := by
  have hcount := step?_eq_some_iff.mp h
  rw [count_step_eq]
  omega

@[simp] theorem after_nil (n : Nesting) : n.after [] = n := rfl

@[simp] theorem after_cons (n : Nesting) (c : Char) (t : Text) :
    n.after (c :: t) = (n.step c).after t := rfl

@[simp] theorem after_append (n : Nesting) (t u : Text) :
    n.after (t ++ u) = (n.after t).after u :=
  List.foldl_append

/-- Characters that are no brackets do not change the nesting. -/
theorem after_eq_self (h : ∀ c ∈ t, isBracket c = false) : n.after t = n := by
  induction t with
  | nil => rfl
  | cons c t ih =>
    obtain ⟨hc, ht⟩ := List.forall_mem_cons.mp h
    rw [after_cons, step_other hc, ih ht]

/-- Blanks leave the nesting. -/
theorem after_allBlank (h : Text.AllBlank t) : n.after t = n :=
  after_eq_self fun c hc => isBracket_eq_false (.inl (h c hc))

/-- Blanks and commas do not change the nesting. -/
@[simp] theorem after_solid (n : Nesting) (t : Text) : n.after (Text.solid t) = n.after t := by
  induction t generalizing n with
  | nil => rfl
  | cons c t ih =>
    by_cases hc : isBlank c = true ∨ c = ','
    · have hdrop : Text.solid (c :: t) = Text.solid t :=
        List.filter_cons_of_neg (by simpa [imp_iff_not_or] using hc)
      rw [hdrop, after_cons, step_other (isBracket_eq_false hc), ih]
    · obtain ⟨hblank, hcomma⟩ := not_or.mp hc
      rw [Text.solid_cons (Bool.eq_false_iff.mpr hblank) hcomma, after_cons, after_cons, ih]

/-- Behind a text the nesting counts a kind if it did so before it, and no bracket of that kind is
closed that is not open. -/
theorem count_after {e : Nat} (h : b.depthAfter? d t = some e) (hle : d ≤ n.count b) :
    (n.after t).count b + d = n.count b + e := by
  induction t generalizing n d with
  | nil =>
    rw [depthAfter?_nil, Option.some.injEq] at h
    rw [after_nil, h]
  | cons c t ih =>
    rw [depthAfter?_cons] at h
    obtain ⟨d', hstep, h⟩ := Option.bind_eq_some_iff.mp h
    have hcount := count_step hstep hle
    have := ih h (show d' ≤ (n.step c).count b by omega)
    rw [after_cons]
    omega

/-- A nesting that counts nothing of any kind is flat. -/
theorem isFlat_of_count (h : ∀ b : Bracket, n.count b = 0) : n.isFlat = true := by
  obtain ⟨p, b, s⟩ := n
  have hparens : p = 0 := h paren
  have hbraces : b = 0 := h brace
  have hsquares : s = 0 := h square
  rw [isFlat_iff, hparens, hbraces, hsquares]

/-- Behind a text in which the brackets of each kind belong together nothing is open. -/
theorem isFlat_after (h : ∀ b : Bracket, b.Encloses t) : (after {} t).isFlat = true := by
  refine isFlat_of_count fun b => ?_
  have := count_after (n := {}) (h b) (Nat.zero_le _)
  cases b <;> exact this

end Nesting

/-- A text whose brackets of each kind all belong together. -/
structure Balanced (t : Text) : Prop where
  /-- The nesting behind it is the one before it. -/
  after_eq : ∀ n : Nesting, n.after t = n
  /-- It can stand in brackets of any kind. -/
  depth_eq : ∀ (b : Bracket) (d : Nat), b.depthAfter? d t = some d

/-- A text without brackets is balanced. -/
theorem balanced_of_forall (h : ∀ c ∈ t, isBracket c = false) : Balanced t where
  after_eq n := Nesting.after_eq_self h
  depth_eq b d := by
    induction t with
    | nil => rfl
    | cons c t ih =>
      obtain ⟨hc, ht⟩ := List.forall_mem_cons.mp h
      obtain ⟨ho, hcl⟩ := ne_of_isBracket_eq_false hc b
      rw [depthAfter?_cons, step?_other ho hcl, Option.bind_some, ih ht]

/-- Two balanced texts in a row are balanced. -/
theorem Balanced.append (ht : Balanced t) (hu : Balanced u) : Balanced (t ++ u) where
  after_eq n := by rw [Nesting.after_append, ht.after_eq, hu.after_eq]
  depth_eq b d := by rw [depthAfter?_append, ht.depth_eq, Option.bind_some, hu.depth_eq]

/-- Two brackets around a balanced text belong together. -/
theorem Balanced.enclosed (ht : Balanced t) (b : Bracket) :
    Balanced (b.opener :: (t ++ [b.closer])) where
  after_eq n := by
    rw [Nesting.after_cons, Nesting.step_opener, Nesting.after_append, ht.after_eq,
      Nesting.after_cons, Nesting.step_closer, Nesting.pop_push, Nesting.after_nil]
  depth_eq b' d := by
    rw [depthAfter?_cons]
    by_cases hb : b = b'
    · subst hb
      rw [step?_opener, Option.bind_some, depthAfter?_append, ht.depth_eq, Option.bind_some,
        depthAfter?_cons, step?_closer, Option.bind_some, depthAfter?_nil]
    · have ho : b.opener ≠ b'.opener := fun h => hb (opener_inj h)
      have hc : b.closer ≠ b'.closer := fun h => hb (closer_inj h)
      rw [step?_other ho (closer_ne_opener b' b).symm, Option.bind_some, depthAfter?_append,
        ht.depth_eq, Option.bind_some, depthAfter?_cons, step?_other (closer_ne_opener b b') hc,
        Option.bind_some, depthAfter?_nil]

/-- A balanced text can stand in brackets of any kind. -/
theorem Balanced.encloses (ht : Balanced t) (b : Bracket) : b.Encloses t := ht.depth_eq b 0

end Bracket

namespace Text

open Gloss.Bracket

variable {b : Bracket} {c : Char} {d : Nat} {n : Nesting} {g h p t u : Text} {ps : List Text}

/-- No comma of a text that begins within the nesting `n` stands outside all brackets. -/
def Uncut : (n : Nesting) → Text → Prop
  | _, [] => True
  | n, c :: t => (c = ',' → n.isFlat = false) ∧ Uncut (n.step c) t

instance Uncut.decidable : (n : Nesting) → (t : Text) → Decidable (Uncut n t)
  | _, [] => .isTrue trivial
  | n, c :: t =>
    have := Uncut.decidable (n.step c) t
    inferInstanceAs (Decidable ((c = ',' → n.isFlat = false) ∧ Uncut (n.step c) t))

@[simp] theorem uncut_nil (n : Nesting) : Uncut n [] := trivial

/-- Two texts in a row are uncut if each is in the nesting where it begins. -/
theorem uncut_append : Uncut n (t ++ u) ↔ Uncut n t ∧ Uncut (n.after t) u := by
  induction t generalizing n with
  | nil => simp
  | cons c t ih => simp [Uncut, ih, and_assoc]

/-- A text without commas is uncut. -/
theorem uncut_of_forall (ht : ∀ c ∈ t, c ≠ ',') : Uncut n t := by
  induction t generalizing n with
  | nil => trivial
  | cons c t ih =>
    obtain ⟨hc, ht⟩ := List.forall_mem_cons.mp ht
    exact ⟨fun he => absurd he hc, ih ht⟩

/-- Blanks are uncut. -/
theorem uncut_allBlank (hg : AllBlank g) : Uncut n g :=
  uncut_of_forall fun c hc he => absurd (he ▸ hg c hc) (by decide)

/-- While a bracket stays open, nothing is cut. -/
theorem uncut_of_depthAfter? (ht : (b.depthAfter? d t).isSome = true) (hopen : d < n.count b) :
    Uncut n t := by
  induction t generalizing n d with
  | nil => trivial
  | cons c t ih =>
    rw [depthAfter?_cons] at ht
    obtain ⟨e, hstep, he⟩ : ∃ e, b.step? d c = some e ∧ (b.depthAfter? e t).isSome = true := by
      cases hstep : b.step? d c with
      | none => rw [hstep] at ht; cases ht
      | some e => exact ⟨e, rfl, by rwa [hstep] at ht⟩
    refine ⟨fun _ => Nesting.isFlat_of_count_pos (Nat.zero_lt_of_lt hopen), ih he ?_⟩
    have := Nesting.count_step hstep (Nat.le_of_lt hopen)
    omega

/-- Nothing is cut between two brackets that belong together. -/
theorem uncut_enclosed (ht : b.Encloses t) : Uncut n (b.opener :: (t ++ [b.closer])) := by
  have hopen : b.opener ≠ ',' := by cases b <;> decide
  have hclose : b.closer ≠ ',' := by cases b <;> decide
  refine ⟨fun he => absurd he hopen, uncut_append.mpr ⟨?_, fun he => absurd he hclose, trivial⟩⟩
  refine uncut_of_depthAfter? (b := b) (d := 0) ?_ ?_
  · rw [show b.depthAfter? 0 t = some 0 from ht]
    rfl
  · rw [Nesting.step_opener, Nesting.count_push, if_pos rfl]
    omega

/-- Blanks at the ends of a text do not matter to whether it is uncut. -/
theorem uncut_trim : Uncut n (trim t) ↔ Uncut n t := by
  obtain ⟨g, h, hg, hh, ht⟩ := exists_allBlank_append_trim t
  conv_rhs => rw [ht]
  rw [uncut_append, uncut_append, Nesting.after_allBlank hg]
  exact ⟨fun ht => ⟨uncut_allBlank hg, ht, uncut_allBlank hh⟩, fun ht => ht.2.1⟩

/-- Texts that stay apart when they are joined by commas. -/
structure Separable (ps : List Text) : Prop where
  /-- None of them is cut. -/
  uncut : ∀ p ∈ ps, Uncut {} p
  /-- Behind each but the last the nesting is flat. -/
  flat : ps.Pairwise fun p _ => (Nesting.after {} p).isFlat = true

/-- A comma outside all brackets cuts the text. -/
theorem cutTopLevel_comma (hflat : n.isFlat = true) :
    cutTopLevel [','] n (',' :: t) = [] :: cutTopLevel [','] n t := by
  rw [cutTopLevel, hflat]
  rfl

/-- A character at which nothing is cut belongs to the first part. -/
theorem cutTopLevel_cons (hc : c = ',' → n.isFlat = false)
    (hparts : cutTopLevel [','] (n.step c) t = p :: ps) :
    cutTopLevel [','] n (c :: t) = (c :: p) :: ps := by
  have hno : ¬ (!isBracket c && [c] = [','] && n.isFlat) = true := by
    intro h
    simp only [Bool.and_eq_true, decide_eq_true_eq, List.cons.injEq, and_true] at h
    rw [hc h.1.2] at h
    exact Bool.false_ne_true h.2
  rw [cutTopLevel, if_neg hno, hparts]

/-- An uncut text is its own only part. -/
theorem cutTopLevel_of_uncut (ht : Uncut n t) : cutTopLevel [','] n t = [t] := by
  induction t generalizing n with
  | nil => rfl
  | cons c t ih => exact cutTopLevel_cons ht.1 (ih ht.2)

/-- A comma behind an uncut text is where it is cut off. -/
theorem cutTopLevel_append (ht : Uncut n t) (hflat : (n.after t).isFlat = true) :
    cutTopLevel [','] n (t ++ ',' :: u) = t :: cutTopLevel [','] {} u := by
  induction t generalizing n with
  | nil =>
    have hn : n = {} := Nesting.isFlat_iff.mp hflat
    rw [List.nil_append, hn, cutTopLevel_comma rfl]
  | cons c t ih => exact cutTopLevel_cons ht.1 (ih ht.2 hflat)

/-- The first part is uncut, and flat unless it is the only one. -/
theorem of_cutTopLevel_eq_cons (h : cutTopLevel [','] n t = p :: ps) :
    Uncut n p ∧ (ps = [] ∧ t = p ∨
      ∃ u, t = p ++ ',' :: u ∧ (n.after p).isFlat = true ∧ cutTopLevel [','] {} u = ps) := by
  induction t generalizing n p with
  | nil =>
    cases h
    exact ⟨trivial, .inl ⟨rfl, rfl⟩⟩
  | cons c t ih =>
    by_cases hcut : c = ',' ∧ n.isFlat = true
    · obtain ⟨rfl, hflat⟩ := hcut
      rw [cutTopLevel_comma hflat, List.cons.injEq] at h
      obtain ⟨rfl, hps⟩ := h
      refine ⟨trivial, .inr ⟨t, rfl, hflat, ?_⟩⟩
      rwa [← Nesting.isFlat_iff.mp hflat]
    · have hc : c = ',' → n.isFlat = false := fun hc => Bool.eq_false_iff.mpr fun hf =>
        hcut ⟨hc, hf⟩
      cases hparts : cutTopLevel [','] (n.step c) t with
      | nil => exact absurd hparts (cutTopLevel_ne_nil _ _ _)
      | cons q qs =>
        rw [cutTopLevel_cons hc hparts] at h
        cases h
        obtain ⟨hq, ⟨rfl, rfl⟩ | ⟨u, rfl, hflat, hps⟩⟩ := ih hparts
        · exact ⟨⟨hc, hq⟩, .inl ⟨rfl, rfl⟩⟩
        · exact ⟨⟨hc, hq⟩, .inr ⟨u, rfl, hflat, hps⟩⟩

/-- The parts of a text are separable, and they make up the text. -/
theorem separable_cutTopLevel (t : Text) :
    Separable (cutTopLevel [','] {} t) ∧ join [','] (cutTopLevel [','] {} t) = t := by
  generalize hps : cutTopLevel [','] {} t = ps
  induction ps generalizing t with
  | nil => exact absurd hps (cutTopLevel_ne_nil _ _ _)
  | cons p ps ih =>
    obtain ⟨hp, ⟨rfl, rfl⟩ | ⟨u, rfl, hflat, hrest⟩⟩ := of_cutTopLevel_eq_cons hps
    · exact ⟨⟨by simpa using hp, List.pairwise_singleton _ _⟩, join_singleton⟩
    · obtain ⟨⟨huncut, hflats⟩, hjoin⟩ := ih u hrest
      refine ⟨⟨List.forall_mem_cons.mpr ⟨hp, huncut⟩,
        List.pairwise_cons.mpr ⟨fun _ _ => hflat, hflats⟩⟩, ?_⟩
      cases ps with
      | nil => exact absurd hrest (cutTopLevel_ne_nil _ _ _)
      | cons q qs => rw [join_cons_cons, hjoin]; rfl

/-- Separable texts are the parts of what they are joined to. -/
theorem cutTopLevel_join (hne : ps ≠ []) (hps : Separable ps) :
    cutTopLevel [','] {} (join [','] ps) = ps := by
  induction ps with
  | nil => exact absurd rfl hne
  | cons p ps ih =>
    obtain ⟨hp, huncut⟩ := List.forall_mem_cons.mp hps.uncut
    obtain ⟨hflat, hflats⟩ := List.pairwise_cons.mp hps.flat
    cases ps with
    | nil => rw [join_singleton, cutTopLevel_of_uncut hp]
    | cons q qs =>
      have hq := hflat q List.mem_cons_self
      rw [join_cons_cons, List.cons_append, List.nil_append, cutTopLevel_append hp hq,
        ih (by simp) ⟨huncut, hflats⟩]

/-- Fewer texts are still separable. -/
theorem Separable.sublist {qs : List Text} (hps : Separable ps) (h : qs.Sublist ps) :
    Separable qs :=
  ⟨fun q hq => hps.uncut q (h.subset hq), hps.flat.sublist h⟩

/-- Separable texts may be trimmed. -/
theorem Separable.map_trim (hps : Separable ps) : Separable (ps.map trim) where
  uncut := by
    intro q hq
    obtain ⟨p, hp, rfl⟩ := List.mem_map.mp hq
    exact uncut_trim.mpr (hps.uncut p hp)
  flat := by
    rw [List.pairwise_map]
    refine hps.flat.imp fun {p} _ hp => ?_
    rwa [← Nesting.after_solid, solid_trim, Nesting.after_solid]

/-- The arguments of a text are separable. -/
theorem separable_splitTopLevel (t : Text) : Separable (splitTopLevel [','] t) :=
  (separable_cutTopLevel t).1.map_trim.sublist (List.filter_sublist ..)

/-- The parts of a split text have no blanks at their ends, and none is empty. -/
theorem mem_splitTopLevel {sep : Text} (hp : p ∈ splitTopLevel sep t) : trim p = p ∧ p ≠ [] := by
  obtain ⟨hmem, hne⟩ := List.mem_filter.mp hp
  obtain ⟨q, -, rfl⟩ := List.mem_map.mp hmem
  exact ⟨trim_trim q, by simpa using hne⟩

/-- Splitting what separable texts are joined to gives them back, trimmed; blank ones are
lost. -/
theorem splitTopLevel_join (hps : Separable ps) :
    splitTopLevel [','] (join [','] ps) = (ps.map trim).filter fun part => !part.isEmpty := by
  by_cases hne : ps = []
  · subst hne
    rfl
  · rw [splitTopLevel, cutTopLevel_join hne hps]

/-- Splitting the arguments joined by commas gives the same arguments. -/
theorem splitTopLevel_join_splitTopLevel (t : Text) :
    splitTopLevel [','] (join [','] (splitTopLevel [','] t)) = splitTopLevel [','] t := by
  have htrim : (splitTopLevel [','] t).map trim = splitTopLevel [','] t := by
    rw [List.map_congr_left fun p hp => (mem_splitTopLevel hp).1, List.map_id']
  rw [splitTopLevel_join (separable_splitTopLevel t), htrim, List.filter_eq_self]
  intro p hp
  simpa using (mem_splitTopLevel hp).2

/-- Without blanks and commas, joined parts are the parts in a row. -/
theorem solid_join (ps : List Text) : solid (join [','] ps) = ps.flatMap solid := by
  cases ps with
  | nil => rfl
  | cons p ps =>
    have htail : solid (ps.flatMap ([','] ++ ·)) = ps.flatMap solid := by
      induction ps with
      | nil => rfl
      | cons q qs ih =>
        rw [List.flatMap_cons, List.flatMap_cons, solid_append, ih, List.cons_append, solid_comma,
          List.nil_append]
    rw [join_cons, solid_append, htail, List.flatMap_cons]

/-- Up to blanks and commas the arguments make up the text. -/
theorem flatMap_solid_splitTopLevel (t : Text) :
    (splitTopLevel [','] t).flatMap solid = solid t := by
  have hkeep (ps : List Text) :
      ((ps.map trim).filter fun part => !part.isEmpty).flatMap solid = ps.flatMap solid := by
    induction ps with
    | nil => rfl
    | cons p ps ih =>
      rw [List.map_cons, List.flatMap_cons, ← ih, ← solid_trim p]
      by_cases hp : trim p = []
      · rw [List.filter_cons_of_neg (by simp [hp]), hp, solid_nil, List.nil_append]
      · rw [List.filter_cons_of_pos (by simpa using hp), List.flatMap_cons]
  rw [splitTopLevel, hkeep, ← solid_join, (separable_cutTopLevel t).2]

/-- What stands between the parentheses of a call stands in an argument, blanks and commas aside. -/
theorem exists_mem_splitTopLevel (h : c ∈ t) (hblank : isBlank c = false) (hcomma : c ≠ ',') :
    ∃ p ∈ splitTopLevel [','] t, c ∈ p := by
  have hsolid : c ∈ solid t := mem_solid.mpr ⟨h, hblank, hcomma⟩
  rw [← flatMap_solid_splitTopLevel, List.mem_flatMap] at hsolid
  obtain ⟨p, hp, hc⟩ := hsolid
  exact ⟨p, hp, (mem_solid.mp hc).1⟩

end Text

end Gloss
