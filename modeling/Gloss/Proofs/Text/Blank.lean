import Gloss.Text.Word
import Mathlib.Data.List.DropRight

/-!
# Blanks at the ends of a text

Skipping and trimming take blanks off a text and nothing else. What they leave
neither begins nor, once trimmed, ends with a blank.
-/

namespace Gloss

/-- No visible ASCII character is a blank. -/
theorem isBlank_of_visible {c : Char} (hlo : 0x21 ≤ c.toNat) (hhi : c.toNat ≤ 0x7E) :
    isBlank c = false := by
  have apart : ∀ range ∈ blankRanges, range.2 < 0x21 ∨ 0x7E < range.1 := by decide
  rw [isBlank, List.any_eq_false]
  rintro ⟨lo, hi⟩ hmem hrange
  have := apart (lo, hi) hmem
  simp only [Bool.and_eq_true, decide_eq_true_eq] at hrange
  omega

/-- An identifier begins with an ASCII letter or an underscore. -/
theorem bounds_of_isIdentStart {c : Char} (h : isIdentStart c = true) :
    65 ≤ c.toNat ∧ c.toNat ≤ 90 ∨ 97 ≤ c.toNat ∧ c.toNat ≤ 122 ∨ c = '_' := by
  rw [isIdentStart, Bool.or_eq_true, decide_eq_true_eq] at h
  rcases h with h | h
  · have halpha : c.isUpper = true ∨ c.isLower = true := by
      rw [← Bool.or_eq_true]
      exact h
    rcases halpha with hupper | hlower
    · have hbounds : 'A'.val ≤ c.val ∧ c.val ≤ 'Z'.val := of_decide_eq_true hupper
      rw [UInt32.le_iff_toNat_le, UInt32.le_iff_toNat_le] at hbounds
      exact .inl hbounds
    · have hbounds : decide ('a'.val ≤ c.val) = true ∧ decide (c.val ≤ 'z'.val) = true := by
        rw [← Bool.and_eq_true]
        exact hlower
      rw [decide_eq_true_eq, decide_eq_true_eq, UInt32.le_iff_toNat_le,
        UInt32.le_iff_toNat_le] at hbounds
      exact .inr (.inl hbounds)
  · exact .inr (.inr h)

/-- The digits are the ten of ASCII. -/
theorem bounds_of_isDigit {c : Char} (h : c.isDigit = true) : 48 ≤ c.toNat ∧ c.toNat ≤ 57 :=
  Char.isDigit_iff_toNat.mp h

/-- Identifiers are made of visible ASCII characters. -/
theorem visible_of_isIdentPart {c : Char} (h : isIdentPart c = true) :
    0x30 ≤ c.toNat ∧ c.toNat ≤ 0x7A := by
  rw [isIdentPart, Bool.or_eq_true] at h
  rcases h with h | h
  · rcases bounds_of_isIdentStart h with h | h | rfl
    · omega
    · omega
    · decide
  · have := bounds_of_isDigit h
    omega

/-- No character of an identifier is blank. -/
theorem isBlank_of_isIdentPart {c : Char} (h : isIdentPart c = true) : isBlank c = false := by
  have := visible_of_isIdentPart h
  exact isBlank_of_visible (by omega) (by omega)

namespace Text

/-- A text of blanks only. -/
def AllBlank (t : Text) : Prop := ∀ c ∈ t, isBlank c = true

@[simp] theorem allBlank_nil : AllBlank [] := fun _ h => absurd h List.not_mem_nil

theorem allBlank_append {t u : Text} : AllBlank (t ++ u) ↔ AllBlank t ∧ AllBlank u :=
  List.forall_mem_append

theorem allBlank_cons {c : Char} {t : Text} :
    AllBlank (c :: t) ↔ isBlank c = true ∧ AllBlank t :=
  List.forall_mem_cons

/-- Blanks at the front of a text are skipped. -/
theorem skipBlanks_append {g t : Text} (h : AllBlank g) : skipBlanks (g ++ t) = skipBlanks t :=
  List.dropWhile_append_of_pos h

/-- Nothing is left of a blank text once blanks are skipped. -/
theorem AllBlank.skipBlanks_eq {g : Text} (h : AllBlank g) : skipBlanks g = [] := by
  have := skipBlanks_append (t := []) h
  rwa [List.append_nil] at this

/-- A text that does not begin with a blank is left as it is. -/
theorem skipBlanks_cons {c : Char} {t : Text} (h : isBlank c = false) :
    skipBlanks (c :: t) = c :: t :=
  List.dropWhile_cons_of_neg (by rw [h]; simp)

/-- What is skipped is blank. -/
theorem exists_allBlank_append_skipBlanks (t : Text) :
    ∃ g, AllBlank g ∧ t = g ++ skipBlanks t :=
  ⟨t.takeWhile isBlank, fun _ h => List.mem_takeWhile_imp h,
    List.takeWhile_append_dropWhile.symm⟩

/-- Behind the skipped blanks the text ends or goes on with some other character. -/
theorem skipBlanks_head {t : Text} {c : Char} {u : Text} (h : skipBlanks t = c :: u) :
    isBlank c = false := by
  have hnot := List.head?_dropWhile_not isBlank t
  rw [show t.dropWhile isBlank = c :: u from h] at hnot
  exact hnot

@[simp] theorem skipBlanks_skipBlanks (t : Text) : skipBlanks (skipBlanks t) = skipBlanks t := by
  cases h : skipBlanks t with
  | nil => rfl
  | cons c u => exact skipBlanks_cons (skipBlanks_head h)

/-- Only a blank text is skipped as a whole. -/
theorem skipBlanks_eq_nil_iff {t : Text} : skipBlanks t = [] ↔ AllBlank t := by
  rw [skipBlanks, List.dropWhile_eq_nil_iff]
  rfl

section DropEnd

variable {p : Char → Bool}

theorem dropEndWhile_eq_rdropWhile (t : Text) : dropEndWhile p t = t.rdropWhile p := rfl

/-- What is dropped at the end satisfies the condition. -/
theorem exists_append_of_dropEndWhile (p : Char → Bool) (t : Text) :
    ∃ g, (∀ c ∈ g, p c = true) ∧ t = dropEndWhile p t ++ g := by
  refine ⟨(t.reverse.takeWhile p).reverse, ?_, ?_⟩
  · intro c hc
    exact List.mem_takeWhile_imp (List.mem_reverse.mp hc)
  · rw [dropEndWhile, ← List.reverse_append, List.takeWhile_append_dropWhile, List.reverse_reverse]

/-- What is left does not end with a character that satisfies the condition. -/
theorem getLast?_dropEndWhile {t : Text} {c : Char}
    (h : (dropEndWhile p t).getLast? = some c) : p c = false := by
  have hne : t.rdropWhile p ≠ [] := by
    intro he
    rw [dropEndWhile_eq_rdropWhile, he] at h
    exact absurd h (by simp)
  have := List.rdropWhile_last_not p t hne
  rw [dropEndWhile_eq_rdropWhile, List.getLast?_eq_some_getLast hne, Option.some.injEq] at h
  rwa [h, Bool.not_eq_true] at this

end DropEnd

section Trim

variable {g h t u : Text}

/-- The text does not end with a blank. -/
def EndsVisible (t : Text) : Prop := ∀ c ∈ t.getLast?, isBlank c = false

/-- A text without blanks ends with a visible character, if with any. -/
theorem endsVisible_of_forall (h : ∀ c ∈ t, isBlank c = false) : EndsVisible t :=
  fun c hc => h c (List.mem_of_getLast? hc)

/-- Two texts that end with visible characters do so in a row. -/
theorem EndsVisible.append (ht : EndsVisible t) (hu : EndsVisible u) : EndsVisible (t ++ u) := by
  intro c hc
  rw [List.getLast?_append] at hc
  rcases Option.or_eq_some_iff.mp hc with hc | ⟨-, hc⟩
  · exact hu c hc
  · exact ht c hc

/-- Only the end matters. -/
theorem EndsVisible.append_left (hu : EndsVisible u) (hne : u ≠ []) (t : Text) :
    EndsVisible (t ++ u) := by
  intro c hc
  rw [List.getLast?_append, List.getLast?_eq_some_getLast hne, Option.some_or,
    ← List.getLast?_eq_some_getLast hne] at hc
  exact hu c hc

/-- Nothing is skipped where no blank stands in front. -/
theorem skipBlanks_eq_self (hstart : ∀ c ∈ t.head?, isBlank c = false) : skipBlanks t = t := by
  cases t with
  | nil => rfl
  | cons c t => exact skipBlanks_cons (hstart c rfl)

/-- A text without blanks at its ends is left as it is. -/
theorem trim_eq_self (hstart : ∀ c ∈ t.head?, isBlank c = false)
    (hend : EndsVisible t) : trim t = t := by
  rw [trim, skipBlanks_eq_self hstart, dropEndWhile_eq_rdropWhile, List.rdropWhile_eq_self_iff]
  intro hne
  rw [hend _ (List.getLast?_eq_some_getLast hne)]
  exact Bool.false_ne_true

/-- Trimming takes off blanks, and nothing else. -/
theorem exists_allBlank_append_trim (t : Text) :
    ∃ g h, AllBlank g ∧ AllBlank h ∧ t = g ++ (trim t ++ h) := by
  obtain ⟨g, hg, ht⟩ := exists_allBlank_append_skipBlanks t
  obtain ⟨h, hh, hs⟩ := exists_append_of_dropEndWhile isBlank t.skipBlanks
  exact ⟨g, h, hg, hh, by rw [trim, ← hs, ← ht]⟩

/-- A trimmed text begins with a visible character, if with any. -/
theorem head?_trim {c : Char} (hc : c ∈ (trim t).head?) : isBlank c = false := by
  obtain ⟨h, -, hs⟩ := exists_append_of_dropEndWhile isBlank t.skipBlanks
  cases hu : trim t with
  | nil => rw [hu] at hc; cases hc
  | cons d u =>
    rw [hu, List.head?_cons, Option.mem_some_iff] at hc
    rw [show dropEndWhile isBlank t.skipBlanks = d :: u from hu, hc] at hs
    exact skipBlanks_head hs

/-- Blanks at the end of a text are dropped. -/
theorem dropEndWhile_append (ht : EndsVisible t) (hg : AllBlank g) :
    dropEndWhile isBlank (t ++ g) = t := by
  have hback : ∀ c ∈ g.reverse, isBlank c = true := fun c hc => hg c (List.mem_reverse.mp hc)
  rw [dropEndWhile, List.reverse_append, List.dropWhile_append_of_pos hback, ← dropEndWhile,
    dropEndWhile_eq_rdropWhile, List.rdropWhile_eq_self_iff]
  intro hne
  rw [ht _ (List.getLast?_eq_some_getLast hne)]
  exact Bool.false_ne_true

/-- A trimmed text ends with a visible character, if with any. -/
theorem endsVisible_trim (t : Text) : EndsVisible (trim t) := fun _ => getLast?_dropEndWhile

@[simp] theorem trim_trim (t : Text) : trim (trim t) = trim t :=
  trim_eq_self (fun _ => head?_trim) (endsVisible_trim t)

/-- Blanks at the ends make no difference. -/
theorem trim_append (hg : AllBlank g) (hh : AllBlank h) : trim (g ++ (t ++ h)) = trim t := by
  rw [trim, skipBlanks_append hg, trim]
  by_cases ht : skipBlanks t = []
  · have hblank : AllBlank (t ++ h) := allBlank_append.mpr ⟨skipBlanks_eq_nil_iff.mp ht, hh⟩
    rw [hblank.skipBlanks_eq, ht]
  · have happ : skipBlanks (t ++ h) = skipBlanks t ++ h := by
      rw [skipBlanks, List.dropWhile_append, if_neg (by rwa [List.isEmpty_iff])]
      rfl
    have hback : ∀ c ∈ h.reverse, isBlank c = true := fun c hc => hh c (List.mem_reverse.mp hc)
    rw [happ, dropEndWhile, List.reverse_append, List.dropWhile_append_of_pos hback, dropEndWhile]

end Trim

section Solid

variable {c : Char} {t u : Text}

/-- What is left of a text without its blanks and commas. -/
def solid (t : Text) : Text := t.filter fun c => !(isBlank c || c = ',')

@[simp] theorem solid_nil : solid [] = [] := rfl

@[simp] theorem solid_append (t u : Text) : solid (t ++ u) = solid t ++ solid u :=
  List.filter_append t u

theorem solid_cons (hblank : isBlank c = false) (hcomma : c ≠ ',') :
    solid (c :: t) = c :: solid t :=
  List.filter_cons_of_pos (by simp [hblank, hcomma])

/-- Commas are left out. -/
theorem solid_comma : solid (',' :: t) = solid t :=
  List.filter_cons_of_neg (by simp)

/-- Nothing is left of a blank text without blanks and commas. -/
theorem AllBlank.solid_eq (h : AllBlank t) : solid t = [] := by
  rw [solid, List.filter_eq_nil_iff]
  intro c hc
  simp [h c hc]

/-- Only blanks and commas get lost. -/
theorem mem_solid : c ∈ solid t ↔ c ∈ t ∧ isBlank c = false ∧ c ≠ ',' := by
  simp [solid]

/-- Texts that are the same but for blanks and commas have the same other characters. -/
theorem mem_of_solid_eq (h : solid t = solid u) (hblank : isBlank c = false) (hcomma : c ≠ ',')
    (hc : c ∈ t) : c ∈ u := by
  have hsolid : c ∈ solid t := mem_solid.mpr ⟨hc, hblank, hcomma⟩
  rw [h] at hsolid
  exact (mem_solid.mp hsolid).1

/-- Nothing is left out of a text that has neither blanks nor commas. -/
theorem solid_eq_self (h : ∀ c ∈ t, isBlank c = false ∧ c ≠ ',') : solid t = t := by
  rw [solid, List.filter_eq_self]
  intro c hc
  simp [(h c hc).1, (h c hc).2]

@[simp] theorem solid_trim (t : Text) : solid (trim t) = solid t := by
  obtain ⟨g, h, hg, hh, ht⟩ := exists_allBlank_append_trim t
  conv_rhs => rw [ht]
  rw [solid_append, solid_append, hg.solid_eq, hh.solid_eq, List.nil_append, List.append_nil]

end Solid

end Text

end Gloss
