import Gloss.Json.Literal
import Gloss.Proofs.Json.RoundTrip
import Gloss.Proofs.Text.Blank

/-!
# Literals are printable

A literal escapes the characters that are not printable by their code points. All that a literal
consists of is therefore printable, whatever text the value holds, if no number in it has a
fraction or an exponent.
-/

namespace Gloss

namespace Text

variable {s t : Text} {parts : List Text} {sep : Text}

/-- All characters of a text are printable. -/
def IsPrintable (t : Text) : Prop := ∀ c ∈ t, isPrintable c = true

theorem isPrintable_nil : IsPrintable [] := fun _ hc => absurd hc List.not_mem_nil

theorem isPrintable_cons {c : Char} :
    IsPrintable (c :: t) ↔ isPrintable c = true ∧ IsPrintable t :=
  List.forall_mem_cons

theorem isPrintable_append : IsPrintable (s ++ t) ↔ IsPrintable s ∧ IsPrintable t :=
  List.forall_mem_append

/-- A printable text between two printable characters is printable. -/
theorem isPrintable_enclosed {l r : Char} (hl : isPrintable l = true) (ht : IsPrintable t)
    (hr : isPrintable r = true) : IsPrintable (l :: t ++ [r]) :=
  isPrintable_append.mpr ⟨isPrintable_cons.mpr ⟨hl, ht⟩, isPrintable_cons.mpr ⟨hr, isPrintable_nil⟩⟩

/-- A text is printable if each character of another one was replaced by a printable text. -/
theorem isPrintable_flatMap {f : Char → Text} (h : ∀ c, IsPrintable (f c)) :
    IsPrintable (t.flatMap f) := by
  intro d hd
  obtain ⟨c, -, hd⟩ := List.mem_flatMap.mp hd
  exact h c d hd

/-- Joined texts are printable if all of them and the separator are. -/
theorem isPrintable_join (hsep : IsPrintable sep) (h : ∀ part ∈ parts, IsPrintable part) :
    IsPrintable (join sep parts) := by
  intro c hc
  rcases mem_join hc with hc | ⟨part, hpart, hc⟩
  · exact hsep c hc
  · exact h part hpart c hc

/-- Texts from the space to the tilde are printable. -/
theorem isPrintable_of_all_ascii (h : (t.all fun c => 0x20 ≤ c.toNat && c.toNat < 0x7F) = true) :
    IsPrintable t := by
  intro c hc
  have hbounds := List.all_eq_true.mp h c hc
  rw [Bool.and_eq_true, decide_eq_true_iff, decide_eq_true_iff] at hbounds
  exact isPrintable_of_ascii hbounds.1 hbounds.2

/-- Decimal numerals are printable. -/
theorem isPrintable_ofNat (n : Nat) : IsPrintable (ofNat n) := by
  intro c hc
  have hbounds := bounds_of_isDigit (Nat.isDigit_of_mem_toDigits (by decide) (by decide) hc)
  exact isPrintable_of_ascii (by omega) (by omega)

/-- Numerals of integers are printable, with or without a sign. -/
theorem isPrintable_ofInt (n : Int) : IsPrintable (ofInt n) := by
  cases n with
  | ofNat n => exact isPrintable_ofNat n
  | negSucc n =>
    exact isPrintable_cons.mpr ⟨isPrintable_of_ascii (by decide) (by decide),
      isPrintable_ofNat (n + 1)⟩

/-- Hexadecimal digits are printable. -/
theorem isPrintable_hexDigit {n : Nat} (h : n < 16) : isPrintable (hexDigit n) = true := by
  have hbounds : 0x20 ≤ (hexDigit n).toNat ∧ (hexDigit n).toNat < 0x7F := by
    interval_cases n <;> decide
  exact isPrintable_of_ascii hbounds.1 hbounds.2

/-- Hexadecimal numerals are printable. -/
theorem isPrintable_ofHex (n count : Nat) : IsPrintable (ofHex n count) := by
  induction count generalizing n with
  | zero => exact isPrintable_nil
  | succ count ih =>
    exact isPrintable_append.mpr ⟨ih (n / 16), isPrintable_cons.mpr
      ⟨isPrintable_hexDigit (Nat.mod_lt n (by decide)), isPrintable_nil⟩⟩

end Text

namespace Json

open Text

variable {mark : Char} {code : Text}

/-- An escape is printable if its code is. -/
theorem isPrintable_escape {kind : Char} (hkind : isPrintable kind = true)
    (hcode : IsPrintable code) : IsPrintable ('\\' :: kind :: code) :=
  isPrintable_cons.mpr ⟨isPrintable_of_ascii (by decide) (by decide),
    isPrintable_cons.mpr ⟨hkind, hcode⟩⟩

/-- A character stands for itself only if it is printable. -/
theorem isPrintable_literalChar (hmark : isPrintable mark = true) (c : Char) :
    IsPrintable (literalChar mark c) := by
  have hascii {kind : Char} (h : 0x20 ≤ kind.toNat ∧ kind.toNat < 0x7F) :
      isPrintable kind = true := isPrintable_of_ascii h.1 h.2
  unfold literalChar
  split_ifs with hescaped _ _ _ hprintable
  · rw [Bool.or_eq_true, decide_eq_true_iff, decide_eq_true_iff] at hescaped
    refine isPrintable_escape ?_ isPrintable_nil
    rcases hescaped with rfl | rfl
    · exact hmark
    · exact hascii (by decide)
  · exact isPrintable_escape (hascii (by decide)) isPrintable_nil
  · exact isPrintable_escape (hascii (by decide)) isPrintable_nil
  · exact isPrintable_escape (hascii (by decide)) isPrintable_nil
  · exact isPrintable_cons.mpr ⟨hprintable, isPrintable_nil⟩
  · exact isPrintable_escape (hascii (by decide)) (isPrintable_ofHex _ 2)
  · exact isPrintable_escape (hascii (by decide)) (isPrintable_ofHex _ 4)
  · exact isPrintable_escape (hascii (by decide)) (isPrintable_ofHex _ 8)

/-- The literal of a string is printable, whatever the string holds. -/
theorem isPrintable_literalText (t : Text) : IsPrintable (literalText t) := by
  unfold literalText
  generalize hm : (if '\'' ∈ t && !('"' ∈ t) then '"' else '\'') = mark
  have hmark : isPrintable mark = true := by
    rw [← hm]
    split <;> exact isPrintable_of_ascii (by decide) (by decide)
  exact isPrintable_enclosed hmark (isPrintable_flatMap (isPrintable_literalChar hmark)) hmark

/-- A list of printable literals is printable. -/
theorem isPrintable_commaList {literals : List Text} (h : ∀ t ∈ literals, IsPrintable t) :
    IsPrintable (commaList literals) :=
  isPrintable_join (isPrintable_of_all_ascii (by decide)) h

mutual

/-- A literal is printable, whatever text the value holds. -/
theorem isPrintable_literal : (j : Json) → j.isIntegral = true → IsPrintable j.literal
  | null, _ => isPrintable_of_all_ascii (by decide)
  | bool true, _ => isPrintable_of_all_ascii (by decide)
  | bool false, _ => isPrintable_of_all_ascii (by decide)
  | int n, _ => isPrintable_ofInt n
  | str t, _ => isPrintable_literalText t
  | arr items, h => by
    rw [isIntegral] at h
    rw [literal]
    exact isPrintable_enclosed (isPrintable_of_ascii (by decide) (by decide))
      (isPrintable_commaList (isPrintable_literalItems items h))
      (isPrintable_of_ascii (by decide) (by decide))
  | obj members, h => by
    rw [isIntegral] at h
    rw [literal]
    exact isPrintable_enclosed (isPrintable_of_ascii (by decide) (by decide))
      (isPrintable_commaList (isPrintable_literalMembers members h))
      (isPrintable_of_ascii (by decide) (by decide))

/-- The literals of items are printable. -/
theorem isPrintable_literalItems : (items : List Json) → areIntegral items = true →
    ∀ t ∈ literalItems items, IsPrintable t
  | [], _ => fun _ ht => absurd ht List.not_mem_nil
  | j :: js, h => by
    rw [areIntegral, Bool.and_eq_true] at h
    rw [literalItems, List.forall_mem_cons]
    exact ⟨isPrintable_literal j h.1, isPrintable_literalItems js h.2⟩

/-- The literals of members are printable. -/
theorem isPrintable_literalMembers : (members : List (Text × Json)) →
    haveIntegralValues members = true → ∀ t ∈ literalMembers members, IsPrintable t
  | [], _ => fun _ ht => absurd ht List.not_mem_nil
  | (key, j) :: more, h => by
    rw [haveIntegralValues, Bool.and_eq_true] at h
    rw [literalMembers, List.forall_mem_cons]
    exact ⟨isPrintable_append.mpr ⟨isPrintable_append.mpr
      ⟨isPrintable_literalText key, isPrintable_of_all_ascii (by decide)⟩,
      isPrintable_literal j h.1⟩, isPrintable_literalMembers more h.2⟩

end

end Json

end Gloss
