import Gloss.Json.Parser
import Gloss.Json.Printer
import Mathlib.Tactic.IntervalCases

/-!
# Strings and integers read back

A string is written character by character, each as itself, as a short escape, or as the
escapes of its UTF-16 code units, and read unit by unit; the units of a character join to that
character again, be it one of the basic plane or a surrogate pair. The numeral of an integer has
no leading zero, so the reader takes all of it, provided that nothing follows that would
continue a number.
-/

namespace Gloss

namespace Utf16

/-- No character is a surrogate, and none is beyond the last plane. -/
theorem toNat_bounds (c : Char) : c.toNat < 0xD800 ∨ 0xDFFF < c.toNat ∧ c.toNat < 0x110000 :=
  c.valid

theorem isHigh_iff {u : Nat} : isHigh u = true ↔ 0xD800 ≤ u ∧ u < 0xDC00 := by
  rw [isHigh, Bool.and_eq_true, decide_eq_true_iff, decide_eq_true_iff, highStart, lowStart]

theorem isLow_iff {u : Nat} : isLow u = true ↔ 0xDC00 ≤ u ∧ u < 0xE000 := by
  rw [isLow, Bool.and_eq_true, decide_eq_true_iff, decide_eq_true_iff, lowStart]

/-- The code units of a character are read as that character, whatever follows. -/
theorem decode?_encode_append (c : Char) (us : List Nat) :
    decode? (encode c ++ us) = (decode? us).map (c :: ·) := by
  have hbounds := toNat_bounds c
  unfold encode
  dsimp only
  split
  · have hhigh : ¬ isHigh c.toNat = true := by rw [isHigh_iff]; omega
    have hlow : ¬ isLow c.toNat = true := by rw [isLow_iff]; omega
    rw [List.singleton_append, decode?.eq_def]
    simp only [if_neg hhigh, if_neg hlow, Char.ofNat_toNat]
  · have hhigh : isHigh (highStart + (c.toNat - 0x10000) / 0x400) = true := by
      rw [isHigh_iff, highStart]; omega
    have hlow : isLow (lowStart + (c.toNat - 0x10000) % 0x400) = true := by
      rw [isLow_iff, lowStart]; omega
    have hjoin : joinPair (highStart + (c.toNat - 0x10000) / 0x400)
        (lowStart + (c.toNat - 0x10000) % 0x400) = c.toNat := by
      simp only [joinPair, highStart, lowStart]; omega
    rw [List.cons_append, List.singleton_append, decode?.eq_def]
    simp only [if_pos hhigh, if_pos hlow, hjoin, Char.ofNat_toNat]

/-- The code units of a text are read as that text. -/
theorem decode?_flatMap_encode (t : Text) : decode? (t.flatMap encode) = some t := by
  induction t with
  | nil => rfl
  | cons c t ih => rw [List.flatMap_cons, decode?_encode_append, ih, Option.map_some]

end Utf16

namespace Json

/-- A hexadecimal digit is read as its value. -/
theorem hexValue?_hexDigit {n : Nat} (h : n < 16) : hexValue? (Text.hexDigit n) = some n := by
  interval_cases n <;> rfl

/-- The escape of a code unit is read as the unit. -/
theorem takeUnits?_unitEscape {u : Nat} (h : u < 0x10000) (t : Text) :
    takeUnits? (unitEscape u ++ t) = (takeUnits? t).map fun (us, rest) => (u :: us, rest) := by
  have hdigit (n : Nat) : hexValue? (Text.hexDigit (n % 16)) = some (n % 16) :=
    hexValue?_hexDigit (Nat.mod_lt n (by decide))
  have hunit : hexUnit? (Text.hexDigit (u / 16 / 16 / 16 % 16)) (Text.hexDigit (u / 16 / 16 % 16))
      (Text.hexDigit (u / 16 % 16)) (Text.hexDigit (u % 16)) = some u := by
    simp only [hexUnit?, hdigit, Option.bind_eq_bind, Option.bind_some, Option.pure_def,
      Option.some.injEq]
    omega
  simp only [unitEscape, Text.ofHex, List.nil_append, List.cons_append, takeUnits?, hunit]
  cases takeUnits? t <;> rfl

/-- A character that needs no escape is read as its code unit. -/
theorem takeUnits?_plain {c : Char} (hquote : c ≠ '"') (hback : c ≠ '\\')
    (hcontrol : 0x20 ≤ c.toNat) (t : Text) :
    takeUnits? (c :: t) = (takeUnits? t).map fun (us, rest) => (c.toNat :: us, rest) := by
  rw [takeUnits?.eq_def]
  split <;> simp_all

/-- Whatever stands for a character in a string is read as the code units of the character. -/
theorem takeUnits?_quoteChar (c : Char) (t : Text) : takeUnits? (quoteChar c ++ t) =
    (takeUnits? t).map fun (us, rest) => (Utf16.encode c ++ us, rest) := by
  have hshort {e d : Char} (hu : e ≠ 'u') (he : shortEscape? e = some d)
      (hd : Utf16.encode d = [d.toNat]) : takeUnits? ('\\' :: e :: t) =
        (takeUnits? t).map fun (us, rest) => (Utf16.encode d ++ us, rest) := by
    rw [hd, takeUnits?, he]
    · cases takeUnits? t <;> rfl
    · simp [hu]
  unfold quoteChar
  split_ifs with hquote hback hn hr ht hb hf hplain
  · subst hquote; exact hshort (by decide) rfl rfl
  · subst hback; exact hshort (by decide) rfl rfl
  · subst hn; exact hshort (by decide) rfl rfl
  · subst hr; exact hshort (by decide) rfl rfl
  · subst ht; exact hshort (by decide) rfl rfl
  · subst hb; exact hshort (by decide) rfl rfl
  · subst hf; exact hshort (by decide) rfl rfl
  · simp only [Bool.and_eq_true, decide_eq_true_eq] at hplain
    have hunit : Utf16.encode c = [c.toNat] := if_pos (by omega)
    rw [hunit, List.singleton_append, takeUnits?_plain hquote hback hplain.1]
    rfl
  · have hbounds := Utf16.toNat_bounds c
    unfold Utf16.encode
    dsimp only
    split
    · rename_i hbasic
      rw [List.flatMap_singleton, takeUnits?_unitEscape hbasic]
      rfl
    · rw [List.flatMap_cons, List.flatMap_singleton, List.append_assoc,
        takeUnits?_unitEscape (by simp only [Utf16.highStart]; omega),
        takeUnits?_unitEscape (by simp only [Utf16.lowStart]; omega), Option.map_map]
      rfl

/-- A written string is read back, from behind its opening quote. -/
theorem takeString?_quote (t rest : Text) :
    takeString? (t.flatMap quoteChar ++ '"' :: rest) = some (t, rest) := by
  have hunits : takeUnits? (t.flatMap quoteChar ++ '"' :: rest) =
      some (t.flatMap Utf16.encode, rest) := by
    induction t with
    | nil => rfl
    | cons c t ih =>
      rw [List.flatMap_cons, List.append_assoc, takeUnits?_quoteChar, ih]
      rfl
  simp [takeString?, hunits, Utf16.decode?_flatMap_encode]

/-- What may follow a number that has neither fraction nor exponent: nothing that would
continue it. -/
def EndsInteger (rest : Text) : Prop :=
  ∀ c ∈ rest.head?, c.isDigit = false ∧ c ≠ '.' ∧ c ≠ 'e' ∧ c ≠ 'E'

/-- Where an integer ends there is no fraction. -/
theorem takeFraction_eq {rest : Text} (h : EndsInteger rest) : takeFraction rest = ([], rest) := by
  cases rest with
  | nil => rfl
  | cons c rest =>
    have hpoint := (h c rfl).2.1
    unfold takeFraction
    split <;> simp_all

/-- Where an integer ends there is no exponent. -/
theorem takeExponent_eq {rest : Text} (h : EndsInteger rest) : takeExponent rest = ([], rest) := by
  cases rest with
  | nil => rfl
  | cons c rest =>
    obtain ⟨-, -, he, hE⟩ := h c rfl
    simp [takeExponent, he, hE]

/-- The numeral of a number other than zero begins with another digit than zero. -/
theorem exists_ofNat_eq_cons {n : Nat} (h : n ≠ 0) :
    ∃ c digits, Text.ofNat n = c :: digits ∧ c ≠ '0' := by
  have hdigit : ∀ m < 10, m ≠ 0 → m.digitChar ≠ '0' := by decide
  induction n using Nat.strong_induction_on with
  | _ n ih =>
    rw [Text.ofNat, Nat.toDigits_eq_if (by decide)]
    split
    · rename_i hn
      exact ⟨n.digitChar, [], rfl, hdigit n hn h⟩
    · obtain ⟨c, digits, hdigits, hc⟩ := ih (n / 10) (by omega) (by omega)
      rw [Text.ofNat] at hdigits
      exact ⟨c, digits ++ [(n % 10).digitChar], by rw [hdigits]; rfl, hc⟩

theorem isDigit_of_ofNat_eq_cons {n : Nat} {c : Char} {digits : Text}
    (h : Text.ofNat n = c :: digits) : ∀ d ∈ c :: digits, d.isDigit = true := fun _ hd =>
  Nat.isDigit_of_mem_toDigits (by decide) (by decide) (h ▸ hd : _ ∈ Text.ofNat n)

/-- An integer is written with a sign or a digit in front. -/
theorem exists_ofInt_eq_cons (n : Int) :
    ∃ c t, Text.ofInt n = c :: t ∧ (c = '-' ∨ c.isDigit = true) := by
  cases n with
  | ofNat n =>
    cases heq : Text.ofNat n with
    | nil => exact absurd heq Nat.toDigits_ne_nil
    | cons c digits =>
      exact ⟨c, digits, heq, .inr (isDigit_of_ofNat_eq_cons heq c List.mem_cons_self)⟩
  | negSucc n => exact ⟨_, _, rfl, .inl rfl⟩

/-- All of a numeral is taken. -/
theorem takeWhole?_ofNat (n : Nat) {rest : Text} (h : EndsInteger rest) :
    takeWhole? (Text.ofNat n ++ rest) = some (Text.ofNat n, rest) := by
  by_cases hn : n = 0
  · subst hn
    rfl
  · obtain ⟨c, digits, heq, hzero⟩ := exists_ofNat_eq_cons hn
    have hdigits := isDigit_of_ofNat_eq_cons heq
    rw [List.forall_mem_cons] at hdigits
    have htake : (digits ++ rest).takeWhile Char.isDigit = digits ∧
        (digits ++ rest).dropWhile Char.isDigit = rest := by
      rw [List.takeWhile_append_of_pos hdigits.2, List.dropWhile_append_of_pos hdigits.2]
      cases rest with
      | nil => simp
      | cons d rest => simp [(h d rfl).1]
    rw [heq, List.cons_append, takeWhole?, hdigits.1, if_pos rfl, htake.1, htake.2]
    simpa using hzero

/-- The numeral of an integer is read as that integer. -/
theorem takeNumber?_ofInt (n : Int) {rest : Text} (h : EndsInteger rest) :
    takeNumber? (Text.ofInt n ++ rest) = some (int n, rest) := by
  have hvalue (m : Nat) : Nat.ofDigitChars 10 (Text.ofNat m) 0 = m :=
    Nat.ofDigitChars_ten_toDigits
  rw [takeNumber?.eq_def]
  split
  rename_i negative digits hsign
  cases n with
  | ofNat n =>
    have hunsigned : ∀ u, Text.ofNat n ++ rest ≠ '-' :: u := by
      intro u hu
      cases heq : Text.ofNat n with
      | nil => exact absurd heq Nat.toDigits_ne_nil
      | cons c digits =>
        rw [heq, List.cons_append, List.cons.injEq] at hu
        have hdigit := isDigit_of_ofNat_eq_cons heq c List.mem_cons_self
        rw [hu.1] at hdigit
        exact absurd hdigit (by decide)
    rw [Text.ofInt] at hsign
    split at hsign
    · rename_i u hu
      exact absurd hu (hunsigned u)
    · obtain ⟨rfl, rfl⟩ := Prod.mk.inj hsign
      simp [takeWhole?_ofNat n h, takeFraction_eq h, takeExponent_eq h, hvalue]
  | negSucc n =>
    rw [Text.ofInt, List.cons_append] at hsign
    obtain ⟨rfl, rfl⟩ := Prod.mk.inj hsign
    simp [takeWhole?_ofNat (n + 1) h, takeFraction_eq h, takeExponent_eq h, hvalue,
      Int.negSucc_eq]

end Json

end Gloss
