import Gloss.Config
import Gloss.Proofs.Text.Word

/-!
# What a fingerprint tells apart

A fingerprint is the digest of the settings, each spelled as text and joined by the unit
separator. Truth values, numerals and dotted names hold no separator, so the settings are read
back from the text that is digested. Configurations whose switches hold truth values therefore
have one such text only if they agree, up to the form in which the names were given.
-/

namespace Gloss

/-- No two numbers have one numeral. -/
theorem Text.ofNat_inj {m n : Nat} : Text.ofNat m = Text.ofNat n ↔ m = n := by
  constructor
  · intro h
    have hread := congrArg (fun t => Nat.ofDigitChars 10 t 0) h
    simpa only [Text.ofNat, Nat.ofDigitChars_ten_toDigits] using hread
  · rintro rfl
    rfl

/-- A decimal numeral holds nothing but digits. -/
theorem Text.isDigit_of_mem_ofNat {n : Nat} {c : Char} (h : c ∈ Text.ofNat n) :
    c.isDigit = true :=
  Nat.isDigit_of_mem_toDigits (by decide) (by decide) h

namespace Config

/-- The two truth values are spelled differently. -/
theorem settingText_bool_inj {a b : Bool} (h : settingText (.bool a) = settingText (.bool b)) :
    a = b := by
  revert h
  cases a <;> cases b <;> decide

/-- A truth value is not spelled in digits. -/
theorem settingText_bool_ne_ofNat (b : Bool) (n : Nat) :
    settingText (.bool b) ≠ Text.ofNat n := by
  intro h
  have hletter : 'e' ∈ Text.ofNat n := by
    rw [← h]
    cases b <;> decide
  exact absurd (Text.isDigit_of_mem_ofNat hletter) (by decide)

/-- No two limits are spelled alike. -/
theorem settingText_limit_inj {a b : Limit} (h : settingText a.toJson = settingText b.toJson) :
    a = b := by
  cases a with
  | count m =>
    cases b with
    | count n => rw [Text.ofNat_inj.mp h]
    | switch on => exact absurd h.symm (settingText_bool_ne_ofNat on m)
  | switch on =>
    cases b with
    | count n => exact absurd h (settingText_bool_ne_ofNat on n)
    | switch off => rw [settingText_bool_inj h]

/-- Names of power functions are not empty and hold neither commas nor separators. -/
theorem apart_of_mem_powerFunctions {c : Config} {name : Text} (h : name ∈ c.powerFunctions) :
    name ≠ [] ∧ ',' ∉ name ∧ Digest.unitSeparator ∉ name := by
  have hdotted := List.all_eq_true.mp c.names_dotted name h
  have htoken := List.all_eq_true.mp (Text.all_isTokenPart_of_isDottedName hdotted)
  refine ⟨?_, fun hm => absurd (htoken _ hm) (by decide),
    fun hm => absurd (htoken _ hm) (by decide)⟩
  rintro rfl
  exact absurd hdotted (by decide)

/-- The names are read back from their list. -/
theorem powerFunctions_eq_of_join {c d : Config}
    (h : Text.join [','] c.powerFunctions = Text.join [','] d.powerFunctions) :
    c.powerFunctions = d.powerFunctions := by
  have hempty {e : Config} (he : Text.join [','] e.powerFunctions = []) :
      e.powerFunctions = [] := by
    cases hnames : e.powerFunctions with
    | nil => rfl
    | cons name names =>
      have hne := (apart_of_mem_powerFunctions (hnames ▸ List.mem_cons_self)).1
      rw [hnames, Text.join_cons] at he
      exact absurd (List.append_eq_nil_iff.mp he).1 hne
  have hcomma (e : Config) : ∀ name ∈ e.powerFunctions, ',' ∉ name :=
    fun _ hname => (apart_of_mem_powerFunctions hname).2.1
  by_cases hc : c.powerFunctions = []
  · rw [hc] at h ⊢
    exact (hempty h.symm).symm
  · by_cases hd : d.powerFunctions = []
    · rw [hd] at h ⊢
      exact hempty h
    · rw [← Text.splitAt_join hc (hcomma c), h, Text.splitAt_join hd (hcomma d)]

/-- The switches of a configuration. -/
def switches (c : Config) : List Json :=
  [c.division, c.power, c.expression, c.summation, c.mapping, c.resolveOverlaps]

/-- Each switch holds a truth value, and no other value that counts as one. -/
def HasTruthValues (c : Config) : Prop := ∀ j ∈ c.switches, ∃ b : Bool, j = .bool b

instance (c : Config) : Decidable c.HasTruthValues :=
  inferInstanceAs (Decidable (∀ j ∈ c.switches, ∃ b : Bool, j = .bool b))

/-- The text whose digest is the fingerprint. -/
def fingerprintText (c : Config) : Text := Text.join [Digest.unitSeparator] c.fingerprintParts

theorem fingerprint_eq_ofText (c : Config) : c.fingerprint = Digest.ofText c.fingerprintText := rfl

/-- No switch is spelled with the separator. -/
def HasApartSwitches (c : Config) : Prop :=
  ∀ j ∈ c.switches, Digest.unitSeparator ∉ settingText j

/-- Truth values are not spelled with the separator. -/
theorem HasTruthValues.hasApartSwitches {c : Config} (hc : c.HasTruthValues) :
    c.HasApartSwitches := by
  intro j hj
  obtain ⟨b, rfl⟩ := hc j hj
  cases b <;> decide

/-- If no switch is spelled with the separator, no setting is. -/
theorem unitSeparator_not_mem {c : Config} (hc : c.HasApartSwitches) :
    ∀ part ∈ c.fingerprintParts, Digest.unitSeparator ∉ part := by
  have hnames : Digest.unitSeparator ∉ Text.join [','] c.powerFunctions := by
    intro hm
    rcases Text.mem_join hm with hm | ⟨name, hname, hm⟩
    · exact absurd hm (by decide)
    · exact (apart_of_mem_powerFunctions hname).2.2 hm
  have hlimit : Digest.unitSeparator ∉ settingText c.maxExpressions.toJson := by
    cases c.maxExpressions with
    | count n => exact fun hm => absurd (Text.isDigit_of_mem_ofNat hm) (by decide)
    | switch on => cases on <;> decide
  simp only [HasApartSwitches, switches, List.mem_cons, List.not_mem_nil, or_false] at hc
  simp only [fingerprintParts, List.forall_mem_cons]
  exact ⟨hc _ (by simp), hc _ (by simp), hc _ (by simp), hc _ (by simp), hc _ (by simp),
    hnames, hlimit, hc _ (by simp), by simp⟩

/-- The spelled settings are read back from the text that is digested. -/
theorem fingerprintParts_eq {c d : Config} (hc : c.HasApartSwitches) (hd : d.HasApartSwitches)
    (h : c.fingerprintText = d.fingerprintText) : c.fingerprintParts = d.fingerprintParts := by
  have hread {e : Config} (he : e.HasApartSwitches) :
      Text.splitAt Digest.unitSeparator e.fingerprintText = e.fingerprintParts :=
    Text.splitAt_join (by simp [fingerprintParts]) (unitSeparator_not_mem he)
  rw [← hread hc, h, hread hd]

/-- If all settings are spelled alike, each switch is, and names and limits are the same. -/
theorem spelled_of_fingerprintParts_eq {c d : Config}
    (h : c.fingerprintParts = d.fingerprintParts) :
    (∀ p ∈ c.switches.zip d.switches, settingText p.1 = settingText p.2) ∧
      c.powerFunctions = d.powerFunctions ∧ c.maxExpressions = d.maxExpressions := by
  simp only [fingerprintParts, List.cons.injEq, and_true] at h
  obtain ⟨hdivision, hpower, hexpression, hsummation, hmapping, hnames, hlimit, hresolve⟩ := h
  refine ⟨?_, powerFunctions_eq_of_join hnames, settingText_limit_inj hlimit⟩
  simp only [switches, List.zip_cons_cons, List.zip_nil_left, List.forall_mem_cons]
  exact ⟨hdivision, hpower, hexpression, hsummation, hmapping, hresolve, by simp⟩

/-- Configurations whose settings are spelled alike agree, up to the form of their names. -/
theorem eq_of_fingerprintText {c d : Config} (hc : c.HasTruthValues) (hd : d.HasTruthValues)
    (hform : c.powerFunctions = d.powerFunctions → c.namesKeyed = d.namesKeyed)
    (h : c.fingerprintText = d.fingerprintText) : c = d := by
  have hparts := fingerprintParts_eq hc.hasApartSwitches hd.hasApartSwitches h
  obtain ⟨hspelled, hnames, hlimit⟩ := spelled_of_fingerprintParts_eq hparts
  have hswitches : ∀ p ∈ c.switches.zip d.switches, p.1 = p.2 := by
    intro p hp
    obtain ⟨hi, hj⟩ := List.of_mem_zip hp
    obtain ⟨a, ha⟩ := hc _ hi
    obtain ⟨b, hb⟩ := hd _ hj
    have hab := hspelled p hp
    rw [ha, hb] at hab ⊢
    rw [settingText_bool_inj hab]
  simp only [switches, List.zip_cons_cons, List.zip_nil_left, List.forall_mem_cons] at hswitches
  obtain ⟨hdivision, hpower, hexpression, hsummation, hmapping, hresolve, -⟩ := hswitches
  have hkeyed := hform hnames
  cases c
  cases d
  simp only at *
  subst_vars
  rfl

end Config

end Gloss
