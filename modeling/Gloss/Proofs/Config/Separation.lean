import Gloss.Proofs.Config
import Gloss.Proofs.Json.Literal

/-!
# What a fingerprint mistakes

A fingerprint spells its switches, whereas a switch is on or off by its value. A string is
spelled as it is, so it may spell a value of another kind: `"False"` is on and spelled like
falsity, which is off. No other values are mistaken for each other. Configurations of one
fingerprint thus behave alike, unless a switch of one is such a string and that of the other
the value that it spells. Strings that hold the separator can spell several settings at once, so
they may give one fingerprint to configurations none of whose switches is mistaken in that way.
Switches with such strings, and with numbers other than integers, are therefore left aside.
-/

namespace Gloss

namespace Config

variable {c d : Config} {i j : Json}

/-- How the values that count as off are spelled. -/
def offTexts : List Text := ["None", "False", "0", "", "()", "\x7b\x7d"].map String.toList

/-- A value that is off is spelled in one of six ways. -/
theorem settingText_mem_offTexts (h : j.isOn = false) : settingText j ∈ offTexts := by
  cases j with
  | null => decide
  | bool b =>
    obtain rfl : b = false := h
    decide
  | int n =>
    obtain rfl : n = 0 := by simpa [Json.isOn] using h
    decide
  | real t => exact absurd h (by simp [Json.isOn])
  | str t =>
    obtain rfl : t = [] := by simpa [Json.isOn] using h
    decide
  | arr items =>
    obtain rfl : items = [] := by simpa [Json.isOn] using h
    decide
  | obj members =>
    obtain rfl : members = [] := by simpa [Json.isOn] using h
    decide

/-- A number that is not zero is not spelled like a value that is off. -/
theorem ofInt_not_mem_offTexts {n : Int} (h : n ≠ 0) : Text.ofInt n ∉ offTexts := by
  have hdigits : ∀ t ∈ offTexts, t.all Char.isDigit = true → t = [] ∨ t = Text.ofNat 0 := by decide
  intro hm
  cases n with
  | ofNat n =>
    rcases hdigits _ hm (List.all_eq_true.mpr fun _ => Text.isDigit_of_mem_ofNat) with hn | hn
    · exact absurd hn Nat.toDigits_ne_nil
    · exact h (congrArg Int.ofNat (Text.ofNat_inj.mp hn))
  | negSucc n =>
    have hsign : ∀ t ∈ offTexts, t.head? ≠ some '-' := by decide
    exact hsign _ hm rfl

/-- Of the values that are on, only strings are spelled like values that are off. -/
theorem eq_str_of_settingText_mem_offTexts (hj : j.isIntegral = true) (hon : j.isOn = true)
    (h : settingText j ∈ offTexts) : j = .str (settingText j) := by
  have hmarks : ∀ t ∈ offTexts, ',' ∉ t ∧ ':' ∉ t := by decide
  cases j with
  | null => exact absurd hon (by decide)
  | bool b =>
    obtain rfl : b = true := hon
    exact absurd h (by decide)
  | int n => exact absurd h (ofInt_not_mem_offTexts (by simpa [Json.isOn] using hon))
  | real t => exact absurd hj (by simp [Json.isIntegral])
  | str t => rfl
  | arr items =>
    refine absurd ?_ (hmarks _ h).1
    match items, hon with
    | [k], _ => simp [settingText]
    | k :: l :: items, _ =>
      simp [settingText, Json.literalItems, Json.commaList]
  | obj members =>
    refine absurd ?_ (hmarks _ h).2
    match members, hon with
    | (key, k) :: members, _ =>
      simp [settingText, Json.plainText, Json.literal, Json.literalMembers, Json.commaList,
        Text.join_cons]

/-- A switch that is a string and on, where the other one is off and spelled with that string. -/
def MistakenFor (j i : Json) : Prop :=
  j = .str (settingText i) ∧ j.isOn = true ∧ i.isOn = false

instance : Decidable (MistakenFor j i) :=
  inferInstanceAs (Decidable (j = .str (settingText i) ∧ j.isOn = true ∧ i.isOn = false))

/-- If a switch is mistaken for another one, one of the two is on and one is off. -/
theorem MistakenFor.isOn_ne (h : MistakenFor j i) : j.isOn ≠ i.isOn := by
  rw [h.2.1, h.2.2]
  decide

/-- Of two values with one spelling, one on and one off, the former is mistaken for the latter. -/
theorem mistakenFor_of_isOn (hj : j.isIntegral = true) (h : settingText j = settingText i)
    (hon : j.isOn = true) (hoff : i.isOn ≠ true) : MistakenFor j i := by
  have hoff := Bool.eq_false_of_not_eq_true hoff
  have hspelled : settingText j ∈ offTexts := h ▸ settingText_mem_offTexts hoff
  exact ⟨h ▸ eq_str_of_settingText_mem_offTexts hj hon hspelled, hon, hoff⟩

/-- Two values that are spelled alike are both on or both off, unless one is mistaken. -/
theorem isOn_eq_iff (hi : i.isIntegral = true) (hj : j.isIntegral = true)
    (h : settingText i = settingText j) :
    i.isOn = j.isOn ↔ ¬ MistakenFor i j ∧ ¬ MistakenFor j i := by
  constructor
  · exact fun heq => ⟨fun hij => hij.isOn_ne heq, fun hji => hji.isOn_ne heq.symm⟩
  · rintro ⟨hij, hji⟩
    rw [Bool.eq_iff_iff]
    constructor
    · intro hon
      by_contra hoff
      exact hij (mistakenFor_of_isOn hi h hon hoff)
    · intro hon
      by_contra hoff
      exact hji (mistakenFor_of_isOn hj h.symm hon hoff)

/-- Only strings are spelled with characters that are not printable. -/
theorem isPrintable_settingText (hj : j.isIntegral = true) (hstr : ∀ t, j ≠ .str t) :
    Text.IsPrintable (settingText j) := by
  have hopen : isPrintable '(' = true := isPrintable_of_ascii (by decide) (by decide)
  have hclose : isPrintable ')' = true := isPrintable_of_ascii (by decide) (by decide)
  cases j with
  | str t => exact absurd rfl (hstr t)
  | arr items =>
    have hitems := Json.isPrintable_literalItems items hj
    match items with
    | [] => exact Text.isPrintable_of_all_ascii (by decide)
    | [k] =>
      have hk := hitems _ List.mem_cons_self
      exact Text.isPrintable_append.mpr ⟨Text.isPrintable_cons.mpr ⟨hopen, hk⟩,
        Text.isPrintable_of_all_ascii (by decide)⟩
    | k :: l :: more =>
      exact Text.isPrintable_enclosed hopen (Json.isPrintable_commaList hitems) hclose
  | null | bool b | int n | real t | obj members => exact Json.isPrintable_literal _ hj

/-- Strings that hold a separator are spelled like others that are cut elsewhere. -/
theorem fingerprintText_recut (c : Config) (s t u : Text) :
    fingerprintText { c with
        division := .str s, power := .str (t ++ Digest.unitSeparator :: u) } =
      fingerprintText { c with
        division := .str (s ++ Digest.unitSeparator :: t), power := .str u } := by
  simp [fingerprintText, fingerprintParts, Text.join_cons, settingText, Json.plainText]

/-- Whether a switch has integers for numbers and, if it is a string, holds no separator. -/
def isSeparable : Json → Bool
  | .str t => Digest.unitSeparator ∉ t
  | j => j.isIntegral

/-- A separable switch holds no numbers but integers. -/
theorem isIntegral_of_isSeparable (h : isSeparable j = true) : j.isIntegral = true := by
  cases j with
  | str t => rfl
  | null | bool b | int n | real t | arr items | obj members => exact h

/-- A separable switch is not spelled with the separator. -/
theorem unitSeparator_not_mem_settingText (h : isSeparable j = true) :
    Digest.unitSeparator ∉ settingText j := by
  by_cases hs : ∃ t, j = .str t
  · obtain ⟨t, rfl⟩ := hs
    exact of_decide_eq_true h
  · intro hm
    have hprintable :=
      isPrintable_settingText (isIntegral_of_isSeparable h) (fun t ht => hs ⟨t, ht⟩)
    exact absurd (hprintable _ hm) (by decide)

theorem map_isEnabled_builtinNames (c : Config) : builtinNames.map c.isEnabled =
    [c.division, c.power, c.expression, c.summation, c.mapping].map Json.isOn := rfl

/-- Which detectors are enabled and whether overlaps are resolved is told by the switches. -/
theorem forall_isOn_eq_iff :
    (∀ p ∈ c.switches.zip d.switches, p.1.isOn = p.2.isOn) ↔
      (∀ name ∈ builtinNames, c.isEnabled name = d.isEnabled name) ∧ c.resolves = d.resolves := by
  rw [← List.map_inj_left (l := builtinNames), map_isEnabled_builtinNames,
    map_isEnabled_builtinNames]
  simp [switches, resolves, and_assoc]

/-- Configurations of one fingerprint agree in their names and limits. They agree in what is
enabled and whether overlaps are resolved exactly if no switch is mistaken for the other's. -/
theorem alike_iff_of_fingerprint_eq
    (hc : ∀ j ∈ c.switches, isSeparable j = true) (hd : ∀ j ∈ d.switches, isSeparable j = true)
    (hdigest : Digest.ofText c.fingerprintText = Digest.ofText d.fingerprintText →
      c.fingerprintText = d.fingerprintText)
    (h : c.fingerprint = d.fingerprint) :
    c.powerFunctions = d.powerFunctions ∧ c.maxExpressions = d.maxExpressions ∧
      ((∀ name ∈ builtinNames, c.isEnabled name = d.isEnabled name) ∧ c.resolves = d.resolves ↔
        ∀ p ∈ c.switches.zip d.switches, ¬ MistakenFor p.1 p.2 ∧ ¬ MistakenFor p.2 p.1) := by
  have hparts : c.fingerprintParts = d.fingerprintParts :=
    fingerprintParts_eq (fun j hj => unitSeparator_not_mem_settingText (hc j hj))
      (fun j hj => unitSeparator_not_mem_settingText (hd j hj)) (hdigest h)
  obtain ⟨hspelled, hnames, hlimit⟩ := spelled_of_fingerprintParts_eq hparts
  refine ⟨hnames, hlimit, ?_⟩
  rw [← forall_isOn_eq_iff]
  refine forall₂_congr fun p hp => ?_
  obtain ⟨hpc, hpd⟩ := List.of_mem_zip hp
  exact isOn_eq_iff (isIntegral_of_isSeparable (hc _ hpc)) (isIntegral_of_isSeparable (hd _ hpd))
    (hspelled p hp)

/-- A string that spells truth is on, as truth is. -/
theorem alike_iff_of_fingerprint_eq_truth :
    let c : Config := { power := .bool true, mapping := .arr [] }
    let d : Config := { power := .str "True".toList, mapping := .arr [] }
    c.fingerprint = d.fingerprint ∧
      (∀ name ∈ builtinNames, c.isEnabled name = d.isEnabled name) ∧ c.resolves = d.resolves := by
  intro c d
  have htext : c.fingerprintText = d.fingerprintText := by decide
  have hdigest : c.fingerprint = d.fingerprint := congrArg Digest.ofText htext
  have hc : ∀ j ∈ c.switches, isSeparable j = true := by decide
  have hd : ∀ j ∈ d.switches, isSeparable j = true := by decide
  obtain ⟨-, -, halike⟩ := alike_iff_of_fingerprint_eq hc hd (fun _ => htext) hdigest
  exact ⟨hdigest, halike.mpr (by decide)⟩

/-- Configurations of one fingerprint need not behave alike: the string that spells falsity has the
fingerprint of falsity, but is on. They need not even if no switch is mistaken for the other's: a
string with the separator may spell two settings that are cut elsewhere in the other one. -/
theorem not_alike_of_fingerprint_eq :
    (¬ ∀ c d : Config, (Digest.ofText c.fingerprintText = Digest.ofText d.fingerprintText →
        c.fingerprintText = d.fingerprintText) → c.fingerprint = d.fingerprint →
      (∀ name ∈ builtinNames, c.isEnabled name = d.isEnabled name) ∧ c.resolves = d.resolves ∧
        c.powerFunctions = d.powerFunctions ∧ c.maxExpressions = d.maxExpressions) ∧
    ¬ ∀ c d : Config, (Digest.ofText c.fingerprintText = Digest.ofText d.fingerprintText →
        c.fingerprintText = d.fingerprintText) → c.fingerprint = d.fingerprint →
      (∀ p ∈ c.switches.zip d.switches, ¬ MistakenFor p.1 p.2 ∧ ¬ MistakenFor p.2 p.1) →
        ∀ name ∈ builtinNames, c.isEnabled name = d.isEnabled name := by
  constructor
  · intro h
    let c : Config := { division := .bool false }
    let d : Config := { division := .str "False".toList }
    have htext : c.fingerprintText = d.fingerprintText := by decide
    obtain ⟨henabled, -⟩ := h c d (fun _ => htext) (congrArg Digest.ofText htext)
    exact absurd (henabled "division".toList (by decide)) (by decide)
  · intro h
    let c : Config := { division := .str [], power := .str "True\x1f".toList }
    let d : Config := { division := .str "\x1fTrue".toList, power := .str [] }
    have htext : c.fingerprintText = d.fingerprintText :=
      fingerprintText_recut {} [] "True".toList []
    have henabled := h c d (fun _ => htext) (congrArg Digest.ofText htext) (by decide)
    exact absurd (henabled "division".toList (by decide)) (by decide)

end Config

end Gloss
