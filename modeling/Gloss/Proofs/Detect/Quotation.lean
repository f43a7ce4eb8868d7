import Gloss.Proofs.Mask.Line
import Gloss.Registry

/-!
# What comments and literals may influence

All detectors but the one of divisions recognise in the masked source. They use the source
itself to place what they found and to quote it: the callee of a power and the text of an
expression. Apart from these quotations, sources with the same masked source have the same
findings.
-/

namespace Gloss

/-- What was recognised, without what is quoted from the source. -/
def Detail.unquoted : Detail → Detail
  | power _ base exponent => power [] base exponent
  | expression _ => expression []
  | detail => detail

/-- A finding without what it quotes from the source. -/
def Finding.unquoted (f : Finding) : Finding := { f with detail := f.detail.unquoted }

/-- A report whose findings quote nothing. -/
def Report.unquoted (r : Report) : Report := { r with findings := r.findings.map Finding.unquoted }

/-- A detector uses the source to place findings and to quote from it, and for nothing else. -/
def Detector.OnlyQuotes (d : Detector) : Prop :=
  ∀ (config : Config) (s₁ s₂ masked : Text), LineIndex.ofText s₁ = LineIndex.ofText s₂ →
    (d.run config s₁ masked).unquoted = (d.run config s₂ masked).unquoted

variable {s₁ s₂ : Text}

/-- The search for power calls uses the source only to place and to quote. -/
theorem Power.onlyQuotes : Power.detector.OnlyQuotes := by
  intro config s₁ s₂ masked hix
  change Report.mk ((find config.powerFunctions s₁ masked).map Finding.unquoted) [] =
    Report.mk ((find config.powerFunctions s₂ masked).map Finding.unquoted) []
  rw [find, find, List.map_map, List.map_map, hix]
  rfl

/-- Up to quotations, expressions are found alike in sources with the same lines. -/
theorem Arithmetic.unquoted_find (limit : Nat) (masked : Text)
    (hix : LineIndex.ofText s₁ = LineIndex.ofText s₂) :
    (find limit s₁ masked).map Finding.unquoted = (find limit s₂ masked).map Finding.unquoted := by
  rw [find, find, List.map_map, List.map_map, hix]
  rfl

/-- The note on the limit tells how many findings there are and where the last one ends. -/
theorem Arithmetic.limitNote_unquoted (limit : Nat) (fs : List Finding) :
    limitNote limit (fs.map Finding.unquoted) = limitNote limit fs := by
  unfold limitNote
  rw [List.getLast?_map, List.length_map]
  cases fs.getLast? <;> rfl

/-- The search for expressions uses the source only to place and to quote. -/
theorem Arithmetic.onlyQuotes : Arithmetic.detector.OnlyQuotes := by
  intro config s₁ s₂ masked hix
  have hfind := unquoted_find config.maxExpressions.toNat masked hix
  have hnote : limitNote config.maxExpressions.toNat (find config.maxExpressions.toNat s₁ masked) =
      limitNote config.maxExpressions.toNat (find config.maxExpressions.toNat s₂ masked) := by
    rw [← limitNote_unquoted, hfind, limitNote_unquoted]
  exact (Report.mk.injEq ..).mpr ⟨hfind, hnote⟩

/-- The search for summing loops uses the source only to place. -/
theorem Summation.onlyQuotes : Summation.detector.OnlyQuotes := by
  intro config s₁ s₂ masked hix
  change Report.unquoted ⟨find s₁ masked, []⟩ = Report.unquoted ⟨find s₂ masked, []⟩
  rw [find, find, hix]

/-- The search for mapping loops uses the source only to place. -/
theorem Mapping.onlyQuotes : Mapping.detector.OnlyQuotes := by
  intro config s₁ s₂ masked hix
  change Report.unquoted ⟨find s₁ masked, []⟩ = Report.unquoted ⟨find s₂ masked, []⟩
  rw [find, find, hix]

/-- A detector that only quotes answers alike for sources with the same masked source. -/
theorem Detector.OnlyQuotes.ask {r : Registry} {d : Detector} {name : Text} (hd : d.OnlyQuotes)
    (hname : r.get? name = some d) (config : Config) (h : mask s₁ = mask s₂) :
    (r.ask config s₁ (mask s₁) name).map Report.unquoted =
      (r.ask config s₂ (mask s₂) name).map Report.unquoted := by
  have hix : LineIndex.ofText s₁ = LineIndex.ofText s₂ :=
    LineIndex.ofText_congr (by rw [← Mask.map_blank_mask, h, Mask.map_blank_mask])
  simp only [Registry.ask, hname]
  split
  · simp only [Except.map, Except.ok.injEq]
    rw [h]
    exact hd config s₁ s₂ (mask s₂) hix
  · rfl

/-- What is written inside comments and literals does not influence what the search for powers,
expressions, sums and families recognises: sources with the same masked source have the same
findings, quotations aside. -/
theorem Registry.ask_unquoted_of_mask_eq (config : Config) (h : mask s₁ = mask s₂) {name : Text}
    (hname : name ∈ ["power".toList, "expression".toList, "summation".toList,
      "mapping".toList]) :
    (builtin.ask config s₁ (mask s₁) name).map Report.unquoted =
      (builtin.ask config s₂ (mask s₂) name).map Report.unquoted := by
  simp only [List.mem_cons, List.not_mem_nil, or_false] at hname
  rcases hname with rfl | rfl | rfl | rfl
  · exact Power.onlyQuotes.ask rfl config h
  · exact Arithmetic.onlyQuotes.ask rfl config h
  · exact Summation.onlyQuotes.ask rfl config h
  · exact Mapping.onlyQuotes.ask rfl config h

/-- A comment inside the dotted name of a called function, of two lines: the calls are the same
up to the name that is quoted. -/
theorem Registry.ask_unquoted_qualified_call :
    let s₁ := "Math /* a/b \n 'q' */ . pow(x, 2) // \"".toList
    let s₂ := "Math /* \" \\ \n * / */ . pow(x, 2) // y".toList
    mask s₁ = mask s₂ ∧
      (builtin.ask {} s₁ (mask s₁) "power".toList).map Report.unquoted =
        (builtin.ask {} s₂ (mask s₂) "power".toList).map Report.unquoted := by
  intro s₁ s₂
  have h : mask s₁ = mask s₂ := by decide
  exact ⟨h, ask_unquoted_of_mask_eq {} h (by decide)⟩

end Gloss
