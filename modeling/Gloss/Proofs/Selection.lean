import Gloss.Proofs.Scan

/-!
# Switches act apart from each other

No built-in detector looks at a switch, its own or another's, or at whether overlaps are
resolved: a switch only decides whether its detector is asked. So the resolution of overlaps can
be made up for afterwards, and a detector that is switched off leaves the findings of all others
where they were.
-/

namespace Gloss

namespace Config

/-- The configuration with the switch of a built-in detector set. -/
def setSwitch (c : Config) (name : Text) (value : Json) : Config :=
  if name = "division".toList then { c with division := value }
  else if name = "power".toList then { c with power := value }
  else if name = "expression".toList then { c with expression := value }
  else if name = "summation".toList then { c with summation := value }
  else if name = "mapping".toList then { c with mapping := value }
  else c

/-- Two configurations agree in all that detectors look at. -/
structure SearchesLike (c d : Config) : Prop where
  /-- The same names stand for power functions. -/
  powerFunctions : c.powerFunctions = d.powerFunctions
  /-- They were given in the same form. -/
  namesKeyed : c.namesKeyed = d.namesKeyed
  /-- As many expressions are reported. -/
  maxExpressions : c.maxExpressions = d.maxExpressions

variable (c : Config) {name n : Text} (value : Json)

/-- A switch changes nothing about how a detector searches. -/
theorem searchesLike_setSwitch (name : Text) : (c.setSwitch name value).SearchesLike c := by
  unfold setSwitch
  split_ifs <;> exact ⟨rfl, rfl, rfl⟩

/-- The switch of a detector leaves the resolution of overlaps. -/
theorem resolveOverlaps_setSwitch :
    (c.setSwitch name value).resolveOverlaps = c.resolveOverlaps := by
  unfold setSwitch
  split_ifs <;> rfl

/-- Only built-in detectors have a switch. -/
theorem switch?_eq_none (h : n ∉ builtinNames) : c.switch? n = none := by
  refine List.lookup_eq_none_iff.mpr fun entry hentry => bne_iff_ne.mpr ?_
  rintro rfl
  exact h (List.of_mem_zip hentry).1

/-- Setting the switch of one detector leaves those of the others. -/
theorem switch?_setSwitch (hname : name ∈ builtinNames) :
    (c.setSwitch name value).switch? n = if n = name then some value else c.switch? n := by
  by_cases hn : n ∈ builtinNames
  · simp only [builtinNames, List.mem_cons, List.not_mem_nil, or_false] at hname hn
    rcases hname with rfl | rfl | rfl | rfl | rfl <;>
      rcases hn with rfl | rfl | rfl | rfl | rfl <;> rfl
  · rw [switch?_eq_none _ hn, switch?_eq_none _ hn, if_neg]
    rintro rfl
    exact hn hname

/-- Without its switch on, a detector runs no more, and the others as before. -/
theorem enabledDetectors_setSwitch (hname : name ∈ builtinNames) (hoff : value.isOn = false)
    (registered : List Text) :
    (c.setSwitch name value).enabledDetectors registered =
      (c.enabledDetectors registered).filter (· ≠ name) := by
  rw [enabledDetectors, enabledDetectors, List.filter_filter]
  refine List.filter_congr fun n _ => ?_
  rw [isEnabled, isEnabled, switch?_setSwitch c value hname]
  by_cases hn : n = name
  · simp [hn, hoff]
  · simp [hn]

end Config

namespace Registry

variable {r : Registry} {c d : Config} {source masked : Text} {names : List Text}

/-- A run of some of the detectors proposes what these do, in the same order, if each of them
proposes findings of its own kind only. -/
theorem runEach_filter (p : Text → Bool)
    (hkind : ∀ name report, r.ask c source masked name = .ok report →
      ∀ f ∈ report.findings, f.detail.kind = name)
    (h : (r.runEach c source masked names).failure = none) :
    (r.runEach c source masked (names.filter p)).failure = none ∧
      (r.runEach c source masked (names.filter p)).candidates =
        (r.runEach c source masked names).candidates.filter fun f => p f.detail.kind := by
  induction names with
  | nil => exact ⟨rfl, rfl⟩
  | cons name names ih =>
    obtain ⟨report, hreport⟩ := runEach_failure_eq_none_iff.mp h name List.mem_cons_self
    rw [runEach, hreport] at h
    obtain ⟨hfailure, hcandidates⟩ := ih h
    have hall : ∀ f ∈ report.findings, p f.detail.kind = p name := fun f hf =>
      congrArg p (hkind name report hreport f hf)
    simp only [Run.candidates] at hcandidates
    rw [List.filter_cons, runEach, hreport]
    cases hp : p name with
    | true =>
      have hkept : report.findings.filter (fun f => p f.detail.kind) = report.findings :=
        List.filter_eq_self.mpr fun f hf => (hall f hf).trans hp
      rw [if_pos rfl, runEach, hreport]
      refine ⟨hfailure, ?_⟩
      simp only [Run.candidates, List.flatMap_cons, List.filter_append, hkept, hcandidates]
    | false =>
      have hleft : report.findings.filter (fun f => p f.detail.kind) = [] :=
        List.filter_eq_nil_iff.mpr fun f hf => by simp [hall f hf, hp]
      rw [if_neg Bool.false_ne_true]
      refine ⟨hfailure, ?_⟩
      simp only [Run.candidates, List.flatMap_cons, List.filter_append, hleft, List.nil_append,
        hcandidates]

/-- No built-in detector looks at more of a configuration than the names and the limit. -/
theorem congr_of_mem_builtin (h : c.SearchesLike d) (source masked : Text) {name : Text}
    {detector : Detector} (hmem : (name, detector) ∈ builtin.detectors) :
    detector.accepts c = detector.accepts d ∧
      detector.run c source masked = detector.run d source masked := by
  obtain ⟨hpower, hkeyed, hmax⟩ := h
  simp only [builtin, List.map_cons, List.map_nil, List.mem_cons, List.not_mem_nil, or_false,
    Prod.mk.injEq] at hmem
  rcases hmem with ⟨-, rfl⟩ | ⟨-, rfl⟩ | ⟨-, rfl⟩ | ⟨-, rfl⟩ | ⟨-, rfl⟩
  · exact ⟨rfl, rfl⟩
  · exact ⟨rfl, congrArg (fun limit : Limit =>
      let findings := Arithmetic.find limit.toNat source masked
      (⟨findings, Arithmetic.limitNote limit.toNat findings⟩ : Report)) hmax⟩
  · exact ⟨rfl, rfl⟩
  · simp only [Power.detector, Config.allowsPower, hpower, hkeyed, and_self]
  · exact ⟨rfl, rfl⟩

/-- A built-in detector answers alike under configurations that search alike. -/
theorem builtin_ask_congr (h : c.SearchesLike d) (source masked name : Text) :
    builtin.ask c source masked name = builtin.ask d source masked name := by
  rw [ask, ask]
  cases hget : builtin.get? name with
  | none => rfl
  | some detector =>
    obtain ⟨haccepts, hrun⟩ := congr_of_mem_builtin h source masked
      (builtin_get?_eq_some_iff.mp hget)
    simp only [haccepts, hrun]

/-- Runs of the same built-in detectors end alike under configurations that search alike. -/
theorem builtin_runEach_congr (h : c.SearchesLike d) (source masked : Text) (names : List Text) :
    (builtin.runEach c source masked names).failure =
        (builtin.runEach d source masked names).failure ∧
      (builtin.runEach c source masked names).candidates =
        (builtin.runEach d source masked names).candidates := by
  have hask (name : Text) (_ : name ∈ names) :
      (builtin.ask c source masked name).map Report.findings =
        (builtin.ask d source masked name).map fun report => report.findings.map id := by
    simp only [builtin_ask_congr h, List.map_id]
  have hmap := runEach_map id hask
  rwa [List.map_id] at hmap

/-- Built-in detectors propose findings of their own kind only. -/
theorem kind_of_builtin_ask {name : Text} {report : Report}
    (h : builtin.ask c source masked name = .ok report) {f : Finding} (hf : f ∈ report.findings) :
    f.detail.kind = name := by
  obtain ⟨detector, hget, -, rfl⟩ := ask_eq_ok_iff.mp h
  have hmem := builtin_get?_eq_some_iff.mp hget
  simp only [builtin, List.map_cons, List.map_nil, List.mem_cons, List.not_mem_nil, or_false,
    Prod.mk.injEq] at hmem
  rcases hmem with ⟨rfl, rfl⟩ | ⟨rfl, rfl⟩ | ⟨rfl, rfl⟩ | ⟨rfl, rfl⟩ | ⟨rfl, rfl⟩
  · obtain ⟨line, -, hline⟩ := List.mem_flatMap.mp hf
    obtain ⟨o, -, ho⟩ := List.mem_filterMap.mp hline
    dsimp only at ho
    split at ho
    · obtain rfl := Option.some.inj ho
      rfl
    · cases ho
  all_goals
    obtain ⟨found, -, rfl⟩ := List.mem_map.mp hf
    rfl

/-- Whether overlaps are resolved decides nothing but how the candidates are arranged. -/
theorem answer_resolve (c : Config) (source : Text) {on off : Json} (hon : on.isOn = true)
    (hoff : off.isOn = false) :
    builtin.answer { c with resolveOverlaps := on } source =
      (builtin.answer { c with resolveOverlaps := off } source).map Finding.resolve := by
  have hlike : Config.SearchesLike { c with resolveOverlaps := on }
      { c with resolveOverlaps := off } := ⟨rfl, rfl, rfl⟩
  obtain ⟨hfailure, hcandidates⟩ := builtin_runEach_congr hlike source (mask source)
    (c.enabledDetectors builtin.names)
  have hrun (j : Json) : builtin.run { c with resolveOverlaps := j } source =
      builtin.runEach { c with resolveOverlaps := j } source (mask source)
        (c.enabledDetectors builtin.names) := rfl
  rw [answer, answer, hrun on, hrun off, hfailure]
  cases (builtin.runEach { c with resolveOverlaps := off } source (mask source)
      (c.enabledDetectors builtin.names)).failure with
  | some failure => rfl
  | none =>
    simp only [Config.arrange, Config.resolves, hon, hoff, if_true, if_false, Except.map,
      hcandidates, Finding.resolve_sort, Bool.false_eq_true]

/-- Without resolution, a detector that is switched off takes its findings with it and leaves all
others in order. -/
theorem answer_setSwitch {c : Config} {source name : Text} {off : Json} {found : List Finding}
    (hresolves : c.resolves = false) (hname : name ∈ builtinNames) (hoff : off.isOn = false)
    (h : builtin.answer c source = .ok found) :
    builtin.answer (c.setSwitch name off) source =
      .ok (found.filter fun f => f.detail.kind ≠ name) := by
  have hrun : builtin.run (c.setSwitch name off) source =
      builtin.runEach (c.setSwitch name off) source (mask source)
        ((c.enabledDetectors builtin.names).filter (· ≠ name)) := by
    rw [run, Config.enabledDetectors_setSwitch c off hname hoff]
  have hresolves' : (c.setSwitch name off).resolves = false := by
    rw [Config.resolves, Config.resolveOverlaps_setSwitch]
    exact hresolves
  rw [answer] at h
  cases hnone : (builtin.run c source).failure with
  | some failure =>
    rw [hnone] at h
    cases h
  | none =>
    rw [hnone] at h
    obtain rfl := Except.ok.inj h
    obtain ⟨hfailure, hcandidates⟩ := runEach_filter (· ≠ name)
      (fun n report hreport f hf => kind_of_builtin_ask hreport hf) hnone
    obtain ⟨hfailure', hcandidates'⟩ := builtin_runEach_congr
      (c.searchesLike_setSwitch off name) source (mask source)
      ((c.enabledDetectors builtin.names).filter (· ≠ name))
    rw [answer, hrun, hfailure', hfailure]
    simp only [Config.arrange, hresolves, hresolves', if_false, hcandidates', hcandidates,
      Finding.filter_sort, run, Bool.false_eq_true]

end Registry

/-- The resolution of overlaps and the choice of detectors act apart from each other. A scan with
resolution is a scan without it whose findings are resolved afterwards. And where overlaps are not
resolved, a scan succeeds unless powers are wanted but cannot be searched for, and with one
detector switched off it returns the same findings in the same order but for those of that
detector. -/
theorem Session.scan_resolve_filter {s : Session} (hregistry : s.registry = Registry.builtin)
    (source : Text) (c : Config) {on off : Json} (hon : on.isOn = true) (hoff : off.isOn = false) :
    let found (c : Config) := (s.scan { source, config := some c }).1
    let unresolved := { c with resolveOverlaps := off }
    found { c with resolveOverlaps := on } = (found unresolved).map Finding.resolve ∧
      ((∃ fs, found unresolved = .ok fs) ↔
        (c.isEnabled "power".toList = true → c.allowsPower = true)) ∧
      ∀ name ∈ builtinNames, ∀ value : Json, value.isOn = false →
        ∀ fs, found unresolved = .ok fs →
          found (unresolved.setSwitch name value) =
            .ok (fs.filter fun f => f.detail.kind ≠ name) := by
  intro found unresolved
  have hfound (c : Config) : found c = Registry.builtin.answer c source := by
    rw [← hregistry]
    exact s.scan_without_cache { source, config := some c } rfl
  refine ⟨?_, ?_, fun name hname value hvalue fs hfs => ?_⟩
  · rw [hfound, hfound]
    exact Registry.answer_resolve c source hon hoff
  · rw [hfound]
    exact Config.exists_answer_builtin_eq_ok_iff
  · rw [hfound] at hfs ⊢
    exact Registry.answer_setSwitch hoff hname hvalue hfs

/-- A fraction within a product and a power: three detectors propose, and the expression goes. -/
theorem Session.scan_resolve_filter_product :
    let source := "x = 3/4*Math.pow(y, 2);".toList
    let found (c : Config) := (({} : Session).scan { source, config := some c }).1
    let unresolved : Config := { resolveOverlaps := .bool false }
    ∃ fs, found unresolved = .ok fs ∧
      fs.map (·.detail.kind) = ["expression".toList, "division".toList, "power".toList] ∧
      found { unresolved with resolveOverlaps := .int 1 } = .ok (Finding.resolve fs) ∧
      found (unresolved.setSwitch "expression".toList .null) =
        .ok (fs.filter fun f => f.detail.kind ≠ "expression".toList) := by
  intro source found unresolved
  have hon : (Json.int 1).isOn = true := rfl
  have hoff : (Json.bool false).isOn = false := rfl
  obtain ⟨hresolve, hsucceeds, hfilter⟩ := scan_resolve_filter (s := {}) rfl source {} hon hoff
  obtain ⟨fs, hfs⟩ : ∃ fs, found unresolved = .ok fs := hsucceeds.mpr fun _ => by decide
  have hkinds : (found unresolved).map (List.map (·.detail.kind)) =
      .ok ["expression".toList, "division".toList, "power".toList] := by decide +kernel
  rw [hfs] at hkinds
  refine ⟨fs, hfs, Except.ok.inj hkinds, hresolve.trans ?_, hfilter _ (by decide) .null rfl fs hfs⟩
  exact congrArg (Except.map Finding.resolve) hfs

end Gloss
