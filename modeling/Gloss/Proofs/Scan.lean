import Gloss.Proofs.Candidate
import Gloss.Proofs.Resolution
import Gloss.Proofs.Session

/-!
# What a scan returns

A run asks the enabled detectors in turn and fails exactly where one of them
does not answer. Of the built-in detectors only the search for powers can
refuse. What a successful scan with resolution returns is then read off the
resolved candidates: their order, their bounds, and why each other one is gone.
-/

namespace Gloss

namespace Registry

variable {r : Registry} {config : Config} {source masked : Text}

/-- A detector answers if it is registered and accepts the configuration. -/
theorem ask_eq_ok_iff {name : Text} {report : Report} :
    r.ask config source masked name = .ok report ↔
      ∃ d, r.get? name = some d ∧ d.accepts config = true ∧
        d.run config source masked = report := by
  unfold ask
  cases hd : r.get? name with
  | none => simp only [reduceCtorEq, false_and, exists_false]
  | some d =>
    simp only [Option.some.injEq, exists_eq_left']
    by_cases ha : d.accepts config = true
    · rw [if_pos ha, Except.ok.injEq, eq_true ha, true_and]
    · rw [if_neg ha, eq_false ha, false_and]
      exact iff_of_false (by simp) id

/-- A run fails exactly if some detector asked does not answer. -/
theorem runEach_failure_eq_none_iff {names : List Text} :
    (r.runEach config source masked names).failure = none ↔
      ∀ name ∈ names, ∃ report, r.ask config source masked name = .ok report := by
  induction names with
  | nil => simp only [runEach, List.not_mem_nil, false_implies, implies_true]
  | cons name names ih =>
    rw [runEach]
    cases h : r.ask config source masked name with
    | error failure =>
      simp only [reduceCtorEq, List.mem_cons, forall_eq_or_imp, h, exists_false, false_and]
    | ok report =>
      simp only [ih, List.mem_cons, forall_eq_or_imp, h, Except.ok.injEq, exists_eq', true_and]

/-- The candidates of a run that does not fail are what the detectors asked report. -/
theorem mem_candidates_runEach {names : List Text}
    (h : (r.runEach config source masked names).failure = none) {f : Finding} :
    f ∈ (r.runEach config source masked names).candidates ↔
      ∃ name ∈ names, ∃ report, r.ask config source masked name = .ok report ∧
        f ∈ report.findings := by
  induction names with
  | nil => simp only [runEach, Run.candidates, List.flatMap_nil, List.not_mem_nil, false_and,
      exists_false]
  | cons name names ih =>
    obtain ⟨report, hreport⟩ := runEach_failure_eq_none_iff.mp h name (List.mem_cons_self ..)
    rw [runEach, hreport] at h ⊢
    have hrest := ih h
    simp only [Run.candidates] at hrest
    simp only [Run.candidates, List.flatMap_cons, List.mem_append, List.mem_cons, hrest]
    constructor
    · rintro (hf | ⟨n, hn, hask⟩)
      · exact ⟨name, Or.inl rfl, report, hreport, hf⟩
      · exact ⟨n, Or.inr hn, hask⟩
    · rintro ⟨n, rfl | hn, report', hask, hf⟩
      · rw [hreport] at hask
        exact Or.inl (Except.ok.inj hask ▸ hf)
      · exact Or.inr ⟨n, hn, report', hask, hf⟩

/-- If every detector answers alike, up to a change of the findings, so does a run. -/
theorem runEach_map {c d : Config} {source' masked' : Text} {names : List Text}
    (g : Finding → Finding)
    (h : ∀ name ∈ names, (r.ask c source' masked' name).map Report.findings =
      (r.ask d source masked name).map fun report => report.findings.map g) :
    (r.runEach c source' masked' names).failure = (r.runEach d source masked names).failure ∧
      (r.runEach c source' masked' names).candidates =
        (r.runEach d source masked names).candidates.map g := by
  induction names with
  | nil => exact ⟨rfl, rfl⟩
  | cons name names ih =>
    obtain ⟨hfailure, hcandidates⟩ := ih fun n hn => h n (List.mem_cons_of_mem name hn)
    have hfirst := h name List.mem_cons_self
    rw [runEach, runEach]
    cases hask : r.ask d source masked name with
    | error failure =>
      cases hask' : r.ask c source' masked' name with
      | ok report => simp [hask, hask', Except.map] at hfirst
      | error failure' =>
        simp only [hask, hask', Except.map, Except.error.injEq] at hfirst
        exact ⟨congrArg some hfirst, rfl⟩
    | ok report =>
      cases hask' : r.ask c source' masked' name with
      | error failure => simp [hask, hask', Except.map] at hfirst
      | ok report' =>
        simp only [hask, hask', Except.map, Except.ok.injEq] at hfirst
        refine ⟨hfailure, ?_⟩
        simp only [Run.candidates] at hcandidates
        simp only [Run.candidates, List.flatMap_cons, List.map_append, hfirst, hcandidates]

/-- No name is registered twice among the built-in detectors. -/
theorem builtin_get?_eq_some_iff {name : Text} {d : Detector} :
    builtin.get? name = some d ↔ (name, d) ∈ builtin.detectors := by
  have hnodup : (builtin.detectors.map Prod.fst).Nodup := by decide
  constructor
  · intro h
    obtain ⟨before, after, he, -⟩ := List.lookup_eq_some_iff.mp h
    rw [he]
    exact List.mem_append_right _ (List.mem_cons_self ..)
  · intro h
    obtain ⟨before, after, he⟩ := List.append_of_mem h
    refine List.lookup_eq_some_iff.mpr ⟨before, after, he, ?_⟩
    intro p hp
    rw [he, List.map_append, List.nodup_append] at hnodup
    have hne := hnodup.2.2 p.1 (List.mem_map_of_mem hp) name
      (List.mem_map_of_mem (f := Prod.fst) (List.mem_cons_self ..))
    exact bne_iff_ne.mpr hne.symm

end Registry

namespace Config

/-- Of the built-in detectors exactly those run that are switched on. -/
theorem mem_enabledDetectors_builtin {config : Config} {name : Text} :
    name ∈ config.enabledDetectors Registry.builtin.names ↔
      name ∈ builtinNames ∧ config.isEnabled name = true := by
  have hnone : Registry.builtin.names.filter (· ∉ builtinNames) = [] := by decide
  rw [enabledDetectors, hnone, List.append_nil, List.mem_filter]

/-- The built-in detectors are those with the built-in names. -/
theorem fst_mem_builtinNames {entry : Text × Detector}
    (h : entry ∈ Registry.builtin.detectors) : entry.1 ∈ builtinNames := by
  have hall : ∀ name ∈ Registry.builtin.names, name ∈ builtinNames := by decide
  exact hall entry.1 (List.mem_map_of_mem h)

/-- A detector is registered under each built-in name. -/
theorem exists_mem_of_mem_builtinNames {name : Text} (h : name ∈ builtinNames) :
    ∃ d, (name, d) ∈ Registry.builtin.detectors := by
  have hall : ∀ name ∈ builtinNames, name ∈ Registry.builtin.names := by decide
  obtain ⟨⟨n, d⟩, hmem, rfl⟩ := List.mem_map.mp (hall name h)
  exact ⟨d, hmem⟩

/-- Only the search for powers ever refuses a configuration. -/
theorem accepts_of_mem_builtin {config : Config} {entry : Text × Detector}
    (h : entry ∈ Registry.builtin.detectors) :
    entry.2.accepts config = true ↔ (entry.1 = "power".toList → config.allowsPower = true) := by
  simp only [Registry.builtin, List.map_cons, List.map_nil, List.mem_cons, List.not_mem_nil,
    or_false] at h
  have hpower (name : Text) (hne : name ≠ "power".toList) :
      true = true ↔ (name = "power".toList → config.allowsPower = true) :=
    ⟨fun _ he => absurd he hne, fun _ => rfl⟩
  rcases h with rfl | rfl | rfl | rfl | rfl
  · exact hpower Division.detector.name (by decide)
  · exact hpower Arithmetic.detector.name (by decide)
  · exact hpower Mapping.detector.name (by decide)
  · exact ⟨fun ha _ => ha, fun ha => ha rfl⟩
  · exact hpower Summation.detector.name (by decide)

variable {config : Config} {source : Text}

/-- A run of the built-in detectors succeeds unless powers are wanted but cannot be searched
for. -/
theorem run_builtin_failure_eq_none_iff :
    (Registry.builtin.run config source).failure = none ↔
      (config.isEnabled "power".toList = true → config.allowsPower = true) := by
  rw [Registry.run, Registry.runEach_failure_eq_none_iff]
  constructor
  · intro h hon
    have hname : "power".toList ∈ builtinNames := by decide
    obtain ⟨report, hreport⟩ := h _ (mem_enabledDetectors_builtin.mpr ⟨hname, hon⟩)
    obtain ⟨d, hd, ha, -⟩ := Registry.ask_eq_ok_iff.mp hreport
    exact (accepts_of_mem_builtin (Registry.builtin_get?_eq_some_iff.mp hd)).mp ha rfl
  · intro h name hname
    obtain ⟨hbuiltin, hon⟩ := mem_enabledDetectors_builtin.mp hname
    obtain ⟨d, hd⟩ := exists_mem_of_mem_builtinNames hbuiltin
    refine ⟨_, Registry.ask_eq_ok_iff.mpr ⟨d, Registry.builtin_get?_eq_some_iff.mpr hd, ?_, rfl⟩⟩
    exact (accepts_of_mem_builtin hd).mpr fun he => h (he ▸ hon)

/-- The built-in detectors answer unless power calls are to be searched for and cannot be. -/
theorem exists_answer_builtin_eq_ok_iff :
    (∃ found, Registry.builtin.answer config source = .ok found) ↔
      (config.isEnabled "power".toList = true → config.allowsPower = true) := by
  rw [← @run_builtin_failure_eq_none_iff config source, Registry.answer]
  cases (Registry.builtin.run config source).failure with
  | none => simp only [Except.ok.injEq, exists_eq']
  | some failure => simp only [reduceCtorEq, exists_false]

/-- The candidates of a run that does not fail are what the enabled detectors propose. -/
theorem mem_candidates_run_builtin (h : (Registry.builtin.run config source).failure = none)
    {f : Finding} :
    f ∈ (Registry.builtin.run config source).candidates ↔ config.Proposes source f := by
  rw [Registry.run] at h ⊢
  rw [Registry.mem_candidates_runEach h]
  constructor
  · rintro ⟨name, hname, report, hreport, hf⟩
    obtain ⟨d, hd, -, rfl⟩ := Registry.ask_eq_ok_iff.mp hreport
    exact ⟨(name, d), Registry.builtin_get?_eq_some_iff.mp hd,
      (mem_enabledDetectors_builtin.mp hname).2, hf⟩
  · rintro ⟨⟨name, d⟩, hentry, hon, hf⟩
    have hname := mem_enabledDetectors_builtin.mpr ⟨fst_mem_builtinNames hentry, hon⟩
    obtain ⟨report, hreport⟩ := Registry.runEach_failure_eq_none_iff.mp h name hname
    obtain ⟨d', hd', -, rfl⟩ := Registry.ask_eq_ok_iff.mp hreport
    rw [Registry.builtin_get?_eq_some_iff.mpr hentry] at hd'
    obtain rfl := Option.some.inj hd'
    exact ⟨name, hname, _, hreport, hf⟩

end Config

namespace Session

/-- A scan that the cache does not answer arranges what the detectors propose, if they all
answer. -/
theorem scan_eq_ok_iff {s : Session} {q : ScanRequest} {config : Config}
    (hconfig : q.config.getD s.config = config) (hcache : s.cached? q config = none)
    {kept : List Finding} :
    (s.scan q).1 = .ok kept ↔ (s.registry.run config q.source).failure = none ∧
      config.arrange (s.registry.run config q.source).candidates = kept := by
  simp only [scan, hconfig, hcache, scanAfresh]
  cases (s.registry.run config q.source).failure with
  | none => simp only [Except.ok.injEq, true_and]
  | some failure => simp only [reduceCtorEq, false_and]

/-- With resolution on, a scan by the built-in detectors succeeds unless powers are wanted but
cannot be searched for. What it returns is in order, lies within the source, is disjoint and was
proposed; and whatever else was proposed overlaps a returned finding that starts earlier, or
starts at the same offset and is no shorter. -/
theorem scan_resolved {s : Session} {q : ScanRequest} {config : Config}
    (hregistry : s.registry = Registry.builtin) (hconfig : q.config.getD s.config = config)
    (hcache : s.cached? q config = none) (hresolves : config.resolves = true) :
    ((∃ kept, (s.scan q).1 = .ok kept) ↔
      (config.isEnabled "power".toList = true → config.allowsPower = true)) ∧
    ∀ kept, (s.scan q).1 = .ok kept →
      kept.Pairwise (fun a b => a.start < b.start) ∧
      (∀ f ∈ kept, 0 ≤ f.start ∧ f.start < f.stop ∧ f.stop ≤ q.source.length) ∧
      kept.Pairwise (fun a b => a.stop ≤ b.start) ∧
      (∀ f ∈ kept, config.Proposes q.source f) ∧
      ∀ f, config.Proposes q.source f → f ∉ kept →
        ∃ g ∈ kept, (g.start < f.stop ∧ f.start < g.stop) ∧
          (g.start < f.start ∨ g.start = f.start ∧ f.stop - f.start ≤ g.stop - g.start) := by
  have hscan (kept : List Finding) := @scan_eq_ok_iff s q config hconfig hcache kept
  simp only [hregistry, Config.arrange, hresolves, if_true] at hscan
  refine ⟨?_, ?_⟩
  · simp only [hscan, exists_and_left, exists_eq', and_true]
    exact Config.run_builtin_failure_eq_none_iff
  · intro kept hkept
    obtain ⟨hrun, rfl⟩ := (hscan kept).mp hkept
    have hmem {f : Finding} := Config.mem_candidates_run_builtin hrun (f := f)
    have hpos : ∀ f ∈ (Registry.builtin.run config q.source).candidates, f.start < f.stop :=
      fun f hf => (hmem.mp hf).within.2.1
    have happart := Finding.pairwise_disjoint_resolve hpos
    refine ⟨?_, ?_, happart, ?_, ?_⟩
    · refine happart.imp_of_mem ?_
      intro a b ha _ hab
      have := hpos a (Finding.mem_of_mem_resolve ha)
      omega
    · intro f hf
      exact (hmem.mp (Finding.mem_of_mem_resolve hf)).within
    · intro f hf
      exact hmem.mp (Finding.mem_of_mem_resolve hf)
    · intro f hf hdropped
      obtain ⟨g, hg, hover, hpre⟩ :=
        Finding.exists_overlaps_of_not_mem_resolve (hmem.mpr hf) hdropped
      exact ⟨g, hg, (Finding.overlaps_iff g f).mp hover, (Finding.precedes_iff g f).mp hpre⟩

/-- A fraction, a product that begins with it and a comment: whatever is returned is disjoint. -/
theorem scan_resolved_fraction :
    ∃ kept, (({} : Session).scan { source := "x = 3/4*y; // 1/2".toList }).1 = .ok kept ∧
      kept.Pairwise fun a b => a.stop ≤ b.start := by
  have h := scan_resolved (s := {}) (q := { source := "x = 3/4*y; // 1/2".toList })
    rfl (show _ = ({} : Config) from rfl) rfl (by decide)
  obtain ⟨kept, hkept⟩ := h.1.mpr fun _ => by decide
  exact ⟨kept, hkept, (h.2 kept hkept).2.2.1⟩

end Session

end Gloss
