import Gloss.Proofs.Profile

/-!
# What a failed scan leaves behind

A scan fails at the first detector that is switched on and does not answer. By then the detectors
before it have reported, and what they proposed has been counted in the innermost profile. Besides
the log, that is all that is left of the scan: the registry, the configurations, the cache, the
other counts and the outer profiles are what they were.
-/

namespace Gloss

namespace Registry

variable {r : Registry} {config : Config} {source masked : Text}

/-- A run that fails has the reports of the detectors before the one at fault, and no others. -/
theorem names_of_runEach_failure {names : List Text} {failure : DetectorError}
    (h : (r.runEach config source masked names).failure = some failure) :
    ∃ name later,
      names = (r.runEach config source masked names).reports.map Prod.fst ++ name :: later ∧
      r.ask config source masked name = .error failure ∧
      ∀ entry ∈ (r.runEach config source masked names).reports,
        r.ask config source masked entry.1 = .ok entry.2 := by
  induction names with
  | nil => cases h
  | cons first names ih =>
    rw [runEach] at h ⊢
    cases hask : r.ask config source masked first with
    | error failure' =>
      rw [hask] at h
      obtain rfl := Option.some.inj h
      exact ⟨first, names, rfl, hask, fun entry hentry => absurd hentry List.not_mem_nil⟩
    | ok report =>
      rw [hask] at h
      obtain ⟨name, later, hnames, hname, hreports⟩ := ih h
      refine ⟨name, later, congrArg (first :: ·) hnames, hname, ?_⟩
      exact List.forall_mem_cons.mpr ⟨hask, hreports⟩

/-- No detector is known under a name exactly if none is registered under it. -/
theorem ask_eq_unknown_iff {name name' : Text} {available : List Text} :
    r.ask config source masked name = .error (.unknown name' available) ↔
      r.get? name = none ∧ name' = name ∧ available = sortStable Text.le r.names := by
  unfold ask
  cases hd : r.get? name with
  | none => simp [unknown, eq_comm]
  | some d =>
    dsimp only
    split <;> simp

/-- A detector is registered under each of the names. -/
theorem get?_ne_none_of_mem_names {name : Text} (h : name ∈ r.names) : r.get? name ≠ none := by
  obtain ⟨entry, hentry, rfl⟩ := List.mem_map.mp h
  rw [get?, Ne, List.lookup_eq_none_iff]
  intro hnone
  exact absurd (hnone entry hentry) (by simp)

end Registry

namespace Config

variable {config : Config} {registered earlier later : List Text} {name : Text}

/-- A detector that runs is registered or built in. -/
theorem mem_of_mem_enabledDetectors (h : name ∈ config.enabledDetectors registered) :
    (name ∈ builtinNames ∨ name ∈ registered) ∧ config.isEnabled name = true := by
  obtain ⟨hmem, hon⟩ := List.mem_filter.mp h
  refine ⟨(List.mem_append.mp hmem).imp_right fun hextra => ?_, hon⟩
  exact (List.mem_filter.mp hextra).1

/-- What stands before a name is what stands before its first occurrence. -/
theorem takeWhile_ne_append (h : name ∉ earlier) :
    (earlier ++ name :: later).takeWhile (· ≠ name) = earlier := by
  have hall : ∀ n ∈ earlier, decide (n ≠ name) = true := fun n hn =>
    decide_eq_true fun he => h (he ▸ hn)
  rw [List.takeWhile_append_of_pos hall, List.takeWhile_cons_of_neg (by simp), List.append_nil]

/-- Before a built-in detector run the built-in ones that stand before it in their order. -/
theorem eq_of_enabledDetectors_eq_append
    (h : config.enabledDetectors registered = earlier ++ name :: later)
    (hname : name ∈ builtinNames) (hearlier : name ∉ earlier) :
    earlier = (builtinNames.takeWhile (· ≠ name)).filter config.isEnabled := by
  obtain ⟨before, after, hsplit, hbefore⟩ := List.eq_append_cons_of_mem hname
  have hmem : name ∈ config.enabledDetectors registered := by
    rw [h]
    exact List.mem_append_right _ List.mem_cons_self
  have hon := (mem_of_mem_enabledDetectors hmem).2
  have hfront : (config.enabledDetectors registered).takeWhile (· ≠ name) =
      before.filter config.isEnabled := by
    rw [enabledDetectors, hsplit, List.append_assoc, List.cons_append, List.filter_append,
      List.filter_cons_of_pos hon]
    exact takeWhile_ne_append fun hmem => hbefore (List.mem_filter.mp hmem).1
  rw [h, takeWhile_ne_append hearlier] at hfront
  rw [hfront, hsplit, takeWhile_ne_append hbefore]

end Config

namespace Profile

/-- How many findings a profile counts for a detector. -/
def proposed (p : Profile) (name : Text) : Int := (p.perDetector.lookup name).getD 0

variable {p : Profile} {reports : List (Text × Report)} {name : Text}

/-- A count is that of the first entry if that has the name. -/
theorem lookup_cons_eq_ite (key n : Text) (m : Int) (counts : List (Text × Int)) :
    ((key, m) :: counts).lookup n = if n = key then some m else counts.lookup n := by
  by_cases hn : n = key
  · rw [if_pos hn, hn, List.lookup_cons_self]
  · rw [if_neg hn, List.lookup_cons, beq_false_of_ne hn]

/-- Adding to one count leaves the others. -/
theorem lookup_addTo (counts : List (Text × Int)) (name n : Text) (k : Int) :
    (addTo name k counts).lookup n =
      if n = name then some ((counts.lookup name).getD 0 + k) else counts.lookup n := by
  induction counts with
  | nil =>
    rw [addTo, lookup_cons_eq_ite, List.lookup_nil, List.lookup_nil, Option.getD_none, Int.zero_add]
  | cons count counts ih =>
    obtain ⟨key, m⟩ := count
    rw [addTo]
    by_cases hkey : key = name
    · subst hkey
      by_cases hn : n = key <;> simp [lookup_cons_eq_ite, hn]
    · by_cases hn : n = name
      · subst hn
        simp [lookup_cons_eq_ite, Ne.symm hkey, hkey, ih]
      · simp [lookup_cons_eq_ite, hkey, hn, ih]

theorem recordReports_cons (p : Profile) (entry : Text × Report) (reports : List (Text × Report)) :
    p.recordReports (entry :: reports) =
      (p.recordDetector entry.1 entry.2.findings.length).recordReports reports := rfl

/-- A report is counted for its own detector. -/
theorem proposed_recordDetector (p : Profile) (name n : Text) (k : Int) :
    (p.recordDetector name k).proposed n = p.proposed n + if n = name then k else 0 := by
  rw [proposed, proposed, recordDetector, lookup_addTo]
  split
  · rename_i hn
    rw [hn, Option.getD_some]
  · rw [Int.add_zero]

/-- Nothing is counted for a detector that has no report. -/
theorem proposed_recordReports_of_notMem (h : name ∉ reports.map Prod.fst) :
    (p.recordReports reports).proposed name = p.proposed name := by
  induction reports generalizing p with
  | nil => rfl
  | cons entry reports ih =>
    obtain ⟨hne, hrest⟩ := not_or.mp (mt List.mem_cons.mpr h)
    rw [recordReports_cons, ih hrest, proposed_recordDetector, if_neg hne, Int.add_zero]

/-- For a detector with one report its findings are counted. -/
theorem proposed_recordReports_of_mem (hnodup : (reports.map Prod.fst).Nodup)
    {entry : Text × Report} (h : entry ∈ reports) :
    (p.recordReports reports).proposed entry.1 = p.proposed entry.1 + entry.2.findings.length := by
  induction reports generalizing p with
  | nil => exact absurd h List.not_mem_nil
  | cons first reports ih =>
    obtain ⟨hfirst, hrest⟩ := List.nodup_cons.mp hnodup
    rw [recordReports_cons]
    rcases List.mem_cons.mp h with rfl | h
    · rw [proposed_recordReports_of_notMem hfirst, proposed_recordDetector, if_pos rfl]
    · have hne : entry.1 ≠ first.1 := fun he => hfirst (he ▸ List.mem_map_of_mem h)
      rw [ih hrest h, proposed_recordDetector, if_neg hne, Int.add_zero]

end Profile

namespace Session

variable {s : Session} {q : ScanRequest} {config : Config} {name : Text} {available : List Text}

/-- Only the innermost profile is updated. -/
theorem mapProfile_eq (s : Session) (f : Profile → Profile) :
    s.mapProfile f = { s with profiles := s.profiles.modifyHead f } := by
  unfold mapProfile
  split
  · rename_i h
    rw [h, List.modifyHead_nil, ← h]
  · rename_i h
    rw [h]
    rfl

/-- Noting reports changes the log and the innermost profile only. -/
theorem noteReports_eq (s : Session) (reports : List (Text × Report)) :
    s.noteReports reports = { s with
      log := (s.noteReports reports).log
      profiles := s.profiles.modifyHead (·.recordReports reports) } := by
  rw [← s.profiles_noteReports reports]
  unfold noteReports
  induction reports generalizing s with
  | nil => rfl
  | cons entry reports ih =>
    rw [List.foldl_cons, ih]
    dsimp only
    rw [noteReport, mapProfile_eq]
    rfl

/-- A scan that fails was not answered by the cache, and has noted the reports of a run that
failed. -/
theorem scan_of_error {failure : DetectorError} (hconfig : q.config.getD s.config = config)
    (h : (s.scan q).1 = .error failure) :
    (s.registry.run config q.source).failure = some failure ∧
      (s.scan q).2 = s.noteReports (s.registry.run config q.source).reports := by
  subst hconfig
  cases hcached : s.cached? q (q.config.getD s.config) with
  | some kept =>
    rw [scan_of_cached hcached] at h
    cases h
  | none =>
    rw [scan_of_not_cached hcached] at h ⊢
    rw [scanAfresh] at h ⊢
    cases hfailure : (s.registry.run (q.config.getD s.config) q.source).failure with
    | none =>
      rw [hfailure] at h
      cases h
    | some failure' =>
      rw [hfailure] at h
      dsimp only at h ⊢
      exact ⟨congrArg some (Except.error.inj h), rfl⟩

/-- The detector that a scan fails for is a built-in one that is switched on and not registered. -/
theorem missing_of_scan_eq_unknown (hconfig : q.config.getD s.config = config)
    (h : (s.scan q).1 = .error (.unknown name available)) :
    name ∈ builtinNames ∧ config.isEnabled name = true ∧ s.registry.get? name = none := by
  obtain ⟨hfailure, -⟩ := scan_of_error hconfig h
  obtain ⟨name', later, hnames, hask, -⟩ := Registry.names_of_runEach_failure hfailure
  obtain ⟨hnone, rfl, -⟩ := Registry.ask_eq_unknown_iff.mp hask
  have hasked : name ∈ config.enabledDetectors s.registry.names := by
    rw [hnames]
    exact List.mem_append_right _ List.mem_cons_self
  obtain ⟨hmem, hon⟩ := Config.mem_of_mem_enabledDetectors hasked
  exact ⟨hmem.resolve_right fun hreg => Registry.get?_ne_none_of_mem_names hreg hnone, hon, hnone⟩

/-- A scan that fails for a detector that is not registered was asked to run a built-in one. It
leaves the session as it was but for the log and the counts by detector in the innermost profile:
there the proposals are counted of the detectors that run before the missing one, and no others. -/
theorem scan_unknown_leaves (hconfig : q.config.getD s.config = config)
    (h : (s.scan q).1 = .error (.unknown name available)) :
    (name ∈ builtinNames ∧ config.isEnabled name = true ∧ s.registry.get? name = none) ∧
    ∃ reports : List (Text × Report),
      reports.map Prod.fst = (builtinNames.takeWhile (· ≠ name)).filter config.isEnabled ∧
      (∀ entry ∈ reports,
        s.registry.ask config q.source (mask q.source) entry.1 = .ok entry.2) ∧
      (s.scan q).2 = { s with
        log := (s.scan q).2.log
        profiles := s.profiles.modifyHead fun p =>
          { p with perDetector := (p.recordReports reports).perDetector } } ∧
      ∀ p : Profile,
        (∀ entry ∈ reports, (p.recordReports reports).proposed entry.1 =
          p.proposed entry.1 + entry.2.findings.length) ∧
        ∀ n ∉ reports.map Prod.fst, (p.recordReports reports).proposed n = p.proposed n := by
  have hmissing := missing_of_scan_eq_unknown hconfig h
  obtain ⟨hfailure, hafter⟩ := scan_of_error hconfig h
  obtain ⟨name', later, hnames, hask, hreports⟩ := Registry.names_of_runEach_failure hfailure
  obtain ⟨-, rfl, -⟩ := Registry.ask_eq_unknown_iff.mp hask
  rw [← Registry.run] at hnames hreports
  generalize (s.registry.run config q.source).reports = reports at hafter hnames hreports
  have hearlier : name ∉ reports.map Prod.fst := by
    intro hmem
    obtain ⟨entry, hentry, rfl⟩ := List.mem_map.mp hmem
    rw [hreports entry hentry] at hask
    cases hask
  have hbefore := Config.eq_of_enabledDetectors_eq_append hnames hmissing.1 hearlier
  have hnodup : (reports.map Prod.fst).Nodup := by
    have hbuiltin : builtinNames.Nodup := by decide
    rw [hbefore]
    exact (hbuiltin.sublist (List.takeWhile_sublist _)).filter _
  refine ⟨hmissing, reports, hbefore, hreports, ?_, fun p => ⟨fun entry hentry => ?_, ?_⟩⟩
  · rw [hafter]
    exact s.noteReports_eq reports
  · exact Profile.proposed_recordReports_of_mem hnodup hentry
  · exact fun n hn => Profile.proposed_recordReports_of_notMem hn

/-- The search for expressions is missing, and two searches run before it. -/
theorem scan_unknown_leaves_two_reports :
    let s : Session := { registry := Registry.builtin.unregister "expression".toList,
                         profiles := [{ scans := 3 }, {}] }
    let q : ScanRequest := { source := "x = a / b;".toList, usesCache := true }
    ∃ available reports, (s.scan q).1 = .error (.unknown "expression".toList available) ∧
      reports.map Prod.fst = ["division".toList, "power".toList] ∧
      (s.scan q).2.cache = s.cache ∧ (s.scan q).2.config = s.config ∧
      (s.scan q).2.profiles = [({ scans := 3 } : Profile).recordReports reports, {}] := by
  intro s q
  have h : (s.scan q).1 = .error (.unknown "expression".toList
      ["division".toList, "mapping".toList, "power".toList, "summation".toList]) := by
    decide +kernel
  obtain ⟨-, reports, hnames, -, hafter, -⟩ := scan_unknown_leaves rfl h
  have hcache := congrArg cache hafter
  have hconfig := congrArg Session.config hafter
  exact ⟨_, reports, h, hnames.trans (by decide), hcache, hconfig, congrArg profiles hafter⟩

/-- A division that was found before the missing search for expressions stays counted. -/
theorem not_profiles_unchanged_of_unknown :
    ¬ ∀ (s : Session) (q : ScanRequest) (name : Text) (available : List Text),
      (s.scan q).1 = .error (.unknown name available) →
      (s.scan q).2.cache = s.cache ∧ (s.scan q).2.config = s.config ∧
        (s.scan q).2.profiles = s.profiles := by
  intro h
  let s : Session := { registry := Registry.builtin.unregister "expression".toList,
                       profiles := [{}] }
  have hsame := (h s { source := "x = a / b;".toList } "expression".toList
    ["division".toList, "mapping".toList, "power".toList, "summation".toList]
    (by decide +kernel)).2.2
  exact absurd hsame (by decide +kernel)

end Session

end Gloss
