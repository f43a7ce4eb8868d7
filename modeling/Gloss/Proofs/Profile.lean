import Gloss.Proofs.Scan
import Mathlib.Algebra.GroupWithZero.Nat
import Mathlib.Algebra.Ring.Int.Defs

/-!
# What profiles count

A scan adds to the innermost profile in two ways. If the cache answers, the scan is counted as a
hit; else each detector's proposals are counted as it reports, and the scan when it returns. The
two agree: however hits and misses alternate, and whatever becomes of detectors, configuration and
cache between scans, the counts by detector add up to the candidates, which no scan returns more of.
-/

namespace Gloss

/-- A scan that returned, and the session that it was made in. -/
structure Session.Visit where
  /-- The session before the scan. -/
  session : Session
  /-- What was scanned, and how. -/
  request : ScanRequest
  /-- What was returned. -/
  kept : List Finding
  /-- It was returned. -/
  returned : (session.scan request).1 = .ok kept

namespace Session.Visit

/-- Whether the cache answered. -/
def isHit (v : Visit) : Bool :=
  (v.session.cached? v.request (v.request.config.getD v.session.config)).isSome

/-- The session after the scan. -/
def after (v : Visit) : Session := (v.session.scan v.request).2

/-- The scans that the cache had no answer for. -/
def misses (visits : List Visit) : List Visit := visits.filter fun v => !v.isHit

end Session.Visit

/-- Between two sessions the scans `visits` were made and returned, and no others count in the
profiles in progress. All else, such as detectors, configurations and caches, may change from one
scan to the next. -/
inductive Session.Leads (s : Session) : (visits : List Session.Visit) → Session → Prop
  /-- At first no scan was made. -/
  | start {s' : Session} : s'.profiles = s.profiles → Leads s [] s'
  /-- Another scan is made. -/
  | scan {visits : List Session.Visit} {v : Session.Visit} {s' : Session} :
      Leads s visits v.session → s'.profiles = v.after.profiles → Leads s (visits ++ [v]) s'

namespace Profile

open Session (Visit)

/-- What a profile counts of the scans made while it was in progress. -/
structure Accounts (p : Profile) (visits : List Visit) : Prop where
  /-- The counts by detector add up to the candidates. -/
  perDetector : (p.perDetector.map Prod.snd).sum = p.candidates
  /-- All scans are counted. -/
  scans : p.scans = visits.length
  /-- So are those that the cache answered. -/
  cacheHits : p.cacheHits = visits.countP Visit.isHit
  /-- All that was returned is counted. -/
  kept : p.kept = (visits.map fun v => v.kept.length).sum
  /-- The sources are counted that the cache had no answer for. -/
  sourceLength : p.sourceLength =
    ((Visit.misses visits).map fun v => v.request.source.length).sum
  /-- What was returned for these was among the candidates. -/
  candidates : ((Visit.misses visits).map fun v => v.kept.length).sum ≤ p.candidates

/-- Nothing was counted yet. -/
theorem accounts_empty : ({} : Profile).Accounts [] :=
  ⟨rfl, rfl, rfl, rfl, rfl, Int.le_refl 0⟩

/-- The profile with the reports of a run counted. -/
def recordReports (p : Profile) (reports : List (Text × Report)) : Profile :=
  { p with
    perDetector := reports.foldl
      (fun counts (name, report) => addTo name report.findings.length counts) p.perDetector }

/-- Adding to one count adds to their sum. -/
theorem sum_addTo (name : Text) (n : Int) (counts : List (Text × Int)) :
    ((addTo name n counts).map Prod.snd).sum = (counts.map Prod.snd).sum + n := by
  induction counts with
  | nil => simp [addTo]
  | cons count counts ih =>
    rw [addTo]
    split
    · simp only [List.map_cons, List.sum_cons]
      omega
    · simp only [List.map_cons, List.sum_cons, ih]
      omega

/-- The reports of a run raise the counts by as much as there are candidates. -/
theorem sum_recordReports (p : Profile) (run : Registry.Run) :
    ((p.recordReports run.reports).perDetector.map Prod.snd).sum =
      (p.perDetector.map Prod.snd).sum + run.candidates.length := by
  obtain ⟨reports, failure⟩ := run
  unfold recordReports Registry.Run.candidates
  dsimp only
  generalize p.perDetector = counts
  induction reports generalizing counts with
  | nil => simp
  | cons report reports ih =>
    rw [List.foldl_cons, ih, sum_addTo, List.flatMap_cons, List.length_append]
    omega

variable {p : Profile} {visits : List Visit} {v : Visit}

/-- A hit is accounted for by counting it as one. -/
theorem Accounts.hit (h : p.Accounts visits) (hv : v.isHit = true) :
    (p.recordCacheHit v.kept.length).Accounts (visits ++ [v]) := by
  have hmisses : Visit.misses (visits ++ [v]) = Visit.misses visits := by simp [Visit.misses, hv]
  constructor
  case perDetector => exact h.perDetector
  case scans => simp [recordCacheHit, h.scans]
  case cacheHits => simp [recordCacheHit, h.cacheHits, hv]
  case kept => simp [recordCacheHit, h.kept]
  case sourceLength => rw [hmisses]; exact h.sourceLength
  case candidates => rw [hmisses]; exact h.candidates

/-- A run of the detectors is accounted for by counting its reports and the scan. -/
theorem Accounts.miss (h : p.Accounts visits) (hv : v.isHit = false) {run : Registry.Run}
    (hkept : v.kept.length ≤ run.candidates.length) :
    ((p.recordReports run.reports).recordScan v.request.source.length run.candidates.length
      v.kept.length).Accounts (visits ++ [v]) := by
  have hmisses : Visit.misses (visits ++ [v]) = Visit.misses visits ++ [v] := by
    simp [Visit.misses, hv]
  constructor
  case perDetector =>
    have hsum := p.sum_recordReports run
    rw [h.perDetector] at hsum
    exact hsum
  case scans => simp [recordScan, recordReports, h.scans]
  case cacheHits => simp [recordScan, recordReports, h.cacheHits, hv]
  case kept => simp [recordScan, recordReports, h.kept]
  case sourceLength => simp [recordScan, recordReports, h.sourceLength, hmisses]
  case candidates =>
    have hbefore := h.candidates
    simp only [hmisses, recordScan, recordReports, List.map_append, List.map_singleton,
      List.sum_append_nat, List.sum_singleton]
    omega

end Profile

/-- Arranging adds no findings. -/
theorem Config.length_arrange_le (config : Config) (fs : List Finding) :
    (config.arrange fs).length ≤ fs.length := by
  have hsort : (Finding.sort fs).length = fs.length := (perm_sortStable _ fs).length_eq
  unfold arrange
  split
  · exact hsort ▸ (Finding.sublist_keepApart none (Finding.sort fs)).length_le
  · exact hsort.le

namespace Session

section Effects

variable (s : Session)

/-- Only the innermost profile is updated. -/
theorem profiles_mapProfile (f : Profile → Profile) :
    (s.mapProfile f).profiles = s.profiles.modifyHead f := by
  unfold mapProfile
  cases h : s.profiles with
  | nil => exact h
  | cons p ps => rfl

/-- Keeping a result leaves the profiles. -/
theorem profiles_keep (q : ScanRequest) (config : Config) (kept : List Finding) :
    (s.keep q config kept).profiles = s.profiles := by
  unfold keep
  split <;> rfl

/-- The innermost profile counts all reports of a run. -/
theorem profiles_noteReports (reports : List (Text × Report)) :
    (s.noteReports reports).profiles = s.profiles.modifyHead (·.recordReports reports) := by
  unfold noteReports
  induction reports generalizing s with
  | nil =>
    rw [List.foldl_nil]
    cases s.profiles <;> rfl
  | cons entry reports ih =>
    obtain ⟨name, report⟩ := entry
    rw [List.foldl_cons, ih]
    dsimp only
    rw [noteReport, profiles_mapProfile, List.modifyHead_modifyHead]
    rfl

end Effects

namespace Visit

variable (v : Visit)

/-- A hit is counted as one. -/
theorem profiles_after_of_isHit (h : v.isHit = true) :
    v.after.profiles = v.session.profiles.modifyHead (·.recordCacheHit v.kept.length) := by
  obtain ⟨kept, hcached⟩ := Option.isSome_iff_exists.mp h
  have hscan := scan_of_cached hcached
  have hkept := v.returned
  rw [hscan] at hkept
  rw [after, hscan, profiles_mapProfile, Except.ok.inj hkept]
  rfl

/-- Where the cache has no answer, the reports of the detectors are counted and then the scan,
which returns no more than was reported. -/
theorem profiles_after_of_not_isHit (h : v.isHit = false) :
    ∃ run : Registry.Run, v.kept.length ≤ run.candidates.length ∧
      v.after.profiles = v.session.profiles.modifyHead fun p =>
        (p.recordReports run.reports).recordScan v.request.source.length run.candidates.length
          v.kept.length := by
  have hcached := Option.isNone_iff_eq_none.mp (Option.isSome_eq_false_iff.mp h)
  obtain ⟨hfailure, hkept⟩ := (scan_eq_ok_iff rfl hcached).mp v.returned
  refine ⟨_, hkept ▸ Config.length_arrange_le _ _, ?_⟩
  rw [after, scan_of_not_cached hcached]
  simp only [scanAfresh, hfailure, hkept]
  rw [profiles_mapProfile, profiles_keep, addLog, profiles_noteReports, List.modifyHead_modifyHead]
  rfl

/-- A scan leaves the innermost profile with an account of it too. -/
theorem exists_accounts_after {p : Profile} {outer : List Profile} {visits : List Visit}
    (hprofiles : v.session.profiles = p :: outer) (h : p.Accounts visits) :
    ∃ p' : Profile, v.after.profiles = p' :: outer ∧ p'.Accounts (visits ++ [v]) := by
  cases hv : v.isHit with
  | true =>
    rw [v.profiles_after_of_isHit hv, hprofiles]
    exact ⟨_, rfl, h.hit hv⟩
  | false =>
    obtain ⟨run, hkept, hafter⟩ := v.profiles_after_of_not_isHit hv
    rw [hafter, hprofiles]
    exact ⟨_, rfl, h.miss hv hkept⟩

end Visit

variable {s s' : Session} {visits : List Visit}

/-- A profile that was begun accounts for all visits until its end. -/
theorem Leads.exists_accounts {p : Profile} {outer : List Profile} (h : s.Leads visits s')
    (hprofiles : s.profiles = p :: outer) (hp : p.Accounts []) :
    ∃ p' : Profile, s'.profiles = p' :: outer ∧ p'.Accounts visits := by
  induction h with
  | start hsame => exact ⟨p, hsame.trans hprofiles, hp⟩
  | @scan visits v s' _ hsame ih =>
    obtain ⟨p', hprofiles', hp'⟩ := ih
    rw [hsame]
    exact v.exists_accounts_after hprofiles' hp'

/-- A profile accounts for the scans that were made while it was in progress, and when it ends the
profiles are as they were when it began. -/
theorem exitProfile_accounts (h : s.enterProfile.Leads visits s') :
    ∃ p : Profile, s'.exitProfile = (some p, { s' with profiles := s.profiles }) ∧
      p.Accounts visits := by
  obtain ⟨p, hprofiles, hp⟩ := h.exists_accounts rfl Profile.accounts_empty
  refine ⟨p, ?_, hp⟩
  rw [exitProfile, hprofiles]
  rfl

/-- A detector of a letter besides the built-in ones: a scan that runs the detectors, one that the
cache answers, and one behind a change of the configuration that finds the cache empty. Once it is
known which scans the cache answers, none of them has to be run again. -/
theorem exitProfile_accounts_letter :
    let letter := Detector.ofWord "letter".toList ['x'] ['X'] ['x']
    let q : ScanRequest :=
      { source := "x = a/x;".toList, usesCache := true, revision := some (.number 1) }
    let s₁ := (({} : Session).register letter).enterProfile
    let s₂ := (s₁.scan q).2
    let s₃ := ((s₂.scan q).2.setConfig { expression := .bool false }).clearCache
    let s₄ := (s₃.scan q).2
    ∃ visits p, s₁.Leads visits s₄ ∧ visits.map Visit.isHit = [false, true, false] ∧
      s₄.exitProfile.1 = some p ∧ p.Accounts visits := by
  intro letter q s₁ s₂ s₃ s₄
  have hreturns (s : Session) (h : (s.scan q).1.isOk = true) : ∃ kept, (s.scan q).1 = .ok kept := by
    cases hscan : (s.scan q).1 with
    | error failure => simp [hscan, Except.isOk, Except.toBool] at h
    | ok kept => exact ⟨kept, rfl⟩
  obtain ⟨kept₁, h₁⟩ := hreturns s₁ (by decide +kernel)
  obtain ⟨kept₂, h₂⟩ := hreturns s₂ (by decide +kernel)
  obtain ⟨kept₃, h₃⟩ := hreturns s₃ (by decide +kernel)
  have hmiss₁ : (s₁.cached? q (q.config.getD s₁.config)).isSome = false := by decide +kernel
  have hhit₂ : (s₂.cached? q (q.config.getD s₂.config)).isSome = true := by decide +kernel
  have hmiss₃ : (s₃.cached? q (q.config.getD s₃.config)).isSome = false := by decide +kernel
  have e₂ : s₂ = (s₁.scan q).2 := rfl
  have e₃ : s₃ = ((s₂.scan q).2.setConfig { expression := .bool false }).clearCache := rfl
  have e₄ : s₄ = (s₃.scan q).2 := rfl
  clear_value s₄ s₃ s₂
  have hsame : s₃.profiles = (s₂.scan q).2.profiles := by
    rw [e₃]
    rfl
  have hleads : s₁.Leads ([] ++ [⟨s₁, q, kept₁, h₁⟩] ++ [⟨s₂, q, kept₂, h₂⟩] ++
      [⟨s₃, q, kept₃, h₃⟩]) s₄ :=
    .scan (.scan (.scan (.start rfl) (congrArg profiles e₂)) hsame) (congrArg profiles e₄)
  obtain ⟨p, hexit, haccounts⟩ := exitProfile_accounts hleads
  refine ⟨_, p, hleads, ?_, congrArg Prod.fst hexit, haccounts⟩
  simp [Visit.isHit, hmiss₁, hhit₂, hmiss₃]

end Session

end Gloss
