import Gloss.Proofs.Cache
import Gloss.Proofs.Config
import Gloss.Session

/-!
# A cache does not change results

Whatever a session's cache holds is what the detectors answered to an earlier scan with the
same key. Equal keys mean equal sources and equal configurations, as far as the digests in
them tell: so a scan returns the same with the cache as without it, whatever scans,
invalidations and changes of the configuration came before.
-/

namespace Gloss

/-- What the detectors make of a source: an error, or their findings arranged. -/
def Registry.answer (r : Registry) (config : Config) (source : Text) :
    Except DetectorError (List Finding) :=
  match (r.run config source).failure with
  | some failure => .error failure
  | none => .ok (config.arrange (r.run config source).candidates)

namespace Session

/-- What may happen in a session that shares one cache. -/
inductive Action where
  /-- A source is scanned, with the cache or without it. -/
  | scan (q : ScanRequest)
  /-- What is kept for a document is dropped. -/
  | invalidate (document : Text)
  /-- The cache is emptied. -/
  | clearCache
  /-- The active configuration is replaced. -/
  | setConfig (config : Config)
  /-- The active configuration is replaced for a while. -/
  | enterConfig (config : Config)
  /-- The configuration before that is active again. -/
  | exitConfig
  /-- A profile is started. -/
  | enterProfile
  /-- The innermost profile is ended. -/
  | exitProfile

/-- A scan that uses the cache, and the configuration that it runs under. -/
structure Call where
  /-- What is scanned. -/
  request : ScanRequest
  /-- The configuration of the request, or the active one. -/
  config : Config

namespace Call

/-- The texts whose digests are in the key of a call: its source, if it gives no revision, and
what identifies its configuration. -/
def digested (c : Call) : List Text :=
  if c.request.revision.isNone then [c.request.source, c.config.fingerprintText]
  else [c.config.fingerprintText]

/-- A source without a revision of its own is digested for the key. -/
theorem source_mem_digested {c : Call} (h : c.request.revision = none) :
    c.request.source ∈ c.digested := by
  rw [digested, h]
  exact List.mem_cons_self

/-- What identifies the configuration is digested for the key. -/
theorem fingerprintText_mem_digested (c : Call) : c.config.fingerprintText ∈ c.digested := by
  unfold digested
  split <;> simp

end Call

/-- A session after an action. -/
def perform (s : Session) : Action → Session
  | .scan q => (s.scan q).2
  | .invalidate document => s.invalidate document
  | .clearCache => s.clearCache
  | .setConfig config => s.setConfig config
  | .enterConfig config => s.enterConfig config
  | .exitConfig => s.exitConfig
  | .enterProfile => s.enterProfile
  | .exitProfile => s.exitProfile.2

/-- A session after several actions. -/
def performAll (s : Session) (actions : List Action) : Session := actions.foldl perform s

/-- The call that an action makes, if it scans with the cache. -/
def callOf (s : Session) : Action → List Call
  | .scan q => if q.usesCache then [⟨q, q.config.getD s.config⟩] else []
  | _ => []

/-- The calls that several actions make, in order. -/
def calls : Session → List Action → List Call
  | _, [] => []
  | s, a :: actions => s.callOf a ++ calls (s.perform a) actions

theorem performAll_cons (s : Session) (a : Action) (actions : List Action) :
    s.performAll (a :: actions) = (s.perform a).performAll actions := rfl

/-- The calls of two series of actions are those of the first, and those of the second from behind
it. -/
theorem calls_append (s : Session) (actions more : List Action) :
    s.calls (actions ++ more) = s.calls actions ++ (s.performAll actions).calls more := by
  induction actions generalizing s with
  | nil => rfl
  | cons a actions ih =>
    rw [List.cons_append, calls, calls, ih, performAll_cons, List.append_assoc]

section Frame

variable (s : Session)

/-- Noting what happened changes neither registry, cache nor configuration. -/
theorem frame_mapProfile (f : Profile → Profile) :
    (s.mapProfile f).registry = s.registry ∧ (s.mapProfile f).cache = s.cache ∧
      (s.mapProfile f).config = s.config := by
  unfold mapProfile
  split <;> exact ⟨rfl, rfl, rfl⟩

/-- Counting and logging reports touches neither registry nor cache nor configuration. -/
theorem frame_noteReports (reports : List (Text × Report)) :
    (s.noteReports reports).registry = s.registry ∧ (s.noteReports reports).cache = s.cache ∧
      (s.noteReports reports).config = s.config := by
  unfold noteReports
  induction reports generalizing s with
  | nil => exact ⟨rfl, rfl, rfl⟩
  | cons report reports ih =>
    obtain ⟨hregistry, hcache, hconfig⟩ := ih (s.noteReport report.1 report.2)
    obtain ⟨hregistry', hcache', hconfig'⟩ :=
      frame_mapProfile (s.addLog (report.2.log ++ [detectorRecord report.1 report.2]))
        fun p => p.recordDetector report.1 report.2.findings.length
    exact ⟨hregistry.trans hregistry', hcache.trans hcache', hconfig.trans hconfig'⟩

/-- Keeping a result leaves the registered detectors. -/
theorem registry_keep (q : ScanRequest) (config : Config) (kept : List Finding) :
    (s.keep q config kept).registry = s.registry := by
  unfold keep
  split <;> rfl

/-- Keeping a result leaves the active configuration. -/
theorem config_keep (q : ScanRequest) (config : Config) (kept : List Finding) :
    (s.keep q config kept).config = s.config := by
  unfold keep
  split <;> rfl

end Frame

variable {s : Session} {q : ScanRequest} {config : Config}

/-- What a run of the detectors returns and leaves behind. -/
theorem scanAfresh_spec (s : Session) (q : ScanRequest) (config : Config) :
    (s.scanAfresh q config).1 = s.registry.answer config q.source ∧
      (s.scanAfresh q config).2.registry = s.registry ∧
      (s.scanAfresh q config).2.config = s.config ∧
      ((s.scanAfresh q config).2.cache = s.cache ∨
        q.usesCache = true ∧ ∃ kept, s.registry.answer config q.source = .ok kept ∧
          (s.scanAfresh q config).2.cache =
            s.cache.put q.cacheDocument q.cacheRevision config.fingerprint kept) := by
  obtain ⟨hregistry, hcache, hconfig⟩ :=
    s.frame_noteReports (s.registry.run config q.source).reports
  cases hfailure : (s.registry.run config q.source).failure with
  | some failure =>
    simp only [scanAfresh, Registry.answer, hfailure]
    exact ⟨trivial, hregistry, hconfig, Or.inl hcache⟩
  | none =>
    simp only [scanAfresh, Registry.answer, hfailure]
    generalize config.arrange (s.registry.run config q.source).candidates = kept
    generalize hnoted : (s.noteReports (s.registry.run config q.source).reports).addLog
      [scanRecord (s.registry.run config q.source).candidates kept] = noted
    obtain ⟨hregistry', hcache', hconfig'⟩ := (noted.keep q config kept).frame_mapProfile
      fun p => p.recordScan q.source.length
        (s.registry.run config q.source).candidates.length kept.length
    rw [hregistry', hcache', hconfig', registry_keep, config_keep, ← hnoted]
    refine ⟨trivial, hregistry, hconfig, ?_⟩
    by_cases huse : q.usesCache = true
    · refine Or.inr ⟨huse, kept, rfl, ?_⟩
      rw [keep, if_pos huse, ← hcache]
      rfl
    · refine Or.inl ?_
      rw [keep, if_neg huse]
      exact hcache

/-- A scan that the cache answers is logged and counted, and nothing else. -/
theorem scan_of_cached {kept : List Finding}
    (h : s.cached? q (q.config.getD s.config) = some kept) :
    s.scan q = (.ok kept, (s.addLog [hitRecord q.cacheDocument q.cacheRevision]).mapProfile
      fun p => p.recordCacheHit kept.length) := by
  simp only [scan, h]

/-- A scan that the cache does not answer runs the detectors. -/
theorem scan_of_not_cached (h : s.cached? q (q.config.getD s.config) = none) :
    s.scan q = s.scanAfresh q (q.config.getD s.config) := by
  simp only [scan, h]

/-- A scan leaves the registry and the active configuration, and keeps nothing but the answer of
the detectors, under its own key. -/
theorem scan_leaves (s : Session) (q : ScanRequest) :
    (s.scan q).2.registry = s.registry ∧ (s.scan q).2.config = s.config ∧
      ((s.scan q).2.cache = s.cache ∨ q.usesCache = true ∧ ∃ kept,
        s.registry.answer (q.config.getD s.config) q.source = .ok kept ∧
          (s.scan q).2.cache = s.cache.put q.cacheDocument q.cacheRevision
            (q.config.getD s.config).fingerprint kept) := by
  cases hcached : s.cached? q (q.config.getD s.config) with
  | some kept =>
    rw [scan_of_cached hcached]
    obtain ⟨hregistry, hcache, hconfig⟩ := (s.addLog [hitRecord q.cacheDocument q.cacheRevision])
      |>.frame_mapProfile fun p => p.recordCacheHit kept.length
    exact ⟨hregistry, hconfig, Or.inl hcache⟩
  | none =>
    rw [scan_of_not_cached hcached]
    exact (s.scanAfresh_spec q (q.config.getD s.config)).2

/-- Without the cache a scan returns the answer of the detectors. -/
theorem scan_without_cache (s : Session) (q : ScanRequest) (h : q.usesCache = false) :
    (s.scan q).1 = s.registry.answer (q.config.getD s.config) q.source := by
  have hcached : s.cached? q (q.config.getD s.config) = none := by
    rw [cached?, h, if_neg Bool.false_ne_true]
  rw [scan_of_not_cached hcached]
  exact (s.scanAfresh_spec q (q.config.getD s.config)).1

/-- No action of a session with one cache changes the registered detectors. -/
theorem registry_perform (s : Session) (a : Action) : (s.perform a).registry = s.registry := by
  cases a with
  | scan q => exact (s.scan_leaves q).1
  | exitConfig =>
    rw [perform, exitConfig]
    split <;> rfl
  | invalidate | clearCache | setConfig | enterConfig | enterProfile | exitProfile => rfl

/-- Whatever the cache holds is what the detectors answer to one of the calls, under its key. -/
def KeepsAnswers (s : Session) (calls : List Call) : Prop :=
  ∀ document revision key kept, s.cache.get? document revision key = some kept →
    ∃ c ∈ calls, c.request.cacheDocument = document ∧ c.request.cacheRevision = revision ∧
      c.config.fingerprint = key ∧ s.registry.answer c.config c.request.source = .ok kept

/-- No action makes the cache hold anything but the answers to calls. -/
theorem KeepsAnswers.perform {past : List Call} (h : s.KeepsAnswers past) (a : Action) :
    (s.perform a).KeepsAnswers (past ++ s.callOf a) := by
  intro document revision key kept hget
  rw [registry_perform]
  have hold (hget : s.cache.get? document revision key = some kept) :
      ∃ c ∈ past ++ s.callOf a, c.request.cacheDocument = document ∧
        c.request.cacheRevision = revision ∧ c.config.fingerprint = key ∧
        s.registry.answer c.config c.request.source = .ok kept := by
    obtain ⟨c, hc, hkey⟩ := h document revision key kept hget
    exact ⟨c, List.mem_append_left _ hc, hkey⟩
  cases a with
  | scan q =>
    rcases (s.scan_leaves q).2.2 with hcache | ⟨huse, result, hresult, hcache⟩
    · rw [Session.perform, hcache] at hget
      exact hold hget
    · rw [Session.perform, hcache] at hget
      rcases Cache.eq_or_get?_of_get?_put hget with ⟨rfl, rfl, rfl, rfl⟩ | hget
      · refine ⟨⟨q, q.config.getD s.config⟩, List.mem_append_right _ ?_, rfl, rfl, rfl, hresult⟩
        rw [callOf, if_pos huse]
        exact List.mem_singleton_self _
      · exact hold hget
  | invalidate dropped => exact hold (Cache.get?_of_get?_invalidate hget)
  | clearCache =>
    rw [Session.perform, clearCache, Cache.get?_empty] at hget
    cases hget
  | exitConfig =>
    refine hold ?_
    rw [← hget, Session.perform, exitConfig]
    split <;> rfl
  | setConfig | enterConfig | enterProfile | exitProfile => exact hold hget

/-- No series of actions makes the cache hold anything but the answers to calls. -/
theorem KeepsAnswers.performAll {past : List Call} (h : s.KeepsAnswers past)
    (actions : List Action) : (s.performAll actions).KeepsAnswers (past ++ s.calls actions) := by
  induction actions generalizing s past with
  | nil =>
    rw [calls, List.append_nil]
    exact h
  | cons a actions ih =>
    rw [calls, ← List.append_assoc, performAll_cons]
    exact ih (h.perform a)

/-- Calls with one key have one source, if that holds of the calls that give a revision: all
others have the digests of their sources in their keys. -/
theorem Call.source_eq {c d : Call}
    (hgiven : c.request.revision.isSome = true ∨ d.request.revision.isSome = true →
      c.request.cacheDocument = d.request.cacheDocument →
      c.request.cacheRevision = d.request.cacheRevision → c.request.source = d.request.source)
    (hdigest : ∀ t ∈ c.digested, ∀ u ∈ d.digested, Digest.ofText t = Digest.ofText u → t = u)
    (hdocument : c.request.cacheDocument = d.request.cacheDocument)
    (hrevision : c.request.cacheRevision = d.request.cacheRevision) :
    c.request.source = d.request.source := by
  by_cases hsome : c.request.revision.isSome = true ∨ d.request.revision.isSome = true
  · exact hgiven hsome hdocument hrevision
  · simp only [not_or, Bool.not_eq_true, Option.isSome_eq_false_iff,
      Option.isNone_iff_eq_none] at hsome
    refine hdigest _ (source_mem_digested hsome.1) _ (source_mem_digested hsome.2) ?_
    simpa only [ScanRequest.cacheRevision, hsome.1, hsome.2, Option.getD_none,
      Revision.label.injEq] using hrevision

/-- A cache that was empty at first does not change what a scan returns, whatever scans,
invalidations and changes of the configuration came before. The demands are: calls with one
document and one revision have one source (asked only where a revision is given, for else the
revision is the digest of the source), no two of the texts digested have one digest, and the
settings are well-typed, that is, the switches hold truth values and names are not given once
as a list and once as the keys of an object, which no digest tells apart. -/
theorem scan_eq_scan_without_cache {s : Session} {past : List Action} {q : ScanRequest}
    {calls : List Call} (hcalls : s.calls (past ++ [.scan q]) = calls) (hempty : s.cache = {})
    (hswitches : ∀ c ∈ calls, c.config.HasTruthValues)
    (hform : ∀ c ∈ calls, ∀ d ∈ calls,
      c.config.powerFunctions = d.config.powerFunctions → c.config.namesKeyed = d.config.namesKeyed)
    (hsource : ∀ c ∈ calls, ∀ d ∈ calls,
      c.request.revision.isSome = true ∨ d.request.revision.isSome = true →
      c.request.cacheDocument = d.request.cacheDocument →
      c.request.cacheRevision = d.request.cacheRevision → c.request.source = d.request.source)
    (hdigest : ∀ t ∈ calls.flatMap Call.digested, ∀ u ∈ calls.flatMap Call.digested,
      Digest.ofText t = Digest.ofText u → t = u) :
    ((s.performAll past).scan q).1 =
      ((s.performAll past).scan { q with usesCache := false }).1 := by
  by_cases huse : q.usesCache = true
  swap
  · rw [Bool.not_eq_true] at huse
    rw [show { q with usesCache := false } = q by rw [← huse]]
  have hkeeps : (s.performAll past).KeepsAnswers (s.calls past) := by
    have hnone : s.KeepsAnswers [] := by
      intro document revision key kept hget
      rw [hempty, Cache.get?_empty] at hget
      cases hget
    exact hnone.performAll past
  rw [calls_append] at hcalls
  set now := s.performAll past
  have hthis : (⟨q, q.config.getD now.config⟩ : Call) ∈ calls := by
    rw [← hcalls]
    refine List.mem_append_right _ ?_
    simp only [Session.calls, callOf, huse, if_true, List.append_nil, List.mem_singleton]
  rw [scan_without_cache now { q with usesCache := false } rfl]
  cases hcached : now.cached? q (q.config.getD now.config) with
  | none =>
    rw [scan_of_not_cached hcached]
    exact (now.scanAfresh_spec q (q.config.getD now.config)).1
  | some kept =>
    rw [scan_of_cached hcached]
    rw [cached?, if_pos huse] at hcached
    obtain ⟨c, hc, hdocument, hrevision, hkey, hanswer⟩ := hkeeps _ _ _ _ hcached
    rw [Config.fingerprint_eq_ofText, Config.fingerprint_eq_ofText] at hkey
    have hpast : c ∈ calls := by
      rw [← hcalls]
      exact List.mem_append_left _ hc
    have hdigest' : ∀ t ∈ c.digested, ∀ u ∈ Call.digested ⟨q, q.config.getD now.config⟩,
        Digest.ofText t = Digest.ofText u → t = u := fun t ht u hu =>
      hdigest t (List.mem_flatMap.mpr ⟨c, hpast, ht⟩) u (List.mem_flatMap.mpr ⟨_, hthis, hu⟩)
    have hsources : c.request.source = q.source :=
      Call.source_eq (hsource c hpast _ hthis) hdigest' hdocument hrevision
    have hconfigs : c.config = q.config.getD now.config :=
      Config.eq_of_fingerprintText (hswitches c hpast) (hswitches _ hthis) (hform c hpast _ hthis)
        (hdigest' _ c.fingerprintText_mem_digested _ (Call.fingerprintText_mem_digested _) hkey)
    rw [hsources, hconfigs] at hanswer
    exact hanswer.symm

/-- A document is scanned under two configurations and scanned again when the second is the
active one: the cache answers, and answers right. -/
theorem scan_eq_scan_without_cache_hit :
    let q : ScanRequest :=
      { source := "x = a / b;".toList, usesCache := true, document := some ['A'],
        revision := some (.number 1) }
    let config : Config := { expression := .bool false }
    let past : List Action := [.scan q, .scan { q with config := some config },
      .scan { source := "y".toList, config := some {}, usesCache := true }, .invalidate ['B'],
      .setConfig config]
    let now := ({} : Session).performAll past
    (now.cached? q config).isSome = true ∧
      (now.scan q).1 = (now.scan { q with usesCache := false }).1 := by
  intro q config past now
  have hcalls : ({} : Session).calls (past ++ [.scan q]) = [⟨q, {}⟩,
      ⟨{ q with config := some config }, config⟩,
      ⟨{ source := "y".toList, config := some {}, usesCache := true }, {}⟩, ⟨q, config⟩] := rfl
  exact ⟨by decide +kernel, scan_eq_scan_without_cache hcalls rfl (by decide +kernel)
    (by decide +kernel) (by decide +kernel) (by decide +kernel)⟩

end Session

end Gloss
