import Gloss.Cache
import Gloss.Profile
import Gloss.Registry

/-!
# Sessions

A session is all that one scan leaves behind for the next: the registered detectors, the
active configuration and those to return to, a cache, the profiles in progress, and the log.
A scan without a configuration of its own uses the active one. It counts in the innermost
profile only. A scan that fails for a detector that does not answer changes neither cache nor
configuration; what the detectors before it counted and logged stays.
-/

namespace Gloss

/-- The state between scans. -/
structure Session where
  /-- The registered detectors. -/
  registry : Registry := Registry.builtin
  /-- The active configuration. -/
  config : Config := {}
  /-- The configurations to return to, innermost first. -/
  outer : List Config := []
  /-- The kept results. -/
  cache : Cache Revision (List Finding) := {}
  /-- The profiles in progress, innermost first. -/
  profiles : List Profile := []
  /-- The log so far. -/
  log : List LogRecord := []

/-- What to scan, and how. -/
structure ScanRequest where
  /-- The source. -/
  source : Text
  /-- The configuration, if not the active one. -/
  config : Option Config := none
  /-- Whether the cache may answer and keeps the result. -/
  usesCache : Bool := false
  /-- The document that the source belongs to. -/
  document : Option Text := none
  /-- The revision of the document, if not the digest of the source. Only numbers and texts are
  revisions here, since a revision is spelled in the log; the cache itself takes any type. -/
  revision : Option Revision := none

/-- The document of sources that belong to none. -/
def untitled : Text := "<untitled>".toList

namespace ScanRequest

/-- The document under which the result is kept; an empty name counts as none. -/
def cacheDocument (q : ScanRequest) : Text :=
  match q.document with
  | some (c :: name) => c :: name
  | _ => untitled

/-- The revision under which the result is kept. -/
def cacheRevision (q : ScanRequest) : Revision := q.revision.getD (.label (Digest.ofText q.source))

end ScanRequest

namespace Session

/-- Adds records to the log. -/
def addLog (s : Session) (records : List LogRecord) : Session := { s with log := s.log ++ records }

/-- Updates the innermost profile, if one is in progress. -/
def mapProfile (s : Session) (f : Profile → Profile) : Session :=
  match s.profiles with
  | [] => s
  | p :: ps => { s with profiles := f p :: ps }

/-- The innermost profile. -/
def profile? (s : Session) : Option Profile := s.profiles.head?

/-- The record of how much a detector proposed. -/
def detectorRecord (name : Text) (report : Report) : LogRecord :=
  .ofRoot ("detector ".toList ++ name ++ ": ".toList ++ Text.ofNat report.findings.length ++
    " candidates".toList)

/-- The record of a scan that ran the detectors. -/
def scanRecord (candidates kept : List Finding) : LogRecord :=
  .ofRoot ("scan: ".toList ++ Text.ofNat candidates.length ++ " candidates, ".toList ++
    Text.ofNat kept.length ++ " kept".toList)

/-- The record of a scan that the cache answered. -/
def hitRecord (document : Text) (revision : Revision) : LogRecord :=
  .ofRoot ("cache hit: ".toList ++ document ++ '@' :: revision.toText)

/-- Logs and counts a detector's report. -/
def noteReport (s : Session) (name : Text) (report : Report) : Session :=
  (s.addLog (report.log ++ [detectorRecord name report])).mapProfile fun p =>
    p.recordDetector name report.findings.length

/-- Logs and counts the reports of a run. -/
def noteReports (s : Session) (reports : List (Text × Report)) : Session :=
  reports.foldl (fun s (name, report) => s.noteReport name report) s

/-- The result that the cache keeps for a request under a configuration. -/
def cached? (s : Session) (q : ScanRequest) (config : Config) : Option (List Finding) :=
  if q.usesCache then s.cache.get? q.cacheDocument q.cacheRevision config.fingerprint else none

/-- Keeps the result of a request, if it uses the cache. -/
def keep (s : Session) (q : ScanRequest) (config : Config) (kept : List Finding) : Session :=
  if q.usesCache then
    { s with cache := s.cache.put q.cacheDocument q.cacheRevision config.fingerprint kept }
  else s

/-- Runs the detectors on a request and keeps what they find. -/
def scanAfresh (s : Session) (q : ScanRequest) (config : Config) :
    Except DetectorError (List Finding) × Session :=
  let run := s.registry.run config q.source
  let s := s.noteReports run.reports
  match run.failure with
  | some failure => (.error failure, s)
  | none =>
    let candidates := run.candidates
    let kept := config.arrange candidates
    let s := (s.addLog [scanRecord candidates kept]).keep q config kept
    (.ok kept, s.mapProfile fun p => p.recordScan q.source.length candidates.length kept.length)

/-- Scans a source: the findings in order, and the session afterwards. -/
def scan (s : Session) (q : ScanRequest) : Except DetectorError (List Finding) × Session :=
  let config := q.config.getD s.config
  match s.cached? q config with
  | some kept =>
    let s := s.addLog [hitRecord q.cacheDocument q.cacheRevision]
    (.ok kept, s.mapProfile fun p => p.recordCacheHit kept.length)
  | none => s.scanAfresh q config

/-- Makes a configuration the active one. -/
def setConfig (s : Session) (config : Config) : Session := { s with config }

/-- Makes a configuration the active one until the matching exit. -/
def enterConfig (s : Session) (config : Config) : Session :=
  { s with config, outer := s.config :: s.outer }

/-- Returns to the configuration that was active at the matching entry. -/
def exitConfig (s : Session) : Session :=
  match s.outer with
  | [] => s
  | config :: outer => { s with config, outer }

/-- Starts a profile. -/
def enterProfile (s : Session) : Session := { s with profiles := {} :: s.profiles }

/-- Ends the innermost profile and returns it. -/
def exitProfile (s : Session) : Option Profile × Session :=
  (s.profiles.head?, { s with profiles := s.profiles.tail })

/-- Registers a detector. -/
def register (s : Session) (d : Detector) : Session := { s with registry := s.registry.register d }

/-- Removes a detector, if one is registered under the name. -/
def unregister? (s : Session) (name : Text) : Option Session :=
  if (s.registry.get? name).isSome then some { s with registry := s.registry.unregister name }
  else none

/-- The cache with a result stored in it. -/
def putResult (s : Session) (document : Text) (revision : Revision) (key : Text)
    (result : List Finding) : Session :=
  { s with cache := s.cache.put document revision key result }

/-- Drops what the cache keeps for a document. -/
def invalidate (s : Session) (document : Text) : Session :=
  { s with cache := s.cache.invalidate document }

/-- Empties the cache. -/
def clearCache (s : Session) : Session := { s with cache := {} }

end Session

end Gloss
