import Gloss.Text.Basic

/-!
# Profiles

Counters over the scans of a profiled stretch of work: how much source they read, how many
findings each detector proposed, how many were kept, and how many scans a cache answered.
-/

namespace Gloss

/-- Counters over scans. -/
structure Profile where
  /-- Characters read by the scans that ran the detectors. -/
  sourceLength : Int := 0
  /-- Findings proposed before overlaps were resolved. -/
  candidates : Int := 0
  /-- Findings handed back, those from a cache included. -/
  kept : Int := 0
  /-- Scans, those answered by a cache included. -/
  scans : Int := 0
  /-- Scans answered by a cache. -/
  cacheHits : Int := 0
  /-- Findings proposed by each detector, in the order of first use. -/
  perDetector : List (Text × Int) := []
  deriving DecidableEq, Repr

namespace Profile

/-- Adds to the count under a name. -/
def addTo (name : Text) (n : Int) : List (Text × Int) → List (Text × Int)
  | [] => [(name, n)]
  | (k, m) :: rest => if k = name then (k, m + n) :: rest else (k, m) :: addTo name n rest

/-- Counts the findings that a detector proposed. -/
def recordDetector (p : Profile) (name : Text) (candidates : Int) : Profile :=
  { p with perDetector := addTo name candidates p.perDetector }

/-- Counts a scan that ran the detectors. -/
def recordScan (p : Profile) (sourceLength candidates kept : Int) : Profile :=
  { p with
    scans := p.scans + 1
    sourceLength := p.sourceLength + sourceLength
    candidates := p.candidates + candidates
    kept := p.kept + kept }

/-- Counts a scan that a cache answered. -/
def recordCacheHit (p : Profile) (kept : Int) : Profile :=
  { p with scans := p.scans + 1, cacheHits := p.cacheHits + 1, kept := p.kept + kept }

end Profile

end Gloss
