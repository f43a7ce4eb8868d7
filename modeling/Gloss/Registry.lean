import Gloss.Detect.Arithmetic
import Gloss.Detect.Division
import Gloss.Detect.Mapping
import Gloss.Detect.Power
import Gloss.Detect.Summation
import Gloss.Mask
import Gloss.Resolve

/-!
# The detector registry

Detectors are registered under names, in the order of their first registration. A run asks the
enabled detectors in turn; it stops short where an enabled detector is not registered or does
not accept the configuration.
-/

namespace Gloss

/-- The registered detectors, by name. -/
structure Registry where
  /-- Names and detectors, in order of registration. -/
  detectors : List (Text × Detector)

/-- Why a detector that was asked for did not answer. -/
inductive DetectorError where
  /-- None is registered under the name; those that are registered are listed, sorted. -/
  | unknown (name : Text) (available : List Text)
  /-- The detector does not accept the configuration. -/
  | refused (name : Text)
  deriving DecidableEq, Repr

/-- The message about an unknown detector; a refusal has none. -/
def DetectorError.message? : DetectorError → Option Text
  | unknown name available =>
    some ("Unknown detector: ".toList ++ Json.literalText name ++ ". Available: ".toList ++
      Text.join [',', ' '] available)
  | refused _ => none

namespace Registry

/-- The built-in detectors. -/
def builtin : Registry :=
  ⟨[Division.detector, Arithmetic.detector, Mapping.detector, Power.detector,
    Summation.detector].map fun d => (d.name, d)⟩

/-- The names registered, in order of registration. -/
def names (r : Registry) : List Text := r.detectors.map Prod.fst

/-- The detector registered under a name. -/
def get? (r : Registry) (name : Text) : Option Detector := r.detectors.lookup name

/-- Sets the detector under a name; one that is registered already is replaced in its place. -/
def setDetector (d : Detector) : List (Text × Detector) → List (Text × Detector)
  | [] => [(d.name, d)]
  | (k, e) :: rest => if k = d.name then (k, d) :: rest else (k, e) :: setDetector d rest

/-- Registers a detector. -/
def register (r : Registry) (d : Detector) : Registry := ⟨setDetector d r.detectors⟩

/-- Removes the detector under a name. -/
def unregister (r : Registry) (name : Text) : Registry :=
  ⟨r.detectors.filter fun (k, _) => k ≠ name⟩

/-- The error about a name that is not registered. -/
def unknown (r : Registry) (name : Text) : DetectorError :=
  .unknown name (sortStable Text.le r.names)

/-- What the detector under a name reports. -/
def ask (r : Registry) (config : Config) (source masked name : Text) :
    Except DetectorError Report :=
  match r.get? name with
  | none => .error (r.unknown name)
  | some d =>
    if d.accepts config then .ok (d.run config source masked) else .error (.refused name)

/-- What the detectors of a run reported. -/
structure Run where
  /-- The reports, by detector, in the order in which they were made. -/
  reports : List (Text × Report)
  /-- The error that ended the run early. -/
  failure : Option DetectorError

/-- The findings of all detectors, in the order in which they were proposed. -/
def Run.candidates (run : Run) : List Finding :=
  run.reports.flatMap fun (_, report) => report.findings

/-- Asks detectors in turn, up to the first that does not answer. -/
def runEach (r : Registry) (config : Config) (source masked : Text) : (names : List Text) → Run
  | [] => ⟨[], none⟩
  | name :: names =>
    match r.ask config source masked name with
    | .error failure => ⟨[], some failure⟩
    | .ok report =>
      let run := runEach r config source masked names
      { run with reports := (name, report) :: run.reports }

/-- Asks the enabled detectors in turn. -/
def run (r : Registry) (config : Config) (source : Text) : Run :=
  runEach r config source (mask source) (config.enabledDetectors r.names)

end Registry

/-- What a scan makes of the findings proposed to it: in order, and without overlaps if the
configuration says so. -/
def Config.arrange (config : Config) (candidates : List Finding) : List Finding :=
  if config.resolves then Finding.resolve candidates else Finding.sort candidates

end Gloss
