import Gloss.Digest
import Gloss.Json.Literal
import Gloss.Text.Word

/-!
# Configuration

Which detectors run, which functions count as powers, how many expressions are reported, and
whether overlaps are resolved. Configurations come from settings files, so a switch may hold
any JSON value and is on or off by whether that value counts as on. The names of power
functions and the limit are checked; a configuration holds only names that passed.

Settings with a number that has a fraction or an exponent are outside of this description: such
a number is kept as its numeral, counts as on, is spelled as it was written, and is no limit.
-/

namespace Gloss

/-- The most expressions that are reported: a number, or a switch that counts as one or none. -/
inductive Limit where
  /-- So many. -/
  | count (n : Nat)
  /-- One if on, none if off. -/
  | switch (on : Bool)
  deriving DecidableEq, Repr

namespace Limit

/-- The number that a limit stands for. -/
def toNat : Limit → Nat
  | count n => n
  | switch on => if on then 1 else 0

/-- The value that a limit was set to. -/
def toJson : Limit → Json
  | count n => .int n
  | switch on => .bool on

end Limit

/-- The names of the five built-in detectors, in the order in which they run. -/
def builtinNames : List Text :=
  ["division".toList, "power".toList, "expression".toList, "summation".toList, "mapping".toList]

/-- How a source is scanned. -/
structure Config where
  /-- Switches the search for divisions. -/
  division : Json := .bool true
  /-- Switches the search for power calls. -/
  power : Json := .bool true
  /-- Switches the search for expressions. -/
  expression : Json := .bool true
  /-- Switches the search for summing loops. -/
  summation : Json := .bool true
  /-- Switches the search for mapping loops. -/
  mapping : Json := .bool true
  /-- The dotted names of the functions that raise their first argument to the second. -/
  powerFunctions : List Text := ["Math.pow".toList]
  /-- Whether these names were given as the keys of an object instead of a list. -/
  namesKeyed : Bool := false
  /-- The most expressions that are reported. -/
  maxExpressions : Limit := .count 500
  /-- Switches the resolution of overlaps. -/
  resolveOverlaps : Json := .bool true
  /-- Only dotted names name a power function. -/
  names_dotted : powerFunctions.all Text.isDottedName = true := by decide
  deriving DecidableEq

/-- Why settings are no configuration. -/
inductive ConfigError where
  /-- The power functions are one string instead of a list of names. -/
  | namesAreString
  /-- An item among the power functions is no dotted name. -/
  | notAName (item : Json)
  /-- The power functions are neither a list nor an object nor a string. -/
  | namesNotListed
  /-- The limit is below zero. -/
  | negativeLimit
  /-- The limit is no number. -/
  | limitNotNumber
  deriving DecidableEq, Repr

namespace ConfigError

/-- The setting at fault. -/
def field : ConfigError → Text
  | namesAreString | notAName _ | namesNotListed => "power_functions".toList
  | negativeLimit | limitNotNumber => "max_expression_matches".toList

/-- What is wrong with a value of the right type; a value of a wrong type has no message. -/
def complaint? : ConfigError → Option Text
  | namesAreString => some "expected a sequence of names, got a string".toList
  | notAName item => some (item.literal ++ " is not a qualified name".toList)
  | negativeLimit => some "must be >= 0".toList
  | namesNotListed | limitNotNumber => none

/-- The message of an error about a value of the right type. -/
def message? (e : ConfigError) : Option Text :=
  e.complaint?.map fun complaint =>
    "Invalid config field '".toList ++ e.field ++ "': ".toList ++ complaint

end ConfigError

namespace Config

/-- A dotted name out of a setting. -/
def readName : Json → Except ConfigError { name : Text // name.isDottedName = true }
  | .str name =>
    if h : name.isDottedName = true then .ok ⟨name, h⟩ else .error (.notAName (.str name))
  | item => .error (.notAName item)

/-- Names that may stand for power functions. -/
abbrev DottedNames := { names : List Text // names.all Text.isDottedName = true }

/-- The dotted names out of a list of settings; the first that is none is at fault. -/
def readNames : List Json → Except ConfigError DottedNames
  | [] => .ok ⟨[], rfl⟩
  | item :: items => do
    let ⟨name, h⟩ ← readName item
    let ⟨names, hs⟩ ← readNames items
    return ⟨name :: names, by simp [h, hs]⟩

/-- The power functions out of a setting, and whether they are the keys of an object. -/
def readPowerFunctions : Json → Except ConfigError (DottedNames × Bool)
  | .arr items => return (← readNames items, false)
  | .obj members => return (← readNames (members.map fun (key, _) => .str key), true)
  | .str _ => .error .namesAreString
  | _ => .error .namesNotListed

/-- The limit out of a setting. A number with a fraction or an exponent is refused here, though
it could be compared with a count as well; limits of that kind are not described. -/
def readLimit : Json → Except ConfigError Limit
  | .int (.ofNat n) => .ok (.count n)
  | .int (.negSucc _) => .error .negativeLimit
  | .bool on => .ok (.switch on)
  | _ => .error .limitNotNumber

/-- A configuration out of settings. What is not set keeps its default, and settings that are
not known are ignored. -/
def ofSettings (settings : List (Text × Json)) : Except ConfigError Config := do
  let switch (name : String) : Json := (Json.member? settings name.toList).getD (.bool true)
  let (⟨names, h⟩, keyed) ← match Json.member? settings "power_functions".toList with
    | some j => readPowerFunctions j
    | none => pure (⟨["Math.pow".toList], by decide⟩, false)
  let limit ← match Json.member? settings "max_expression_matches".toList with
    | some j => readLimit j
    | none => pure (.count 500)
  return {
    division := switch "division_enabled"
    power := switch "power_enabled"
    expression := switch "expression_enabled"
    summation := switch "summation_enabled"
    mapping := switch "mapping_enabled"
    powerFunctions := names
    namesKeyed := keyed
    maxExpressions := limit
    resolveOverlaps := switch "resolve_overlaps"
    names_dotted := h }

/-- The settings that give a configuration, all of them. -/
def toJson (c : Config) : Json :=
  Json.ofMembers [
    ("division_enabled".toList, c.division), ("power_enabled".toList, c.power),
    ("expression_enabled".toList, c.expression), ("summation_enabled".toList, c.summation),
    ("mapping_enabled".toList, c.mapping),
    ("power_functions".toList, .arr (c.powerFunctions.map .str)),
    ("max_expression_matches".toList, c.maxExpressions.toJson),
    ("resolve_overlaps".toList, c.resolveOverlaps)]

/-- The switch of a built-in detector; no other detector has one. -/
def switch? (c : Config) (detector : Text) : Option Json :=
  (builtinNames.zip [c.division, c.power, c.expression, c.summation, c.mapping]).lookup detector

/-- Whether a detector runs; one without a switch always does. -/
def isEnabled (c : Config) (detector : Text) : Bool := (c.switch? detector).all Json.isOn

/-- The detectors that run: the built-in ones in their order, then all others that are
registered in theirs. -/
def enabledDetectors (c : Config) (registered : List Text) : List Text :=
  (builtinNames ++ registered.filter (· ∉ builtinNames)).filter c.isEnabled

/-- Whether overlaps are resolved. -/
def resolves (c : Config) : Bool := c.resolveOverlaps.isOn

/-- Whether power calls can be searched for. The keys of an object name functions but cannot be
searched for; where there is no name, there is nothing to search for. -/
def allowsPower (c : Config) : Bool := !c.namesKeyed || c.powerFunctions.isEmpty

/-- How a setting is spelled in a fingerprint: a list as a tuple in parentheses, all else
plainly. A number with a fraction or an exponent is spelled by its numeral as written, so two
numerals of one value are told apart here. The members of an object are spelled in the order of
their keys, so settings are described as if they came in that order. -/
def settingText : Json → Text
  | .arr [j] => '(' :: j.literal ++ [',', ')']
  | .arr items => '(' :: Json.commaList (Json.literalItems items) ++ [')']
  | j => j.plainText

/-- The texts that identify a configuration. -/
def fingerprintParts (c : Config) : List Text :=
  [settingText c.division, settingText c.power, settingText c.expression, settingText c.summation,
    settingText c.mapping, Text.join [','] c.powerFunctions, settingText c.maxExpressions.toJson,
    settingText c.resolveOverlaps]

/-- The digest that identifies a configuration. -/
def fingerprint (c : Config) : Text := Digest.ofTexts c.fingerprintParts

/-- Whether a switch is set to true; the number one is the same. -/
def isTrue (j : Json) : Bool := j = .bool true || j = .int 1

/-- Whether all is set to its default. -/
def isDefault (c : Config) : Bool :=
  [c.division, c.power, c.expression, c.summation, c.mapping, c.resolveOverlaps].all isTrue &&
    c.powerFunctions = ["Math.pow".toList] && !c.namesKeyed && c.maxExpressions = .count 500

end Config

end Gloss
