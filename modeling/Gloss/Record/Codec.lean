import Gloss.Json.Literal
import Gloss.Json.Parser
import Gloss.Json.Printer
import Gloss.Record.Basic

/-!
# Records as interchange texts

A record becomes an object with its fields and, under `_type`, the name of its type; a tuple
becomes an array. Reading goes the other way: every object that names a type becomes a record,
objects that name none are kept, and arrays become tuples. Fields that a type does not have
are dropped, and a missing field is filled in if it has a default.
-/

namespace Gloss.Value

/-- The key under which an object names its type. -/
def typeKey : Text := "_type".toList

mutual

/-- A value as JSON. -/
def toJson : Value → Json
  | plain json => json
  | tuple items => .arr (toJsons items)
  | record type fields =>
    Json.ofMembers ((typeKey, .str type.name) :: (type.fields.map Prod.fst).zip (toJsons fields))

/-- Values as JSON. -/
def toJsons : List Value → List Json
  | [] => []
  | v :: vs => v.toJson :: toJsons vs

end

/-- The interchange text of a value. -/
def toText (indent : Option Nat) (v : Value) : Text := v.toJson.write indent

/-- Why a text or a JSON value is no value to exchange. -/
inductive DecodeError where
  /-- The text is not JSON. -/
  | notJson
  /-- An object names no type. -/
  | typeMissing
  /-- There is no type of the name given. -/
  | typeUnknown (type : Json)
  /-- The name of a type is an array or an object. -/
  | typeNotSimple
  /-- A field without a default is missing. -/
  | fieldMissing
  /-- An item of the outermost array is no object. -/
  | itemNotObject
  /-- The text is neither an object nor an array. -/
  | bare (typeName : Text)
  deriving DecidableEq, Repr

/-- The message of an error about a value of the right form. -/
def DecodeError.message? : DecodeError → Option Text
  | typeMissing => some "Missing '_type' field in serialized object".toList
  | typeUnknown type => some ("Unknown type: ".toList ++ type.literal)
  | bare typeName => some ("Expected a serialized object or array, got ".toList ++ typeName)
  | notJson | typeNotSimple | fieldMissing | itemNotObject => none

/-- Members of an object whose values have been read, or could not be. -/
abbrev ReadMembers := List (Text × Except DecodeError Value)

/-- The fields of a record out of what was read, in order, with `none` for a missing one. The
first field that could not be read is at fault. -/
def pickFields (members : ReadMembers) :
    List (Text × Option Json) → Except DecodeError (List (Option Value))
  | [] => .ok []
  | (name, default?) :: rest => do
    let field ← match members.find? fun (k, _) => k = name with
      | some (_, read) => read.map some
      | none => .ok (default?.map plain)
    return field :: (← pickFields members rest)

/-- The record of a named type. Faults of single fields come before missing ones. -/
def assemble (type : Json) (members : ReadMembers) : Except DecodeError Value :=
  match type with
  | .arr _ | .obj _ => .error .typeNotSimple
  | .str name =>
    match RecordType.ofName? name with
    | none => .error (.typeUnknown type)
    | some recordType => do
      let picked ← pickFields members recordType.fields
      match picked.mapM id with
      | some fields => return record recordType fields
      | none => .error .fieldMissing
  | _ => .error (.typeUnknown type)

/-- The type that an object names; `null` names none. -/
def typeOf? (members : List (Text × Json)) : Option Json :=
  (Json.member? members typeKey).filter (· ≠ .null)

mutual

/-- The value of a JSON value. -/
def ofJson : Json → Except DecodeError Value
  | .obj members =>
    match typeOf? members with
    | none => .ok (plain (.obj members))
    | some type => assemble type (ofMembers members)
  | .arr items => do return tuple (← ofItems items)
  | json => .ok (plain json)

/-- The values of items, up to the first that has none. -/
def ofItems : List Json → Except DecodeError (List Value)
  | [] => .ok []
  | json :: rest => do return (← ofJson json) :: (← ofItems rest)

/-- The values of members, each by itself. -/
def ofMembers : List (Text × Json) → ReadMembers
  | [] => []
  | (key, json) :: rest => (key, ofJson json) :: ofMembers rest

end

/-- The record that an object stands for. -/
def ofObject (members : List (Text × Json)) : Except DecodeError Value :=
  match typeOf? members with
  | none => .error .typeMissing
  | some type => assemble type (ofMembers members)

/-- The records of the items of an outermost array. -/
def ofRecords : List Json → Except DecodeError (List Value)
  | [] => .ok []
  | .obj members :: rest => do return (← ofObject members) :: (← ofRecords rest)
  | _ :: _ => .error .itemNotObject

/-- The record, or the tuple of records, that an interchange text stands for. -/
def ofText (t : Text) : Except DecodeError Value :=
  match Json.parse? t with
  | none => .error .notJson
  | some (.arr items) => do return tuple (← ofRecords items)
  | some (.obj members) => ofObject members
  | some json => .error (.bare json.typeName)

end Gloss.Value
