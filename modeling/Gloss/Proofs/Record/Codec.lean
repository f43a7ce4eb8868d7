import Gloss.Proofs.Json.RoundTrip
import Gloss.Record.Codec

/-!
# Reading settles values

A value is settled if it is built as reading builds values: every record has all its fields, and
plain JSON is neither an array, which would be a tuple, nor an object that names a type, which
would be a record. A settled value is what reading makes of its JSON, and whatever is read is
settled. So reading what was written after reading changes nothing, however ill-typed the fields
of the records may be.
-/

namespace Gloss.Value

open Json (Regular)

/-- JSON that reading keeps as it is. -/
def isKept : Json → Bool
  | .arr _ => false
  | .obj members => (typeOf? members).isNone
  | _ => true

/-- Values as reading builds them. -/
inductive Settled : Value → Prop
  | plain {json : Json} : json.Regular → isKept json = true → Settled (plain json)
  | tuple {items : List Value} : (∀ v ∈ items, Settled v) → Settled (tuple items)
  | record {type : RecordType} {fields : List Value} : fields.length = type.fields.length →
      (∀ v ∈ fields, Settled v) → Settled (record type fields)

/-- Whether a value is a record. -/
def isRecord : Value → Bool
  | record .. => true
  | plain _ | tuple _ => false

/-- Whether a value is a record or a tuple of records, which is what a text can stand for. -/
def isDocument : Value → Bool
  | tuple items => items.all isRecord
  | v => v.isRecord

variable {type : RecordType} {fields items values : List Value} {v : Value} {j : Json}
  {members : List (Text × Json)} {name : Text}

/-- Values are written one by one. -/
theorem toJsons_eq_map (values : List Value) : toJsons values = values.map toJson := by
  induction values with
  | nil => rfl
  | cons v vs ih => rw [toJsons, ih, List.map_cons]

section Written

/-- The members of a record's object, the name of its type first. -/
def recordMembers (type : RecordType) (fields : List Value) : List (Text × Json) :=
  (typeKey, .str type.name) :: (type.fields.map Prod.fst).zip (fields.map toJson)

/-- A record is written as the object of its members. -/
theorem toJson_record (type : RecordType) (fields : List Value) :
    (record type fields).toJson = .obj (Json.setMembers [] (recordMembers type fields)) := by
  rw [toJson, toJsons_eq_map, Json.ofMembers_eq, recordMembers]

/-- No two fields of a type have one name, and none is named like the key of the type. -/
theorem nodup_fieldNames (type : RecordType) : (typeKey :: type.fields.map Prod.fst).Nodup := by
  cases type <;> decide

/-- A record type is known by its name. -/
theorem ofName?_name (type : RecordType) : RecordType.ofName? type.name = some type := by
  cases type <;> decide

/-- A record has its type name and each field once. -/
theorem nodup_recordMembers (h : fields.length = type.fields.length) :
    ((recordMembers type fields).map Prod.fst).Nodup := by
  rw [recordMembers, List.map_cons, List.map_fst_zip (by simp [h])]
  exact nodup_fieldNames type

/-- A record's object names the type. -/
theorem typeOf?_record (h : fields.length = type.fields.length) :
    typeOf? (Json.setMembers [] (recordMembers type fields)) = some (.str type.name) := by
  rw [typeOf?, Json.member?_setMembers_of_mem (nodup_recordMembers h) List.mem_cons_self,
    Option.filter_some, if_pos (by simp)]

/-- Each field of a record is found under its name. -/
theorem member?_record (h : fields.length = type.fields.length) {p : Text × Value}
    (hp : p ∈ (type.fields.map Prod.fst).zip fields) :
    Json.member? (Json.setMembers [] (recordMembers type fields)) p.1 = some p.2.toJson := by
  refine Json.member?_setMembers_of_mem (nodup_recordMembers h) (List.mem_cons_of_mem _ ?_)
  rw [List.zip_map_right]
  exact List.mem_map.mpr ⟨p, hp, rfl⟩

/-- What is written for a settled value is regular. -/
theorem Settled.regular_toJson (h : v.Settled) : v.toJson.Regular := by
  induction h with
  | plain hregular _ => exact hregular
  | tuple _ ih =>
    rw [toJson, toJsons_eq_map]
    exact .arr (List.forall_mem_map.mpr ih)
  | record _ _ ih =>
    rw [toJson_record]
    refine .obj (Json.ordered_setMembers _) fun m hm => ?_
    rcases Json.mem_of_mem_setMembers hm with hnil | hm
    · exact absurd hnil List.not_mem_nil
    · rcases List.mem_cons.mp hm with rfl | hm
      · exact .str _
      · obtain ⟨w, hw, hjson⟩ := List.mem_map.mp (List.of_mem_zip hm).2
        exact hjson ▸ ih w hw

end Written

section Read

/-- The value of a member is read from the JSON under its key. -/
theorem find?_ofMembers (members : List (Text × Json)) (name : Text) :
    ((ofMembers members).find? fun (k, _) => k = name) =
      (Json.member? members name).map fun j => (name, ofJson j) := by
  induction members with
  | nil => rfl
  | cons m more ih =>
    obtain ⟨key, j⟩ := m
    rw [ofMembers, Json.member?_cons, List.find?_cons]
    by_cases hkey : key = name
    · simp [hkey]
    · simpa [hkey] using ih

/-- The first field is read, if it is there, and else filled in; then the others are picked. -/
theorem pickFields_cons_eq_ok {default? : Option Json} {defs : List (Text × Option Json)}
    {picked : List (Option Value)} :
    pickFields (ofMembers members) ((name, default?) :: defs) = .ok picked ↔
      ∃ field rest, picked = field :: rest ∧ pickFields (ofMembers members) defs = .ok rest ∧
        ((∃ j v, Json.member? members name = some j ∧ ofJson j = .ok v ∧ field = some v) ∨
          Json.member? members name = none ∧ field = default?.map plain) := by
  rw [pickFields, find?_ofMembers]
  cases Json.member? members name with
  | none => cases pickFields (ofMembers members) defs <;>
      simp [bind, Except.bind, pure, Except.pure, eq_comm]
  | some j => cases hj : ofJson j <;> cases pickFields (ofMembers members) defs <;>
      simp [bind, Except.bind, pure, Except.pure, Except.map, hj, eq_comm]

/-- Fields that are found and read are picked in order. -/
theorem pickFields_eq_ok {defs : List (Text × Option Json)} (hlength : fields.length = defs.length)
    (h : ∀ p ∈ (defs.map Prod.fst).zip fields, ∃ j, Json.member? members p.1 = some j ∧
      ofJson j = .ok p.2) : pickFields (ofMembers members) defs = .ok (fields.map some) := by
  induction defs generalizing fields with
  | nil =>
    rw [List.length_nil, List.length_eq_zero_iff] at hlength
    rw [hlength]
    rfl
  | cons d defs ih =>
    obtain ⟨v, fields, rfl⟩ := List.exists_cons_of_length_eq_add_one hlength
    rw [List.map_cons, List.zip_cons_cons, List.forall_mem_cons] at h
    obtain ⟨⟨j, hj, hread⟩, hmore⟩ := h
    exact pickFields_cons_eq_ok.mpr ⟨some v, fields.map some, rfl, ih (Nat.succ.inj hlength) hmore,
      .inl ⟨j, v, hj, hread, rfl⟩⟩

/-- Values that are all there are these values. -/
theorem mapM_id_map_some (values : List Value) : (values.map some).mapM id = some values := by
  induction values with
  | nil => rfl
  | cons v vs ih => simp [ih]

/-- Items are read back if each of them is. -/
theorem ofItems_eq_ok (h : ∀ v ∈ items, ofJson v.toJson = .ok v) :
    ofItems (items.map toJson) = .ok items := by
  induction items with
  | nil => rfl
  | cons v vs ih =>
    obtain ⟨hv, hvs⟩ := List.forall_mem_cons.mp h
    rw [List.map_cons, ofItems, hv, ih hvs]
    rfl

/-- A record is assembled from its own members. -/
theorem assemble_record (hlength : fields.length = type.fields.length)
    (h : ∀ v ∈ fields, ofJson v.toJson = .ok v) :
    assemble (.str type.name) (ofMembers (Json.setMembers [] (recordMembers type fields))) =
      .ok (record type fields) := by
  have hpick : pickFields (ofMembers (Json.setMembers [] (recordMembers type fields)))
      type.fields = .ok (fields.map some) :=
    pickFields_eq_ok hlength fun p hp =>
      ⟨p.2.toJson, member?_record hlength hp, h p.2 (List.of_mem_zip hp).2⟩
  simp only [assemble, ofName?_name, hpick, bind, Except.bind, mapM_id_map_some]
  rfl

/-- A settled value is what reading makes of its JSON. -/
theorem Settled.ofJson_toJson (h : v.Settled) : ofJson v.toJson = .ok v := by
  induction h with
  | @plain json _ hkept =>
    rw [toJson]
    cases json with
    | arr => cases hkept
    | obj members =>
      rw [isKept, Option.isNone_iff_eq_none] at hkept
      rw [ofJson, hkept]
    | _ => rfl
  | tuple _ ih =>
    rw [toJson, toJsons_eq_map, ofJson, ofItems_eq_ok ih]
    rfl
  | record hlength _ ih =>
    rw [toJson_record, ofJson, typeOf?_record hlength]
    exact assemble_record hlength ih

/-- A settled record is what its object stands for. -/
theorem Settled.ofObject_toJson (h : v.Settled) (hrecord : v.isRecord = true) :
    ∃ members, v.toJson = .obj members ∧ ofObject members = .ok v := by
  cases h with
  | plain => cases hrecord
  | tuple => cases hrecord
  | @record type fields hlength hfields =>
    refine ⟨_, toJson_record type fields, ?_⟩
    rw [ofObject, typeOf?_record hlength]
    exact assemble_record hlength fun v hv => (hfields v hv).ofJson_toJson

end Read

section Settling

/-- A composed reading succeeds if both its parts do. -/
theorem bind_eq_ok_iff {α β : Type} {x : Except DecodeError α} {f : α → Except DecodeError β}
    {b : β} : (x >>= f) = .ok b ↔ ∃ a, x = .ok a ∧ f a = .ok b := by
  cases x <;> simp [bind, Except.bind]

/-- What a missing field is filled with is settled. -/
theorem settled_default {d : Text × Option Json} (hd : d ∈ type.fields) (hj : d.2 = some j) :
    (plain j).Settled := by
  have hdefaults : ∀ d ∈ type.fields, d.2 ∈ [none, some (.int 0), some .null] := by
    cases type <;> decide
  have hmem := hdefaults d hd
  rw [hj] at hmem
  simp only [List.mem_cons, reduceCtorEq, Option.some.injEq, List.not_mem_nil, or_false,
    false_or] at hmem
  rcases hmem with rfl | rfl
  · exact .plain (.int 0) rfl
  · exact .plain .null rfl

/-- Fields that are picked are those of the type, and settled if the members' values are. -/
theorem settled_of_pickFields {defs : List (Text × Option Json)} {picked : List (Option Value)}
    (h : pickFields (ofMembers members) defs = .ok picked)
    (hmembers : ∀ m ∈ members, ∀ v, ofJson m.2 = .ok v → v.Settled)
    (hdefaults : ∀ d ∈ defs, ∀ j, d.2 = some j → (plain j).Settled) :
    picked.length = defs.length ∧ ∀ v, some v ∈ picked → v.Settled := by
  induction defs generalizing picked with
  | nil =>
    cases h
    exact ⟨rfl, fun v hv => absurd hv List.not_mem_nil⟩
  | cons d defs ih =>
    obtain ⟨hdefault, hmore⟩ := List.forall_mem_cons.mp hdefaults
    obtain ⟨field, rest, rfl, hrest, hfield⟩ := pickFields_cons_eq_ok.mp h
    obtain ⟨hlength, hsettled⟩ := ih hrest hmore
    refine ⟨congrArg Nat.succ hlength, fun v hv => ?_⟩
    rcases List.mem_cons.mp hv with rfl | hv
    · rcases hfield with ⟨j, w, hmember, hread, hw⟩ | ⟨-, hfilled⟩
      · obtain rfl := Option.some.inj hw
        obtain ⟨m, hm, rfl⟩ := Option.map_eq_some_iff.mp hmember
        exact hmembers m (List.mem_of_find?_eq_some hm) v hread
      · obtain ⟨j, hj, rfl⟩ := Option.map_eq_some_iff.mp hfilled.symm
        exact hdefault j hj
    · exact hsettled v hv

/-- If several values come about, each of them was there. -/
theorem eq_map_some_of_mapM_id {picked : List (Option Value)} (h : picked.mapM id = some fields) :
    picked = fields.map some := by
  induction picked generalizing fields with
  | nil =>
    cases h
    rfl
  | cons field picked ih =>
    rw [List.mapM_cons, Option.bind_eq_bind, Option.bind_eq_some_iff] at h
    obtain ⟨v, hv, h⟩ := h
    rw [Option.bind_eq_bind, Option.bind_eq_some_iff] at h
    obtain ⟨vs, hvs, h⟩ := h
    cases h
    rw [List.map_cons, ← ih hvs]
    exact congrArg (· :: picked) hv

/-- What is assembled is a record, settled if the members' values are. -/
theorem settled_of_assemble {typeName : Json} (h : assemble typeName (ofMembers members) = .ok v)
    (hmembers : ∀ m ∈ members, ∀ v, ofJson m.2 = .ok v → v.Settled) :
    v.Settled ∧ v.isRecord = true := by
  unfold assemble at h
  split at h
  · cases h
  · cases h
  · split at h
    · cases h
    · rename_i type _
      obtain ⟨picked, hpick, h⟩ := bind_eq_ok_iff.mp h
      split at h
      · rename_i fields hfields
        cases h
        obtain ⟨hlength, hsettled⟩ := settled_of_pickFields hpick hmembers
          fun d hd j => settled_default hd
        obtain rfl := eq_map_some_of_mapM_id hfields
        refine ⟨.record (by simpa using hlength) fun v hv => ?_, rfl⟩
        exact hsettled v (List.mem_map_of_mem hv)
      · cases h
  · cases h

/-- Items are settled if what each of them is read as is. -/
theorem settled_of_ofItems {js : List Json} (h : ofItems js = .ok items)
    (hjs : ∀ j ∈ js, ∀ v, ofJson j = .ok v → v.Settled) : ∀ v ∈ items, v.Settled := by
  induction js generalizing items with
  | nil =>
    cases h
    exact fun _ h => absurd h List.not_mem_nil
  | cons j js ih =>
    obtain ⟨hj, hmore⟩ := List.forall_mem_cons.mp hjs
    obtain ⟨v, hv, h⟩ := bind_eq_ok_iff.mp h
    obtain ⟨vs, hvs, h⟩ := bind_eq_ok_iff.mp h
    cases h
    exact List.forall_mem_cons.mpr ⟨hj v hv, ih hvs hmore⟩

/-- Whatever is read is settled. -/
theorem settled_of_ofJson (hj : j.Regular) (h : ofJson j = .ok v) : v.Settled := by
  induction hj generalizing v with
  | null =>
    cases h
    exact .plain .null rfl
  | bool b =>
    cases h
    exact .plain (.bool b) rfl
  | int n =>
    cases h
    exact .plain (.int n) rfl
  | str t =>
    cases h
    exact .plain (.str t) rfl
  | arr _ ih =>
    obtain ⟨items, hitems, h⟩ := bind_eq_ok_iff.mp h
    cases h
    exact .tuple (settled_of_ofItems hitems fun j hj v => ih j hj)
  | obj hordered hregular ih =>
    rw [ofJson] at h
    split at h
    · rename_i htype
      cases h
      exact .plain (.obj hordered hregular) (Option.isNone_iff_eq_none.mpr htype)
    · exact (settled_of_assemble h fun m hm v => ih m hm).1

/-- What a regular object is read as is a settled record. -/
theorem settled_of_ofObject (hj : (Json.obj members).Regular) (h : ofObject members = .ok v) :
    v.Settled ∧ v.isRecord = true := by
  obtain _ | _ | _ | _ | _ | ⟨-, hregular⟩ := hj
  rw [ofObject] at h
  split at h
  · cases h
  · exact settled_of_assemble h fun m hm v => settled_of_ofJson (hregular m hm)

/-- What regular objects are read as are settled records. -/
theorem settled_of_ofRecords {js : List Json} (hjs : ∀ j ∈ js, j.Regular)
    (h : ofRecords js = .ok items) :
    ∀ v ∈ items, v.Settled ∧ v.isRecord = true := by
  induction js generalizing items with
  | nil =>
    cases h
    exact fun _ h => absurd h List.not_mem_nil
  | cons j js ih =>
    obtain ⟨hj, hmore⟩ := List.forall_mem_cons.mp hjs
    cases j with
    | obj members =>
      obtain ⟨v, hv, h⟩ := bind_eq_ok_iff.mp h
      obtain ⟨vs, hvs, h⟩ := bind_eq_ok_iff.mp h
      cases h
      exact List.forall_mem_cons.mpr ⟨settled_of_ofObject hj hv, ih hmore hvs⟩
    | _ => cases h

end Settling

section Text

variable {t : Text}

/-- Settled records are read back from what is written for them. -/
theorem ofRecords_eq_ok (h : ∀ v ∈ items, v.Settled ∧ v.isRecord = true) :
    ofRecords (items.map toJson) = .ok items := by
  induction items with
  | nil => rfl
  | cons v vs ih =>
    obtain ⟨⟨hv, hrecord⟩, hmore⟩ := List.forall_mem_cons.mp h
    obtain ⟨members, hjson, hread⟩ := hv.ofObject_toJson hrecord
    rw [List.map_cons, hjson, ofRecords, hread, ih hmore]
    rfl

/-- A settled record or tuple of records is read back from its text. -/
theorem Settled.ofText_toText (h : v.Settled) (hdocument : v.isDocument = true)
    (indent : Option Nat) : ofText (v.toText indent) = .ok v := by
  rw [ofText, toText, Json.parse?_write h.regular_toJson]
  cases h with
  | plain => cases hdocument
  | tuple hitems =>
    have hrecords := List.all_eq_true.mp hdocument
    rw [toJson, toJsons_eq_map]
    dsimp only
    rw [ofRecords_eq_ok fun v hv => ⟨hitems v hv, hrecords v hv⟩]
    rfl
  | record hlength hfields =>
    obtain ⟨members, hjson, hread⟩ := (Settled.record hlength hfields).ofObject_toJson rfl
    rw [hjson]
    exact hread

/-- What is read from a text without fractions and exponents is settled, and it is a record or a
tuple of records. -/
theorem settled_of_ofText (ht : ∀ j ∈ Json.parse? t, j.isIntegral = true)
    (h : ofText t = .ok v) : v.Settled ∧ v.isDocument = true := by
  rw [ofText] at h
  cases hparse : Json.parse? t with
  | none =>
    rw [hparse] at h
    cases h
  | some j =>
    rw [hparse] at h
    have hregular := Json.regular_of_parse? hparse (ht j hparse)
    cases hregular with
    | arr hjs =>
      obtain ⟨items, hitems, h⟩ := bind_eq_ok_iff.mp h
      cases h
      have hrecords := settled_of_ofRecords hjs hitems
      exact ⟨.tuple fun v hv => (hrecords v hv).1,
        List.all_eq_true.mpr fun v hv => (hrecords v hv).2⟩
    | obj hordered hmembers =>
      obtain ⟨hsettled, hrecord⟩ := settled_of_ofObject (.obj hordered hmembers) h
      refine ⟨hsettled, ?_⟩
      cases v with
      | record => rfl
      | _ => cases hrecord
    | _ => cases h

/-- Reading normalises. What was read from any text, whatever its records hold in their fields,
is read again from what is written for it, and what is then written is the same. -/
theorem ofText_toText_of_ofText (ht : ∀ j ∈ Json.parse? t, j.isIntegral = true)
    (h : ofText t = .ok v) (indent : Option Nat) :
    ofText (v.toText indent) = .ok v ∧
      (ofText (v.toText indent)).map (toText indent) = .ok (v.toText indent) := by
  obtain ⟨hsettled, hdocument⟩ := settled_of_ofText ht h
  have hread := hsettled.ofText_toText hdocument indent
  exact ⟨hread, by rw [hread]; rfl⟩

/-- A call whose callee is an untyped object, given twice, and whose arguments are no expressions:
what is nested in the object stays as it is, what is nested in the arguments becomes a record, and
the key that calls do not have is dropped. -/
theorem ofText_toText_of_ofText_untyped :
    let t := "[\x7b\"callee\":0,\"_type\":\"Call\",\"x\":1,".toList ++
      "\"args\":[[\x7b\"_type\":\"Raw\",\"text\":true\x7d],-7],".toList ++
      "\"callee\":\x7b\"b\":\x7b\"_type\":\"Raw\"\x7d,\"a\":[]\x7d\x7d]".toList
    let v := tuple [record .call [
      plain (.obj [(['a'], .arr []), (['b'], .obj [(typeKey, .str "Raw".toList)])]),
      tuple [tuple [record .raw [plain (.bool true)]], plain (.int (-7))]]]
    ofText t = .ok v ∧ ofText (v.toText none) = .ok v ∧
      (ofText (v.toText none)).map (toText none) = .ok (v.toText none) := by
  intro t v
  have hread : ofText t = .ok v := by decide +kernel
  have hintegral : ∀ j ∈ Json.parse? t, j.isIntegral = true := by decide +kernel
  exact ⟨hread, ofText_toText_of_ofText hintegral hread none⟩

end Text

end Gloss.Value
