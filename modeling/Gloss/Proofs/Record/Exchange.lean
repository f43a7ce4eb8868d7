import Gloss.Proofs.Expr.Layout
import Gloss.Proofs.Record.Codec
import Gloss.Record.Finding

/-!
# Expressions, findings and locations come back

Expressions, findings and locations are written as records whose fields have the types that the
record types ask for. Whatever texts and numbers they hold, they are read back from their text
and from their object, and so are several findings from their text.
-/

namespace Gloss

namespace Expr

mutual

/-- Whether the signs and operators of an expression are those of the grammar. -/
def hasGrammarSymbols : Expr → Bool
  | number _ | identifier _ | raw _ => true
  | group _ e | member e _ | construct e => e.hasGrammarSymbols
  | unary sign e => admitsSign sign && e.hasGrammarSymbols
  | binary op l r => admitsOperator op && l.hasGrammarSymbols && r.hasGrammarSymbols
  | index l r => l.hasGrammarSymbols && r.hasGrammarSymbols
  | call f args | constructWith f args => f.hasGrammarSymbols && haveGrammarSymbols args

/-- Whether that holds of several expressions. -/
def haveGrammarSymbols : List Expr → Bool
  | [] => true
  | e :: es => e.hasGrammarSymbols && haveGrammarSymbols es

end

end Expr

namespace Value

/-- A value comes back from what is written for it. -/
structure Restored (v : Value) : Prop where
  /-- From its text, with any indent. -/
  text : ∀ indent, ofText (v.toText indent) = .ok v
  /-- From its object. -/
  object : ∃ members, v.toJson = .obj members ∧ ofObject members = .ok v

/-- A settled record comes back from its text and from its object. -/
theorem Settled.restored {v : Value} (h : v.Settled) (hrecord : v.isRecord = true) :
    v.Restored where
  text indent := by
    refine h.ofText_toText ?_ indent
    cases v with
    | record => rfl
    | _ => cases hrecord
  object := h.ofObject_toJson hrecord

theorem settled_text (t : Text) : (text t).Settled := .plain (.str t) rfl

theorem settled_int (n : Int) : (int n).Settled := .plain (.int n) rfl

theorem settled_int? (n : Option Int) : (int? n).Settled := by
  cases n with
  | none => exact .plain .null rfl
  | some n => exact settled_int n

/-- A record of one field is settled if what the field holds is. -/
theorem settled_record_one {type : RecordType} {v : Value} (hlength : 1 = type.fields.length)
    (hv : v.Settled) : (record type [v]).Settled :=
  .record hlength (List.forall_mem_singleton.mpr hv)

/-- A record of two fields is settled if what both fields hold is. -/
theorem settled_record_two {type : RecordType} {v w : Value} (hlength : 2 = type.fields.length)
    (hv : v.Settled) (hw : w.Settled) : (record type [v, w]).Settled :=
  .record hlength (List.forall_mem_cons.mpr ⟨hv, List.forall_mem_singleton.mpr hw⟩)

theorem toText?_text (t : Text) : (text t).toText? = some t := rfl

theorem toInt?_int (n : Int) : (int n).toInt? = some n := rfl

/-- The texts behind values made of texts are those texts, in order. -/
theorem mapM_toText?_map_text (ts : List Text) : (ts.map text).mapM toText? = some ts := by
  induction ts with
  | nil => rfl
  | cons t ts ih => simp [toText?_text, ih]

/-- A number that may be missing is read back, be it missing or not. -/
theorem toIntOrNull?_int? (n : Option Int) : (int? n).toIntOrNull? = some n := by
  cases n <;> rfl

end Value

open Value

namespace Expr

mutual

/-- The record of an expression is settled, whatever texts its leaves hold. -/
theorem settled_toValue : (e : Expr) → e.toValue.Settled
  | number digits => settled_record_one rfl (settled_text digits)
  | identifier name => settled_record_one rfl (settled_text name)
  | raw t => settled_record_one rfl (settled_text t)
  | group _ e => settled_record_two rfl (settled_text _) e.settled_toValue
  | unary _ e => settled_record_two rfl (settled_text _) e.settled_toValue
  | binary _ l r =>
    .record rfl (List.forall_mem_cons.mpr ⟨settled_text _, List.forall_mem_cons.mpr
      ⟨l.settled_toValue, List.forall_mem_singleton.mpr r.settled_toValue⟩⟩)
  | member e name => settled_record_two rfl e.settled_toValue (settled_text name)
  | index e s => settled_record_two rfl e.settled_toValue s.settled_toValue
  | call f args => settled_record_two rfl f.settled_toValue (.tuple (settled_toValues args))
  | construct type => settled_record_two rfl type.settled_toValue (.plain .null rfl)
  | constructWith type args =>
    settled_record_two rfl type.settled_toValue (.tuple (settled_toValues args))

/-- The records of several expressions are settled. -/
theorem settled_toValues : (es : List Expr) → ∀ v ∈ toValues es, v.Settled
  | [] => fun _ h => absurd h List.not_mem_nil
  | e :: es => List.forall_mem_cons.mpr ⟨e.settled_toValue, settled_toValues es⟩

end

/-- Every expression becomes a record. -/
theorem isRecord_toValue (e : Expr) : e.toValue.isRecord = true := by
  cases e <;> rfl

/-- A fence is known again by its opening bracket. -/
theorem asFence_fenceValue (fence : Fence) : asFence (fenceValue fence) = fence := by
  cases fence <;> rfl

/-- A sign of the grammar is known again by its symbol. -/
theorem ofSymbol_symbol {sign : Sign} (h : admitsSign sign = true) :
    Sign.ofSymbol sign.symbol = sign := by
  cases sign with
  | other => cases h
  | _ => rfl

/-- An operator of the grammar is found by its symbol, for either form. -/
theorem asOperator_symbol {op : Operator} (form : Form) (h : admitsOperator op = true) :
    asOperator form (.text op.symbol) = .ok op := by
  cases op with
  | other => cases h
  | _ => cases form <;> rfl

mutual

/-- An expression is what its record is shown as. -/
theorem toExpr_toValue (form : Form) :
    (e : Expr) → e.hasGrammarSymbols = true → e.toValue.toExpr form = .ok e
  | number _, _ => rfl
  | identifier _, _ => rfl
  | raw _, _ => rfl
  | group fence e, h => by
    rw [toValue, toExpr, toExpr_toValue form e h, asFence_fenceValue]
    rfl
  | unary sign e, h => by
    obtain ⟨hsign, he⟩ := Bool.and_eq_true_iff.mp h
    rw [toValue, toExpr, toExpr_toValue form e he]
    exact congrArg (fun s => Except.ok (unary s e)) (ofSymbol_symbol hsign)
  | binary op l r, h => by
    obtain ⟨hopl, hr⟩ := Bool.and_eq_true_iff.mp h
    obtain ⟨hop, hl⟩ := Bool.and_eq_true_iff.mp hopl
    rw [toValue, toExpr, toExpr_toValue form l hl, asOperator_symbol form hop,
      toExpr_toValue form r hr]
    rfl
  | member e _, h => by
    rw [toValue, toExpr, toExpr_toValue form e h]
    rfl
  | index e s, h => by
    obtain ⟨he, hs⟩ := Bool.and_eq_true_iff.mp h
    rw [toValue, toExpr, toExpr_toValue form e he, toExpr_toValue form s hs]
    rfl
  | call f args, h => by
    obtain ⟨hf, hargs⟩ := Bool.and_eq_true_iff.mp h
    rw [toValue, toExpr, toExpr_toValue form f hf, toExprs_toValues form args hargs]
    rfl
  | construct type, h => by
    rw [toValue, toExpr, toExpr_toValue form type h]
    rfl
  | constructWith type args, h => by
    obtain ⟨htype, hargs⟩ := Bool.and_eq_true_iff.mp h
    rw [toValue, toExpr, toExpr_toValue form type htype, toExprs_toValues form args hargs]
    rfl

/-- Operands with the symbols of the grammar are read back in order, for either form. -/
theorem toExprs_toValues (form : Form) :
    (es : List Expr) → haveGrammarSymbols es = true → toExprs form (toValues es) = .ok es
  | [], _ => rfl
  | e :: es, h => by
    obtain ⟨he, hes⟩ := Bool.and_eq_true_iff.mp h
    rw [toValues, toExprs, toExpr_toValue form e he, toExprs_toValues form es hes]
    rfl

end

end Expr

/-- The record of a location is settled. -/
theorem Location.settled_toValue (l : Location) : l.toValue.Settled := by
  refine .record rfl ?_
  simp only [List.forall_mem_cons]
  exact ⟨settled_int _, settled_int _, settled_int _, settled_int _, settled_int? _,
    settled_int? _, fun _ h => absurd h List.not_mem_nil⟩

/-- A location is read back from its record. -/
theorem toLocation?_toValue (l : Location) : l.toValue.toLocation? = some l := by
  simp [Location.toValue, toLocation?, toInt?_int, toIntOrNull?_int?]

namespace Finding

variable (f : Finding)

/-- Besides the texts of its detail, the record of a finding has three fields: its location and its
two rendered forms. -/
theorem length_texts_add_three (d : Detail) :
    d.texts.length + 3 = d.recordType.fields.length := by
  cases d <;> rfl

/-- A detail is read back from its texts. -/
theorem ofTexts?_texts (d : Detail) : Detail.ofTexts? d.recordType d.texts = some d := by
  cases d <;> rfl

/-- The record of a finding is settled. -/
theorem settled_toValue : f.toValue.Settled := by
  refine .record ?_ ?_
  · simpa using length_texts_add_three f.detail
  · simp only [List.forall_mem_cons, List.forall_mem_map]
    exact ⟨f.location.settled_toValue, settled_text _, settled_text _, fun t _ => settled_text t⟩

/-- A finding is read back from its record. -/
theorem toFinding?_toValue : f.toValue.toFinding? = some f := by
  simp only [toValue, toFinding?, toLocation?_toValue, toText?_text, mapM_toText?_map_text,
    ofTexts?_texts, Option.bind_eq_bind, Option.bind_some, pure]

end Finding

/-- Several findings are settled, and a text can stand for them. -/
theorem settled_ofFindings (fs : List Finding) :
    (ofFindings fs).Settled ∧ (ofFindings fs).isDocument = true := by
  refine ⟨.tuple (List.forall_mem_map.mpr fun f _ => f.settled_toValue), ?_⟩
  exact List.all_eq_true.mpr (List.forall_mem_map.mpr fun f _ => rfl)

/-- Findings are read back in order. -/
theorem toFindings?_ofFindings (fs : List Finding) : (ofFindings fs).toFindings? = some fs := by
  rw [ofFindings, toFindings?]
  induction fs with
  | nil => rfl
  | cons f fs ih => simp [Finding.toFinding?_toValue, ih]

/-- Expressions that are written alike have the same record. -/
theorem Expr.toValue_eq_of_toText_eq {e e' : Expr} {indent : Option Nat}
    (h : e.toValue.toText indent = e'.toValue.toText indent) : e.toValue = e'.toValue := by
  have hread := (e.settled_toValue.restored e.isRecord_toValue).text indent
  rw [h, (e'.settled_toValue.restored e'.isRecord_toValue).text indent] at hread
  exact (Except.ok.inj hread).symm

/-- Whatever texts and numbers they hold, expressions, locations and findings come back from their
text and from their object, and several findings from their text. The record that comes back is
shown as the expression, or holds the location or finding, that was written. A construction
without an argument list is written unlike one whose list is empty. -/
theorem restored_toValue :
    (∀ e : Expr, e.toValue.Restored ∧
      (e.hasGrammarSymbols = true → ∀ form, e.toValue.toExpr form = .ok e)) ∧
    (∀ l : Location, l.toValue.Restored ∧ l.toValue.toLocation? = some l) ∧
    (∀ f : Finding, f.toValue.Restored ∧ f.toValue.toFinding? = some f) ∧
    (∀ (fs : List Finding) (indent : Option Nat),
      ofText ((ofFindings fs).toText indent) = .ok (ofFindings fs) ∧
      (ofFindings fs).toFindings? = some fs) ∧
    ∀ (type : Expr) (indent : Option Nat), (Expr.construct type).toValue.toText indent ≠
      (Expr.constructWith type []).toValue.toText indent := by
  refine ⟨fun e => ?_, fun l => ?_, fun f => ?_, fun fs indent => ?_, fun type indent h => ?_⟩
  · exact ⟨e.settled_toValue.restored e.isRecord_toValue, fun h form => e.toExpr_toValue form h⟩
  · exact ⟨l.settled_toValue.restored rfl, toLocation?_toValue l⟩
  · exact ⟨f.settled_toValue.restored rfl, f.toFinding?_toValue⟩
  · obtain ⟨hsettled, hdocument⟩ := settled_ofFindings fs
    exact ⟨hsettled.ofText_toText hdocument indent, toFindings?_ofFindings fs⟩
  · have hvalue := Expr.toValue_eq_of_toText_eq h
    simp [Expr.toValue, Expr.toValues] at hvalue

/-- A signed construction whose argument is a product with a character outside the basic plane. -/
theorem restored_toValue_construction :
    let e : Expr := .unary .minus (.constructWith (.identifier ['V'])
      [.binary .mul (.raw ['𝕏', '\n', '"']) (.number ['2'])])
    e.hasGrammarSymbols = true ∧ ofText (e.toValue.toText (some 2)) = .ok e.toValue ∧
      e.toValue.toExpr .typeset = .ok e := by
  intro e
  obtain ⟨hexpr, -⟩ := restored_toValue
  exact ⟨rfl, (hexpr e).1.text (some 2), (hexpr e).2 rfl .typeset⟩

end Gloss
