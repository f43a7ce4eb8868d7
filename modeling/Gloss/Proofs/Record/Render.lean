import Gloss.Proofs.Record.Exchange

/-!
# Where a tree cannot be shown

A value from outside may hold anything where an operand belongs. Both forms are made operand by
operand in the order of the walk, so they stop at the same place: the first value on the walk that
is no node. If there is none, both are made.
-/

namespace Gloss.Value

/-- A tree whose own fields are as they should be: texts are texts, operators are those of the
grammar, and arguments are several values or, for a construction, nothing at all. Where an operand
belongs there may also be a value that is no node. -/
inductive IsTree : Value → Prop
  | number (t : Text) : IsTree (record .number [text t])
  | identifier (t : Text) : IsTree (record .identifier [text t])
  | raw (t : Text) : IsTree (record .raw [text t])
  | group (bracket : Value) {e : Value} : IsTree e → IsTree (record .group [bracket, e])
  | unary (sign : Text) {e : Value} : IsTree e → IsTree (record .unary [text sign, e])
  | binary {op : Operator} {l r : Value} : Expr.admitsOperator op = true → IsTree l → IsTree r →
      IsTree (record .binary [text op.symbol, l, r])
  | member {e : Value} (name : Text) : IsTree e → IsTree (record .member [e, text name])
  | index {e s : Value} : IsTree e → IsTree s → IsTree (record .index [e, s])
  | call {f : Value} {args : List Value} : IsTree f → (∀ a ∈ args, IsTree a) →
      IsTree (record .call [f, tuple args])
  | construct {type : Value} : IsTree type → IsTree (record .construct [type, plain .null])
  | constructWith {type : Value} {args : List Value} : IsTree type → (∀ a ∈ args, IsTree a) →
      IsTree (record .construct [type, tuple args])
  | stray {v : Value} : v.isNode = false → IsTree v

section Walk

/-- A walk over plain values meets just these. -/
theorem walks_map_plain {α : Type} (f : α → Json) (xs : List α) :
    walks (xs.map fun x => plain (f x)) = xs.map fun x => plain (f x) := by
  induction xs with
  | nil => rfl
  | cons x xs ih => exact congrArg (plain (f x) :: ·) ih

/-- Nothing is below an argument that is part of a JSON value. -/
theorem walks_looseItems (json : Json) : walks (looseItems json) = looseItems json := by
  cases json with
  | str t => exact walks_map_plain (fun c => .str [c]) t
  | arr items => exact walks_map_plain id items
  | obj members => exact walks_map_plain (fun member => .str member.1) members
  | _ => rfl

/-- A walk visits a value, and then all below its operands, from the first to the last. -/
theorem walk_eq_cons (v : Value) : v.walk = v :: walks v.children := by
  fun_cases walk v
  all_goals simp [children, walks, walks_looseItems]

/-- A walk over several values meets what the walks over each of them meet. -/
theorem walks_eq_flatMap (vs : List Value) : walks vs = vs.flatMap walk := by
  induction vs with
  | nil => rfl
  | cons v vs ih => rw [walks, ih, List.flatMap_cons]

/-- A value can be walked if its operands can be listed and walked. -/
theorem isWalkable_eq (v : Value) :
    v.isWalkable = (v.hasOperands && v.children.all isWalkable) := by
  rw [isWalkable, walk_eq_cons, List.all_cons, walks_eq_flatMap, List.all_flatMap]
  rfl

/-- A value that is no node has nothing below it, and no form. -/
theorem of_not_isNode {v : Value} (h : v.isNode = false) :
    v.children = [] ∧ v.hasOperands = true ∧
      ∀ form, v.toExpr form = .error (.notANode form v.typeName) := by
  cases v with
  | plain json => exact ⟨rfl, rfl, fun _ => rfl⟩
  | tuple items => exact ⟨rfl, rfl, fun _ => rfl⟩
  | record type fields =>
    cases type <;> first | exact ⟨rfl, rfl, fun _ => rfl⟩ | cases h

end Walk

section Stops

variable {α β : Type} {form : Form} {met met' : List Value} {v : Value}

/-- The first of several values that is no node. -/
def firstStray? (met : List Value) : Option Value := met.find? fun v => !v.isNode

theorem firstStray?_append :
    firstStray? (met ++ met') = (firstStray? met).or (firstStray? met') := List.find?_append

/-- A node is no stray value. -/
theorem firstStray?_cons_node (h : v.isNode = true) : firstStray? (v :: met) = firstStray? met :=
  List.find?_cons_of_neg (by simp [h])

/-- A value that is no node is the first stray one, if it is met first. -/
theorem firstStray?_cons_stray (h : v.isNode = false) : firstStray? (v :: met) = some v :=
  List.find?_cons_of_pos (by simp [h])

/-- What is made of the values met on a walk fails with the type of the first of them that is no
node, and comes about if there is none. -/
structure StopsAtStray (form : Form) (met : List Value) (made : Except RenderError α) : Prop where
  /-- Nodes stop nothing. -/
  ok : firstStray? met = none → ∃ a, made = .ok a
  /-- Anything else does. -/
  error : ∀ v, firstStray? met = some v → made = .error (.notANode form v.typeName)

/-- What is made without a walk stops nowhere. -/
theorem StopsAtStray.pure (a : α) : StopsAtStray form [] (.ok a) where
  ok _ := ⟨a, rfl⟩
  error _ h := by cases h

/-- A stray value that is met first is the error. -/
theorem StopsAtStray.stray (h : v.isNode = false) :
    StopsAtStray form [v] (.error (.notANode form v.typeName) : Except RenderError α) where
  ok hnone := by
    rw [firstStray?_cons_stray h] at hnone
    cases hnone
  error u hu := by
    rw [firstStray?_cons_stray h] at hu
    rw [Option.some.inj hu]

/-- A node that is met first does not matter. -/
theorem StopsAtStray.node {made : Except RenderError α} (h : StopsAtStray form met made)
    (hv : v.isNode = true) : StopsAtStray form (v :: met) made where
  ok hnone := h.ok (by rwa [firstStray?_cons_node hv] at hnone)
  error u hu := h.error u (by rwa [firstStray?_cons_node hv] at hu)

/-- One after the other: the second is not begun unless the first comes about. -/
theorem StopsAtStray.bind {made : Except RenderError α} {next : α → Except RenderError β}
    (h : StopsAtStray form met made) (h' : ∀ a, StopsAtStray form met' (next a)) :
    StopsAtStray form (met ++ met') (made >>= next) := by
  cases hmet : firstStray? met with
  | none =>
    obtain ⟨a, rfl⟩ := h.ok hmet
    have hsame : firstStray? (met ++ met') = firstStray? met' := by
      rw [firstStray?_append, hmet, Option.none_or]
    exact ⟨fun hnone => (h' a).ok (hsame ▸ hnone), fun v hv => (h' a).error v (hsame ▸ hv)⟩
  | some v =>
    have hfirst : firstStray? (met ++ met') = some v := by
      rw [firstStray?_append, hmet, Option.some_or]
    rw [h.error v hmet]
    refine ⟨fun hnone => ?_, fun u hu => ?_⟩
    · rw [hfirst] at hnone
      cases hnone
    · obtain rfl := Option.some.inj (hfirst.symm.trans hu)
      rfl

/-- What is done with the outcome does not stop. -/
theorem StopsAtStray.map {made : Except RenderError α} (h : StopsAtStray form met made)
    (g : α → β) : StopsAtStray form met (made >>= fun a => .ok (g a)) := by
  rw [← List.append_nil met]
  exact h.bind fun a => .pure (g a)

end Stops

variable {v : Value}

/-- A tree can be walked. -/
theorem IsTree.isWalkable (h : v.IsTree) : v.isWalkable = true := by
  induction h with
  | stray hv =>
    obtain ⟨hchildren, hoperands, -⟩ := of_not_isNode hv
    rw [isWalkable_eq, hchildren, hoperands]
    rfl
  | number _ | identifier _ | raw _ => rfl
  | group _ _ ih | unary _ _ ih | member _ _ ih | construct _ ih =>
    rw [isWalkable_eq]
    simp [hasOperands, children, looseItems, Json.isOn, ih]
  | binary _ _ _ ih ih' | index _ _ ih ih' =>
    rw [isWalkable_eq]
    simp [hasOperands, children, ih, ih']
  | call _ _ ih ihargs | constructWith _ _ ih ihargs =>
    rw [isWalkable_eq]
    simp only [hasOperands, children, List.all_cons, ih, Bool.true_and]
    exact List.all_eq_true.mpr ihargs

/-- Arguments are read one after the other, as they are met. -/
theorem stopsAtStray_toExprs {form : Form} {args : List Value}
    (h : ∀ a ∈ args, StopsAtStray form a.walk (a.toExpr form)) :
    StopsAtStray form (walks args) (toExprs form args) := by
  induction args with
  | nil => exact .pure []
  | cons a args ih =>
    obtain ⟨ha, hargs⟩ := List.forall_mem_cons.mp h
    exact ha.bind fun e => (ih hargs).map (e :: ·)

/-- A tree is read operand by operand, in the order of its walk. -/
theorem IsTree.stopsAtStray (h : v.IsTree) (form : Form) :
    StopsAtStray form v.walk (v.toExpr form) := by
  induction h with
  | number t => exact .node (.pure (Expr.number t)) rfl
  | identifier t => exact .node (.pure (Expr.identifier t)) rfl
  | raw t => exact .node (.pure (Expr.raw t)) rfl
  | group bracket _ ih => exact .node (ih.map (Expr.group (asFence bracket))) rfl
  | unary sign _ ih => exact .node (ih.map (Expr.unary (Sign.ofSymbol sign))) rfl
  | @binary op l r hop _ _ ihl ihr =>
    refine .node (ihl.bind fun e => ?_) rfl
    rw [Expr.asOperator_symbol form hop]
    exact ihr.map (Expr.binary op e)
  | member name _ ih => exact .node (ih.map (Expr.member · name)) rfl
  | index _ _ ih ih' => exact .node (ih.bind fun e => ih'.map (Expr.index e)) rfl
  | call _ _ ih ihargs =>
    exact .node (ih.bind fun e => (stopsAtStray_toExprs ihargs).map (Expr.call e)) rfl
  | construct _ ih => exact .node (ih.bind fun e => .pure e.construct) rfl
  | constructWith _ _ ih ihargs =>
    exact .node (ih.bind fun e => (stopsAtStray_toExprs ihargs).map (Expr.constructWith e)) rfl
  | stray hv =>
    obtain ⟨hchildren, -, hread⟩ := of_not_isNode hv
    rw [walk_eq_cons, hchildren, hread]
    exact .stray hv

/-- The two forms of a tree fail alike. It can be walked; if the walk meets nodes only, both forms
come about, and else both fail with the type of the first value on it that is no node. -/
theorem IsTree.render_stops_at_stray (h : v.IsTree) :
    v.isWalkable = true ∧
    ((∀ w ∈ v.walk, w.isNode = true) → ∀ form, ∃ shown, v.render form = .ok shown) ∧
    ∀ before w behind, v.walk = before ++ w :: behind → (∀ u ∈ before, u.isNode = true) →
      w.isNode = false → ∀ form, v.render form = .error (.notANode form w.typeName) := by
  refine ⟨h.isWalkable, fun hall form => ?_, fun before w behind hwalk hbefore hw form => ?_⟩
  · have hnone : firstStray? v.walk = none :=
      List.find?_eq_none.mpr fun w hw => by simp [hall w hw]
    obtain ⟨e, he⟩ := (h.stopsAtStray form).ok hnone
    exact ⟨form.show (.value e), by rw [render, he]; rfl⟩
  · have hfirst : firstStray? v.walk = some w :=
      List.find?_eq_some_iff_append.mpr
        ⟨by simp [hw], before, behind, hwalk, by simpa using hbefore⟩
    rw [render, (h.stopsAtStray form).error w hfirst]
    rfl

/-- Of a number among the arguments and nothing at all behind them, the number is reported. -/
theorem IsTree.render_stops_at_stray_argument :
    let five := plain (.int 5)
    let callee := record .identifier [text ['f']]
    let product := record .binary [text ['*'], record .call [callee, tuple [five]], plain .null]
    product.IsTree ∧ five.isNode = false ∧
      product.walk = [product, record .call [callee, tuple [five]], callee] ++
        five :: [plain .null] ∧
      ∀ form, product.render form = .error (.notANode form "int".toList) := by
  intro five callee product
  have hproduct : product.IsTree := @IsTree.binary .mul _ _ rfl
    (.call (.identifier ['f']) (List.forall_mem_singleton.mpr (.stray rfl))) (.stray rfl)
  have hwalk : product.walk = [product, record .call [callee, tuple [five]], callee] ++
      five :: [plain .null] := by decide
  obtain ⟨-, -, herror⟩ := hproduct.render_stops_at_stray
  exact ⟨hproduct, rfl, hwalk, herror _ five _ hwalk (by decide) rfl⟩

end Gloss.Value
