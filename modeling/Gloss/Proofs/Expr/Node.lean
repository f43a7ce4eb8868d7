import Gloss.Expr.Basic

/-!
# Nodes of an expression

The nodes of an expression in the order in which it is read, each with the number of brackets that
enclose it: those of groups, of subscripts and of argument lists. There are as many nodes as the
size of the expression counts.
-/

namespace Gloss.Expr

mutual

/-- The nodes of an expression that `brackets` enclose. -/
def nodes (brackets : Nat) : Expr → List (Nat × Expr)
  | number t => [(brackets, number t)]
  | identifier name => [(brackets, identifier name)]
  | raw t => [(brackets, raw t)]
  | group fence e => (brackets, group fence e) :: nodes (brackets + 1) e
  | unary sign e => (brackets, unary sign e) :: nodes brackets e
  | binary op l r => (brackets, binary op l r) :: (nodes brackets l ++ nodes brackets r)
  | member e name => (brackets, member e name) :: nodes brackets e
  | index e s => (brackets, index e s) :: (nodes brackets e ++ nodes (brackets + 1) s)
  | call f args => (brackets, call f args) :: (nodes brackets f ++ argNodes (brackets + 1) args)
  | construct type => (brackets, construct type) :: nodes brackets type
  | constructWith type args =>
    (brackets, constructWith type args) :: (nodes brackets type ++ argNodes (brackets + 1) args)

/-- The nodes of several expressions that `brackets` enclose. -/
def argNodes (brackets : Nat) : List Expr → List (Nat × Expr)
  | [] => []
  | e :: es => nodes brackets e ++ argNodes brackets es

end

mutual

/-- Size is the number of nodes. -/
theorem length_nodes : (brackets : Nat) → (e : Expr) → (e.nodes brackets).length = e.size
  | _, number _ | _, identifier _ | _, raw _ => rfl
  | n, group _ e => congrArg (· + 1) (length_nodes (n + 1) e)
  | n, unary _ e | n, member e _ | n, construct e => congrArg (· + 1) (length_nodes n e)
  | n, binary _ l r => by
    rw [nodes, List.length_cons, List.length_append, length_nodes n l, length_nodes n r, size]
  | n, index e s => by
    rw [nodes, List.length_cons, List.length_append, length_nodes n e, length_nodes (n + 1) s, size]
  | n, call f args => by
    rw [nodes, List.length_cons, List.length_append, length_nodes n f, length_argNodes (n + 1) args,
      size]
  | n, constructWith type args => by
    rw [nodes, List.length_cons, List.length_append, length_nodes n type,
      length_argNodes (n + 1) args, size]

/-- So it is of several expressions. -/
theorem length_argNodes : (brackets : Nat) → (es : List Expr) →
    (argNodes brackets es).length = sizes es
  | _, [] => rfl
  | n, e :: es => by
    rw [argNodes, List.length_append, length_nodes n e, length_argNodes n es, sizes]

end

/-- Whether an expression is text without structure. -/
def isRaw : Expr → Bool
  | raw _ => true
  | _ => false

/-- Whether the outermost form of an expression is written with parentheses: those of a group, of a
call or of a construction with an argument list. -/
def hasParens : Expr → Bool
  | group .paren _ | call .. | constructWith .. => true
  | _ => false

/-- How many nodes of an expression are written with parentheses. -/
def parens (e : Expr) : Nat := (e.nodes 0).countP (·.2.hasParens)

end Gloss.Expr
