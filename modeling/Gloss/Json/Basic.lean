import Gloss.Text.Basic

/-!
# Interchange values

A JSON value. An object keeps its members sorted by key, each key once, so that equal objects
are equal values whatever order their members were written in. A number without fraction and
exponent may be of any size. A number with a fraction or an exponent is kept as its numeral:
nothing here computes with it, so what depends on the value of such a number (whether it counts
as off, how it is spelled, whether it may be a limit) is described only as far as the functions
below say.
-/

namespace Gloss

/-- A JSON value. -/
inductive Json where
  /-- `null` -/
  | null
  /-- `true` or `false` -/
  | bool (value : Bool)
  /-- A number without fraction and exponent. -/
  | int (value : Int)
  /-- A number with a fraction or an exponent, as written. -/
  | real (numeral : Text)
  /-- A string. -/
  | str (value : Text)
  /-- An array. -/
  | arr (items : List Json)
  /-- An object, its members in the order of their keys. -/
  | obj (members : List (Text × Json))
  deriving Repr

namespace Json

instance : Inhabited Json := ⟨null⟩

/-- Sets a member, keeping the order of the keys; an earlier one of the same key goes. -/
def setMember (key : Text) (value : Json) : List (Text × Json) → List (Text × Json)
  | [] => [(key, value)]
  | (k, v) :: rest =>
    if key = k then (key, value) :: rest
    else if key.le k then (key, value) :: (k, v) :: rest
    else (k, v) :: setMember key value rest

/-- The object of members in any order; of two with one key the later counts. -/
def ofMembers (members : List (Text × Json)) : Json :=
  obj (members.foldl (fun sorted (k, v) => setMember k v sorted) [])

/-- The member of an object under a key. -/
def member? (members : List (Text × Json)) (key : Text) : Option Json :=
  (members.find? fun (k, _) => k = key).map Prod.snd

/-- Nothing, falsity, zero and whatever is empty count as off; all else counts as on. A number
with a fraction or an exponent counts as on without a look at its value, so this says nothing
about a zero that is written as `0.0`. -/
def isOn : Json → Bool
  | null => false
  | bool b => b
  | int n => n != 0
  | real _ => true
  | str t => !t.isEmpty
  | arr items => !items.isEmpty
  | obj members => !members.isEmpty

mutual

/-- Structural equality of values. -/
def beq : Json → Json → Bool
  | null, null => true
  | bool a, bool b => a == b
  | int a, int b => a == b
  | real a, real b | str a, str b => a == b
  | arr a, arr b => beqItems a b
  | obj a, obj b => beqMembers a b
  | _, _ => false

/-- Structural equality of item lists. -/
def beqItems : List Json → List Json → Bool
  | [], [] => true
  | a :: as, b :: bs => a.beq b && beqItems as bs
  | _, _ => false

/-- Structural equality of member lists. -/
def beqMembers : List (Text × Json) → List (Text × Json) → Bool
  | [], [] => true
  | (k, a) :: as, (l, b) :: bs => k == l && a.beq b && beqMembers as bs
  | _, _ => false

end

mutual

/-- Structural equality is equality. -/
theorem beq_iff : (a b : Json) → (a.beq b = true ↔ a = b)
  | null, b => by cases b <;> simp [beq]
  | bool a, b => by cases b <;> simp [beq]
  | int a, b => by cases b <;> simp [beq]
  | real a, b => by cases b <;> simp [beq]
  | str a, b => by cases b <;> simp [beq]
  | arr as, b => by cases b <;> simp [beq, beqItems_iff as]
  | obj as, b => by cases b <;> simp [beq, beqMembers_iff as]

/-- Structural equality of item lists is equality. -/
theorem beqItems_iff : (as bs : List Json) → (beqItems as bs = true ↔ as = bs)
  | [], bs => by cases bs <;> simp [beqItems]
  | a :: as, bs => by cases bs <;> simp [beqItems, beq_iff a, beqItems_iff as]

/-- Structural equality of member lists is equality. -/
theorem beqMembers_iff : (as bs : List (Text × Json)) → (beqMembers as bs = true ↔ as = bs)
  | [], bs => by cases bs <;> simp [beqMembers]
  | (k, a) :: as, bs => by
    cases bs <;> simp [beqMembers, Prod.ext_iff, beq_iff a, beqMembers_iff as]

end

instance : DecidableEq Json := fun a b => decidable_of_iff _ (beq_iff a b)

end Json

end Gloss
