import Gloss.Json.Basic
import Mathlib.Data.Char
import Mathlib.Data.List.Lex

/-!
# Members of objects

Setting members one after the other keeps them in the order of their keys, each key once, and of
two with one key the later can be looked up. Members that are in order already are set without
any change.
-/

namespace Gloss.Json

variable {key k : Text} {value v : Json} {member : Text × Json}
  {members more : List (Text × Json)}

/-- Members in the order of their keys, each key once. -/
def Ordered (members : List (Text × Json)) : Prop := members.Pairwise fun a b => a.1 < b.1

/-- Members set one after the other. -/
def setMembers (sorted members : List (Text × Json)) : List (Text × Json) :=
  members.foldl (fun sorted (k, v) => setMember k v sorted) sorted

theorem ofMembers_eq (members : List (Text × Json)) :
    ofMembers members = obj (setMembers [] members) := rfl

theorem setMembers_cons :
    setMembers members ((k, v) :: more) = setMembers (setMember k v members) more := rfl

/-- After a member is set, each member is that one or was there before. -/
theorem mem_of_mem_setMember (h : member ∈ setMember key value members) :
    member = (key, value) ∨ member ∈ members := by
  induction members with
  | nil => exact .inl (List.mem_singleton.mp h)
  | cons m ms ih =>
    rw [setMember] at h
    split_ifs at h
    · exact (List.mem_cons.mp h).imp_right (List.mem_cons_of_mem _)
    · exact List.mem_cons.mp h
    · rcases List.mem_cons.mp h with rfl | h
      · exact .inr List.mem_cons_self
      · exact (ih h).imp_right (List.mem_cons_of_mem _)

/-- A member that is set takes the place that the order assigns to it. -/
theorem Ordered.setMember (h : Ordered members) : Ordered (setMember key value members) := by
  induction members with
  | nil => exact List.pairwise_singleton _ _
  | cons m ms ih =>
    obtain ⟨hfirst, hrest⟩ := List.pairwise_cons.mp h
    rw [Json.setMember]
    split_ifs with hsame hle
    · exact List.pairwise_cons.mpr ⟨fun m' hm' => hsame ▸ hfirst m' hm', hrest⟩
    · have hlt : key < m.1 := lt_of_le_of_ne (not_lt.mp (by simpa [Text.le] using hle)) hsame
      refine List.pairwise_cons.mpr ⟨fun m' hm' => ?_, h⟩
      rcases List.mem_cons.mp hm' with rfl | hm'
      · exact hlt
      · exact hlt.trans (hfirst m' hm')
    · have hlt : m.1 < key := by simpa [Text.le] using hle
      refine List.pairwise_cons.mpr ⟨fun m' hm' => ?_, ih hrest⟩
      rcases mem_of_mem_setMember hm' with rfl | hm'
      · exact hlt
      · exact hfirst m' hm'

/-- A member behind all others is set behind them. -/
theorem setMember_eq_append (h : ∀ m ∈ members, m.1 < key) :
    setMember key value members = members ++ [(key, value)] := by
  induction members with
  | nil => rfl
  | cons m ms ih =>
    obtain ⟨hfirst, hrest⟩ := List.forall_mem_cons.mp h
    rw [setMember, if_neg hfirst.ne', if_neg (by simp [Text.le, hfirst]), ih hrest,
      List.cons_append]

/-- Setting members keeps their order. -/
theorem Ordered.setMembers (h : Ordered members) (more : List (Text × Json)) :
    Ordered (setMembers members more) := by
  induction more generalizing members with
  | nil => exact h
  | cons m more ih => exact ih h.setMember

/-- Members set one after the other are in order, in whatever order they came. -/
theorem ordered_setMembers (members : List (Text × Json)) : Ordered (setMembers [] members) :=
  Ordered.setMembers List.Pairwise.nil members

/-- After several members are set, each member is one of them or was there before. -/
theorem mem_of_mem_setMembers (h : member ∈ setMembers members more) :
    member ∈ members ∨ member ∈ more := by
  induction more generalizing members with
  | nil => exact .inl h
  | cons m more ih =>
    rcases ih h with h | h
    · rcases mem_of_mem_setMember h with rfl | h
      · exact .inr List.mem_cons_self
      · exact .inl h
    · exact .inr (List.mem_cons_of_mem _ h)

/-- Members in order are set without any change. -/
theorem setMembers_eq_append (h : Ordered (members ++ more)) :
    setMembers members more = members ++ more := by
  induction more generalizing members with
  | nil => exact (List.append_nil members).symm
  | cons m more ih =>
    have hbehind : ∀ m' ∈ members, m'.1 < m.1 := fun m' hm' =>
      (List.pairwise_append.mp h).2.2 m' hm' m List.mem_cons_self
    rw [setMembers_cons, setMember_eq_append hbehind, ih, List.append_assoc]
    · rfl
    · rwa [List.append_assoc]

/-- Members that are in order already are those of the object made of them. -/
theorem ofMembers_of_ordered (h : Ordered members) : ofMembers members = obj members := by
  rw [ofMembers_eq, setMembers_eq_append (List.nil_append members ▸ h), List.nil_append]

/-- The member under a key is the first one if that has the key. -/
theorem member?_cons (members : List (Text × Json)) :
    member? ((key, value) :: members) k = if key = k then some value else member? members k := by
  rw [member?, List.find?_cons]
  by_cases h : key = k <;> simp [h, member?]

/-- What is set under a key is found under it, and nothing else changes. -/
theorem member?_setMember (members : List (Text × Json)) :
    member? (setMember key value members) k =
      if key = k then some value else member? members k := by
  induction members with
  | nil => exact member?_cons []
  | cons m ms ih =>
    rw [setMember]
    by_cases hk : key = k
    · rw [if_pos hk]
      split_ifs with hsame
      · rw [member?_cons, if_pos hk]
      · rw [member?_cons, if_pos hk]
      · rw [member?_cons, if_neg (fun h => hsame (hk.trans h.symm)), ih, if_pos hk]
    · rw [if_neg hk]
      split_ifs with hsame
      · rw [member?_cons, if_neg hk, member?_cons, if_neg (hsame ▸ hk)]
      · rw [member?_cons, if_neg hk]
      · rw [member?_cons, member?_cons, ih, if_neg hk]

/-- Under a key that is not set anew stands what stood there before. -/
theorem member?_setMembers_of_not_mem (h : k ∉ more.map Prod.fst) :
    member? (setMembers members more) k = member? members k := by
  induction more generalizing members with
  | nil => rfl
  | cons m more ih =>
    rw [List.map_cons, List.mem_cons, not_or] at h
    rw [setMembers_cons, ih h.2, member?_setMember, if_neg (Ne.symm h.1)]

/-- Each of several members with different keys is found under its key. -/
theorem member?_setMembers_of_mem (hkeys : (more.map Prod.fst).Nodup) (h : (k, v) ∈ more) :
    member? (setMembers members more) k = some v := by
  induction more generalizing members with
  | nil => exact absurd h List.not_mem_nil
  | cons m more ih =>
    rw [List.map_cons, List.nodup_cons] at hkeys
    rcases List.mem_cons.mp h with rfl | h
    · rw [setMembers_cons, member?_setMembers_of_not_mem hkeys.1, member?_setMember, if_pos rfl]
    · exact ih hkeys.2 h

end Gloss.Json
