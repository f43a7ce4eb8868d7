import Gloss.Proofs.Json.Member
import Gloss.Proofs.Json.Scalar
import Gloss.Proofs.Text.Join

/-!
# Written values read back

A value is regular if its objects have their members in order and its numbers are integers. A
regular value is read back from its written form, with whatever indent it was written. What is
read from any text is regular, unless some number in it has a fraction or an exponent.
-/

namespace Gloss.Json

mutual

/-- Whether no number in a value has a fraction or an exponent. -/
def isIntegral : Json → Bool
  | real _ => false
  | arr items => areIntegral items
  | obj members => haveIntegralValues members
  | null | bool _ | int _ | str _ => true

/-- Whether no number in several values has a fraction or an exponent. -/
def areIntegral : List Json → Bool
  | [] => true
  | j :: js => j.isIntegral && areIntegral js

/-- Whether no number in the values of members has a fraction or an exponent. -/
def haveIntegralValues : List (Text × Json) → Bool
  | [] => true
  | (_, j) :: more => j.isIntegral && haveIntegralValues more

end

/-- Several values are integral if each of them is. -/
theorem areIntegral_iff {items : List Json} :
    areIntegral items = true ↔ ∀ j ∈ items, j.isIntegral = true := by
  induction items with
  | nil => simp [areIntegral]
  | cons j js ih => rw [areIntegral, Bool.and_eq_true, ih, List.forall_mem_cons]

/-- Members have integral values if the value of each is integral. -/
theorem haveIntegralValues_iff {members : List (Text × Json)} :
    haveIntegralValues members = true ↔ ∀ m ∈ members, m.2.isIntegral = true := by
  induction members with
  | nil => simp [haveIntegralValues]
  | cons m more ih => rw [haveIntegralValues, Bool.and_eq_true, ih, List.forall_mem_cons]

/-- Objects have their members in order, each key once, and numbers are integers. -/
inductive Regular : Json → Prop
  | null : Regular null
  | bool (b : Bool) : Regular (bool b)
  | int (n : Int) : Regular (int n)
  | str (t : Text) : Regular (str t)
  | arr {items : List Json} : (∀ j ∈ items, Regular j) → Regular (arr items)
  | obj {members : List (Text × Json)} : Ordered members → (∀ m ∈ members, Regular m.2) →
      Regular (obj members)

section Written

variable {l : Layout} {level : Nat} {c : Char} {g t rest : Text} {items : List Json}
  {members : List (Text × Json)}

/-- Items are written one by one. -/
theorem writeItems_eq_map (items : List Json) :
    writeItems l level items = items.map (writeAt l level) := by
  induction items with
  | nil => rfl
  | cons j js ih => rw [writeItems, ih, List.map_cons]

/-- How a member stands at a nesting level. -/
def writeMember (l : Layout) (level : Nat) (m : Text × Json) : Text :=
  quote m.1 ++ [':', ' '] ++ writeAt l level m.2

/-- Members are written one by one. -/
theorem writeMembers_eq_map (members : List (Text × Json)) :
    writeMembers l level members = members.map (writeMember l level) := by
  induction members with
  | nil => rfl
  | cons m more ih =>
    rw [writeMembers, ih, List.map_cons]
    rfl

/-- A text that holds nothing but what may stand between tokens. -/
def AllGap (g : Text) : Prop := ∀ c ∈ g, isGap c = true

theorem skipGap_append (h : AllGap g) (t : Text) : skipGap (g ++ t) = skipGap t :=
  List.dropWhile_append_of_pos h

theorem skipGap_cons (h : isGap c = false) : skipGap (c :: t) = c :: t :=
  List.dropWhile_cons_of_neg (by simp [h])

/-- The beginning of a line is nothing but what may stand between tokens. -/
theorem allGap_lineStart (l : Layout) (level : Nat) : AllGap (l.lineStart level) := by
  intro c hc
  unfold Layout.lineStart at hc
  split at hc
  · cases hc
  · rcases List.mem_cons.mp hc with rfl | hc
    · rfl
    · rw [List.eq_of_mem_replicate hc]
      rfl

/-- A separator is a comma and what may stand behind it. -/
theorem exists_separator_eq (l : Layout) (level : Nat) :
    ∃ g, l.separator level = ',' :: g ∧ AllGap g := by
  unfold Layout.separator
  split
  · exact ⟨[' '], rfl, List.forall_mem_singleton.mpr rfl⟩
  · exact ⟨_, rfl, allGap_lineStart l level⟩

/-- An integer ends in front of any character that continues no numeral. -/
theorem endsInteger_cons (h : c.isDigit = false ∧ c ≠ '.' ∧ c ≠ 'e' ∧ c ≠ 'E') :
    EndsInteger (c :: rest) := by
  intro d hd
  obtain rfl := Option.some.inj hd
  exact h

/-- A number ends before a gap and the closing bracket behind it. -/
theorem endsInteger_append (hg : AllGap g)
    (h : c.isDigit = false ∧ c ≠ '.' ∧ c ≠ 'e' ∧ c ≠ 'E') : EndsInteger (g ++ c :: rest) := by
  cases g with
  | nil => exact endsInteger_cons h
  | cons d g =>
    have hd := hg d List.mem_cons_self
    simp only [isGap, Bool.or_eq_true, decide_eq_true_eq] at hd
    rcases hd with ((rfl | rfl) | rfl) | rfl <;> exact endsInteger_cons (by decide)

/-- A text that begins with a token, and not with a closing bracket. -/
def OpensItem (t : Text) : Prop := ∃ c u, t = c :: u ∧ isGap c = false ∧ c ≠ ']' ∧ c ≠ '}'

namespace OpensItem

/-- A text that opens an item still does so with more behind it. -/
theorem append (h : OpensItem t) (u : Text) : OpensItem (t ++ u) := by
  obtain ⟨c, v, rfl, hc⟩ := h
  exact ⟨c, v ++ u, rfl, hc⟩

/-- Joined texts open an item if the first of them does. -/
theorem join (h : OpensItem t) (sep : Text) (ts : List Text) :
    OpensItem (Text.join sep (t :: ts)) := by
  rw [Text.join_cons]
  exact h.append _

/-- Nothing stands in front of a text that opens an item. -/
theorem skipGap_eq (h : OpensItem t) : skipGap t = t := by
  obtain ⟨c, u, rfl, hc, -⟩ := h
  exact skipGap_cons hc

/-- A text that opens an item is not empty. -/
theorem length_pos (h : OpensItem t) : 0 < t.length := by
  obtain ⟨c, u, rfl, -⟩ := h
  exact Nat.zero_lt_succ _

end OpensItem

/-- A string in quotes opens an item. -/
theorem opensItem_quote (t : Text) : OpensItem (quote t) := ⟨_, _, rfl, by decide⟩

/-- A written member opens an item, since its key does. -/
theorem opensItem_writeMember (m : Text × Json) : OpensItem (writeMember l level m) :=
  ((opensItem_quote m.1).append _).append _

/-- A written value opens an item. -/
theorem Regular.opensItem {j : Json} (h : j.Regular) : OpensItem (writeAt l level j) := by
  cases h with
  | null => exact ⟨_, _, rfl, by decide⟩
  | bool b => cases b <;> exact ⟨_, _, rfl, by decide⟩
  | int n =>
    obtain ⟨c, digits, heq, hc⟩ := exists_ofInt_eq_cons n
    refine ⟨c, digits, heq, ?_, ?_, ?_⟩
    · rw [Bool.eq_false_iff]
      intro hgap
      simp only [isGap, Bool.or_eq_true, decide_eq_true_eq] at hgap
      rcases hgap with ((rfl | rfl) | rfl) | rfl <;> exact absurd hc (by decide)
    · rintro rfl
      exact absurd hc (by decide)
    · rintro rfl
      exact absurd hc (by decide)
  | str t => exact ⟨_, _, rfl, by decide⟩
  | arr h =>
    rw [writeAt, Layout.enclose]
    split <;> exact ⟨_, _, rfl, by decide⟩
  | obj h h' =>
    rw [writeAt, Layout.enclose]
    split <;> exact ⟨_, _, rfl, by decide⟩

/-- A value that is read back wherever it is written. Each pair of calls of the rules reads a
character, so twice the length of what there is to read is fuel enough. -/
def ReadsBack (l : Layout) (j : Json) : Prop :=
  ∀ (level : Nat) (rest : Text) (fuel : Nat), EndsInteger rest →
    2 * (writeAt l level j ++ rest).length ≤ fuel →
    takeValue? fuel (writeAt l level j ++ rest) = some (j, rest)

/-- A reader of what a bracket encloses takes an element as it is written, together with what
stands behind it: a comma and further elements, or the closing bracket. -/
structure Takes {α : Type} (take? : Nat → Text → Option (List α × Text)) (written : α → Text)
    (closer : Char) (a : α) : Prop where
  /-- The element begins with a token. -/
  opens : OpensItem (written a)
  /-- Elements behind a comma follow. -/
  comma : ∀ (rest t : Text) (fuel : Nat), EndsInteger rest → skipGap rest = ',' :: t →
    2 * (written a ++ rest).length ≤ fuel → take? (fuel + 1) (written a ++ rest) =
      (take? fuel (skipGap t)).map fun (more, rest) => (a :: more, rest)
  /-- The element before the closing bracket is the last one. -/
  last : ∀ (rest t : Text) (fuel : Nat), EndsInteger rest → skipGap rest = closer :: t →
    2 * (written a ++ rest).length ≤ fuel → take? (fuel + 1) (written a ++ rest) = some ([a], t)

/-- Elements that are taken one by one are taken up to the closing bracket. -/
theorem take?_write {α : Type} {take? : Nat → Text → Option (List α × Text)} {written : α → Text}
    {closer : Char} (hcloser : closer = ']' ∨ closer = '}') {as : List α} (hne : as ≠ [])
    (h : ∀ a ∈ as, Takes take? written closer a) (hg : AllGap g) {fuel : Nat}
    (hfuel : 2 * (Text.join (l.separator level) (as.map written) ++ (g ++ closer :: rest)).length <
      fuel) :
    take? fuel (Text.join (l.separator level) (as.map written) ++ (g ++ closer :: rest)) =
      some (as, rest) := by
  induction as generalizing fuel with
  | nil => exact absurd rfl hne
  | cons a as ih =>
    obtain ⟨ha, hmore⟩ := List.forall_mem_cons.mp h
    obtain _ | fuel := fuel
    · omega
    cases as with
    | nil =>
      rw [List.map_singleton, Text.join_singleton] at hfuel ⊢
      have hends : EndsInteger (g ++ closer :: rest) := endsInteger_append hg (by
        rcases hcloser with rfl | rfl <;> decide)
      have hnext : skipGap (g ++ closer :: rest) = closer :: rest := by
        rw [skipGap_append hg, skipGap_cons]
        rcases hcloser with rfl | rfl <;> rfl
      exact ha.last _ _ _ hends hnext (by omega)
    | cons b as =>
      obtain ⟨gap, hseparator, hgap⟩ := exists_separator_eq l level
      have hothers := (hmore b List.mem_cons_self).opens.join (l.separator level) (as.map written)
      simp only [List.map_cons, Text.join_cons_cons, List.append_assoc] at hfuel ih ⊢
      generalize Text.join (l.separator level) (written b :: as.map written) = others
        at hothers hfuel ih ⊢
      rw [hseparator, List.cons_append] at hfuel ⊢
      rw [ha.comma _ _ _ (endsInteger_cons (by decide)) (skipGap_cons rfl) (by omega),
        skipGap_append hgap, (hothers.append _).skipGap_eq, ih (by simp) hmore, Option.map_some]
      have hpos := ha.opens.length_pos
      simp only [List.length_append, List.length_cons] at hfuel ⊢
      omega

/-- The reader of items takes an item that is read back. -/
theorem takes_item {j : Json} (hread : ReadsBack l j) (hopens : OpensItem (writeAt l level j)) :
    Takes takeItems? (writeAt l level) ']' j where
  opens := hopens
  comma rest t fuel hrest hnext hfuel := by
    rw [takeItems?, hread level rest fuel hrest hfuel]
    simp only [Option.bind_eq_bind, Option.bind_some, hnext]
    cases takeItems? fuel (skipGap t) <;> rfl
  last rest t fuel hrest hnext hfuel := by
    rw [takeItems?, hread level rest fuel hrest hfuel]
    simp only [Option.bind_eq_bind, Option.bind_some, hnext]
    rfl

/-- A member is taken as its key, the colon and its value. -/
theorem exists_member {m : Text × Json} (hread : ReadsBack l m.2)
    (hopens : OpensItem (writeAt l level m.2)) (hrest : EndsInteger rest) {fuel : Nat}
    (hfuel : 2 * (writeMember l level m ++ rest).length ≤ fuel) :
    ∃ u v, writeMember l level m ++ rest = '"' :: u ∧ takeString? u = some (m.1, ':' :: v) ∧
      takeValue? fuel (skipGap v) = some (m.2, rest) := by
  refine ⟨m.1.flatMap quoteChar ++ '"' :: ':' :: ([' '] ++ (writeAt l level m.2 ++ rest)),
    [' '] ++ (writeAt l level m.2 ++ rest), by simp [writeMember, quote], takeString?_quote _ _, ?_⟩
  rw [skipGap_append (List.forall_mem_singleton.mpr rfl), (hopens.append _).skipGap_eq]
  refine hread level rest fuel hrest ?_
  simp only [writeMember, List.length_append] at hfuel ⊢
  omega

/-- The reader of members takes a member whose value is read back. -/
theorem takes_member {m : Text × Json} (hread : ReadsBack l m.2)
    (hopens : OpensItem (writeAt l level m.2)) :
    Takes takeMembers? (writeMember l level) '}' m where
  opens := opensItem_writeMember m
  comma rest t fuel hrest hnext hfuel := by
    obtain ⟨u, v, htext, hkey, hvalue⟩ := exists_member hread hopens hrest hfuel
    rw [htext, takeMembers?]
    simp only [Option.bind_eq_bind, Option.bind_some, hkey,
      skipGap_cons (show isGap ':' = false from rfl), hvalue, hnext]
    cases takeMembers? fuel (skipGap t) <;> rfl
  last rest t fuel hrest hnext hfuel := by
    obtain ⟨u, v, htext, hkey, hvalue⟩ := exists_member hread hopens hrest hfuel
    rw [htext, takeMembers?]
    simp only [Option.bind_eq_bind, Option.bind_some, hkey,
      skipGap_cons (show isGap ':' = false from rfl), hvalue, hnext]
    rfl

/-- Elements that are taken one by one are taken from between their brackets. -/
theorem exists_enclosed {α : Type} {take? : Nat → Text → Option (List α × Text)}
    {written : α → Text} {opener closer : Char} (hcloser : closer = ']' ∨ closer = '}')
    {as : List α} (hne : as ≠ []) (h : ∀ a ∈ as, Takes take? written closer a) {fuel : Nat}
    (hfuel : 2 * (l.enclose level opener closer (as.map written) ++ rest).length ≤ fuel + 1) :
    ∃ t u, l.enclose level opener closer (as.map written) ++ rest = opener :: t ∧
      skipGap t = u ∧ OpensItem u ∧ take? fuel u = some (as, rest) := by
  obtain ⟨a, as, rfl⟩ := List.exists_cons_of_ne_nil hne
  have htext : l.enclose level opener closer ((a :: as).map written) ++ rest = opener ::
      (l.lineStart (level + 1) ++ (Text.join (l.separator (level + 1)) ((a :: as).map written) ++
        (l.lineStart level ++ closer :: rest))) := by
    simp [Layout.enclose]
  have hopens := ((h a List.mem_cons_self).opens.join (l.separator (level + 1))
    (as.map written)).append (l.lineStart level ++ closer :: rest)
  refine ⟨_, _, htext, (skipGap_append (allGap_lineStart l (level + 1)) _).trans hopens.skipGap_eq,
    hopens, take?_write hcloser hne h (allGap_lineStart l level) ?_⟩
  rw [htext] at hfuel
  simp only [List.length_cons, List.length_append] at hfuel ⊢
  omega

/-- A value that begins with a digit or a minus sign is a number. -/
theorem takeValue?_number (h : c = '-' ∨ c.isDigit = true) (fuel : Nat) (t : Text) :
    takeValue? (fuel + 1) (c :: t) = takeNumber? (c :: t) := by
  rw [takeValue?.eq_def]
  dsimp only
  split
  case h_7 => rfl
  all_goals
    rename_i heq
    obtain ⟨rfl, -⟩ := List.cons.inj heq
    exact absurd h (by decide)

/-- An array that is not empty is read item by item. -/
theorem takeValue?_array (hskip : skipGap t = g) (hopens : OpensItem g) (fuel : Nat) :
    takeValue? (fuel + 1) ('[' :: t) =
      (takeItems? fuel g).map fun (items, rest) => (arr items, rest) := by
  obtain ⟨c, u, rfl, -, hclosed, -⟩ := hopens
  rw [takeValue?, hskip]
  split
  · rename_i heq
    exact absurd (List.cons.inj heq).1 hclosed
  · rfl

/-- An object that is not empty is read member by member. -/
theorem takeValue?_object (hskip : skipGap t = g) (hopens : OpensItem g) (fuel : Nat) :
    takeValue? (fuel + 1) ('{' :: t) =
      (takeMembers? fuel g).map fun (members, rest) => (ofMembers members, rest) := by
  obtain ⟨c, u, rfl, -, -, hclosed⟩ := hopens
  rw [takeValue?, hskip]
  split
  · rename_i heq
    exact absurd (List.cons.inj heq).1 hclosed
  · rfl

/-- No fuel at all is never enough, since something is written for every value. -/
theorem readsBack_of_succ {j : Json} (h : j.Regular)
    (hread : ∀ (level : Nat) (rest : Text) (fuel : Nat), EndsInteger rest →
      2 * (writeAt l level j ++ rest).length ≤ fuel + 1 →
      takeValue? (fuel + 1) (writeAt l level j ++ rest) = some (j, rest)) : ReadsBack l j := by
  intro level rest fuel hrest hfuel
  have hopens : OpensItem (writeAt l level j) := h.opensItem
  have hpos := hopens.length_pos
  obtain _ | fuel := fuel
  · rw [List.length_append] at hfuel
    omega
  · exact hread level rest fuel hrest hfuel

/-- Integers are read back. -/
theorem readsBack_int (n : Int) : ReadsBack l (int n) := by
  refine readsBack_of_succ (.int n) fun level rest fuel hrest _ => ?_
  obtain ⟨c, t, heq, hc⟩ := exists_ofInt_eq_cons n
  rw [writeAt, ← takeNumber?_ofInt n hrest, heq]
  exact takeValue?_number hc fuel _

/-- Strings are read back. -/
theorem readsBack_str (t : Text) : ReadsBack l (str t) := by
  refine readsBack_of_succ (.str t) fun level rest fuel _ _ => ?_
  simp only [writeAt, quote, List.cons_append, List.append_assoc, List.nil_append, takeValue?,
    takeString?_quote, Option.map_some]

/-- Arrays are read back if their items are. -/
theorem readsBack_arr (h : ∀ j ∈ items, j.Regular) (hread : ∀ j ∈ items, ReadsBack l j) :
    ReadsBack l (arr items) := by
  refine readsBack_of_succ (.arr h) fun level rest fuel _ hfuel => ?_
  rw [writeAt, writeItems_eq_map] at hfuel ⊢
  cases items with
  | nil => rfl
  | cons j js =>
    obtain ⟨t, u, htext, hskip, hopens, htake⟩ := exists_enclosed (.inl rfl) (by simp)
      (fun j' hj' => takes_item (hread j' hj') (h j' hj').opensItem) hfuel
    rw [htext, takeValue?_array hskip hopens, htake, Option.map_some]

/-- Objects are read back if their values are. -/
theorem readsBack_obj (hordered : Ordered members) (h : ∀ m ∈ members, m.2.Regular)
    (hread : ∀ m ∈ members, ReadsBack l m.2) : ReadsBack l (obj members) := by
  refine readsBack_of_succ (.obj hordered h) fun level rest fuel _ hfuel => ?_
  rw [writeAt, writeMembers_eq_map] at hfuel ⊢
  cases members with
  | nil => rfl
  | cons m more =>
    obtain ⟨t, u, htext, hskip, hopens, htake⟩ := exists_enclosed (.inr rfl) (by simp)
      (fun m' hm' => takes_member (hread m' hm') (h m' hm').opensItem) hfuel
    rw [htext, takeValue?_object hskip hopens, htake, ← ofMembers_of_ordered hordered,
      Option.map_some]

/-- A regular value is read back. -/
theorem Regular.readsBack {j : Json} (h : j.Regular) (l : Layout) : ReadsBack l j := by
  induction h with
  | null => exact readsBack_of_succ .null fun _ _ _ _ _ => rfl
  | bool b =>
    refine readsBack_of_succ (.bool b) fun _ _ _ _ _ => ?_
    cases b <;> rfl
  | int n => exact readsBack_int n
  | str t => exact readsBack_str t
  | arr h ih => exact readsBack_arr h ih
  | obj hordered h ih => exact readsBack_obj hordered h ih

end Written

/-- A regular value is read back from its written form, with whatever indent it was written. -/
theorem parse?_write {j : Json} (h : j.Regular) (indent : Option Nat) :
    parse? (j.write indent) = some j := by
  have hread := h.readsBack ⟨indent⟩ 0 [] (2 * (j.write indent).length + 2)
    (fun _ hc => absurd hc (by simp)) (by rw [List.append_nil, write]; omega)
  rw [List.append_nil, ← write] at hread
  have hskip : skipGap (j.write indent) = j.write indent := h.opensItem.skipGap_eq
  rw [parse?, hskip, hread]
  rfl

section Read

variable {t rest : Text} {j : Json} {fuel : Nat}

/-- A numeral that is read as an integer is a regular value. -/
theorem regular_of_takeNumber? (h : takeNumber? t = some (j, rest)) (hj : j.isIntegral = true) :
    j.Regular := by
  rw [takeNumber?.eq_def] at h
  split at h
  simp only [Option.bind_eq_bind, Option.bind_eq_some_iff] at h
  obtain ⟨whole, -, h⟩ := h
  split at h
  · obtain ⟨rfl, -⟩ := Prod.mk.inj (Option.some.inj h)
    exact .int _
  · obtain ⟨rfl, -⟩ := Prod.mk.inj (Option.some.inj h)
    cases hj

/-- What the rules read with some fuel is regular, except for numbers with a fraction or an
exponent. -/
structure ReadsRegular (fuel : Nat) : Prop where
  /-- Values are. -/
  value : ∀ {t j rest}, takeValue? fuel t = some (j, rest) → j.isIntegral = true → j.Regular
  /-- Items of arrays are. -/
  items : ∀ {t items rest}, takeItems? fuel t = some (items, rest) →
    ∀ j ∈ items, j.isIntegral = true → j.Regular
  /-- Values of members are. -/
  members : ∀ {t members rest}, takeMembers? fuel t = some (members, rest) →
    ∀ m ∈ members, m.2.isIntegral = true → m.2.Regular

namespace ReadsRegular

/-- A value is regular if what it encloses was read so with less fuel. -/
theorem value_succ (ih : ReadsRegular fuel) (h : takeValue? (fuel + 1) t = some (j, rest))
    (hj : j.isIntegral = true) : j.Regular := by
  rw [takeValue?.eq_def] at h
  dsimp only at h
  split at h
  · obtain ⟨rfl, -⟩ := Prod.mk.inj (Option.some.inj h)
    exact .null
  · obtain ⟨rfl, -⟩ := Prod.mk.inj (Option.some.inj h)
    exact .bool true
  · obtain ⟨rfl, -⟩ := Prod.mk.inj (Option.some.inj h)
    exact .bool false
  · obtain ⟨⟨s, u⟩, -, h⟩ := Option.map_eq_some_iff.mp h
    obtain ⟨rfl, -⟩ := Prod.mk.inj h
    exact .str s
  · split at h
    · obtain ⟨rfl, -⟩ := Prod.mk.inj (Option.some.inj h)
      exact .arr fun _ h => absurd h List.not_mem_nil
    · obtain ⟨⟨items, u⟩, hitems, h⟩ := Option.map_eq_some_iff.mp h
      obtain ⟨rfl, -⟩ := Prod.mk.inj h
      rw [isIntegral, areIntegral_iff] at hj
      exact .arr fun j' hj' => ih.items hitems j' hj' (hj j' hj')
  · split at h
    · obtain ⟨rfl, -⟩ := Prod.mk.inj (Option.some.inj h)
      exact .obj .nil fun _ h => absurd h List.not_mem_nil
    · obtain ⟨⟨members, u⟩, hmembers, h⟩ := Option.map_eq_some_iff.mp h
      obtain ⟨rfl, -⟩ := Prod.mk.inj h
      rw [ofMembers_eq, isIntegral, haveIntegralValues_iff] at hj
      refine .obj (ordered_setMembers members) fun m hm => ?_
      rcases mem_of_mem_setMembers hm with hnil | hmem
      · exact absurd hnil List.not_mem_nil
      · exact ih.members hmembers m hmem (hj m hm)
  · exact regular_of_takeNumber? h hj

/-- Items are regular if values and further items were read so with less fuel. -/
theorem items_succ (ih : ReadsRegular fuel) {items : List Json}
    (h : takeItems? (fuel + 1) t = some (items, rest)) :
    ∀ j ∈ items, j.isIntegral = true → j.Regular := by
  rw [takeItems?] at h
  simp only [Option.bind_eq_bind, Option.bind_eq_some_iff] at h
  obtain ⟨⟨j, u⟩, hvalue, h⟩ := h
  dsimp only at h
  split at h
  · obtain ⟨⟨js, v⟩, hitems, h⟩ := Option.bind_eq_some_iff.mp h
    obtain ⟨rfl, -⟩ := Prod.mk.inj (Option.some.inj h)
    exact List.forall_mem_cons.mpr ⟨ih.value hvalue, ih.items hitems⟩
  · obtain ⟨rfl, -⟩ := Prod.mk.inj (Option.some.inj h)
    exact List.forall_mem_singleton.mpr (ih.value hvalue)
  · cases h

/-- Values of members are regular if values and further members were read so with less fuel. -/
theorem members_succ (ih : ReadsRegular fuel) {members : List (Text × Json)}
    (h : takeMembers? (fuel + 1) t = some (members, rest)) :
    ∀ m ∈ members, m.2.isIntegral = true → m.2.Regular := by
  rw [takeMembers?.eq_def] at h
  dsimp only at h
  split at h
  · obtain ⟨⟨key, u⟩, -, h⟩ := Option.bind_eq_some_iff.mp h
    dsimp only at h
    split at h
    · obtain ⟨⟨j, v⟩, hvalue, h⟩ := Option.bind_eq_some_iff.mp h
      dsimp only at h
      split at h
      · obtain ⟨⟨more, w⟩, hmembers, h⟩ := Option.bind_eq_some_iff.mp h
        obtain ⟨rfl, -⟩ := Prod.mk.inj (Option.some.inj h)
        exact List.forall_mem_cons.mpr ⟨ih.value hvalue, ih.members hmembers⟩
      · obtain ⟨rfl, -⟩ := Prod.mk.inj (Option.some.inj h)
        exact List.forall_mem_singleton.mpr (ih.value hvalue)
      · cases h
    · cases h
  · cases h

end ReadsRegular

/-- Whatever the fuel, the rules read regular values. -/
theorem readsRegular (fuel : Nat) : ReadsRegular fuel := by
  induction fuel with
  | zero => exact ⟨fun h => (by cases h), fun h => (by cases h), fun h => (by cases h)⟩
  | succ fuel ih => exact ⟨ih.value_succ, ih.items_succ, ih.members_succ⟩

/-- What is read from a text is regular, unless it holds a number with a fraction or an
exponent. -/
theorem regular_of_parse? (h : parse? t = some j) (hj : j.isIntegral = true) : j.Regular := by
  unfold parse? at h
  split at h
  · rename_i hvalue
    split at h
    · obtain rfl := Option.some.inj h
      exact (readsRegular _).value hvalue hj
    · cases h
  · cases h

end Read

end Gloss.Json
