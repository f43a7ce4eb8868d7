import Gloss.Proofs.Expr.Grammar

/-!
# Rules look no further than they must

A rule of the parser sees all that follows, and decides by it: a bracket may be closed far
behind, a dot may have no name. Still, cutting off text behind what a rule has read changes
nothing: from the shorter text it reads the same, for what is missing could only have continued
the expression. This is shown of the readers that take a word or a bracketed text off the front,
and carried through the grammar by one lemma for each way of putting rules together.
-/

namespace Gloss.Grammar

open Text Outcome

variable {α β γ : Type}

section Readers

/-- From the beginning of a text the reader takes what it takes from the whole text, if that
lies within the beginning; and it takes nothing from it if it takes nothing from the whole. -/
structure LocalReader (read : Text → Option (α × Text)) : Prop where
  /-- What it leaves is the end of the text. -/
  suffix : ∀ {t a rest}, read t = some (a, rest) → rest <:+ t
  /-- What it takes does not depend on text further behind. -/
  taken : ∀ {t v a rest}, read (t ++ v) = some (a, rest ++ v) → read t = some (a, rest)
  /-- Less text holds no more to take. -/
  refused : ∀ {t v}, read (t ++ v) = none → read t = none

variable {read read' : Text → Option (α × Text)}

/-- Blanks are skipped at the front of a text alike, unless they reach behind its beginning. -/
theorem skipBlanks_append_cases (t v : Text) :
    (t.skipBlanks = [] ∧ (t ++ v).skipBlanks = v.skipBlanks) ∨
      (t ++ v).skipBlanks = t.skipBlanks ++ v := by
  by_cases ht : t.skipBlanks = []
  · exact .inl ⟨ht, skipBlanks_append (skipBlanks_eq_nil_iff.mp ht)⟩
  · refine .inr ?_
    rw [skipBlanks, List.dropWhile_append, if_neg (by rwa [List.isEmpty_iff])]
    rfl

/-- If all of a text behind its blanks is left, this is so without what follows the text. -/
theorem skipBlanks_of_append {t v w : Text} (h : (t ++ v).skipBlanks = w ++ v) :
    t.skipBlanks = w := by
  rcases skipBlanks_append_cases t v with ⟨ht, hv⟩ | happ
  · have hlong := congrArg List.length (hv.symm.trans h)
    have hshort : v.skipBlanks.length ≤ v.length := (List.dropWhile_suffix isBlank).length_le
    rw [List.length_append] at hlong
    have hw : w = [] := List.length_eq_zero_iff.mp (by omega)
    rw [ht, hw]
  · exact List.append_cancel_right (happ.symm.trans h)

/-- Text behind a beginning was not reached if all of it is left. -/
theorem skipBlanks_append_of_suffix {t v rest : Text} (h : rest ++ v <:+ (t ++ v).skipBlanks) :
    (t ++ v).skipBlanks = t.skipBlanks ++ v := by
  obtain ⟨w, hw⟩ := h
  have hskip : t.skipBlanks = w ++ rest := skipBlanks_of_append (by rw [List.append_assoc, hw])
  rw [hskip, List.append_assoc, hw]

/-- The first character behind blanks is seen in any longer text. -/
theorem head?_skipBlanks_any_of_append {p : Char → Bool} {t : Text} (v : Text)
    (h : (t ++ v).skipBlanks.head?.any p = false) : t.skipBlanks.head?.any p = false := by
  rcases skipBlanks_append_cases t v with ⟨ht, -⟩ | happ
  · rw [ht]
    rfl
  · cases hs : t.skipBlanks with
    | nil => rfl
    | cons c s =>
      rw [happ, hs] at h
      exact h

/-- If the first character of a text is not admitted, none of a beginning is. -/
theorem head?_any_of_append {p : Char → Bool} {t : Text} (v : Text)
    (h : (t ++ v).head?.any p = false) : t.head?.any p = false := by
  cases t with
  | nil => rfl
  | cons c t => exact h

/-- Blanks may be skipped first. -/
theorem LocalReader.skip (h : LocalReader read) : LocalReader fun t => read t.skipBlanks where
  suffix hr := (h.suffix hr).trans (List.dropWhile_suffix isBlank)
  taken := by
    intro t v a rest hr
    rw [skipBlanks_append_of_suffix (h.suffix hr)] at hr
    exact h.taken hr
  refused := by
    intro t v hr
    rcases skipBlanks_append_cases t v with ⟨ht, hv⟩ | happ
    · rw [ht]
      rw [hv] at hr
      exact h.refused (t := []) hr
    · rw [happ] at hr
      exact h.refused hr

/-- Reads behind the first character of a text, if `first?` admits it. -/
def readBehind (first? : Char → Option γ) (read : γ → Text → Option (α × Text)) :
    Text → Option (α × Text)
  | [] => none
  | c :: t => (first? c).bind fun x => read x t

/-- Admits the character `c` alone. -/
def only (c d : Char) : Option Unit := if d = c then some () else none

/-- Reading behind a given character goes on exactly if the text begins with it. -/
theorem readBehind_only (c d : Char) (read : Unit → Text → Option (α × Text)) (t : Text) :
    readBehind (only c) read (d :: t) = if d = c then read () t else none := by
  rw [readBehind, only]
  split <;> rfl

/-- Where the text does not begin with the given character, nothing is read behind it. -/
theorem readBehind_only_eq_none {c : Char} {t : Text} {read : Unit → Text → Option (α × Text)}
    (h : ∀ u, t ≠ c :: u) : readBehind (only c) read t = none := by
  cases t with
  | nil => rfl
  | cons d t =>
    rw [readBehind_only, if_neg]
    rintro rfl
    exact h t rfl

/-- Reading behind an admitted character is local if what is read there is. Behind that character
there is less text than before it, so nothing read there can leave all of it. -/
theorem LocalReader.behind {read : γ → Text → Option (α × Text)} (h : ∀ x, LocalReader (read x))
    (first? : Char → Option γ) : LocalReader (readBehind first? read) where
  suffix := by
    intro t a rest hr
    cases t with
    | nil => cases hr
    | cons c t =>
      obtain ⟨x, -, hr⟩ := Option.bind_eq_some_iff.mp hr
      exact ((h x).suffix hr).trans (List.suffix_cons c t)
  taken := by
    intro t v a rest hr
    cases t with
    | cons c t =>
      obtain ⟨x, hx, hr⟩ := Option.bind_eq_some_iff.mp hr
      exact Option.bind_eq_some_iff.mpr ⟨x, hx, (h x).taken hr⟩
    | nil =>
      cases v with
      | nil => cases hr
      | cons c v =>
        obtain ⟨x, -, hr⟩ := Option.bind_eq_some_iff.mp hr
        have hlength := ((h x).suffix hr).length_le
        rw [List.length_append, List.length_cons] at hlength
        omega
  refused := by
    intro t v hr
    cases t with
    | nil => rfl
    | cons c t =>
      refine Option.bind_eq_none_iff.mpr fun x hx => ?_
      exact (h x).refused (Option.bind_eq_none_iff.mp hr x hx)

/-- Takes nothing, and always succeeds. -/
theorem localReader_nothing (a : α) : LocalReader fun t => some (a, t) where
  suffix := by
    intro t a rest hr
    cases hr
    exact List.suffix_rfl
  taken := by
    intro t v a rest hr
    rw [Option.some.injEq, Prod.mk.injEq] at hr
    rw [hr.1, List.append_cancel_right hr.2]
  refused hr := by cases hr

/-- Takes the character `c`. -/
def takeChar (c : Char) : Text → Option (Unit × Text) :=
  readBehind (only c) fun x t => some (x, t)

/-- Taking a given character is local. -/
theorem localReader_takeChar (c : Char) : LocalReader (takeChar c) :=
  LocalReader.behind localReader_nothing (only c)

/-- Taking a text up to its closing bracket is local: the bracket that closes it is found without a
look behind it. -/
theorem localReader_close? (bracket : Bracket) : LocalReader (bracket.close? 0) where
  suffix := by
    intro t inside rest hr
    obtain ⟨rfl, -⟩ := Bracket.close?_eq_some_iff.mp hr
    exact ⟨inside ++ [bracket.closer], by rw [List.append_assoc]; rfl⟩
  taken := by
    intro t v inside rest hr
    obtain ⟨ht, hinside⟩ := Bracket.close?_eq_some_iff.mp hr
    rw [← List.cons_append, ← List.append_assoc] at ht
    exact Bracket.close?_eq_some_iff.mpr ⟨List.append_cancel_right ht, hinside⟩
  refused := by
    intro t v hr
    cases ht : bracket.close? 0 t with
    | none => rfl
    | some pair =>
      obtain ⟨rfl, hinside⟩ := Bracket.close?_eq_some_iff.mp ht
      rw [List.append_assoc, List.cons_append, Bracket.Encloses.close? hinside] at hr
      cases hr

/-- Taking a numeral is local. -/
theorem localReader_takeNumber? : LocalReader takeNumber? where
  suffix hr := ⟨_, (takeNumber?_eq_some_iff.mp hr).1.symm⟩
  taken := by
    intro t v s rest hr
    obtain ⟨ht, hs, hedge, hpoint⟩ := takeNumber?_eq_some_iff.mp hr
    rw [← List.append_assoc] at ht
    refine takeNumber?_eq_some_iff.mpr
      ⟨List.append_cancel_right ht, hs, head?_any_of_append v hedge, ?_⟩
    rintro hdigits u rfl
    exact head?_any_of_append v (hpoint hdigits (u ++ v) rfl)
  refused := by
    intro t v hr
    exact takeNumber?_eq_none (head?_any_of_append v (takeNumber?_eq_none_iff.mp hr))

/-- Taking a dotted name is local. -/
theorem localReader_takeName? : LocalReader takeName? where
  suffix := by
    intro t name rest hr
    obtain ⟨u, ht, -⟩ := takeName?_eq_some_iff.mp hr
    exact ⟨u, ht.symm⟩
  taken := by
    intro t v name rest hr
    obtain ⟨u, ht, hu, hedge, hdot⟩ := takeName?_eq_some_iff.mp hr
    rw [← List.append_assoc] at ht
    refine takeName?_eq_some_iff.mpr
      ⟨u, List.append_cancel_right ht, hu, head?_any_of_append v hedge, fun w hw => ?_⟩
    have hmore : (rest ++ v).dropWhile isBlank = '.' :: (w ++ v) := by
      rcases skipBlanks_append_cases rest v with ⟨hnil, -⟩ | happ
      · rw [show rest.skipBlanks = '.' :: w from hw] at hnil
        cases hnil
      · rw [show rest.skipBlanks = '.' :: w from hw] at happ
        exact happ
    exact head?_skipBlanks_any_of_append v (hdot (w ++ v) hmore)
  refused := by
    intro t v hr
    exact takeName?_eq_none_iff.mpr (head?_any_of_append v (takeName?_eq_none_iff.mp hr))

/-- The name of a type behind the keyword of a construction. -/
def takeNew? (t : Text) : Option (Text × Text) :=
  (afterNew? t).bind fun u => takeName? u.skipBlanks

/-- Taking the keyword and the type of a construction is local. -/
theorem localReader_takeNew? : LocalReader takeNew? where
  suffix := by
    intro t name rest hr
    obtain ⟨u, hu, hname⟩ := Option.bind_eq_some_iff.mp hr
    obtain ⟨rfl, -⟩ := afterNew?_eq_some_iff.mp hu
    exact (localReader_takeName?.skip.suffix hname).trans (List.suffix_append _ u)
  taken := by
    intro t v name rest hr
    obtain ⟨u, hu, hname⟩ := Option.bind_eq_some_iff.mp hr
    obtain ⟨ht, hedge⟩ := afterNew?_eq_some_iff.mp hu
    obtain ⟨w, rfl⟩ := localReader_takeName?.skip.suffix hname
    rw [← List.append_assoc] at ht hedge hname
    rw [← List.append_assoc] at ht
    have hnew : afterNew? t = some (w ++ rest) :=
      afterNew?_eq_some_iff.mpr ⟨List.append_cancel_right ht, head?_any_of_append v hedge⟩
    exact Option.bind_eq_some_iff.mpr ⟨w ++ rest, hnew, localReader_takeName?.skip.taken hname⟩
  refused := by
    intro t v hr
    refine Option.bind_eq_none_iff.mpr fun u hu => ?_
    obtain ⟨rfl, hedge⟩ := afterNew?_eq_some_iff.mp hu
    cases u with
    | nil => rfl
    | cons c u =>
      have hnew : afterNew? (['n', 'e', 'w'] ++ (c :: u) ++ v) = some (c :: u ++ v) :=
        afterNew?_eq_some_iff.mpr ⟨List.append_assoc .., hedge⟩
      exact localReader_takeName?.skip.refused (Option.bind_eq_none_iff.mp hr _ hnew)

/-- A text in parentheses is read behind the opening one, up to the one that closes it. -/
theorem takeParens?_eq_readBehind (t : Text) :
    takeParens? t = readBehind (only '(') (fun _ => Bracket.paren.close? 0) t.skipBlanks := by
  rw [takeParens?]
  split
  · rename_i u hopen
    rw [hopen]
    rfl
  · rename_i hopen
    exact (readBehind_only_eq_none hopen).symm

/-- Taking a text in parentheses is local. -/
theorem localReader_takeParens? : LocalReader takeParens? := by
  rw [funext takeParens?_eq_readBehind]
  exact (LocalReader.behind (fun _ => localReader_close? .paren) _).skip

end Readers

section Rules

/-- What the rule reads from the front of a text it reads from any beginning that holds it. -/
structure LocalRule (rule : Text → Nat → Outcome α) : Prop where
  /-- What it leaves is the end of the text. -/
  suffix : ∀ {t b a rest b'}, rule t b = parsed a rest b' → rest <:+ t
  /-- What it reads does not depend on text further behind. -/
  taken : ∀ {t v b a rest b'}, rule (t ++ v) b = parsed a (rest ++ v) b' →
    rule t b = parsed a rest b'

variable {rule : Text → Nat → Outcome α} {read : Text → Option (α × Text)}

/-- A rule that reads nothing and always succeeds is local. -/
theorem localRule_parsed (a : α) : LocalRule (parsed a) where
  suffix := by
    intro t b a rest b' h
    cases h
    exact List.suffix_rfl
  taken := by
    intro t v b a rest b' h
    rw [parsed.injEq] at h
    rw [h.1, List.append_cancel_right h.2.1, h.2.2]

/-- A rule that never matches is local. -/
theorem localRule_mismatch : LocalRule fun _ _ => (mismatch : Outcome α) where
  suffix h := by cases h
  taken h := by cases h

/-- A rule that always overflows is local. -/
theorem localRule_overflow : LocalRule fun _ _ => (overflow : Outcome α) where
  suffix h := by cases h
  taken h := by cases h

/-- Making nodes is local: it does not look at the text. -/
theorem localRule_charge (k : Nat) (a : α) : LocalRule (charge k a) where
  suffix := by
    intro t b a rest b' h
    obtain ⟨-, rfl, -⟩ := charge_eq_parsed_iff.mp h
    exact List.suffix_rfl
  taken := by
    intro t v b a rest b' h
    obtain ⟨ha, ht, hb⟩ := charge_eq_parsed_iff.mp h
    exact charge_eq_parsed_iff.mpr ⟨ha, List.append_cancel_right ht, hb⟩

/-- A rule with the outcomes of a local one is local. -/
theorem LocalRule.of_eq {rule' : Text → Nat → Outcome α} (h : LocalRule rule)
    (heq : ∀ t b, rule' t b = rule t b) : LocalRule rule' := by
  rwa [show rule' = rule from funext fun t => funext (heq t)]

/-- A rule may depend on the budget in other ways. -/
theorem LocalRule.of_budget {rule : Nat → Text → Nat → Outcome α}
    (h : ∀ n, LocalRule (rule n)) : LocalRule fun t b => rule b t b where
  suffix hr := (h _).suffix hr
  taken hr := (h _).taken hr

/-- Behind what was read, the next rule sees what a shorter text has left. -/
theorem LocalRule.andThen {next : α → Text → Nat → Outcome β} (h : LocalRule rule)
    (hnext : ∀ a, LocalRule (next a)) : LocalRule fun t b => (rule t b).andThen next where
  suffix := by
    intro t b a rest b' hr
    obtain ⟨x, t₁, b₁, hx, hmore⟩ := andThen_eq_parsed_iff.mp hr
    exact ((hnext x).suffix hmore).trans (h.suffix hx)
  taken := by
    intro t v b a rest b' hr
    obtain ⟨x, t₁, b₁, hx, hmore⟩ := andThen_eq_parsed_iff.mp hr
    obtain ⟨w, rfl⟩ := (hnext x).suffix hmore
    rw [← List.append_assoc] at hx hmore
    exact andThen_eq_parsed_iff.mpr ⟨x, w ++ rest, b₁, h.taken hx, (hnext x).taken hmore⟩

/-- Blanks may be skipped first. -/
theorem LocalRule.skip (h : LocalRule rule) : LocalRule fun t => rule t.skipBlanks where
  suffix hr := (h.suffix hr).trans (List.dropWhile_suffix isBlank)
  taken := by
    intro t v b a rest b' hr
    rw [skipBlanks_append_of_suffix (h.suffix hr)] at hr
    exact h.taken hr

/-- Goes on behind what a reader takes, and elsewhere in another way. -/
def ifTaken (read : Text → Option (α × Text)) (next : α → Text → Nat → Outcome β)
    (other : Text → Nat → Outcome β) (t : Text) (b : Nat) : Outcome β :=
  match read t with
  | some (a, rest) => next a rest b
  | none => other t b

/-- A choice by what a local reader takes is local if both ways on are. -/
theorem LocalReader.ifTaken {next : α → Text → Nat → Outcome β} {other : Text → Nat → Outcome β}
    (h : LocalReader read) (hnext : ∀ a, LocalRule (next a)) (hother : LocalRule other) :
    LocalRule (ifTaken read next other) where
  suffix := by
    intro t b a rest b' hr
    rw [Grammar.ifTaken] at hr
    split at hr
    · exact ((hnext _).suffix hr).trans (h.suffix ‹_›)
    · exact hother.suffix hr
  taken := by
    intro t v b a rest b' hr
    rw [Grammar.ifTaken] at hr ⊢
    split at hr
    · rename_i x t₁ hx
      obtain ⟨w, rfl⟩ := (hnext x).suffix hr
      rw [← List.append_assoc] at hx hr
      rw [h.taken hx]
      exact (hnext x).taken hr
    · rename_i hnone
      rw [h.refused hnone]
      exact hother.taken hr

/-- Goes on with what is made within the budget. -/
def ifPaid (make : Nat → Option (α × Nat)) (next : α → Text → Nat → Outcome β) (t : Text)
    (b : Nat) : Outcome β :=
  match make b with
  | some (a, left) => next a t left
  | none => overflow

/-- Going on with what was made within the budget is local if going on is. -/
theorem localRule_ifPaid (make : Nat → Option (α × Nat)) {next : α → Text → Nat → Outcome β}
    (hnext : ∀ a, LocalRule (next a)) : LocalRule (ifPaid make next) where
  suffix := by
    intro t b a rest b' hr
    rw [ifPaid] at hr
    split at hr
    · exact (hnext _).suffix hr
    · cases hr
  taken := by
    intro t v b a rest b' hr
    rw [ifPaid] at hr ⊢
    split at hr
    · exact (hnext _).taken hr
    · cases hr

end Rules

section Levels

variable {nested : Rule}

/-- What may follow a name, once blanks are skipped. -/
def trailer (nested : Rule) (fuel : Nat) (e : Expr) : Rule :=
  ifTaken (readBehind (only '.') fun _ t => takeName? t.skipBlanks)
    (fun name rest b =>
      (charge 1 (Expr.member e name) rest b).andThen (trailers nested fuel)) <|
  ifTaken (readBehind (only '[') fun _ => Bracket.square.close? 0)
    (fun inside => ifPaid (readWhole nested inside.trim) fun subscript rest b =>
      (charge 1 (Expr.index e subscript) rest b).andThen (trailers nested fuel)) <|
  ifTaken (readBehind (only '(') fun _ => Bracket.paren.close? 0)
    (fun inside => ifPaid (readArgs nested inside) fun args rest b =>
      (charge 1 (Expr.call e args) rest b).andThen (trailers nested fuel)) <|
  parsed e

/-- A step of the trailers is one trailer behind the blanks. -/
theorem trailers_succ (fuel : Nat) (e : Expr) (t : Text) (b : Nat) :
    trailers nested (fuel + 1) e t b = trailer nested fuel e t.skipBlanks b := by
  rw [trailers, trailer]
  split
  · rename_i u hdot
    rw [hdot]
    simp only [ifTaken, readBehind_only, Char.reduceEq, reduceIte]
    cases takeName? (Text.skipBlanks u) <;> rfl
  · rename_i u hopen
    rw [hopen]
    simp only [ifTaken, ifPaid, readBehind_only, Char.reduceEq, reduceIte]
    cases Bracket.square.close? 0 u with
    | none => rfl
    | some taken =>
      cases hmade : readWhole nested taken.1.trim b <;> simp only [hmade]
  · rename_i u hopen
    rw [hopen]
    simp only [ifTaken, ifPaid, readBehind_only, Char.reduceEq, reduceIte]
    cases Bracket.paren.close? 0 u with
    | none => rfl
    | some taken =>
      cases hmade : readArgs nested taken.1 b <;> simp only [hmade]
  · rename_i hdot hsquare hparen
    simp only [ifTaken, readBehind_only_eq_none hdot, readBehind_only_eq_none hsquare,
      readBehind_only_eq_none hparen]

/-- What may follow a name is read locally, by induction on the steps that are left. -/
theorem localRule_trailers (fuel : Nat) (e : Expr) : LocalRule (trailers nested fuel e) := by
  induction fuel generalizing e with
  | zero => exact localRule_overflow
  | succ fuel ih =>
    apply LocalRule.of_eq _ (trailers_succ fuel e)
    have hgoOn (e₁ : Expr) : LocalRule fun rest b =>
        (charge 1 e₁ rest b).andThen (trailers nested fuel) :=
      (localRule_charge 1 e₁).andThen ih
    have hargs := LocalReader.behind (fun _ => localReader_close? .paren) (only '(')
    have hcall := hargs.ifTaken
      (fun inside => localRule_ifPaid (readArgs nested inside) fun args => hgoOn (.call e args))
      (localRule_parsed e)
    have hsubscript := LocalReader.behind (fun _ => localReader_close? .square) (only '[')
    have hindex := hsubscript.ifTaken
      (fun inside => localRule_ifPaid (readWhole nested inside.trim) fun s => hgoOn (.index e s))
      hcall
    have hname := LocalReader.behind (fun _ => localReader_takeName?.skip) (only '.')
    have hmember := hname.ifTaken (fun name => hgoOn (.member e name)) hindex
    exact hmember.skip

/-- A name with what follows it. -/
def named (nested : Rule) (name : Text) : Rule := fun rest b =>
  (charge 1 (Expr.identifier name) rest b).andThen fun e rest b =>
    trailers nested (b + 1) e rest b

/-- A name with what follows it is read locally. -/
theorem localRule_named (nested : Rule) (name : Text) : LocalRule (named nested name) :=
  (localRule_charge 1 _).andThen fun e => .of_budget fun b => localRule_trailers (b + 1) e

/-- An atom is a choice by the numeral and the name at the front of the text. -/
theorem atom_eq (t : Text) (b : Nat) : atom nested t b =
    ifTaken takeNumber? (fun digits => charge 1 (Expr.number digits))
      (ifTaken takeName? (named nested) fun _ _ => mismatch) t b := by
  rw [atom, ifTaken]
  cases takeNumber? t with
  | some number => rfl
  | none =>
    rw [ifTaken]
    cases takeName? t <;> rfl

/-- An atom is read locally. -/
theorem localRule_atom (nested : Rule) : LocalRule (atom nested) := by
  apply LocalRule.of_eq _ atom_eq
  have hname := localReader_takeName?.ifTaken (localRule_named nested) localRule_mismatch
  exact localReader_takeNumber?.ifTaken (fun _ => localRule_charge 1 _) hname

/-- The end of an expression in brackets, once blanks are skipped. -/
def closed (fence : Fence) (e : Expr) : Rule :=
  ifTaken (takeChar fence.bracket.closer) (fun _ => charge 1 (Expr.group fence e))
    fun _ _ => mismatch

/-- The closing bracket of a group is read locally. -/
theorem localRule_closed (fence : Fence) (e : Expr) : LocalRule (closed fence e) :=
  (localReader_takeChar _).ifTaken (fun _ => localRule_charge 1 _) localRule_mismatch

/-- A group is an expression and its closing bracket behind the blanks. -/
theorem group_eq (fence : Fence) (t : Text) (b : Nat) : group nested fence t b =
    (nested t b).andThen fun e rest b => closed fence e rest.skipBlanks b := by
  rw [group]
  congr 1
  funext e rest b
  cases rest.skipBlanks with
  | nil => rfl
  | cons c u =>
    simp only [closed, ifTaken, takeChar, readBehind_only]
    split <;> rfl

/-- A group is read locally if what it encloses is. -/
theorem localRule_group (hnested : LocalRule nested) (fence : Fence) :
    LocalRule (group nested fence) := by
  apply LocalRule.of_eq _ (group_eq fence)
  exact hnested.andThen fun e => (localRule_closed fence e).skip

/-- What follows the keyword `new` and a name. -/
def constructed (nested : Rule) (name : Text) : Rule :=
  ifTaken takeParens?
    (fun inside => ifPaid (readArgs nested inside) fun args =>
      charge 2 (Expr.constructWith (.identifier name) args))
    (charge 2 (Expr.construct (.identifier name)))

/-- What follows the type of a construction is read locally. -/
theorem localRule_constructed (nested : Rule) (name : Text) :
    LocalRule (constructed nested name) := by
  have hargs (inside : Text) := localRule_ifPaid (readArgs nested inside) fun args =>
    localRule_charge 2 (Expr.constructWith (.identifier name) args)
  exact localReader_takeParens?.ifTaken hargs (localRule_charge 2 _)

/-- A primary is a choice by its first characters: a construction, one of two brackets or an atom.
-/
theorem primary_eq (t : Text) (b : Nat) : primary nested t b =
    ifTaken takeNew? (constructed nested)
      (ifTaken (takeChar '(') (fun _ => group nested .paren)
        (ifTaken (takeChar '{') (fun _ => group nested .brace) (atom nested))) t b := by
  unfold primary
  rw [construction?, ifTaken, takeNew?]
  cases (afterNew? t).bind fun u => takeName? u.skipBlanks with
  | some new =>
    simp only [Option.map_some]
    rw [constructed, ifTaken]
    cases takeParens? new.2 with
    | none => rfl
    | some taken =>
      simp only [ifPaid]
      cases readArgs nested taken.1 b <;> rfl
  | none =>
    simp only [Option.map_none]
    split
    · rfl
    · rfl
    · rename_i hparen hbrace
      simp only [ifTaken, takeChar, readBehind_only_eq_none hparen,
        readBehind_only_eq_none hbrace]

/-- A primary is read locally if what it encloses in brackets is. -/
theorem localRule_primary (hnested : LocalRule nested) : LocalRule (primary nested) := by
  apply LocalRule.of_eq _ primary_eq
  have hbrace := (localReader_takeChar '{').ifTaken (fun _ => localRule_group hnested .brace)
    (localRule_atom nested)
  have hparen := (localReader_takeChar '(').ifTaken (fun _ => localRule_group hnested .paren)
    hbrace
  exact localReader_takeNew?.ifTaken (localRule_constructed nested) hparen

/-- Signs leave an end of the text. -/
theorem suffix_of_signs {t rest : Text} {b b' : Nat} {ss : List Sign}
    (h : signs t b = parsed ss rest b') : rest <:+ t := by
  obtain ⟨v, rfl, -⟩ := @signs_sound (fun _ _ => mismatch) (fun _ _ _ _ => False) _ _ _ _ _ h
  exact List.suffix_append v rest

/-- Where no text was taken there was no sign. -/
theorem signs_idle {t : Text} {b b' : Nat} {ss : List Sign} (h : signs t b = parsed ss t b') :
    ss = [] ∧ b = b' := by
  cases t with
  | nil =>
    cases h
    exact ⟨rfl, rfl⟩
  | cons c t =>
    have hshort : ¬ c :: t <:+ t := fun hsuffix => Nat.not_succ_le_self _ hsuffix.length_le
    rw [signs.eq_def] at h
    simp only at h
    split at h
    · exact absurd (suffix_of_signs h) hshort
    · split at h
      · cases h
        exact ⟨rfl, rfl⟩
      · cases b with
        | zero => cases h
        | succ b =>
          obtain ⟨more, t₁, b₁, hmore, hsigns⟩ := andThen_eq_parsed_iff.mp h
          cases hsigns
          exact absurd (suffix_of_signs hmore) hshort

/-- Signs are read locally: from an empty beginning nothing was read, so there was no sign. -/
theorem localRule_signs : LocalRule signs where
  suffix := suffix_of_signs
  taken := by
    intro t v b ss rest b' h
    induction t generalizing b ss b' with
    | nil =>
      have hlength := (suffix_of_signs h).length_le
      rw [List.nil_append, List.length_append] at hlength
      have hrest : rest = [] := List.length_eq_zero_iff.mp (by omega)
      subst hrest
      obtain ⟨rfl, rfl⟩ := signs_idle h
      rfl
    | cons c t ih =>
      rw [List.cons_append, signs.eq_def] at h
      rw [signs.eq_def]
      simp only at h ⊢
      split at h
      · rw [if_pos ‹_›]
        exact ih h
      · rw [if_neg ‹_›]
        cases hsign : Sign.ofChar? c with
        | none =>
          rw [hsign, ← List.cons_append] at h
          exact (localRule_parsed []).taken h
        | some sign =>
          rw [hsign] at h
          cases b with
          | zero => cases h
          | succ b =>
            obtain ⟨more, t₁, b₁, hmore, hsigns⟩ := andThen_eq_parsed_iff.mp h
            cases hsigns
            exact andThen_eq_parsed_iff.mpr ⟨more, rest, b', ih hmore, rfl⟩

/-- An operand is read locally if what it encloses in brackets is. -/
theorem localRule_operand (hnested : LocalRule nested) : LocalRule (operand nested) :=
  localRule_signs.andThen fun ss => (localRule_primary hnested).andThen fun e =>
    localRule_parsed (ss.foldr Expr.unary e)

/-- What may follow a left operand, once blanks are skipped. -/
def link (level? : Char → Option Operator) (item : Rule) (fuel : Nat) (left : Expr) : Rule :=
  ifTaken (readBehind level? fun op t => some (op, t))
    (fun op t b => (item t b).andThen fun right rest b =>
      (charge 1 (Expr.binary op left right) rest b).andThen (chain level? item fuel))
    (parsed left)

/-- A step of a chain is one link behind the blanks. -/
theorem chain_succ (level? : Char → Option Operator) (item : Rule) (fuel : Nat) (left : Expr)
    (t : Text) (b : Nat) :
    chain level? item (fuel + 1) left t b = link level? item fuel left t.skipBlanks b := by
  rw [chain, link, ifTaken]
  cases t.skipBlanks with
  | nil => rfl
  | cons c u =>
    simp only [readBehind]
    cases level? c <;> rfl

/-- A chain is read locally if its items are, by induction on the steps that are left. -/
theorem localRule_chain {level? : Char → Option Operator} {item : Rule} (hitem : LocalRule item)
    (fuel : Nat) (left : Expr) : LocalRule (chain level? item fuel left) := by
  induction fuel generalizing left with
  | zero => exact localRule_overflow
  | succ fuel ih =>
    apply LocalRule.of_eq _ (chain_succ level? item fuel left)
    have hoperator : LocalReader (readBehind level? fun op t => some (op, t)) :=
      LocalReader.behind localReader_nothing level?
    have hgoOn (op : Operator) := hitem.andThen fun right =>
      (localRule_charge 1 (Expr.binary op left right)).andThen ih
    exact (hoperator.ifTaken hgoOn (localRule_parsed left)).skip

/-- A chain with its first operand is read locally if its items are. -/
theorem localRule_chained {level? : Char → Option Operator} {item : Rule}
    (hitem : LocalRule item) : LocalRule (chained level? item) :=
  hitem.andThen fun left => .of_budget fun b => localRule_chain hitem (b + 1) left

/-- An expression is read from any beginning of a text that holds it. -/
theorem localRule_expression (room : Nat) : LocalRule (expression room) := by
  induction room with
  | zero => exact localRule_mismatch
  | succ room ih => exact localRule_chained (localRule_chained (localRule_operand ih))

/-- A chain is read up to what continues it no more, and not to blanks before that. -/
theorem skipBlanks_of_chain {level? : Char → Option Operator} {item : Rule} {fuel b b' : Nat}
    {left e : Expr} {t rest : Text} (h : chain level? item fuel left t b = parsed e rest b') :
    rest.skipBlanks = rest := by
  induction fuel generalizing left t b with
  | zero => cases h
  | succ fuel ih =>
    rw [chain] at h
    split at h
    · cases h
      rfl
    · rename_i c u hu
      split at h
      · cases h
        exact skipBlanks_cons (skipBlanks_head hu)
      · obtain ⟨r, t₁, b₁, -, hmore⟩ := andThen_eq_parsed_iff.mp h
        obtain ⟨e₁, t₂, b₂, -, hnext⟩ := andThen_eq_parsed_iff.mp hmore
        exact ih hnext

/-- The blanks behind an expression are skipped. -/
theorem skipBlanks_of_expression {room b b' : Nat} {e : Expr} {t rest : Text}
    (h : expression room t b = parsed e rest b') : rest.skipBlanks = rest := by
  cases room with
  | zero => cases h
  | succ room =>
    obtain ⟨left, t₁, b₁, -, hchain⟩ := andThen_eq_parsed_iff.mp h
    exact skipBlanks_of_chain hchain

end Levels

end Gloss.Grammar
