import Gloss.Proofs.Mask.Position

/-!
# The decomposition of a source

A source has one decomposition into plain characters, comments and literals: what opens is
seen at the front of what is left, and where it ends is fixed by the first mark, quote or line
break that can end it. Masking is read off the decomposition character by character.
-/

namespace Gloss.Mask

variable {mode : Mode} {body rest rest' : Text} {closed closed' : Bool}

/-- A text around a mark contains it. -/
theorem contains_append (before mark behind : Text) :
    Text.contains mark (before ++ (mark ++ behind)) = true := by
  have hfront (t : Text) : Text.contains mark (mark ++ t) = true := by
    have hafter : Text.after? mark (mark ++ t) = some t := Text.after?_eq_some_iff.mpr rfl
    cases hm : mark ++ t with
    | nil =>
      rw [(List.append_eq_nil_iff.mp hm).1]
      rfl
    | cons c u => rw [Text.contains, ← hm, hafter, Option.isSome_some, Bool.true_or]
  induction before with
  | nil => exact hfront behind
  | cons c before ih => rw [List.cons_append, Text.contains, ih, Bool.or_true]

/-- A literal is left at the first line break or unescaped quote, whatever follows. -/
theorem escapeAfter?_append (quote : Char) (escaped : Bool) (s t : Text) :
    escapeAfter? quote escaped (s ++ t) =
      (escapeAfter? quote escaped s).bind fun e => escapeAfter? quote e t := by
  induction s generalizing escaped with
  | nil => rfl
  | cons c s ih =>
    rw [List.cons_append, escapeAfter?, escapeAfter?]
    by_cases hbreak : isLineBreak c = true
    · rw [if_pos hbreak, if_pos hbreak]
      rfl
    · rw [if_neg hbreak, if_neg hbreak, ih, ih]
      split
      · rfl
      · split
        · rfl
        · split <;> rfl

/-- Neither a line break nor an unescaped quote stands in the body of a literal. -/
theorem Extends.escapeAfter?_ne_none {quote : Char} {escaped : Bool}
    (h : Extends (.quoted quote escaped) body closed rest) :
    escapeAfter? quote escaped body ≠ none := by
  cases h with
  | marked kind | unmarked kind => exact absurd kind (by simp [Mode.isMarked])
  | closed _ free =>
    rw [free]
    simp
  | cut unquoted =>
    rw [unquoted]
    simp

/-- A literal does not go on behind an unescaped quote. -/
theorem escapeAfter?_append_quote {quote : Char} {escaped : Bool} (kind : isQuote quote = true)
    (free : escapeAfter? quote escaped body = some false) (u : Text) :
    escapeAfter? quote escaped (body ++ quote :: u) = none := by
  have hquote : isLineBreak quote = false ∧ quote ≠ '\\' := by
    rcases isQuote_iff.mp kind with rfl | rfl <;> decide
  rw [escapeAfter?_append, free, Option.bind_some, escapeAfter?, if_neg (by simp [hquote.1]),
    if_neg (by simp), if_neg hquote.2, if_pos rfl]

/-- Nor does it behind a line break. -/
theorem escapeAfter?_append_break {c : Char} (quote : Char) (escaped : Bool)
    (hc : isLineBreak c = true) (body u : Text) :
    escapeAfter? quote escaped (body ++ c :: u) = none := by
  rw [escapeAfter?_append]
  cases escapeAfter? quote escaped body with
  | none => rfl
  | some e => rw [Option.bind_some, escapeAfter?, if_pos hc]

/-- The mark that closes a block comment or a text block is its beginning and one character. -/
theorem Mode.exists_closer_eq (kind : mode.isMarked = true) :
    ∃ last, mode.closer = mode.closer.dropLast ++ [last] := by
  cases mode with
  | code | lineComment | quoted => exact absurd kind (by simp [Mode.isMarked])
  | blockComment => exact ⟨'/', rfl⟩
  | textBlock => exact ⟨'"', rfl⟩

/-- Where a region ends, no longer body of the same region can go on: the first one's closing mark
would stand within the longer body and one character less than a mark behind it. -/
theorem Extends.not_longer {c : Char} {u : Text} (h : Extends mode body closed rest)
    (h' : Extends mode (body ++ c :: u) closed' rest') :
    Region.closing mode closed ++ rest ≠ c :: (u ++ (Region.closing mode closed' ++ rest')) := by
  intro he
  cases h with
  | line unbroken edge =>
    obtain rfl : rest = _ := he
    cases h' with
    | line unbroken' edge' =>
      have hc := unbroken' c (List.mem_append_right _ List.mem_cons_self)
      rw [show isLineBreak c = true from edge] at hc
      cases hc
    | marked kind | unmarked kind => exact absurd kind (by simp [Mode.isMarked])
  | marked kind first =>
    rw [Region.closing, if_pos rfl] at he
    cases h' with
    | line | closed | cut => exact absurd kind (by simp [Mode.isMarked])
    | marked _ first' =>
      obtain ⟨last, hlast⟩ := Mode.exists_closer_eq kind
      have hsplit : mode.closer ++ rest =
          (c :: u ++ mode.closer.dropLast) ++ (last :: rest') := by
        rw [he, Region.closing, if_pos rfl, List.cons_append, List.cons_append,
          List.append_assoc, ← List.singleton_append (x := last), ← List.append_assoc _ [last],
          ← hlast]
      have hlen : mode.closer.length ≤ (c :: u ++ mode.closer.dropLast).length := by
        simp only [List.length_append, List.length_cons, List.length_dropLast]
        omega
      obtain ⟨more, hmore⟩ := List.prefix_of_prefix_length_le
        (List.prefix_append mode.closer rest) ⟨_, hsplit.symm⟩ hlen
      rw [List.append_assoc, ← hmore, contains_append] at first'
      cases first'
    | unmarked _ never =>
      rw [Region.closing, if_neg (by simp), List.append_nil, List.append_nil] at he
      rw [← he, contains_append] at never
      cases never
  | unmarked kind never => exact absurd he (by simp [Region.closing])
  | closed kind free =>
    obtain ⟨rfl, -⟩ : _ = c ∧ _ := List.cons.inj he
    exact h'.escapeAfter?_ne_none (escapeAfter?_append_quote kind free u)
  | cut unquoted edge =>
    obtain rfl : rest = _ := he
    exact h'.escapeAfter?_ne_none (escapeAfter?_append_break _ _ edge _ _)

/-- Whether a region is closed is seen behind its body, as a closing mark is neither a line break
nor the end of the text. -/
theorem Extends.closed_unique (h : Extends mode body closed rest)
    (h' : Extends mode body closed' rest')
    (he : Region.closing mode closed ++ rest = Region.closing mode closed' ++ rest') :
    closed = closed' := by
  have hmark (s : Text) (quote : Char) (kind : isQuote quote = true)
      (edge : (quote :: s).head?.all isLineBreak = true) : False := by
    rw [isQuote_iff] at kind
    rcases kind with rfl | rfl <;> exact absurd edge (by simp [isLineBreak])
  have hnonempty (s : Text) (kind : mode.isMarked = true) : mode.closer ++ s ≠ [] := by
    cases mode with
    | code | lineComment | quoted => exact absurd kind (by simp [Mode.isMarked])
    | blockComment | textBlock => simp [Mode.closer]
  cases h with
  | line =>
    cases h' with
    | line => rfl
    | marked kind | unmarked kind => exact absurd kind (by simp [Mode.isMarked])
  | marked kind =>
    cases h' with
    | line | closed | cut => exact absurd kind (by simp [Mode.isMarked])
    | marked => rfl
    | unmarked => exact absurd he (hnonempty rest kind)
  | unmarked kind =>
    cases h' with
    | line | closed | cut => exact absurd kind (by simp [Mode.isMarked])
    | marked => exact absurd he.symm (hnonempty rest' kind)
    | unmarked => rfl
  | closed kind free =>
    cases h' with
    | marked kind' | unmarked kind' => exact absurd kind' (by simp [Mode.isMarked])
    | closed => rfl
    | cut unquoted edge =>
      obtain rfl : _ = rest' := he
      exact (hmark rest _ kind edge).elim
  | cut unquoted edge =>
    cases h' with
    | marked kind' | unmarked kind' => exact absurd kind' (by simp [Mode.isMarked])
    | closed kind free =>
      obtain rfl : rest = _ := he
      exact (hmark rest' _ kind edge).elim
    | cut => rfl

/-- The text behind an opening mark fixes how far the region runs and whether it is closed. -/
theorem Extends.unique {body' : Text} (h : Extends mode body closed rest)
    (h' : Extends mode body' closed' rest')
    (he : body ++ (Region.closing mode closed ++ rest) =
      body' ++ (Region.closing mode closed' ++ rest')) :
    body = body' ∧ closed = closed' := by
  have hbody : body = body' := by
    rcases List.append_eq_append_iff.mp he with ⟨u, rfl, hu⟩ | ⟨u, rfl, hu⟩
    · cases u with
      | nil => rw [List.append_nil]
      | cons c u => exact absurd hu (h.not_longer h')
    · cases u with
      | nil => rw [List.append_nil]
      | cons c u => exact absurd hu (h'.not_longer h)
  subst hbody
  exact ⟨rfl, h.closed_unique h' (List.append_cancel_left he)⟩

/-- A source is decomposed in one way only. -/
theorem Lexed.unique {rs rs' : List Region} (h : Lexed rs) (h' : Lexed rs')
    (he : flatten rs = flatten rs') : rs = rs' := by
  induction h generalizing rs' with
  | nil =>
    cases h' with
    | nil => rfl
    | plain => exact absurd he (by simp [Region.text])
    | masked opens => exact absurd opens (by rw [← he]; simp [opening?])
  | @plain c rs opens tail ih =>
    cases h' with
    | nil => exact absurd he (by simp [Region.text])
    | @plain d rs' _ tail' =>
      obtain ⟨rfl, hrest⟩ := List.cons.inj (show c :: flatten rs = d :: flatten rs' from he)
      rw [ih tail' hrest]
    | masked opens' =>
      rw [← he] at opens'
      exact absurd (opens.symm.trans opens') (by simp)
  | @masked mode body closed rs opens runs tail ih =>
    cases h' with
    | nil => exact absurd opens (by rw [he]; simp [opening?])
    | plain opens' =>
      rw [he] at opens
      exact absurd (opens'.symm.trans opens) (by simp)
    | @masked mode' body' closed' rs' opens' runs' tail' =>
      obtain rfl : mode = mode' := by
        rw [he, opens'] at opens
        exact (Option.some.inj opens).symm
      have hbehind : body ++ (Region.closing mode closed ++ flatten rs) =
          body' ++ (Region.closing mode closed' ++ flatten rs') := by
        simpa only [flatten_cons, Region.text, List.append_assoc, List.append_cancel_left_eq]
          using he
      obtain ⟨rfl, rfl⟩ := runs.unique runs' hbehind
      rw [ih tail' (List.append_cancel_left (List.append_cancel_left hbehind))]

/-- What masking shows at an offset is what it makes of that character in its region. -/
theorem Lexed.getElem?_mask {rs : List Region} (h : Lexed rs) (o : Nat) :
    (¬ (InComment rs o ∨ InLiteral rs o) → (mask (flatten rs))[o]? = (flatten rs)[o]?) ∧
      (InComment rs o ∨ InLiteral rs o →
        (mask (flatten rs))[o]? = (flatten rs)[o]?.map blank) := by
  by_cases hlt : o < (flatten rs).length
  · obtain ⟨r, hr⟩ := exists_regionAt?_of_lt hlt
    obtain ⟨start, hle, hbound, hall⟩ := exists_start_of_regionAt?_eq_some hr
    obtain ⟨-, htext, hblanked⟩ := hall (o - start) (by omega)
    rw [show start + (o - start) = o by omega] at htext hblanked
    rw [mask, maskFrom_flatten h, hblanked, htext]
    cases r with
    | plain c =>
      refine ⟨fun _ => rfl, ?_⟩
      rintro (⟨r, hr', hmasked⟩ | ⟨r, hr', hmasked⟩) <;>
      · obtain rfl := Option.some.inj (hr.symm.trans hr')
        exact absurd hmasked (by simp [Region.isComment, Region.isLiteral])
    | masked mode body closed =>
      refine ⟨fun hplain => absurd ?_ hplain, fun _ => List.getElem?_map⟩
      cases hmode : mode.isLiteral with
      | true => exact Or.inr ⟨_, hr, hmode⟩
      | false => exact Or.inl ⟨_, hr, by rw [Region.isComment, hmode, Bool.not_false]⟩
  · have hnone : (flatten rs)[o]? = none := List.getElem?_eq_none (by omega)
    have hmask : (mask (flatten rs))[o]? = none :=
      List.getElem?_eq_none (by rw [length_mask]; omega)
    rw [hnone, hmask]
    exact ⟨fun _ => rfl, fun _ => rfl⟩

/-- Every text has exactly one decomposition into plain characters, comments and literals.
Masking replaces the characters of its comments and literals by spaces, line breaks aside, and
leaves all else, so the length and the line breaks stay. -/
theorem mask_eq_blanked (t : Text) :
    ∃ rs, Lexed rs ∧ flatten rs = t ∧ (∀ rs', Lexed rs' → flatten rs' = t → rs' = rs) ∧
      mask t = rs.flatMap Region.blanked ∧
      (∀ o : Nat, ¬ (InComment rs o ∨ InLiteral rs o) → (mask t)[o]? = t[o]?) ∧
      (∀ o : Nat, InComment rs o ∨ InLiteral rs o →
        (mask t)[o]? = t[o]?.map fun c => if isLineBreak c then c else ' ') ∧
      (mask t).length = t.length ∧
      ∀ (o : Nat) (c : Char), isLineBreak c = true → ((mask t)[o]? = some c ↔ t[o]? = some c) := by
  obtain ⟨rs, hrs, rfl⟩ := exists_lexed t
  refine ⟨rs, hrs, rfl, fun rs' hrs' he => hrs'.unique hrs he, maskFrom_flatten hrs,
    fun o => (hrs.getElem?_mask o).1, fun o => (hrs.getElem?_mask o).2, length_mask _, ?_⟩
  intro o c hc
  by_cases hmasked : InComment rs o ∨ InLiteral rs o
  · rw [(hrs.getElem?_mask o).2 hmasked]
    cases (flatten rs)[o]? with
    | none => simp
    | some d =>
      rw [Option.map_some, Option.some.injEq, Option.some.injEq, blank]
      split
      · rfl
      · rename_i hd
        constructor
        · rintro rfl
          exact absurd hc (by decide)
        · rintro rfl
          exact absurd hc hd
  · rw [(hrs.getElem?_mask o).1 hmasked]

end Gloss.Mask
