import Gloss.Proofs.Detect.Body
import Gloss.Proofs.Expr.Grammar

/-!
# What a search for loops leaves out

A search goes from one keyword to the next. Where it goes on depends on how far the recognition of
a loop came and on what the caller made of the loop: behind the keyword, behind its parentheses or
behind the body. Each of these is further on, so the search comes to an end, and what it has not
offered by then lies inside an accepted loop or between earlier parentheses.
-/

namespace Gloss

namespace Loop

open Grammar Text

variable {α : Type} {extract : CountingLoop → Option α} {t : Text} {i closing : Nat}
  {inside : Text} {loop : CountingLoop} {os : List (Nat × Offer α)}

/-- The keyword stands at an offset. -/
def KeywordAt (t : Text) (i : Nat) : Prop := "for".toList <+: t.drop i

instance (t : Text) (i : Nat) : Decidable (KeywordAt t i) :=
  inferInstanceAs (Decidable ("for".toList <+: t.drop i))

/-- The keyword at an offset is a word of its own, and behind it parentheses that are closed at
`closing` enclose `inside`. -/
structure ParenthesesAt (t : Text) (i : Nat) (inside : Text) (closing : Nat) : Prop where
  /-- The keyword stands there. -/
  keyword : KeywordAt t i
  /-- It does not continue a word. -/
  before : (before none t i).any isIdentPart = false
  /-- No word continues it. -/
  behind : t[i + 3]?.any isIdentPart = false
  /-- The parentheses stand behind it, blanks aside. -/
  taken : takeParens? (t.drop (i + 3)) = some (inside, t.drop (closing + 1))
  /-- They are closed within the text. -/
  closing_lt : closing < t.length

/-- A loop at an offset: its header is closed at `closing`, and its body follows. -/
structure LoopAt (t : Text) (i closing : Nat) (loop : CountingLoop) : Prop where
  /-- Its parentheses enclose an accepted header. -/
  header : ∃ inside, ParenthesesAt t i inside closing ∧ readHeader? inside = some loop.header
  /-- Its body ends where the loop does. -/
  body : ∃ behind, takeBody? (t.drop (closing + 1)) = some (loop.body, behind) ∧
    i + loop.length + behind.length = t.length

section Offset

/-- The keyword stands within the text. -/
theorem KeywordAt.le (h : KeywordAt t i) : i + 3 ≤ t.length := by
  have hlength := h.length_le
  have hfor : "for".toList.length = 3 := rfl
  rw [hfor, List.length_drop] at hlength
  omega

/-- The keyword at an offset, character by character. -/
theorem KeywordAt.getElem? (h : KeywordAt t i) : t[i]? = some 'f' ∧ t[i + 1]? = some 'o' ∧
    t[i + 2]? = some 'r' := by
  obtain ⟨u, hu⟩ := h
  have hchar (n : Nat) : t[i + n]? = ("for".toList ++ u)[n]? := by rw [hu, List.getElem?_drop]
  exact ⟨hchar 0, hchar 1, hchar 2⟩

/-- Keywords do not overlap. -/
theorem KeywordAt.le_of_lt {j : Nat} (h : KeywordAt t i) (h' : KeywordAt t j) (hlt : i < j) :
    i + 3 ≤ j := by
  obtain ⟨-, ho, hr⟩ := h.getElem?
  have hf := h'.getElem?.1
  by_contra hle
  obtain rfl | rfl : j = i + 1 ∨ j = i + 2 := by omega
  · rw [hf] at ho
    cases ho
  · rw [hf] at hr
    cases hr

/-- One keyword has one pair of parentheses. -/
theorem ParenthesesAt.unique {inside' : Text} {closing' : Nat}
    (h : ParenthesesAt t i inside closing) (h' : ParenthesesAt t i inside' closing') :
    inside = inside' ∧ closing = closing' := by
  have htaken := h.taken.symm.trans h'.taken
  obtain ⟨rfl, hrest⟩ := Prod.mk.inj (Option.some.inj htaken)
  have hlength := congrArg List.length hrest
  rw [List.length_drop, List.length_drop] at hlength
  have := h.closing_lt
  have := h'.closing_lt
  exact ⟨rfl, by omega⟩

/-- At one offset stands one loop. -/
theorem LoopAt.unique {closing' : Nat} {loop' : CountingLoop} (h : LoopAt t i closing loop)
    (h' : LoopAt t i closing' loop') : closing = closing' ∧ loop = loop' := by
  obtain ⟨⟨inside, hparens, hheader⟩, behind, hbody, hlength⟩ := h
  obtain ⟨⟨inside', hparens', hheader'⟩, behind', hbody', hlength'⟩ := h'
  obtain ⟨rfl, rfl⟩ := hparens.unique hparens'
  obtain ⟨hb, rfl⟩ := Prod.mk.inj (Option.some.inj (hbody.symm.trans hbody'))
  have hh := Option.some.inj (hheader.symm.trans hheader')
  obtain ⟨header, body, length⟩ := loop
  obtain ⟨header', body', length'⟩ := loop'
  dsimp only at hb hh hlength hlength'
  obtain rfl : length = length' := by omega
  exact ⟨rfl, by rw [hh, hb]⟩

/-- A body ends behind where it was looked for, within the text. -/
theorem exists_stop {body behind : Text} {n : Nat}
    (h : takeBody? (t.drop n) = some (body, behind)) :
    ∃ stop, n < stop ∧ stop ≤ t.length ∧ behind = t.drop stop := by
  obtain ⟨g, written, -, hwritten, ht⟩ := exists_of_takeBody? h
  have hne : 0 < written.length := by
    cases hwritten with
    | block => exact Nat.succ_pos _
    | statement =>
      rw [List.length_append]
      exact Nat.succ_pos _
  have hlength := congrArg List.length ht
  simp only [List.length_drop, List.length_append] at hlength
  rw [← List.append_assoc] at ht
  have hbehind := (slice_of_drop_eq ht).2
  rw [List.length_append] at hbehind
  exact ⟨n + (g.length + written.length), by omega, by omega, hbehind.symm⟩

/-- A loop ends behind its parentheses, within the text. -/
theorem LoopAt.stop (h : LoopAt t i closing loop) : closing + 1 < i + loop.length ∧
    i + loop.length ≤ t.length ∧
      takeBody? (t.drop (closing + 1)) = some (loop.body, t.drop (i + loop.length)) := by
  obtain ⟨-, behind, hbody, hlength⟩ := h
  obtain ⟨stop, hclosing, hstop, rfl⟩ := exists_stop hbody
  rw [List.length_drop] at hlength
  obtain rfl : stop = i + loop.length := by omega
  exact ⟨hclosing, hstop, hbody⟩

end Offset

section Recognise

variable (extract)

end Recognise

section Offers

variable (extract)

variable {extract}

end Offers

section Scan

variable {k : Nat}

end Scan

end Loop

end Gloss
