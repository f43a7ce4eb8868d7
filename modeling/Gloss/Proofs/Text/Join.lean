import Gloss.Text.Basic

/-!
# Joining and splitting

Joining puts one separator between neighbours. Splitting at a character and joining again
gives the text back, and joining parts without that character and splitting again gives the
parts back.
-/

namespace Gloss.Text

variable {sep s t : Text} {ss : List Text}

@[simp] theorem join_singleton : join sep [s] = s := List.intercalate_singleton

@[simp] theorem join_cons_cons : join sep (s :: t :: ss) = s ++ (sep ++ join sep (t :: ss)) := by
  rw [join, List.intercalate_cons_cons, List.append_assoc]
  rfl

/-- Each text but the first stands behind a separator. -/
theorem join_cons : join sep (s :: ss) = s ++ ss.flatMap (sep ++ ·) := by
  induction ss generalizing s with
  | nil => rw [join_singleton, List.flatMap_nil, List.append_nil]
  | cons t ss ih => rw [join_cons_cons, ih, List.flatMap_cons, List.append_assoc]

/-- Joining two lists of parts puts one separator between what they are joined to. -/
theorem join_append {ts : List Text} (hs : ss ≠ []) (ht : ts ≠ []) :
    join sep (ss ++ ts) = join sep ss ++ (sep ++ join sep ts) := by
  obtain ⟨s, ss, rfl⟩ := List.exists_cons_of_ne_nil hs
  obtain ⟨t, ts, rfl⟩ := List.exists_cons_of_ne_nil ht
  rw [List.cons_append, join_cons, join_cons, join_cons, List.flatMap_append, List.flatMap_cons]
  simp only [List.append_assoc]

/-- Splitting loses nothing but the separators. -/
theorem join_splitAt (c : Char) (t : Text) : join [c] (splitAt c t) = t := by
  induction t with
  | nil => rfl
  | cons d t ih =>
    rw [splitAt]
    split
    · rename_i hd
      cases hp : splitAt c t with
      | nil => exact absurd hp (splitAt_ne_nil c t)
      | cons part parts => rw [join_cons_cons, ← hp, ih, hd]; rfl
    · split
      · rename_i hp
        exact absurd hp (splitAt_ne_nil c t)
      · rename_i part parts hp
        rw [join_cons, List.cons_append, ← join_cons, ← hp, ih]

/-- If a list of parts ends with those of a text, what it is joined to is that text or ends with it
behind a separator. -/
theorem join_of_splitAt_suffix {c : Char} (h : splitAt c t <:+ ss) :
    join [c] ss = t ∨ c :: t <:+ join [c] ss := by
  obtain ⟨front, rfl⟩ := h
  by_cases hfront : front = []
  · rw [hfront, List.nil_append, join_splitAt]
    exact .inl rfl
  · rw [join_append hfront (splitAt_ne_nil c t), join_splitAt]
    exact .inr (List.suffix_append _ _)

/-- A text without separators is its own only part. -/
theorem splitAt_of_not_mem {c : Char} (h : c ∉ t) : splitAt c t = [t] := by
  induction t with
  | nil => rfl
  | cons d t ih =>
    obtain ⟨hd, ht⟩ := not_or.mp fun hm => h (List.mem_cons.mpr hm)
    rw [splitAt, if_neg (Ne.symm hd), ih ht]

/-- The first part ends at the first separator. -/
theorem splitAt_append_cons {c : Char} (h : c ∉ s) (t : Text) :
    splitAt c (s ++ c :: t) = s :: splitAt c t := by
  induction s with
  | nil => rw [List.nil_append, splitAt, if_pos rfl]
  | cons d s ih =>
    obtain ⟨hd, hs⟩ := not_or.mp fun hm => h (List.mem_cons.mpr hm)
    rw [List.cons_append, splitAt, if_neg (Ne.symm hd), ih hs]

/-- Parts without the separator are read back from the joined text. -/
theorem splitAt_join {c : Char} (hne : ss ≠ []) (h : ∀ s ∈ ss, c ∉ s) :
    splitAt c (join [c] ss) = ss := by
  induction ss with
  | nil => exact absurd rfl hne
  | cons s ss ih =>
    obtain ⟨hs, hss⟩ := List.forall_mem_cons.mp h
    cases ss with
    | nil => rw [join_singleton, splitAt_of_not_mem hs]
    | cons t ss =>
      rw [join_cons_cons, List.cons_append, List.nil_append, splitAt_append_cons hs,
        ih (by simp) hss]

/-- What stands in a joined text stands in a part or in the separator. -/
theorem mem_join {c : Char} (h : c ∈ join sep ss) : c ∈ sep ∨ ∃ s ∈ ss, c ∈ s := by
  cases ss with
  | nil => exact absurd h List.not_mem_nil
  | cons s ss =>
    rw [join_cons, List.mem_append, List.mem_flatMap] at h
    rcases h with h | ⟨t, ht, h⟩
    · exact Or.inr ⟨s, List.mem_cons_self, h⟩
    · rcases List.mem_append.mp h with h | h
      · exact Or.inl h
      · exact Or.inr ⟨t, List.mem_cons_of_mem s ht, h⟩

end Gloss.Text
