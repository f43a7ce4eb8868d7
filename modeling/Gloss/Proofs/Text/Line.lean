import Gloss.Text.Line

/-!
# Slices and lines

A slice of a concatenation is made of slices of its parts. Each line of a text is a slice of
it, so a text is cut into lines by the offsets and lengths of its lines alone.
-/

namespace Gloss.Text

section Slice

variable (s t : Text) (n m : Nat)

/-- A slice of two texts in a row consists of one of each. -/
theorem slice_append :
    slice (s ++ t) n m = slice s n m ++ slice t (n - s.length) (m - s.length) := by
  rw [slice, slice, slice, List.take_append, List.drop_append, List.length_take]
  rcases Nat.le_total m s.length with h | h
  · rw [Nat.sub_eq_zero_of_le h, List.take_zero, List.drop_nil, List.drop_nil]
  · rw [Nat.min_eq_right h]

theorem length_slice : (slice t n m).length = min m t.length - n := by
  rw [slice, List.length_drop, List.length_take]

/-- A slice of a slice, up to the end of the inner one, is a slice of the whole. -/
theorem slice_slice {a b : Nat} (h : n + b ≤ m) :
    slice (slice t n m) a b = slice t (n + a) (n + b) := by
  rw [slice, slice, slice, List.take_drop, List.take_take, Nat.min_eq_left h, List.drop_drop]

/-- A slice of the end of a text is one of the text, further behind. -/
theorem slice_drop (a b : Nat) : slice (t.drop n) a b = slice t (n + a) (n + b) := by
  rw [slice, slice, List.take_drop, List.drop_drop]

/-- A text from an offset on goes through any later one. -/
theorem slice_append_drop (h : n ≤ m) : slice t n m ++ t.drop m = t.drop n := by
  have hdrop : t.drop m = (t.drop n).drop (m - n) := by
    rw [List.drop_drop, Nat.add_sub_cancel' h]
  rw [slice, List.drop_take, hdrop, List.take_append_drop]

/-- A slice that ends before a text does is a slice of any longer one. -/
theorem slice_append_of_le (h : m ≤ s.length) : slice (s ++ t) n m = slice s n m := by
  rw [slice, slice, List.take_append_of_le_length h]

/-- A slice that begins behind a text is a slice of what follows it. -/
theorem slice_append_of_length_le (h : s.length ≤ n) :
    slice (s ++ t) n m = slice t (n - s.length) (m - s.length) := by
  rw [slice_append, List.append_left_eq_self, ← List.length_eq_zero_iff, length_slice]
  omega

/-- A slice begins with the character at its first offset. -/
theorem head?_slice (h : n < m) : (slice t n m).head? = t[n]? := by
  rw [slice, List.head?_drop, List.getElem?_take_of_lt h]

/-- What a text has at an offset is a slice of it. -/
theorem slice_of_drop_eq {t u v : Text} {n : Nat} (h : t.drop n = u ++ v) :
    slice t n (n + u.length) = u ∧ t.drop (n + u.length) = v := by
  constructor
  · rw [slice, List.drop_take, Nat.add_sub_cancel_left, h, List.take_left]
  · rw [← List.drop_drop, h, List.drop_left]

/-- The characters of a slice are those of the text. -/
theorem getElem?_slice {i : Nat} (h : n + i < m) : (slice t n m)[i]? = t[n + i]? := by
  rw [slice, List.getElem?_drop, List.getElem?_take_of_lt h]

/-- What is sliced stands in the text. -/
theorem slice_isInfix : slice t n m <:+: t :=
  (List.drop_suffix n _).isInfix.trans (List.take_prefix m t).isInfix

end Slice

section Lines

variable {t : Text}

/-- The offset and the length of each line of a text. -/
def lineSpans (t : Text) : List (Nat × Nat) := t.lines.map fun l => (l.1, l.2.length)

/-- Laid out behind a text, lines are slices of all that is laid out. -/
theorem slice_of_mem_placeLines (before : Text) {bs : List (Text × Text)} {n : Nat} {line : Text}
    (h : (n, line) ∈ placeLines before.length bs) :
    slice (before ++ bs.flatMap fun (line, brk) => line ++ brk) n (n + line.length) = line := by
  induction bs generalizing before with
  | nil => exact absurd h List.not_mem_nil
  | cons b bs ih =>
    obtain ⟨first, brk⟩ := b
    rw [List.flatMap_cons, List.append_assoc]
    rcases List.mem_cons.mp h with h | h
    · obtain ⟨rfl, rfl⟩ := Prod.mk.inj h
      rw [slice_append_of_length_le _ _ _ _ (Nat.le_refl _), Nat.sub_self, Nat.add_sub_cancel_left,
        slice_append_of_le _ _ _ _ (Nat.le_refl _), slice, List.take_length, List.drop_zero]
    · rw [← List.append_assoc, ← List.append_assoc]
      refine ih _ ?_
      rwa [List.length_append, List.length_append]

/-- A line stands in the text from its start on. -/
theorem slice_of_mem_lines {n : Nat} {line : Text} (h : (n, line) ∈ t.lines) :
    t.slice n (n + line.length) = line := by
  have hslice := slice_of_mem_placeLines [] h
  rwa [flatMap_brokenLines, List.nil_append] at hslice

/-- The lines of a text are its slices between the ends of its lines. -/
theorem lines_eq_map_slice (t : Text) :
    t.lines = t.lineSpans.map fun (n, k) => (n, t.slice n (n + k)) := by
  rw [lineSpans, List.map_map]
  refine (List.map_id _).symm.trans (List.map_congr_left ?_)
  intro l hl
  exact Prod.ext rfl (slice_of_mem_lines hl).symm

end Lines

section Break

variable (t : Text) (k n : Nat)

/-- In a text that begins later all lines start later. -/
theorem startsFrom_add : startsFrom (n + k) t = (startsFrom n t).map (· + k) := by
  fun_induction startsFrom n t with
  | case1 => rfl
  | case2 n t ih =>
    rw [startsFrom, Nat.add_right_comm, ih, List.map_cons]
  | case3 n c t hpair hbreak ih =>
    rw [startsFrom, if_pos hbreak, Nat.add_right_comm, ih, List.map_cons]
    exact hpair
  | case4 n c t hpair hbreak ih =>
    rw [startsFrom, if_neg hbreak, Nat.add_right_comm, ih]
    exact hpair

/-- A line feed in front of a text is a line of its own. -/
theorem lineStarts_cons_break : lineStarts ('\n' :: t) = 0 :: (lineStarts t).map (· + 1) := by
  change 0 :: 1 :: startsFrom (0 + 1) t = _
  rw [startsFrom_add]
  rfl

/-- A line feed in front makes an empty line and moves the others. -/
theorem lines_cons_break :
    lines ('\n' :: t) = (0, []) :: t.lines.map fun (n, line) => (n + 1, line) := by
  have hplace (start : Nat) (bs : List (Text × Text)) : placeLines (start + 1) bs =
      (placeLines start bs).map fun (n, line) => (n + 1, line) := by
    induction bs generalizing start with
    | nil => rfl
    | cons b bs ih =>
      obtain ⟨line, brk⟩ := b
      rw [placeLines, placeLines, List.map_cons, ← ih]
      congr 2
      omega
  exact congrArg ((0, []) :: ·) (hplace 0 (brokenLines t))

/-- A slice that begins behind the first character is a slice of what follows it. -/
theorem slice_cons (c : Char) (m : Nat) : slice (c :: t) (n + 1) (m + 1) = slice t n m := rfl

end Break

/-- The line that an offset stands in: the first one that ends behind the offset. -/
def lineAt? (t : Text) (offset : Nat) : Option (Nat × Text) :=
  t.lines.find? fun (n, line) => offset < n + line.length

/-- A line that is laid out later begins where an earlier one ended, or behind that. -/
theorem le_of_mem_placeLines {start n : Nat} {bs : List (Text × Text)} {line : Text}
    (h : (n, line) ∈ placeLines start bs) : start ≤ n := by
  induction bs generalizing start with
  | nil => exact absurd h List.not_mem_nil
  | cons b bs ih =>
    rcases List.mem_cons.mp h with h | h
    · exact Nat.le_of_eq (Prod.mk.inj h).1.symm
    · have := ih h
      omega

/-- The line of an offset is the first one that ends behind it. -/
theorem find?_placeLines {start n i : Nat} {bs : List (Text × Text)} {line : Text}
    (h : (n, line) ∈ placeLines start bs) (hi : i < line.length) :
    (placeLines start bs).find? (fun (n', line') => n + i < n' + line'.length) =
      some (n, line) := by
  induction bs generalizing start with
  | nil => exact absurd h List.not_mem_nil
  | cons b bs ih =>
    obtain ⟨first, brk⟩ := b
    rcases List.mem_cons.mp h with h | h
    · obtain ⟨rfl, rfl⟩ := Prod.mk.inj h
      rw [placeLines, List.find?_cons_of_pos (by simpa using hi)]
    · have hle := le_of_mem_placeLines h
      rw [placeLines, List.find?_cons_of_neg (by simp only [decide_eq_true_eq]; omega)]
      exact ih h

/-- Laid out lines do not overlap, and stand in order. -/
theorem pairwise_placeLines (start : Nat) (bs : List (Text × Text)) :
    (placeLines start bs).Pairwise fun l l' => l.1 + l.2.length ≤ l'.1 := by
  induction bs generalizing start with
  | nil => exact .nil
  | cons b bs ih =>
    obtain ⟨line, brk⟩ := b
    refine .cons (fun l hl => ?_) (ih _)
    have hle := le_of_mem_placeLines hl
    change start + line.length ≤ l.1
    omega

/-- The lines of a text do not overlap, and stand in order. -/
theorem pairwise_lines (t : Text) :
    t.lines.Pairwise fun l l' => l.1 + l.2.length ≤ l'.1 :=
  pairwise_placeLines 0 (brokenLines t)

/-- No line holds a line break. -/
theorem unbroken_of_mem_brokenLines {t : Text} {b : Text × Text} (h : b ∈ brokenLines t) :
    ∀ c ∈ b.1, isLineBreak c = false := by
  fun_induction brokenLines t generalizing b with
  | case1 =>
    rw [List.mem_singleton.mp h]
    exact fun c hc => absurd hc List.not_mem_nil
  | case2 t ih | case3 _ t _ _ ih =>
    rcases List.mem_cons.mp h with rfl | h
    · exact fun c hc => absurd hc List.not_mem_nil
    · exact ih h
  | case4 c t _ _ hnil => exact absurd hnil (brokenLines_ne_nil t)
  | case5 c t _ hbreak line brk more hmore ih =>
    rw [hmore] at ih
    rcases List.mem_cons.mp h with rfl | h
    · exact List.forall_mem_cons.mpr ⟨Bool.eq_false_iff.mpr hbreak, ih List.mem_cons_self⟩
    · exact ih (List.mem_cons_of_mem _ h)

/-- Each placed line is one of those that were to be placed. -/
theorem mem_of_mem_placeLines {start n : Nat} {bs : List (Text × Text)} {line : Text}
    (h : (n, line) ∈ placeLines start bs) : ∃ brk, (line, brk) ∈ bs := by
  induction bs generalizing start with
  | nil => exact absurd h List.not_mem_nil
  | cons b bs ih =>
    obtain ⟨first, brk⟩ := b
    rcases List.mem_cons.mp h with h | h
    · obtain ⟨rfl, rfl⟩ := Prod.mk.inj h
      exact ⟨brk, List.mem_cons_self⟩
    · obtain ⟨brk', hmem⟩ := ih h
      exact ⟨brk', List.mem_cons_of_mem _ hmem⟩

/-- A line holds no break. -/
theorem unbroken_of_mem_lines {t line : Text} {n : Nat} (h : (n, line) ∈ t.lines) :
    ∀ c ∈ line, isLineBreak c = false := by
  obtain ⟨brk, hmem⟩ := mem_of_mem_placeLines h
  exact unbroken_of_mem_brokenLines hmem

/-- The line at an offset of a line is that line. -/
theorem lineAt?_of_mem_lines {t line : Text} {n i : Nat} (h : (n, line) ∈ t.lines)
    (hi : i < line.length) : t.lineAt? (n + i) = some (n, line) :=
  find?_placeLines h hi

end Gloss.Text
