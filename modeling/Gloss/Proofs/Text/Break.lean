import Gloss.Proofs.Occurrence
import Mathlib.Data.Nat.Count
import Mathlib.Data.Nat.Find
import Mathlib.Data.Prod.Lex

/-!
# Line breaks and positions

A carriage return and the line feed behind it break a line together, and each of them does so
alone. A position counts the breaks that end up to an offset and the characters behind the last of
them. So with each character it moves on by a column, or to the front of the next line, and never
stands still. The lines of a text begin where the text does and behind each break, and with the
breaks between them they make up the text.
-/

namespace Gloss

namespace Text

/-- A line break stands from offset `start` up to offset `stop`. -/
inductive BreakAt (t : Text) : (start stop : Nat) → Prop where
  /-- A carriage return and the line feed behind it. -/
  | pair {n : Nat} (first : t[n]? = some '\r') (second : t[n + 1]? = some '\n') :
    BreakAt t n (n + 2)
  /-- A carriage return alone. -/
  | carriageReturn {n : Nat} (only : t[n]? = some '\r') (behind : t[n + 1]? ≠ some '\n') :
    BreakAt t n (n + 1)
  /-- A line feed alone. -/
  | lineFeed {n : Nat} (only : t[n]? = some '\n') (before : before none t n ≠ some '\r') :
    BreakAt t n (n + 1)

/-- A line break ends at an offset. -/
def EndsBreak (t : Text) (stop : Nat) : Prop := ∃ start, t.BreakAt start stop

section EndsBreak

variable {t : Text} {n : Nat}

theorem not_endsBreak_zero (t : Text) : ¬ t.EndsBreak 0 := by
  rintro ⟨start, h⟩
  cases h

/-- A break ends behind each line feed, and behind each carriage return that none follows. -/
theorem endsBreak_succ_iff :
    t.EndsBreak (n + 1) ↔ t[n]? = some '\n' ∨ t[n]? = some '\r' ∧ t[n + 1]? ≠ some '\n' := by
  constructor
  · rintro ⟨start, h⟩
    cases h with
    | pair first second => exact .inl second
    | carriageReturn only behind => exact .inr ⟨only, behind⟩
    | lineFeed only before => exact .inl only
  · rintro (hfeed | ⟨hreturn, hbehind⟩)
    · by_cases hbefore : before none t n = some '\r'
      · cases n with
        | zero => cases hbefore
        | succ n => exact ⟨n, .pair hbefore hfeed⟩
      · exact ⟨n, .lineFeed hfeed hbefore⟩
    · exact ⟨n, .carriageReturn hreturn hbehind⟩

instance (t : Text) : DecidablePred t.EndsBreak
  | 0 => isFalse t.not_endsBreak_zero
  | _ + 1 => decidable_of_iff _ endsBreak_succ_iff.symm

theorem endsBreak_cons_succ {c : Char} : EndsBreak (c :: t) (n + 2) ↔ t.EndsBreak (n + 1) := by
  rw [endsBreak_succ_iff, endsBreak_succ_iff, List.getElem?_cons_succ, List.getElem?_cons_succ]

/-- A line break ends behind the first character if that is a line feed, or a carriage return
without one. -/
theorem endsBreak_cons_one {c : Char} :
    EndsBreak (c :: t) 1 ↔ c = '\n' ∨ c = '\r' ∧ t.head? ≠ some '\n' := by
  rw [endsBreak_succ_iff, List.getElem?_cons_zero, List.getElem?_cons_succ,
    ← List.head?_eq_getElem?, Option.some.injEq, Option.some.injEq]

/-- There is no line break in the empty text. -/
theorem endsBreak_nil : ¬ EndsBreak [] n := by
  cases n with
  | zero => exact not_endsBreak_zero []
  | succ n => simp [endsBreak_succ_iff]

end EndsBreak

section Starts

variable {t : Text} {n : Nat}

/-- Character by character, a line starts behind each break. -/
theorem startsFrom_cons (c : Char) : startsFrom n (c :: t) =
    if EndsBreak (c :: t) 1 then (n + 1) :: startsFrom (n + 1) t else startsFrom (n + 1) t := by
  by_cases hpair : c = '\r' ∧ t.head? = some '\n'
  · obtain ⟨rfl, hhead⟩ := hpair
    obtain ⟨t, rfl⟩ := List.head?_eq_some_iff.mp hhead
    have hnot : ¬ EndsBreak ('\r' :: '\n' :: t) 1 := by simp [endsBreak_cons_one]
    rw [if_neg hnot, startsFrom, startsFrom]
    · rfl
    · rintro _ h
      cases h
  · have hends : EndsBreak (c :: t) 1 ↔ isLineBreak c = true := by
      rw [endsBreak_cons_one, isLineBreak, Bool.or_eq_true, decide_eq_true_eq, decide_eq_true_eq]
      tauto
    rw [startsFrom]
    · simp only [hends]
    · rintro t rfl rfl
      exact hpair ⟨rfl, rfl⟩

/-- The line starts of a text that itself begins at offset `n` are the ends of its breaks. -/
theorem mem_startsFrom {j : Nat} :
    j ∈ startsFrom n t ↔ ∃ i, t.EndsBreak (i + 1) ∧ j = n + i + 1 := by
  induction t generalizing n with
  | nil => simp [startsFrom, endsBreak_nil]
  | cons c t ih =>
    have hrest : j ∈ startsFrom (n + 1) t ↔
        ∃ i, EndsBreak (c :: t) (i + 1 + 1) ∧ j = n + (i + 1) + 1 := by
      simp only [ih, endsBreak_cons_succ, Nat.add_right_comm, Nat.add_assoc]
    rw [startsFrom_cons, ← Nat.or_exists_add_one, ← hrest]
    split
    · rename_i h
      simp [h]
    · rename_i h
      simp [h]

/-- Starts of lines are found in order. -/
theorem pairwise_startsFrom (n : Nat) (t : Text) : (startsFrom n t).Pairwise (· < ·) := by
  induction t generalizing n with
  | nil => exact .nil
  | cons c t ih =>
    rw [startsFrom_cons]
    split
    · refine .cons (fun j hj => ?_) (ih _)
      obtain ⟨i, -, rfl⟩ := mem_startsFrom.mp hj
      omega
    · exact ih _

/-- The starts of lines are in order. -/
theorem pairwise_lineStarts (t : Text) : t.lineStarts.Pairwise (· < ·) := by
  refine .cons (fun j hj => ?_) (pairwise_startsFrom 0 t)
  obtain ⟨i, -, rfl⟩ := mem_startsFrom.mp hj
  omega

/-- A line other than the first starts where a break ends. -/
theorem succ_mem_lineStarts : n + 1 ∈ t.lineStarts ↔ t.EndsBreak (n + 1) := by
  simp [lineStarts, mem_startsFrom]

/-- The starts of the lines that have begun at an offset. -/
def startsUpTo (t : Text) (offset : Nat) : List Nat := t.lineStarts.takeWhile (· ≤ offset)

/-- Of numbers beyond a bound none is taken up to it. -/
theorem takeWhile_le_eq_nil {ns : List Nat} (h : ∀ m ∈ ns, n < m) :
    ns.takeWhile (· ≤ n) = [] := by
  cases ns with
  | nil => rfl
  | cons m ns => exact List.takeWhile_cons_of_neg (by simpa using h m List.mem_cons_self)

/-- In an increasing list, what is no greater than a number grows by that number's successor. -/
theorem takeWhile_le_succ {ns : List Nat} (h : ns.Pairwise (· < ·)) (n : Nat) :
    ns.takeWhile (· ≤ n + 1) =
      ns.takeWhile (· ≤ n) ++ if n + 1 ∈ ns then [n + 1] else [] := by
  induction ns with
  | nil => rfl
  | cons m ns ih =>
    obtain ⟨hm, hns⟩ := List.pairwise_cons.mp h
    rcases Nat.lt_trichotomy m (n + 1) with hlt | rfl | hgt
    · rw [List.takeWhile_cons_of_pos (by simp; omega), List.takeWhile_cons_of_pos (by simp; omega),
        ih hns, List.cons_append]
      simp [Nat.ne_of_gt hlt]
    · rw [List.takeWhile_cons_of_pos (by simp), takeWhile_le_eq_nil hm,
        List.takeWhile_cons_of_neg (by simp), if_pos List.mem_cons_self, List.nil_append]
    · have hall : ∀ k ∈ m :: ns, n + 1 < k :=
        List.forall_mem_cons.mpr ⟨hgt, fun k hk => Nat.lt_trans hgt (hm k hk)⟩
      rw [takeWhile_le_eq_nil hall, takeWhile_le_eq_nil fun k hk => Nat.lt_of_succ_lt (hall k hk),
        if_neg fun hmem => Nat.lt_irrefl _ (hall _ hmem), List.append_nil]

theorem startsUpTo_zero (t : Text) : t.startsUpTo 0 = [0] := by
  have hlater := (List.pairwise_cons.mp t.pairwise_lineStarts).1
  rw [startsUpTo, lineStarts, List.takeWhile_cons_of_pos (by simp), takeWhile_le_eq_nil hlater]

/-- One character later another line has begun if a line break ends there. -/
theorem startsUpTo_succ (t : Text) (n : Nat) : t.startsUpTo (n + 1) =
    t.startsUpTo n ++ if t.EndsBreak (n + 1) then [n + 1] else [] := by
  rw [startsUpTo, startsUpTo, takeWhile_le_succ t.pairwise_lineStarts]
  simp only [succ_mem_lineStarts]

/-- As many lines have begun as breaks have ended, and the first. -/
theorem length_startsUpTo (t : Text) (n : Nat) :
    (t.startsUpTo n).length = 1 + Nat.count t.EndsBreak (n + 1) := by
  induction n with
  | zero => simp [startsUpTo_zero, Nat.count_succ, not_endsBreak_zero]
  | succ n ih =>
    rw [startsUpTo_succ, List.length_append, ih, Nat.count_succ _ (n + 1), Nat.add_assoc]
    congr 2
    split <;> rfl

/-- The line begun last starts where the last break ended. -/
theorem getLastD_startsUpTo (t : Text) (n : Nat) :
    (t.startsUpTo n).getLastD 0 = Nat.findGreatest t.EndsBreak n := by
  induction n with
  | zero => simp [startsUpTo_zero]
  | succ n ih =>
    rw [startsUpTo_succ, Nat.findGreatest_succ]
    split
    · simp
    · rw [List.append_nil, ih]

end Starts

section Lines

/-- Lines with what stands in the text between one and the next. -/
def rejoin (t : Text) : (lines : List (Nat × Text)) → Text
  | [] => []
  | [(_, line)] => line
  | (n, line) :: (m, next) :: more =>
    line ++ (t.slice (n + line.length) m ++ rejoin t ((m, next) :: more))

/-- Lines start where the text does, and behind each break. -/
theorem map_fst_placeLines (n : Nat) (t : Text) :
    (placeLines n (brokenLines t)).map Prod.fst = n :: startsFrom n t := by
  fun_induction brokenLines t generalizing n with
  | case1 => rfl
  | case2 t ih => rw [placeLines, List.map_cons, ih, startsFrom]; rfl
  | case3 c t hpair hbreak ih =>
    rw [placeLines, List.map_cons, ih, startsFrom, if_pos hbreak]
    · rfl
    · exact hpair
  | case4 c t _ _ hnil => exact absurd hnil (brokenLines_ne_nil t)
  | case5 c t hpair hbreak line brk more hmore ih =>
    have htail := congrArg List.tail (ih (n + 1))
    rw [hmore, placeLines, List.map_cons, List.tail_cons, List.tail_cons] at htail
    rw [startsFrom, if_neg hbreak, ← htail, placeLines, List.map_cons, List.length_cons,
      Nat.add_assoc n 1, Nat.add_comm 1]
    exact hpair

/-- In a text, each of the placed lines ends where a break begins that ends where the next line
starts, and the lines with these breaks between them are the text from their first start on. -/
structure Fits (t : Text) (start : Nat) (lines : List (Nat × Text)) : Prop where
  /-- From one line to the next there is a break. -/
  chain : lines.IsChain fun l l' => t.BreakAt (l.1 + l.2.length) l'.1
  /-- Nothing else stands between them. -/
  rejoined : rejoin t lines = t.drop start

/-- Before the second of two texts stands the last character of the first. -/
theorem before_length (u t : Text) : before none (u ++ t) u.length = u.getLast? := by
  rcases u.eq_nil_or_concat with rfl | ⟨u, c, rfl⟩
  · rfl
  · simp [before]

/-- A break in front of lines that fit is an empty line more. -/
theorem Fits.cons_break {s : Text} {n m : Nat} {bs : List (Text × Text)} (hbs : bs ≠ [])
    (h : Fits s m (placeLines m bs)) (hbreak : s.BreakAt n m) :
    Fits s n ((n, []) :: placeLines m bs) := by
  obtain ⟨⟨line, brk⟩, bs, rfl⟩ := List.exists_cons_of_ne_nil hbs
  have hle : n ≤ m := by cases hbreak <;> omega
  refine ⟨.cons_cons hbreak h.chain, ?_⟩
  have hrejoined := h.rejoined
  rw [placeLines] at hrejoined ⊢
  rw [rejoin, hrejoined]
  exact slice_append_drop s n m hle

/-- A character in front of a line that fits makes it longer. -/
theorem Fits.cons_char {s line : Text} {n : Nat} {c : Char} {more : List (Nat × Text)}
    (h : Fits s (n + 1) ((n + 1, line) :: more)) (hc : s.drop n = c :: s.drop (n + 1)) :
    Fits s n ((n, c :: line) :: more) := by
  have hlength : n + (c :: line).length = n + 1 + line.length := by
    rw [List.length_cons]
    omega
  have hrejoined := h.rejoined
  cases more with
  | nil =>
    refine ⟨.singleton _, ?_⟩
    rw [hc, ← hrejoined]
    rfl
  | cons next more =>
    obtain ⟨hbreak, hchain⟩ := List.isChain_cons_cons.mp h.chain
    refine ⟨.cons_cons ?_ hchain, ?_⟩
    · rwa [hlength]
    · rw [hc, ← hrejoined, rejoin, rejoin, hlength]
      rfl

/-- A carriage return that is no pair with what follows has no line feed behind it. -/
theorem ne_lineFeed_of_not_pair {c : Char} {t : Text}
    (h : ∀ u : Text, c = '\r' → t = '\n' :: u → False) : c = '\r' → t.head? ≠ some '\n' := by
  rintro rfl hhead
  obtain ⟨u, rfl⟩ := List.head?_eq_some_iff.mp hhead
  exact h u rfl rfl

/-- Lines and breaks fit into a text behind any other one to whose end its first break does not
belong. -/
theorem fits_placeLines (u t : Text) (h : u.getLast? = some '\r' → t.head? ≠ some '\n') :
    Fits (u ++ t) u.length (placeLines u.length (brokenLines t)) := by
  fun_induction brokenLines t generalizing u with
  | case1 => exact ⟨.singleton _, by simp [placeLines, rejoin]⟩
  | case2 t ih =>
    have hrest := ih (u ++ ['\r', '\n']) (by simp)
    rw [List.append_assoc, List.length_append] at hrest
    refine hrest.cons_break (brokenLines_ne_nil t) (.pair ?_ ?_) <;> simp
  | case3 c t hpair hbreak ih =>
    have hnext := ne_lineFeed_of_not_pair hpair
    have hrest := ih (u ++ [c]) (by simpa using hnext)
    rw [List.append_assoc, List.length_append] at hrest
    refine hrest.cons_break (brokenLines_ne_nil t) ?_
    obtain rfl | rfl : c = '\n' ∨ c = '\r' := by simpa [isLineBreak] using hbreak
    · refine .lineFeed (by simp) ?_
      rw [before_length]
      exact fun hlast => h hlast rfl
    · refine .carriageReturn (by simp) ?_
      rw [List.getElem?_append_right (by omega), Nat.add_sub_cancel_left, List.getElem?_cons_succ,
        ← List.head?_eq_getElem?]
      exact hnext rfl
  | case4 c t _ _ hnil => exact absurd hnil (brokenLines_ne_nil t)
  | case5 c t hpair hbreak line brk more hmore ih =>
    have hrest := ih (u ++ [c]) (by simpa using ne_lineFeed_of_not_pair hpair)
    have hstart : u.length + (c :: line).length + brk.length =
        u.length + 1 + line.length + brk.length := by
      rw [List.length_cons]
      omega
    rw [List.append_assoc, List.length_append, hmore] at hrest
    rw [placeLines, hstart]
    exact hrest.cons_char (by simp)

/-- The lines of a text are apart by its line breaks, and rejoin to it. -/
theorem fits_lines (t : Text) : Fits t 0 t.lines := fits_placeLines [] t (by simp)

end Lines

end Text

namespace LineIndex

open Text

variable {t : Text} {n : Nat}

/-- A position counts the lines that have begun and the characters since the last of them. -/
theorem position_ofText {offset : Int} {place : Nat} (h : min offset.toNat t.length = place) :
    (ofText t).position offset =
      (((lineStarts t).takeWhile (· ≤ place)).length,
        place - ((lineStarts t).takeWhile (· ≤ place)).getLastD 0 + 1) := by
  subst h
  rfl

/-- The line counts the breaks that ended, the column the characters behind the last of them. -/
theorem position_eq_count (h : n ≤ t.length) : (ofText t).position n =
    (1 + Nat.count t.EndsBreak (n + 1), 1 + (n - Nat.findGreatest t.EndsBreak n)) := by
  have hplace : min (n : Int).toNat t.length = n := by omega
  rw [position_ofText hplace, ← startsUpTo, length_startsUpTo, getLastD_startsUpTo,
    Nat.add_comm (n - _)]

/-- One character further the position is the front of the next line if a break ends there, and
else the next column. -/
theorem position_succ (h : n + 1 ≤ t.length) : (ofText t).position (n + 1 : Nat) =
    if t.EndsBreak (n + 1) then (((ofText t).position n).1 + 1, 1)
    else (((ofText t).position n).1, ((ofText t).position n).2 + 1) := by
  have hlast : Nat.findGreatest t.EndsBreak n ≤ n := Nat.findGreatest_le n
  rw [position_eq_count h, position_eq_count (Nat.le_of_succ_le h), Nat.count_succ,
    Nat.findGreatest_succ]
  split
  · simp [Nat.add_assoc]
  · simp; omega

/-- No character leaves the position where it is, or moves it back. -/
theorem position_lt_succ (h : n + 1 ≤ t.length) :
    toLex ((ofText t).position n) < toLex ((ofText t).position (n + 1 : Nat)) := by
  rw [position_succ h, Prod.Lex.toLex_lt_toLex]
  split
  · exact .inl (Nat.lt_succ_self _)
  · exact .inr ⟨rfl, Nat.lt_succ_self _⟩

/-- Of two offsets in the text the later one has the later position. -/
theorem position_lt {i j : Nat} (hij : i < j) (hj : j ≤ t.length) :
    toLex ((ofText t).position i) < toLex ((ofText t).position j) := by
  induction j, hij using Nat.le_induction with
  | base => exact position_lt_succ hj
  | succ j _ ih => exact (ih (Nat.le_of_succ_le hj)).trans (position_lt_succ hj)

/-- Positions and lines are exact. Up to the end of a text, the line of an offset is one more than
the number of breaks that end there or before, and the column one more than the distance from the
last of these; later offsets have greater positions. The lines begin at the line starts, hold no
break and are slices of the text, which they make up with a break between each and the next. -/
theorem positions_exact (t : Text) :
    (∀ n ≤ t.length, (ofText t).position n =
      (1 + Nat.count t.EndsBreak (n + 1), 1 + (n - Nat.findGreatest t.EndsBreak n))) ∧
    (∀ i j : Nat, i < j → j ≤ t.length →
      toLex ((ofText t).position i) < toLex ((ofText t).position j)) ∧
    t.lines.map Prod.fst = t.lineStarts ∧
    (∀ n line, (n, line) ∈ t.lines →
      t.slice n (n + line.length) = line ∧ ∀ c ∈ line, isLineBreak c = false) ∧
    (t.lines.IsChain fun l l' => t.BreakAt (l.1 + l.2.length) l'.1) ∧
    rejoin t t.lines = t :=
  ⟨fun _ h => position_eq_count h, fun _ _ => position_lt, map_fst_placeLines 0 t,
    fun _ _ h => ⟨slice_of_mem_lines h, unbroken_of_mem_lines h⟩, t.fits_lines.chain,
    t.fits_lines.rejoined⟩

/-- Between the two characters of a break the first line goes on; behind them begins the second,
which is empty, and behind one more carriage return the third. -/
theorem positions_exact_breaks :
    let t : Text := "a\r\n\rb".toList
    (2 ≤ t.length ∧ (ofText t).position 2 = (1, 3) ∧ (ofText t).position (2 : Nat) =
      (1 + Nat.count t.EndsBreak 3, 1 + (2 - Nat.findGreatest t.EndsBreak 2))) ∧
    (2 < 4 ∧ 4 ≤ t.length ∧ (ofText t).position 4 = (3, 1) ∧
      toLex ((ofText t).position (2 : Nat)) < toLex ((ofText t).position (4 : Nat))) ∧
    (3, []) ∈ t.lines ∧ t.slice 3 (3 + 0) = [] ∧ rejoin t t.lines = t := by
  intro t
  obtain ⟨hposition, hless, -, hline, -, hrejoin⟩ := positions_exact t
  exact ⟨⟨by decide, by decide, hposition 2 (by decide)⟩,
    ⟨by decide, by decide, by decide, hless 2 4 (by decide) (by decide)⟩, by decide,
    (hline 3 [] (by decide)).1, hrejoin⟩

end LineIndex

end Gloss
