import Gloss.Proofs.Detect.Division
import Gloss.Proofs.Mask.Cut

/-!
# Exclusions and masking

The search for divisions follows quotes and `//` along each line on its own, beside the masking
pass. On a line in which neither a block comment nor a text block can begin the two agree at every
position: what the search excludes is what masking blanks. Both are automata that read one
character at a time, and the mode of the pass is the state of the search without the offset at
which the open span starts.
-/

namespace Gloss.Division

open Mask

/-- A text of one line in which no block comment and no text block can begin. -/
structure LineOnly (t : Text) : Prop where
  /-- The line does not end in it. -/
  unbroken : ∀ c ∈ t, isLineBreak c = false
  /-- No block comment begins. -/
  uncommented : Text.contains ['/', '*'] t = false
  /-- No text block begins. -/
  unblocked : Text.contains ['"', '"', '"'] t = false

/-- Whether a text is of one line without block marks is told by three searches in it. -/
theorem lineOnly_iff {t : Text} : LineOnly t ↔ (t.all fun c => !isLineBreak c) = true ∧
    Text.contains ['/', '*'] t = false ∧ Text.contains ['"', '"', '"'] t = false := by
  simp only [List.all_eq_true, Bool.not_eq_true']
  exact ⟨fun h => ⟨h.unbroken, h.uncommented, h.unblocked⟩, fun ⟨hbreak, hcomment, hblock⟩ =>
    ⟨hbreak, hcomment, hblock⟩⟩

instance (t : Text) : Decidable (LineOnly t) := decidable_of_iff _ lineOnly_iff.symm

/-- Whether an offset lies behind the start of a comment or in a quoted span. -/
def hides (excluded : Option Nat × List (Nat × Nat)) (offset : Nat) : Bool :=
  excluded.1.any (· ≤ offset) ||
    excluded.2.any fun (start, stop) => start ≤ offset && offset < stop

/-- Quoted spans between two offsets, disjoint and in order, and none behind the start of the
comment. -/
structure Arranged (lower upper : Nat) (excluded : Option Nat × List (Nat × Nat)) : Prop where
  /-- A span is not empty and lies between the offsets. -/
  spans : ∀ s ∈ excluded.2, lower ≤ s.1 ∧ s.1 < s.2 ∧ s.2 ≤ upper
  /-- A span ends before the next one starts. -/
  disjoint : excluded.2.Pairwise fun s s' => s.2 ≤ s'.1
  /-- The comment starts between the offsets. -/
  comment : ∀ c ∈ excluded.1, lower ≤ c ∧ c < upper
  /-- All spans end before the comment starts. -/
  before : ∀ c ∈ excluded.1, ∀ s ∈ excluded.2, s.2 ≤ c

/-- From an offset on, what is excluded is blank in the masked text and all else is kept. -/
def Agrees (excluded : Option Nat × List (Nat × Nat)) (pos : Nat) (t masked : Text) : Prop :=
  ∀ i < t.length, masked[i]? = if hides excluded (pos + i) then some ' ' else t[i]?

namespace QuoteState

/-- The mode of the masking pass where the search stands in a state. -/
def mode : QuoteState → Mode
  | outside => .code
  | inside quote _ => .quoted quote false
  | escaped quote _ => .quoted quote true

/-- The first offset that what is still to be excluded may reach back to. -/
def origin (pos : Nat) : QuoteState → Nat
  | outside => pos
  | inside _ start | escaped _ start => start

/-- An open span starts before the position. -/
def Begun (pos : Nat) : QuoteState → Prop
  | outside => True
  | inside _ start | escaped _ start => start < pos

/-- An offset lies behind the start of the open span. -/
def Covers (offset : Nat) : QuoteState → Prop
  | outside => False
  | inside _ start | escaped _ start => start ≤ offset

end QuoteState

variable {c d : Char} {t m : Text} {state : QuoteState} {pos lower lower' upper i : Nat}
  {e e' : Option Nat × List (Nat × Nat)}

/-- In a text of one line without block marks the first character is no line break, and the rest is
such a text. -/
theorem LineOnly.of_cons (h : LineOnly (c :: t)) : isLineBreak c = false ∧ LineOnly t := by
  obtain ⟨hc, ht⟩ := List.forall_mem_cons.mp h.unbroken
  exact ⟨hc, ht, (contains_cons_eq_false.mp h.uncommented).2,
    (contains_cons_eq_false.mp h.unblocked).2⟩

section Arranged

/-- Exclusions that are arranged behind one offset are so behind an earlier one. -/
theorem Arranged.mono (h : Arranged lower upper e) (hle : lower' ≤ lower) :
    Arranged lower' upper e where
  spans s hs := by
    obtain ⟨hlower, hlt, hupper⟩ := h.spans s hs
    exact ⟨by omega, hlt, hupper⟩
  disjoint := h.disjoint
  comment c hc := by
    obtain ⟨hlower, hupper⟩ := h.comment c hc
    exact ⟨by omega, hupper⟩
  before := h.before

/-- A span may be put before others. -/
theorem Arranged.cons {start stop : Nat} {comment : Option Nat} {spans : List (Nat × Nat)}
    (h : Arranged stop upper (comment, spans)) (hlt : start < stop) (hle : stop ≤ upper) :
    Arranged start upper (comment, (start, stop) :: spans) where
  spans := List.forall_mem_cons.mpr
    ⟨⟨Nat.le_refl _, hlt, hle⟩, (h.mono (Nat.le_of_lt hlt)).spans⟩
  disjoint := .cons (fun s hs => (h.spans s hs).1) h.disjoint
  comment := (h.mono (Nat.le_of_lt hlt)).comment
  before c hc := List.forall_mem_cons.mpr ⟨(h.comment c hc).1, h.before c hc⟩

/-- No exclusions are arranged anywhere. -/
theorem arranged_none : Arranged lower upper (none, []) :=
  ⟨by simp, .nil, by simp, by simp⟩

/-- The spans that a search yields are disjoint and in order, and the comment comes behind them. -/
theorem arranged_exclusionsFrom (hbegun : state.Begun pos) :
    Arranged (state.origin pos) (pos + t.length) (exclusionsFrom state pos t) := by
  fun_induction exclusionsFrom state pos t with
  | case1 => exact arranged_none
  | case2 _ start pos | case3 _ start pos =>
    exact arranged_none.cons hbegun (Nat.le_refl pos)
  | case4 quote start pos c t ih | case5 quote start pos t ih =>
    rw [List.length_cons, ← Nat.add_assoc, Nat.add_right_comm]
    exact ih (Nat.lt_succ_of_lt hbegun)
  | case6 start pos quote t _ comment spans heq ih =>
    have hrest := ih trivial
    rw [heq, QuoteState.origin, Nat.add_right_comm, Nat.add_assoc] at hrest
    exact hrest.cons (Nat.lt_succ_of_lt hbegun) (by omega)
  | case7 quote start pos c t _ _ ih =>
    rw [List.length_cons, ← Nat.add_assoc, Nat.add_right_comm]
    exact ih (Nat.lt_succ_of_lt hbegun)
  | case8 pos c t _ ih =>
    rw [List.length_cons, ← Nat.add_assoc, Nat.add_right_comm]
    exact ih (Nat.lt_succ_self pos)
  | case9 pos c t =>
    refine ⟨by simp, .nil, fun n hn => ?_, by simp⟩
    obtain rfl := Option.some.inj hn
    exact ⟨Nat.le_refl pos, by rw [List.length_cons]; omega⟩
  | case10 pos c t _ _ ih =>
    rw [List.length_cons, ← Nat.add_assoc, Nat.add_right_comm]
    exact (ih trivial).mono (Nat.le_succ pos)

end Arranged

section Hides

/-- A character is hidden by one of several exclusions. -/
theorem hides_cons (comment : Option Nat) (start stop : Nat) (spans : List (Nat × Nat)) :
    hides (comment, (start, stop) :: spans) i =
      ((start ≤ i && i < stop) || hides (comment, spans) i) := by
  simp only [hides, List.any_cons, Bool.or_left_comm]

/-- Nothing is hidden before all that is excluded. -/
theorem Arranged.hides_eq_false (h : Arranged lower upper e) (hi : i < lower) :
    hides e i = false := by
  rw [hides, Bool.or_eq_false_iff, Option.any_eq_false, List.any_eq_false]
  constructor
  · intro n hn
    have := (h.comment n hn).1
    exact decide_eq_false (by omega)
  · intro s hs
    have := (h.spans s hs).1
    simp only [Bool.and_eq_true, decide_eq_true_eq]
    omega

/-- The open span reaches up to the position at least. -/
theorem hides_of_covers (hcovers : state.Covers i) (hi : i < pos) :
    hides (exclusionsFrom state pos t) i = true := by
  fun_induction exclusionsFrom state pos t with
  | case1 => exact hcovers.elim
  | case2 _ start pos | case3 _ start pos =>
    have hstart : start ≤ i := hcovers
    simp [hides, hstart, hi]
  | case4 _ _ _ _ _ ih | case5 _ _ _ _ ih | case7 _ _ _ _ _ _ _ ih =>
    exact ih hcovers (Nat.lt_succ_of_lt hi)
  | case6 start pos quote t _ comment spans =>
    have hstart : start ≤ i := hcovers
    simp [hides_cons, hstart, Nat.lt_succ_of_lt hi]
  | case8 | case9 | case10 => exact hcovers.elim

end Hides

section Agrees

/-- One character more on both sides. -/
theorem Agrees.cons (h : Agrees e' (pos + 1) t m) (hhead : d = if hides e pos then ' ' else c)
    (htail : ∀ i, pos < i → hides e i = hides e' i) : Agrees e pos (c :: t) (d :: m) := by
  intro i hi
  cases i with
  | zero =>
    rw [List.getElem?_cons_zero, List.getElem?_cons_zero, Nat.add_zero, hhead]
    split <;> rfl
  | succ i =>
    have hnext := h i (Nat.lt_of_succ_lt_succ hi)
    rw [List.getElem?_cons_succ, List.getElem?_cons_succ, hnext, Nat.add_right_comm, Nat.add_assoc,
      htail _ (by omega)]

/-- Behind the start of a comment all of a line is blank. -/
theorem agrees_comment (ht : ∀ c ∈ t, isLineBreak c = false) :
    Agrees (some pos, []) pos t (t.map blank) := by
  intro i hi
  have hblank := blank_of_not_isLineBreak (ht _ (List.getElem_mem hi))
  rw [List.getElem?_map, List.getElem?_eq_getElem hi, Option.map_some, hblank]
  simp [hides]

/-- Within a line comment everything is blanked up to the end of the line. -/
theorem maskFrom_lineComment (ht : ∀ c ∈ t, isLineBreak c = false) :
    maskFrom .lineComment t = t.map blank := by
  have hline : Extends .lineComment t false [] := .line ht rfl
  simpa [Region.closing, maskFrom_nil] using hline.maskFrom_eq

/-- Within a quote one character is blanked and may end the quote or escape the next one. -/
theorem maskFrom_quoted_cons {quote : Char} {escaped : Bool} (hc : isLineBreak c = false) :
    maskFrom (.quoted quote escaped) (c :: t) = ' ' :: maskFrom
      (if escaped then .quoted quote false
       else if c = '\\' then .quoted quote true
       else if c = quote then .code
       else .quoted quote false) t := by
  rw [maskFrom, hc, if_neg Bool.false_ne_true]

/-- Behind a quote the pass blanks the characters that the open span covers. -/
theorem Agrees.covered {next : QuoteState} (hcovers : next.Covers pos)
    (h : Agrees (exclusionsFrom next (pos + 1) t) (pos + 1) t m) :
    Agrees (exclusionsFrom next (pos + 1) t) pos (c :: t) (' ' :: m) := by
  refine h.cons ?_ fun _ _ => rfl
  rw [hides_of_covers hcovers (Nat.lt_succ_self pos), if_pos rfl]

/-- The masking pass blanks what the search excludes, from any state of the search on. -/
theorem agrees_maskFrom (hopened : state.Opened) (hbegun : state.Begun pos) (ht : LineOnly t) :
    Agrees (exclusionsFrom state pos t) pos t (maskFrom state.mode t) := by
  fun_induction exclusionsFrom state pos t with
  | case1 | case2 | case3 => exact fun i hi => absurd hi (Nat.not_lt_zero i)
  | case4 quote start pos c t ih =>
    obtain ⟨hc, ht⟩ := ht.of_cons
    rw [QuoteState.mode, maskFrom_quoted_cons hc, if_pos rfl]
    exact (ih hopened (Nat.lt_succ_of_lt hbegun) ht).covered (Nat.le_of_lt hbegun)
  | case5 quote start pos t ih =>
    obtain ⟨hc, ht⟩ := ht.of_cons
    rw [QuoteState.mode, maskFrom_quoted_cons hc, if_neg Bool.false_ne_true, if_pos rfl]
    exact (ih hopened (Nat.lt_succ_of_lt hbegun) ht).covered (Nat.le_of_lt hbegun)
  | case6 start pos quote t hback comment spans heq ih =>
    obtain ⟨hc, ht⟩ := ht.of_cons
    have hrest := ih trivial trivial ht
    have hstart : start ≤ pos := Nat.le_of_lt hbegun
    rw [heq] at hrest
    rw [QuoteState.mode, maskFrom_quoted_cons hc, if_neg Bool.false_ne_true, if_neg hback,
      if_pos rfl]
    refine hrest.cons ?_ fun i hi => ?_
    · simp [hides_cons, hstart]
    · have hclosed : ¬ i < pos + 1 := by omega
      simp [hides_cons, hclosed]
  | case7 quote start pos c t hback hquote ih =>
    obtain ⟨hc, ht⟩ := ht.of_cons
    rw [QuoteState.mode, maskFrom_quoted_cons hc, if_neg Bool.false_ne_true, if_neg hback,
      if_neg hquote]
    exact (ih hopened (Nat.lt_succ_of_lt hbegun) ht).covered (Nat.le_of_lt hbegun)
  | case8 pos c t hquote ih =>
    obtain ⟨hc, htail⟩ := ht.of_cons
    have hopens : opening? ((Mode.quoted c false).opener ++ t) = some (.quoted c false) :=
      opening?_of_isQuote hquote (contains_cons_eq_false.mp ht.unblocked).1
    have hmask : maskFrom .code (c :: t) = ' ' :: maskFrom (.quoted c false) t := by
      rw [← blank_of_not_isLineBreak hc]
      exact maskFrom_code_opener hopens
    rw [QuoteState.mode, hmask]
    exact (ih hquote (Nat.lt_succ_self pos) htail).covered (Nat.le_refl pos)
  | case9 pos c t _ hslashes =>
    rw [Bool.and_eq_true, decide_eq_true_eq, decide_eq_true_eq] at hslashes
    obtain ⟨rfl, hhead⟩ := hslashes
    obtain ⟨u, rfl⟩ := List.head?_eq_some_iff.mp hhead
    have hmask : maskFrom .code ('/' :: '/' :: u) = ('/' :: '/' :: u).map blank := by
      rw [maskFrom, maskFrom_lineComment ht.of_cons.2.of_cons.2.unbroken]
      rfl
    rw [QuoteState.mode, hmask]
    exact agrees_comment ht.unbroken
  | case10 pos c t hquote hslashes ih =>
    obtain ⟨-, htail⟩ := ht.of_cons
    have hopens : opening? (c :: t) = none := by
      refine opening?_eq_none_iff.mpr ⟨Bool.eq_false_iff.mpr hquote, fun hc d hd => ⟨?_, ?_⟩⟩
      · rintro rfl
        exact hslashes (by rw [hc, Option.mem_def.mp hd]; rfl)
      · have hafter := (contains_cons_eq_false.mp ht.uncommented).1
        exact after?_pair_eq_none_iff.mp hafter hc.symm d hd
    have hlater : Arranged (pos + 1) (pos + 1 + t.length) (exclusionsFrom .outside (pos + 1) t) :=
      @arranged_exclusionsFrom t .outside (pos + 1) trivial
    rw [QuoteState.mode, maskFrom_code_cons hopens]
    refine (ih trivial trivial htail).cons ?_ fun _ _ => rfl
    rw [hlater.hides_eq_false (Nat.lt_succ_self pos), if_neg Bool.false_ne_true]

end Agrees

/-- On a line in which no block comment and no text block can begin, masking blanks just what the
search for divisions excludes: all from the start of the comment on and all quoted spans. The spans
are disjoint and in order, and end before the comment starts. -/
theorem mask_eq_of_exclusions (h : LineOnly t) :
    (∀ i < t.length, (mask t)[i]? = if hides (exclusions t) i then some ' ' else t[i]?) ∧
      Arranged 0 t.length (exclusions t) := by
  have hagrees : Agrees (exclusions t) 0 t (mask t) :=
    @agrees_maskFrom t .outside 0 trivial trivial h
  have harranged : Arranged 0 (0 + t.length) (exclusions t) :=
    @arranged_exclusionsFrom t .outside 0 trivial
  constructor
  · intro i hi
    have := hagrees i hi
    rwa [Nat.zero_add] at this
  · rwa [Nat.zero_add] at harranged

/-- An escaped quote, a quoted `//` and a quote in a comment. -/
theorem mask_eq_of_exclusions_escaped :
    let line := "s=\"a\\\"b\"/'//';//'".toList
    LineOnly line ∧ exclusions line = (some 14, [(2, 8), (9, 13)]) ∧
      (mask line)[5]? = some ' ' ∧ (mask line)[8]? = some '/' ∧ (mask line)[10]? = some ' ' := by
  intro line
  have hline : LineOnly line := by decide
  obtain ⟨hmask, -⟩ := mask_eq_of_exclusions hline
  refine ⟨hline, by decide, ?_, ?_, ?_⟩
  · rw [hmask 5 (by decide)]
    rfl
  · rw [hmask 8 (by decide)]
    rfl
  · rw [hmask 10 (by decide)]
    rfl

end Gloss.Division
