import Gloss.Proofs.Text.Balance
import Gloss.Proofs.Text.Line

/-!
# Parts of a text

A text is cut at each separator in front of which nothing is left open, and its parts are what
stands between neighbouring cuts, trimmed, as far as it is not blank. So the parts stand in the
text one behind the other, and joined by commas they are split into themselves.
-/

namespace Gloss.Text

open Gloss.Bracket

variable {i lower start stop : Nat} {n : Nesting} {sep t : Text} {cuts : List Nat}
  {s : Nat × Nat} {spans : List (Nat × Nat)}

/-- At an offset stands a separator outside all brackets. -/
def IsCut (sep t : Text) (i : Nat) : Prop :=
  ∃ c, t[i]? = some c ∧ [c] = sep ∧ isBracket c = false ∧ LeavesNoneOpen (t.take i)

/-- The offsets at which a text that begins within a nesting is cut. -/
def cutsWithin (sep : Text) (n : Nesting) (t : Text) : List Nat :=
  (List.range t.length).filter fun i => t[i]?.any fun c =>
    !isBracket c && [c] = sep && (n.after (t.take i)).isFlat

/-- The spans between cuts, from one offset to another. -/
def spansBetween (stop : Nat) : (start : Nat) → (cuts : List Nat) → List (Nat × Nat)
  | start, [] => [(start, stop)]
  | start, cut :: cuts => (start, cut) :: spansBetween stop (cut + 1) cuts

/-- What stands in a text between the ends of each span. -/
def slices (t : Text) (spans : List (Nat × Nat)) : List Text :=
  spans.map fun (start, stop) => t.slice start stop

/-- Spans between two offsets, one behind the other and not touching. -/
structure Apart (lower upper : Nat) (spans : List (Nat × Nat)) : Prop where
  /-- They lie between the offsets. -/
  within : ∀ s ∈ spans, lower ≤ s.1 ∧ s.1 ≤ s.2 ∧ s.2 ≤ upper
  /-- Each ends before the next one starts. -/
  ordered : spans.Pairwise fun s s' => s.2 < s'.1

section Cut

/-- A text is cut at its cuts. -/
theorem mem_cutsWithin : i ∈ cutsWithin sep {} t ↔ IsCut sep t i := by
  rw [cutsWithin, List.mem_filter, List.mem_range, Option.any_eq_true]
  simp only [Bool.and_eq_true, Bool.not_eq_true', decide_eq_true_eq, isFlat_after_iff, and_assoc]
  constructor
  · rintro ⟨-, c, hc, hbracket, hsep, hnone⟩
    exact ⟨c, hc, hsep, hbracket, hnone⟩
  · rintro ⟨c, hc, hsep, hbracket, hnone⟩
    exact ⟨(List.getElem?_eq_some_iff.mp hc).1, c, hc, hbracket, hsep, hnone⟩

/-- Cuts are found in order. -/
theorem pairwise_cutsWithin (sep : Text) (n : Nesting) (t : Text) :
    (cutsWithin sep n t).Pairwise (· < ·) :=
  List.pairwise_lt_range.filter _

/-- Cuts lie within the text. -/
theorem lt_length_of_mem_cutsWithin (h : i ∈ cutsWithin sep n t) : i < t.length :=
  List.mem_range.mp (List.mem_filter.mp h).1

/-- Behind its first character a text is cut where what follows is cut. -/
theorem cutsWithin_cons (sep : Text) (n : Nesting) (c : Char) (t : Text) :
    cutsWithin sep n (c :: t) =
      (if (!isBracket c && [c] = sep && n.isFlat) = true then [0] else []) ++
        (cutsWithin sep (n.step c) t).map (· + 1) := by
  rw [cutsWithin, List.length_cons, List.range_succ_eq_map, List.filter_cons, List.filter_map]
  by_cases hcut : (!isBracket c && [c] = sep && n.isFlat) = true
  · refine (if_pos hcut).trans ?_
    rw [if_pos hcut]
    rfl
  · refine (if_neg hcut).trans ?_
    rw [if_neg hcut]
    rfl

/-- Behind one more character all spans are moved by one. -/
theorem spansBetween_succ (stop start : Nat) (cuts : List Nat) :
    spansBetween (stop + 1) (start + 1) (cuts.map (· + 1)) =
      (spansBetween stop start cuts).map fun s => (s.1 + 1, s.2 + 1) := by
  induction cuts generalizing start with
  | nil => rfl
  | cons cut cuts ih => rw [List.map_cons, spansBetween, ih, spansBetween, List.map_cons]

/-- Slices behind the first character are slices of what follows it. -/
theorem slices_succ (c : Char) (t : Text) (spans : List (Nat × Nat)) :
    slices (c :: t) (spans.map fun s => (s.1 + 1, s.2 + 1)) = slices t spans := by
  rw [slices, List.map_map]
  rfl

/-- Cutting a text gives what stands between its cuts. -/
theorem cutTopLevel_eq_slices (sep : Text) (n : Nesting) (t : Text) :
    cutTopLevel sep n t = slices t (spansBetween t.length 0 (cutsWithin sep n t)) := by
  induction t generalizing n with
  | nil => rfl
  | cons c t ih =>
    rw [cutTopLevel, cutsWithin_cons, ih, ih]
    split
    · rename_i hcut
      have hstep : n.step c = n := by
        rw [Bool.and_assoc, Bool.and_eq_true, Bool.not_eq_true'] at hcut
        exact Nesting.step_other hcut.1
      rw [hstep, List.cons_append, List.nil_append, spansBetween, Nat.zero_add, List.length_cons,
        spansBetween_succ]
      exact congrArg ([] :: ·) (slices_succ c t _).symm
    · rw [List.nil_append]
      cases cutsWithin sep (n.step c) t with
      | nil => rfl
      | cons cut cuts =>
        rw [List.map_cons, spansBetween, spansBetween, List.length_cons, spansBetween_succ]
        exact congrArg ((c :: slice t 0 cut) :: ·) (slices_succ c t _).symm

end Cut

section Order

/-- Spans that lie apart behind one offset do so behind an earlier one. -/
theorem Apart.mono (h : Apart start stop spans) (hle : lower ≤ start) : Apart lower stop spans where
  within s hs := by
    obtain ⟨hstart, hstop⟩ := h.within s hs
    exact ⟨by omega, hstop⟩
  ordered := h.ordered

theorem apart_nil (lower stop : Nat) : Apart lower stop [] := ⟨by simp, .nil⟩

/-- A span may be put before others that start behind it. -/
theorem Apart.cons (h : Apart (s.2 + 1) stop spans) (hlower : lower ≤ s.1) (hle : s.1 ≤ s.2)
    (hstop : s.2 ≤ stop) : Apart lower stop (s :: spans) where
  within := List.forall_mem_cons.mpr ⟨⟨hlower, hle, hstop⟩, (h.mono (by omega)).within⟩
  ordered := .cons (fun s' hs' => (h.within s' hs').1) h.ordered

/-- The spans between cuts lie apart. -/
theorem apart_spansBetween (hcuts : cuts.Pairwise (· < ·)) (hlower : ∀ i ∈ cuts, start ≤ i)
    (hupper : ∀ i ∈ cuts, i < stop) (hle : start ≤ stop) :
    Apart start stop (spansBetween stop start cuts) := by
  induction cuts generalizing start with
  | nil => exact (apart_nil _ _).cons (Nat.le_refl _) hle (Nat.le_refl _)
  | cons cut cuts ih =>
    obtain ⟨hfirst, hcuts⟩ := List.pairwise_cons.mp hcuts
    obtain ⟨hcut, hupper⟩ := List.forall_mem_cons.mp hupper
    exact (ih hcuts hfirst hupper hcut).cons (Nat.le_refl _) (hlower cut List.mem_cons_self)
      (Nat.le_of_lt hcut)

/-- What is trimmed off a slice leaves a slice. -/
theorem exists_slice_eq_trim (t : Text) (hle : start ≤ stop) (hstop : stop ≤ t.length) :
    ∃ start' stop', start ≤ start' ∧ start' ≤ stop' ∧ stop' ≤ stop ∧
      t.slice start' stop' = trim (t.slice start stop) := by
  obtain ⟨g, h, -, -, hslice⟩ := exists_allBlank_append_trim (t.slice start stop)
  have hlength := congrArg List.length hslice
  rw [length_slice, List.length_append, List.length_append, Nat.min_eq_left hstop] at hlength
  refine ⟨start + g.length, start + g.length + (trim (t.slice start stop)).length, by omega,
    by omega, by omega, ?_⟩
  have hdrop : (t.slice start stop).drop g.length = trim (t.slice start stop) ++ h := by
    conv_lhs => rw [hslice, List.drop_left]
  rw [Nat.add_assoc, ← slice_slice t start stop (by omega)]
  exact (slice_of_drop_eq hdrop).1

/-- Slices that are trimmed, and dropped where nothing is left, are slices in the same order. -/
theorem exists_slices_eq_filter {t : Text} (h : Apart lower t.length spans) :
    ∃ spans', Apart lower t.length spans' ∧
      slices t spans' = ((slices t spans).map trim).filter fun part => !part.isEmpty := by
  induction spans generalizing lower with
  | nil => exact ⟨[], h, rfl⟩
  | cons s spans ih =>
    obtain ⟨hlower, hle, hstop⟩ := h.within s List.mem_cons_self
    obtain ⟨hbehind, hordered⟩ := List.pairwise_cons.mp h.ordered
    have hrest : Apart (s.2 + 1) t.length spans :=
      ⟨fun s' hs' => ⟨hbehind s' hs', (h.within s' (List.mem_cons_of_mem s hs')).2⟩, hordered⟩
    obtain ⟨spans', hspans', hslices⟩ := ih hrest
    rw [slices, List.map_cons, List.map_cons, ← slices]
    by_cases hblank : trim (t.slice s.1 s.2) = []
    · rw [List.filter_cons_of_neg (by simp [hblank])]
      exact ⟨spans', hspans'.mono (by omega), hslices⟩
    · obtain ⟨start, stop, hstart, hle', hstop', htrim⟩ := exists_slice_eq_trim t hle hstop
      rw [List.filter_cons_of_pos (by simpa using hblank), ← hslices, ← htrim]
      exact ⟨(start, stop) :: spans', (hspans'.mono (Nat.succ_le_succ hstop')).cons
        (Nat.le_trans hlower hstart) hle' (Nat.le_trans hstop' hstop), rfl⟩

end Order

section Split

/-- How a text is split at a separator. -/
structure IsSplit (sep t : Text) (parts : List Text) : Prop where
  /-- No part is empty, and none begins or ends with a blank. -/
  trimmed : ∀ p ∈ parts, trim p = p ∧ p ≠ []
  /-- The parts stand in the text one behind the other. -/
  inOrder : ∃ spans, Apart 0 t.length spans ∧ parts = slices t spans
  /-- They are what stands between neighbouring cuts, trimmed, as far as it is not blank. -/
  between : ∃ cuts, cuts.Pairwise (· < ·) ∧ (∀ i, i ∈ cuts ↔ IsCut sep t i) ∧
    parts = ((slices t (spansBetween t.length 0 cuts)).map trim).filter fun part => !part.isEmpty

/-- The parts are what a split has to be, for every text and separator. -/
theorem isSplit_splitTopLevel (sep t : Text) : IsSplit sep t (splitTopLevel sep t) := by
  have hcut : splitTopLevel sep t = ((slices t (spansBetween t.length 0
      (cutsWithin sep {} t))).map trim).filter fun part => !part.isEmpty := by
    rw [splitTopLevel, cutTopLevel_eq_slices]
  refine ⟨fun p => mem_splitTopLevel, ?_, _, pairwise_cutsWithin sep {} t,
    fun i => mem_cutsWithin, hcut⟩
  have hapart : Apart 0 t.length (spansBetween t.length 0 (cutsWithin sep {} t)) :=
    apart_spansBetween (pairwise_cutsWithin sep {} t) (fun _ _ => Nat.zero_le _)
      (fun _ => lt_length_of_mem_cutsWithin) (Nat.zero_le _)
  obtain ⟨spans, hspans, hslices⟩ := exists_slices_eq_filter hapart
  exact ⟨spans, hspans, hcut.trans hslices.symm⟩

/-- Brackets are matched and texts are split as the counts of brackets say: a bracket is closed at
the first offset up to which its kind is balanced, and a text is cut at the separators in front of
which nothing is left open, whatever stray or unclosed brackets it holds. Its parts, joined by
commas, are split into themselves. An offset may also count from the end of the text, but not to
before its start. -/
theorem brackets_exact (t : Text) :
    (∀ start : Int, -t.length ≤ start →
      ∃ answer, t.findClosingAt? start = some answer ∧ t.IsClosing start answer) ∧
    (∀ sep, IsSplit sep t (splitTopLevel sep t)) ∧
    splitTopLevel [','] (join [','] (splitTopLevel [','] t)) = splitTopLevel [','] t :=
  ⟨fun _ => exists_isClosing, fun sep => isSplit_splitTopLevel sep t,
    splitTopLevel_join_splitTopLevel t⟩

/-- The square bracket that stays open leaves the parenthesis closed, at offset -4 from the end, and
hides the comma, so that the text is one part. -/
theorem brackets_exact_unclosed :
    -(("f(a[0), b".toList.length : Nat) : Int) ≤ -8 ∧
      IsClosing "f(a[0), b".toList (-8) (some (-4)) ∧
      IsSplit [','] "f(a[0), b".toList ["f(a[0), b".toList] := by
  have hclosed : findClosingAt? "f(a[0), b".toList (-8) = some (some (-4)) := by decide
  have hsplit : splitTopLevel [','] "f(a[0), b".toList = ["f(a[0), b".toList] := by decide
  obtain ⟨hclosing, hparts, -⟩ := brackets_exact "f(a[0), b".toList
  obtain ⟨answer, hanswer, hclosing⟩ := hclosing (-8) (by decide)
  rw [hclosed, Option.some.injEq] at hanswer
  subst hanswer
  exact ⟨by decide, hclosing, hsplit ▸ hparts [',']⟩

end Split

end Gloss.Text
