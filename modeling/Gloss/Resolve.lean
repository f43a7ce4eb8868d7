import Gloss.Finding

/-!
# Resolving overlaps

Detectors work independently, so their findings may overlap: `3/4` is a division and also part
of `3/4*x`. Findings are put in order, the earlier start first and of equal starts the longer
one, and a finding is kept unless it overlaps the one kept last. The order is stable: of two
findings with one range the one that was proposed first comes first.
-/

namespace Gloss

/-- Puts an item before the first one that may not precede it. -/
def insertStable {α : Type} (le : α → α → Bool) (a : α) : List α → List α
  | [] => [a]
  | b :: bs => if le a b then a :: b :: bs else b :: insertStable le a bs

/-- Sorts a list; items of which each may precede the other keep their order. -/
def sortStable {α : Type} (le : α → α → Bool) (as : List α) : List α :=
  as.foldr (insertStable le) []

/-- Inserting adds the item and nothing else. -/
theorem perm_insertStable {α : Type} (le : α → α → Bool) (a : α) (bs : List α) :
    (insertStable le a bs).Perm (a :: bs) := by
  induction bs with
  | nil => exact .refl _
  | cons b bs ih =>
    rw [insertStable]
    split
    · exact .refl _
    · exact (ih.cons b).trans (.swap a b bs)

/-- Sorting neither adds nor loses items. -/
theorem perm_sortStable {α : Type} (le : α → α → Bool) (as : List α) :
    (sortStable le as).Perm as := by
  induction as with
  | nil => exact .refl _
  | cons a as ih => exact (perm_insertStable le a _).trans (ih.cons a)

namespace Finding

/-- The earlier start comes first, and of equal starts the longer finding. -/
def precedes (a b : Finding) : Bool :=
  a.start < b.start || (a.start = b.start && b.stop - b.start ≤ a.stop - a.start)

/-- Findings in order of start and length. -/
def sort (fs : List Finding) : List Finding := sortStable precedes fs

/-- Keeps each finding that does not overlap the one kept before it. -/
def keepApart : (last : Option Finding) → List Finding → List Finding
  | _, [] => []
  | last, f :: fs =>
    if last.any fun l => l.overlaps f then keepApart last fs else f :: keepApart (some f) fs

/-- Nothing is kept that was not there, and the order stays. -/
theorem sublist_keepApart (last : Option Finding) (fs : List Finding) :
    (keepApart last fs).Sublist fs := by
  induction fs generalizing last with
  | nil => exact .refl _
  | cons f fs ih =>
    rw [keepApart]
    split
    · exact (ih last).cons f
    · exact (ih (some f)).cons_cons f

/-- The findings that remain when overlaps are resolved, in order. -/
def resolve (fs : List Finding) : List Finding := keepApart none (sort fs)

end Finding

end Gloss
