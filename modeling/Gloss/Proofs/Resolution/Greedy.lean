import Gloss.Proofs.Resolution
import Mathlib.Data.List.Count
import Mathlib.Data.List.Induction
import Mathlib.Data.List.Nodup
import Mathlib.Data.List.Pairwise
import Mathlib.Data.Prod.Lex

/-!
# Resolution against its specification

By its specification, resolution sorts findings by start and falling length and keeps each one
that overlaps none of those kept before it. The pass compares with the one kept last only. Of
findings that are not empty both keep the same ones. An empty finding at the start of another one
is kept behind it, though, and hides from the pass how far that other one reaches; this is the
only way in which kept findings come to share a character.
-/

namespace Gloss.Finding

/-- What findings are sorted by: the start, and of equal starts the greater length first. -/
def sortKey (f : Finding) : Int ×ₗ Int := toLex (f.start, -f.location.length)

/-- The findings in the order of their keys; those with equal keys keep their order. -/
def ordered (fs : List Finding) : List Finding :=
  fs.mergeSort fun f g => f.sortKey ≤ g.sortKey

/-- Keeps a finding beside others if it overlaps none of them. -/
def keepFree (kept : List Finding) (f : Finding) : List Finding :=
  if kept.any fun k => k.overlaps f then kept else kept ++ [f]

/-- The offsets between which a finding stands. -/
def range (f : Finding) : Int × Int := (f.start, f.stop)

/-- Two findings share a character if there is one that stands in both. -/
def SharesCharacter (f g : Finding) : Prop :=
  ∃ i, (f.start ≤ i ∧ i < f.stop) ∧ g.start ≤ i ∧ i < g.stop

variable {f g : Finding} {last : Option Finding} {fs gs : List Finding}

/-- Findings are in the order of their keys. -/
theorem precedes_iff_sortKey_le : f.precedes g = true ↔ f.sortKey ≤ g.sortKey := by
  have hlength (f : Finding) : f.location.length = f.stop - f.start := rfl
  rw [precedes_iff, sortKey, sortKey, Prod.Lex.toLex_le_toLex, hlength, hlength]
  omega

/-- Findings are sorted by their keys. -/
theorem sort_eq_ordered (fs : List Finding) : sort fs = ordered fs := by
  have hle : precedes = fun f g => decide (f.sortKey ≤ g.sortKey) := by
    funext f g
    rw [Bool.eq_iff_iff, precedes_iff_sortKey_le, decide_eq_true_eq]
  rw [sort, sortStable_eq_mergeSort precedes_total precedes_trans, hle, ordered]

/-- A finding that ends before the last of others, all of which are disjoint and in order, ends
before the start of any finding which that last one precedes. -/
theorem any_overlaps_eq_getLast? (hdisjoint : fs.Pairwise fun a b => a.stop ≤ b.start)
    (hlast : ∀ l ∈ fs.getLast?, l.precedes f = true) :
    (fs.any fun k => k.overlaps f) = fs.getLast?.any fun k => k.overlaps f := by
  rcases fs.eq_nil_or_concat' with rfl | ⟨before, l, rfl⟩
  · rfl
  · rw [List.getLast?_concat] at hlast ⊢
    have hl := (precedes_iff l f).mp (hlast l rfl)
    have hbefore : (before.any fun k => k.overlaps f) = false := by
      rw [List.any_eq_false]
      intro k hk
      have hkl := (List.pairwise_append.mp hdisjoint).2.2 k hk l (List.mem_singleton_self l)
      rw [overlaps_iff]
      omega
    rw [List.any_append, hbefore, Bool.false_or, List.any_cons, List.any_nil, Bool.or_false,
      Option.any_some]

/-- Of findings in order that are not empty, the pass keeps those that overlap none of the ones
kept before them. -/
theorem keepApart_eq_foldl_keepFree (hpos : ∀ f ∈ fs, f.start < f.stop)
    (hsorted : fs.Pairwise fun a b => a.precedes b = true) :
    keepApart none fs = fs.foldl keepFree [] := by
  induction fs using List.reverseRecOn with
  | nil => rfl
  | append_singleton fs f ih =>
    obtain ⟨hfs, -, hf⟩ := List.pairwise_append.mp hsorted
    have hposFs : ∀ g ∈ fs, g.start < g.stop := fun g hg => hpos g (List.mem_append_left [f] hg)
    have hdisjoint := (keepApart_apart none hposFs hfs
      (fun _ hl => absurd hl (Option.not_mem_none _))).2
    have hlast : ∀ l ∈ (keepApart none fs).getLast?, l.precedes f = true := by
      intro l hl
      have hmem := (sublist_keepApart none fs).subset (List.mem_of_mem_getLast? hl)
      exact hf l hmem f (List.mem_singleton_self f)
    rw [List.foldl_concat, ← ih hposFs hfs, keepFree, any_overlaps_eq_getLast? hdisjoint hlast,
      keepApart_append, Option.or_none, keepApart]
    split
    · rw [keepApart, List.append_nil]
    · rw [keepApart]

/-- Of two neighbours that are kept the first does not overlap the second. -/
theorem isChain_keepApart (last : Option Finding) (fs : List Finding) :
    (last.toList ++ keepApart last fs).IsChain fun a b => a.overlaps b = false := by
  induction fs generalizing last with
  | nil => cases last <;> simp [keepApart]
  | cons f fs ih =>
    rw [keepApart]
    split
    · exact ih last
    · rename_i hover
      have hnext := ih (some f)
      cases last with
      | none => exact hnext
      | some l =>
        rw [Bool.not_eq_true, Option.any_some] at hover
        exact List.isChain_cons_cons.mpr ⟨hover, hnext⟩

/-- Findings of which no neighbours overlap are all kept. -/
theorem keepApart_eq_self (h : (last.toList ++ fs).IsChain fun a b => a.overlaps b = false) :
    keepApart last fs = fs := by
  induction fs generalizing last with
  | nil => rfl
  | cons f fs ih =>
    have hover : (last.any fun l => l.overlaps f) = false := by
      cases last with
      | none => rfl
      | some l => exact (List.isChain_cons_cons.mp h).1
    have hnext : (f :: fs).IsChain fun a b => a.overlaps b = false := by
      cases last with
      | none => exact h
      | some l => exact (List.isChain_cons_cons.mp h).2
    rw [keepApart, hover, if_neg Bool.false_ne_true]
    exact congrArg (f :: ·) (@ih (some f) hnext)

/-- Resolving once is enough. -/
theorem resolve_resolve (fs : List Finding) : resolve (resolve fs) = resolve fs := by
  have hchain := isChain_keepApart none (sort fs)
  rw [resolve, sort, sortStable_eq_self (pairwise_precedes_resolve fs)]
  exact keepApart_eq_self hchain

/-- Findings of which no two have one range are sorted alike, in whatever order they come. -/
theorem sort_congr (hranges : (fs.map range).Nodup) (h : gs.Perm fs) : sort gs = sort fs := by
  have hperm : (sort gs).Perm (sort fs) :=
    (perm_sortStable precedes gs).trans (h.trans (perm_sortStable precedes fs).symm)
  refine hperm.eq_of_pairwise ?_ (pairwise_sort gs) (pairwise_sort fs)
  intro a b ha hb hab hba
  rw [precedes_iff] at hab hba
  have hrange : a.range = b.range := Prod.ext (show a.start = b.start by omega)
    (show a.stop = b.stop by omega)
  exact List.inj_on_of_nodup_map hranges (h.mem_iff.mp (mem_sort.mp ha)) (mem_sort.mp hb) hrange

/-- A finding that covers a range and says nothing else. -/
def covering (start stop : Int) : Finding :=
  { location := ⟨1, start + 1, start, stop, some 1, some (stop + 1)⟩
    typeset := []
    inlineText := []
    detail := .expression [] }

/-- Resolution does what its specification says: in order of their keys, it keeps each finding that
overlaps none of those kept before. The kept findings are disjoint, each dropped one comes behind a
kept one that it overlaps, resolving again changes nothing, and it does not matter in which order
findings come of which no two have one range. -/
theorem resolve_eq_foldl_keepFree (hpos : ∀ f ∈ fs, f.start < f.stop) :
    resolve fs = (ordered fs).foldl keepFree [] ∧
      ((resolve fs).Pairwise fun f g => f.stop ≤ g.start) ∧
      (∀ f ∈ fs.diff (resolve fs), ∃ g ∈ resolve fs,
        g.overlaps f = true ∧ [g, f].Sublist (ordered fs)) ∧
      resolve (resolve fs) = resolve fs ∧
      ((fs.map range).Nodup → ∀ gs, gs.Perm fs → resolve gs = resolve fs) := by
  have hposSort : ∀ f ∈ sort fs, f.start < f.stop := fun f hf => hpos f (mem_sort.mp hf)
  refine ⟨?_, pairwise_disjoint_resolve hpos, fun f hf => ?_, resolve_resolve fs, ?_⟩
  · rw [resolve, keepApart_eq_foldl_keepFree hposSort (pairwise_sort fs), sort_eq_ordered]
  · have hcount : (resolve fs).count f < fs.count f := by
      have hdropped := List.count_pos_iff.mpr hf
      rw [List.count_diff] at hdropped
      omega
    obtain ⟨g, hg, hover, hpair, -⟩ := exists_overlaps_of_count_lt hcount
    rw [sort_eq_ordered] at hpair
    exact ⟨g, hg, hover, hpair⟩
  · intro hranges gs hgs
    rw [resolve, sort_congr hranges hgs, resolve]

/-- Of four findings, two are dropped, in whatever order the four come. -/
theorem resolve_eq_foldl_keepFree_four :
    let fs := [covering 12 20, covering 2 6, covering 0 10, covering 8 12]
    (∀ f ∈ fs, f.start < f.stop) ∧ (fs.map range).Nodup ∧
      resolve fs = [covering 0 10, covering 12 20] ∧
      fs.diff (resolve fs) = [covering 2 6, covering 8 12] ∧
      resolve [covering 0 10, covering 2 6, covering 8 12, covering 12 20] = resolve fs := by
  intro fs
  have hpos : ∀ f ∈ fs, f.start < f.stop := by decide
  have hranges : (fs.map range).Nodup := by decide
  obtain ⟨-, -, -, -, hperm⟩ := resolve_eq_foldl_keepFree hpos
  exact ⟨hpos, hranges, by decide, by decide, hperm hranges _ (by decide)⟩

/-- Sharing a character is mutual. -/
theorem SharesCharacter.symm (h : f.SharesCharacter g) : g.SharesCharacter f := by
  obtain ⟨i, hf, hg⟩ := h
  exact ⟨i, hg, hf⟩

/-- Findings in order, of which no neighbours overlap, share no character unless one of them begins
inside another at whose start an empty one stands: between one finding and a later one that begins
inside it stands its neighbour, which begins no later than that one. -/
theorem pairwise_not_sharesCharacter (hle : ∀ f ∈ fs, f.start ≤ f.stop)
    (hsorted : fs.Pairwise fun a b => a.precedes b = true)
    (hchain : fs.IsChain fun a b => a.overlaps b = false)
    (hempty : ∀ f ∈ fs, ∀ e ∈ fs, e.range = (f.start, f.start) →
      ∀ g ∈ fs, g.start < g.stop → ¬ (f.start < g.start ∧ g.start < f.stop)) :
    fs.Pairwise fun f g => ¬ f.SharesCharacter g := by
  induction fs with
  | nil => exact .nil
  | cons f fs ih =>
    obtain ⟨hf, hfs⟩ := List.pairwise_cons.mp hsorted
    refine .cons ?_ (ih (fun g hg => hle g (List.mem_cons_of_mem f hg)) hfs hchain.of_cons
      fun a ha b hb hab c hc => hempty a (List.mem_cons_of_mem f ha) b (List.mem_cons_of_mem f hb)
        hab c (List.mem_cons_of_mem f hc))
    rintro g hg ⟨i, ⟨hfi, hif⟩, hgi, hig⟩
    cases fs with
    | nil => exact absurd hg List.not_mem_nil
    | cons e fs =>
      have hapart := (List.isChain_cons_cons.mp hchain).1
      rw [← Bool.not_eq_true, overlaps_iff] at hapart
      have hfe := (precedes_iff f e).mp (hf e List.mem_cons_self)
      have hee := hle e (List.mem_cons_of_mem f List.mem_cons_self)
      rcases List.mem_cons.mp hg with rfl | hg
      · omega
      · have heg := (precedes_iff e g).mp ((List.pairwise_cons.mp hfs).1 g hg)
        have hrange : e.range = (f.start, f.start) := Prod.ext (show e.start = f.start by omega)
          (show e.stop = f.start by omega)
        refine hempty f List.mem_cons_self e (by simp) hrange g (by simp [hg]) (by omega) ?_
        have := (Prod.mk.inj hrange).1
        have := (Prod.mk.inj hrange).2
        omega

/-- Of findings that do not end before they start, the kept ones share no character just if none
that is not empty begins inside a kept one at whose start an empty one stands. -/
theorem resolve_shares_no_character_iff (hle : ∀ f ∈ fs, f.start ≤ f.stop) :
    ((resolve fs).Pairwise fun f g => ¬ f.SharesCharacter g) ↔
      ∀ f ∈ resolve fs, ∀ e ∈ fs, e.range = (f.start, f.start) →
        ∀ g ∈ fs, g.start < g.stop → ¬ (f.start < g.start ∧ g.start < f.stop) := by
  constructor
  · rintro hapart f hf e he hrange g hg hpos ⟨hfg, hgf⟩
    have : Std.Symm fun f g : Finding => ¬ f.SharesCharacter g := ⟨fun _ _ h hs => h hs.symm⟩
    obtain ⟨hstart, hstop⟩ : e.start = f.start ∧ e.stop = f.start := Prod.mk.inj hrange
    have heKept : e ∈ resolve fs := by
      by_contra hdropped
      obtain ⟨k, hk, hover, -⟩ := exists_overlaps_of_not_mem_resolve he hdropped
      rw [overlaps_iff] at hover
      refine hapart.forall hk hf ?_ ⟨f.start, by omega, by omega⟩
      rintro rfl
      omega
    by_cases hgKept : g ∈ resolve fs
    · refine hapart.forall hf hgKept ?_ ⟨g.start, by omega, by omega⟩
      rintro rfl
      omega
    · obtain ⟨k, hk, hover, hpair, hlast⟩ :=
        exists_overlaps_of_count_lt (count_lt_of_not_mem_resolve hg hgKept)
      have hpre := (precedes_iff k g).mp (precedes_of_sublist_sort hpair)
      rw [overlaps_iff] at hover
      have hkf : k = f := by
        by_contra hne
        exact hapart.forall hk hf hne ⟨g.start, by omega, by omega⟩
      subst hkf
      have := hlast e heKept
      rw [precedes_iff, precedes_iff] at this
      omega
  · intro hempty
    have hsubset : ∀ f ∈ resolve fs, f ∈ fs := fun f => mem_of_mem_resolve
    refine pairwise_not_sharesCharacter (fun f hf => hle f (hsubset f hf))
      (pairwise_precedes_resolve fs) (isChain_keepApart none (sort fs)) ?_
    intro f hf e he hrange g hg
    exact hempty f hf e (hsubset e he) hrange g (hsubset g hg)

/-- An empty finding stands at the start of another one, but none that begins inside that one has a
character. -/
theorem resolve_shares_no_character_four :
    let fs := [covering 8 9, covering 5 5, covering 6 6, covering 5 8]
    (∀ f ∈ fs, f.start ≤ f.stop) ∧
      resolve fs = [covering 5 8, covering 5 5, covering 6 6, covering 8 9] ∧
      (resolve fs).Pairwise fun f g => ¬ f.SharesCharacter g := by
  intro fs
  have hle : ∀ f ∈ fs, f.start ≤ f.stop := by decide
  exact ⟨hle, by decide, (resolve_shares_no_character_iff hle).mpr (by decide)⟩

/-- Behind an empty finding at its start, the pass does not see that a longer one reaches into the
next: both are kept, and share a character. -/
theorem not_resolve_shares_no_character :
    ¬ ∀ fs : List Finding, (∀ f ∈ fs, f.start ≤ f.stop) →
      (resolve fs).Pairwise fun f g => ¬ f.SharesCharacter g := by
  intro h
  have hkept : resolve [covering 5 8, covering 5 5, covering 6 7] =
      [covering 5 8, covering 5 5, covering 6 7] := by decide
  have hapart := h [covering 5 8, covering 5 5, covering 6 7] (by decide)
  rw [hkept] at hapart
  exact (List.pairwise_cons.mp hapart).1 (covering 6 7) (by simp) ⟨6, by decide, by decide⟩

end Gloss.Finding
