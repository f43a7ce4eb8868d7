import Gloss.Resolve

/-!
# Greedy resolution of overlaps

The sorted order is by start and then by falling length, so a kept finding
starts no later than anything that follows it. This is why a comparison with
the finding kept last is enough: whatever ends before the next start also ends
before every later one. The kept findings are disjoint, and each dropped one
overlaps a kept finding that precedes it.
-/

namespace Gloss

section Sorting

variable {α : Type} {le : α → α → Bool}

/-- Inserting into an ordered list keeps the order. -/
theorem pairwise_insertStable (total : ∀ a b, le a b = true ∨ le b a = true)
    (trans : ∀ a b c, le a b = true → le b c = true → le a c = true) (a : α) {bs : List α}
    (h : bs.Pairwise fun x y => le x y = true) :
    (insertStable le a bs).Pairwise fun x y => le x y = true := by
  induction bs with
  | nil => simp only [insertStable, List.pairwise_singleton]
  | cons b bs ih =>
    obtain ⟨hb, hbs⟩ := List.pairwise_cons.mp h
    rw [insertStable]
    by_cases hab : le a b = true
    · rw [if_pos hab]
      refine List.pairwise_cons.mpr ⟨?_, h⟩
      intro x hx
      rcases List.mem_cons.mp hx with rfl | hx
      · exact hab
      · exact trans a b x hab (hb x hx)
    · rw [if_neg hab]
      refine List.pairwise_cons.mpr ⟨?_, ih hbs⟩
      intro x hx
      rcases List.mem_cons.mp ((perm_insertStable le a bs).mem_iff.mp hx) with rfl | hx
      · exact (total b x).resolve_right hab
      · exact hb x hx

/-- Sorting by a total and transitive comparison gives an ordered list. -/
theorem pairwise_sortStable (total : ∀ a b, le a b = true ∨ le b a = true)
    (trans : ∀ a b c, le a b = true → le b c = true → le a c = true) (as : List α) :
    (sortStable le as).Pairwise fun x y => le x y = true := by
  induction as with
  | nil => exact List.Pairwise.nil
  | cons a as ih => exact pairwise_insertStable total trans a ih

/-- An item that may precede all others stays in front. -/
theorem insertStable_eq_cons {a : α} {bs : List α} (h : ∀ b ∈ bs, le a b = true) :
    insertStable le a bs = a :: bs := by
  cases bs with
  | nil => rfl
  | cons b bs => rw [insertStable, if_pos (h b List.mem_cons_self)]

/-- An ordered list is sorted already. -/
theorem sortStable_eq_self {as : List α} (h : as.Pairwise fun x y => le x y = true) :
    sortStable le as = as := by
  induction as with
  | nil => rfl
  | cons a as ih =>
    obtain ⟨ha, has⟩ := List.pairwise_cons.mp h
    change insertStable le a (sortStable le as) = a :: as
    rw [ih has, insertStable_eq_cons ha]

/-- Items may be left out before or after one of them is inserted into an ordered list. -/
theorem filter_insertStable (trans : ∀ a b c, le a b = true → le b c = true → le a c = true)
    (p : α → Bool) (a : α) {bs : List α} (h : bs.Pairwise fun x y => le x y = true) :
    (insertStable le a bs).filter p =
      if p a then insertStable le a (bs.filter p) else bs.filter p := by
  induction bs with
  | nil => cases hp : p a <;> simp [insertStable, hp]
  | cons b bs ih =>
    obtain ⟨hb, hbs⟩ := List.pairwise_cons.mp h
    by_cases hab : le a b = true
    · have hfirst : ∀ c ∈ (b :: bs).filter p, le a c = true := by
        intro c hc
        rcases List.mem_cons.mp (List.mem_filter.mp hc).1 with rfl | hc
        · exact hab
        · exact trans a b c hab (hb c hc)
      rw [insertStable, if_pos hab, List.filter_cons, insertStable_eq_cons hfirst]
    · rw [insertStable, if_neg hab, List.filter_cons, ih hbs, List.filter_cons]
      cases p a <;> cases p b <;> simp [insertStable, hab]

/-- Items may be left out before or after a list is sorted. -/
theorem filter_sortStable (total : ∀ a b, le a b = true ∨ le b a = true)
    (trans : ∀ a b c, le a b = true → le b c = true → le a c = true) (p : α → Bool)
    (as : List α) : (sortStable le as).filter p = sortStable le (as.filter p) := by
  induction as with
  | nil => rfl
  | cons a as ih =>
    change (insertStable le a (sortStable le as)).filter p = _
    rw [filter_insertStable trans p a (pairwise_sortStable total trans as), ih, List.filter_cons]
    cases p a <;> rfl

/-- An item goes behind all that it may not precede. -/
theorem insertStable_append {a : α} {bs : List α} (h : ∀ b ∈ bs, le a b = false) (cs : List α) :
    insertStable le a (bs ++ cs) = bs ++ insertStable le a cs := by
  induction bs with
  | nil => rfl
  | cons b bs ih =>
    obtain ⟨hb, hbs⟩ := List.forall_mem_cons.mp h
    rw [List.cons_append, insertStable, if_neg (by rw [hb]; exact Bool.false_ne_true), ih hbs,
      List.cons_append]

/-- Inserting the items one by one sorts as merging does, which is stable too. -/
theorem sortStable_eq_mergeSort (total : ∀ a b, le a b = true ∨ le b a = true)
    (trans : ∀ a b c, le a b = true → le b c = true → le a c = true) (as : List α) :
    sortStable le as = as.mergeSort le := by
  have total' (a b : α) : (le a b || le b a) = true := by
    rw [Bool.or_eq_true]
    exact total a b
  induction as with
  | nil => rw [List.mergeSort_nil]; rfl
  | cons a as ih =>
    obtain ⟨before, behind, hsorted, hrest, hbefore⟩ := List.mergeSort_cons trans total' a as
    have hbehind : ∀ b ∈ behind, le a b = true := by
      have hpair := List.pairwise_mergeSort trans total' (a :: as)
      rw [hsorted, List.pairwise_append] at hpair
      exact (List.pairwise_cons.mp hpair.2.1).1
    change insertStable le a (sortStable le as) = _
    rw [ih, hrest, hsorted, insertStable_append, insertStable_eq_cons hbehind]
    intro b hb
    rw [← Bool.not_eq_true']
    exact hbefore b hb

/-- What the comparison does not see may be changed before or after a list is sorted. -/
theorem sortStable_map {g : α → α} (h : ∀ a b, le (g a) (g b) = le a b) (as : List α) :
    sortStable le (as.map g) = (sortStable le as).map g := by
  have hinsert (a : α) (bs : List α) :
      insertStable le (g a) (bs.map g) = (insertStable le a bs).map g := by
    induction bs with
    | nil => rfl
    | cons b bs ih =>
      rw [List.map_cons, insertStable, insertStable, h, ih]
      split <;> rfl
  induction as with
  | nil => rfl
  | cons a as ih =>
    change insertStable le (g a) (sortStable le (as.map g)) = _
    rw [ih, hinsert]
    rfl

end Sorting

namespace Finding

/-- The order of findings, with starts and lengths written out. -/
theorem precedes_iff (a b : Finding) : a.precedes b = true ↔
    a.start < b.start ∨ a.start = b.start ∧ b.stop - b.start ≤ a.stop - a.start := by
  simp only [precedes, Bool.or_eq_true, Bool.and_eq_true, decide_eq_true_eq]

theorem precedes_refl (a : Finding) : a.precedes a = true := by
  rw [precedes_iff]
  omega

theorem precedes_total (a b : Finding) : a.precedes b = true ∨ b.precedes a = true := by
  simp only [precedes_iff]
  omega

theorem precedes_trans (a b c : Finding) (hab : a.precedes b = true)
    (hbc : b.precedes c = true) : a.precedes c = true := by
  rw [precedes_iff] at hab hbc ⊢
  omega

/-- Two findings overlap if each starts before the other ends. -/
theorem overlaps_iff (a b : Finding) :
    a.overlaps b = true ↔ a.start < b.stop ∧ b.start < a.stop := by
  simp only [overlaps, Location.overlaps, start, stop, Bool.and_eq_true, decide_eq_true_eq]

/-- Sorting orders any findings. -/
theorem pairwise_sort (fs : List Finding) :
    (sort fs).Pairwise fun a b => a.precedes b = true :=
  pairwise_sortStable precedes_total precedes_trans fs

/-- Sorted findings precede those behind them. -/
theorem precedes_of_sublist_sort {f g : Finding} {fs : List Finding}
    (h : [f, g].Sublist (sort fs)) : f.precedes g = true :=
  List.rel_of_pairwise_cons ((pairwise_sort fs).sublist h) (List.mem_singleton_self g)

/-- Sorting once is enough. -/
theorem sort_sort (fs : List Finding) : sort (sort fs) = sort fs :=
  sortStable_eq_self (pairwise_sort fs)

/-- Findings that were put in order are resolved as they were before. -/
theorem resolve_sort (fs : List Finding) : resolve (sort fs) = resolve fs := by
  rw [resolve, sort_sort, resolve]

/-- Leaving findings out keeps the others in order. -/
theorem filter_sort (p : Finding → Bool) (fs : List Finding) :
    (sort fs).filter p = sort (fs.filter p) :=
  filter_sortStable precedes_total precedes_trans p fs

@[simp] theorem mem_sort {f : Finding} {fs : List Finding} : f ∈ sort fs ↔ f ∈ fs :=
  (perm_sortStable precedes fs).mem_iff

/-- The pass behind a finding that precedes everything left: what it keeps starts behind that
finding, and nothing kept reaches into what is kept later. The finding kept last starts no later
than those left, so only its end can reach into one of them. -/
theorem keepApart_apart (last : Option Finding) {fs : List Finding}
    (hpos : ∀ f ∈ fs, f.start < f.stop)
    (hsorted : fs.Pairwise fun a b => a.precedes b = true)
    (hlast : ∀ l ∈ last, ∀ f ∈ fs, l.precedes f = true) :
    (∀ l ∈ last, ∀ f ∈ keepApart last fs, l.stop ≤ f.start) ∧
      (keepApart last fs).Pairwise fun a b => a.stop ≤ b.start := by
  induction fs generalizing last with
  | nil => simp only [keepApart, List.not_mem_nil, false_implies, implies_true,
      List.Pairwise.nil, and_self]
  | cons f fs ih =>
    obtain ⟨hf, hfs⟩ := List.pairwise_cons.mp hsorted
    have hposTail : ∀ g ∈ fs, g.start < g.stop := fun g hg => hpos g (List.mem_cons_of_mem f hg)
    rw [keepApart]
    by_cases hover : (last.any fun l => l.overlaps f) = true
    · rw [if_pos hover]
      exact ih last hposTail hfs fun l hl g hg => hlast l hl g (List.mem_cons_of_mem f hg)
    · rw [if_neg hover]
      have hfpos := hpos f (List.mem_cons_self ..)
      have hclear : ∀ l ∈ last, l.stop ≤ f.start := by
        intro l hl
        have hlf := (precedes_iff l f).mp (hlast l hl f (List.mem_cons_self ..))
        have hno : ¬ l.overlaps f = true := by
          intro h
          exact hover (by rw [Option.mem_def.mp hl]; exact h)
        rw [overlaps_iff] at hno
        omega
      obtain ⟨hbehind, hpair⟩ := ih (some f) hposTail hfs (by
        intro l hl g hg
        cases Option.mem_some_iff.mp hl
        exact hf g hg)
      have hnext : ∀ g ∈ keepApart (some f) fs, f.stop ≤ g.start :=
        hbehind f (Option.mem_some_self f)
      refine ⟨?_, List.pairwise_cons.mpr ⟨hnext, hpair⟩⟩
      intro l hl g hg
      have hl' := hclear l hl
      rcases List.mem_cons.mp hg with rfl | hg
      · exact hl'
      · have hg' := hnext g hg
        omega

/-- The pass over a second part goes on behind what it kept last of the first. -/
theorem keepApart_append (last : Option Finding) (fs gs : List Finding) :
    keepApart last (fs ++ gs) =
      keepApart last fs ++ keepApart ((keepApart last fs).getLast?.or last) gs := by
  induction fs generalizing last with
  | nil => rfl
  | cons f fs ih =>
    rw [List.cons_append, keepApart, keepApart]
    split
    · exact ih last
    · rw [ih, List.cons_append, List.getLast?_cons]
      cases (keepApart (some f) fs).getLast? <;> rfl

/-- Where the pass drops a finding, it overlaps the one kept last. -/
theorem exists_split_of_count_lt {last : Option Finding} {f : Finding} {fs : List Finding}
    (h : (keepApart last fs).count f < fs.count f) :
    ∃ gs hs, fs = gs ++ f :: hs ∧
      (((keepApart last gs).getLast?.or last).any fun l => l.overlaps f) = true := by
  induction fs generalizing last with
  | nil => exact absurd h (Nat.not_lt_zero _)
  | cons g fs ih =>
    rw [keepApart] at h
    by_cases hover : (last.any fun l => l.overlaps g) = true
    · rw [if_pos hover] at h
      by_cases hfg : g = f
      · subst hfg
        exact ⟨[], fs, rfl, hover⟩
      · rw [List.count_cons_of_ne hfg] at h
        obtain ⟨gs, hs, rfl, hlast⟩ := ih h
        refine ⟨g :: gs, hs, rfl, ?_⟩
        rwa [keepApart, if_pos hover]
    · rw [if_neg hover, List.count_cons, List.count_cons, Nat.add_lt_add_iff_right] at h
      obtain ⟨gs, hs, rfl, hlast⟩ := ih h
      refine ⟨g :: gs, hs, rfl, ?_⟩
      rw [keepApart, if_neg hover, List.getLast?_cons]
      cases hend : (keepApart (some g) gs).getLast? <;> rwa [hend] at hlast

/-- What neither order nor overlaps see may be changed before or after overlaps are resolved. -/
theorem resolve_map {g : Finding → Finding} (hprecedes : ∀ a b, (g a).precedes (g b) = a.precedes b)
    (hoverlaps : ∀ a b, (g a).overlaps (g b) = a.overlaps b) (fs : List Finding) :
    resolve (fs.map g) = (resolve fs).map g := by
  have hpass (last : Option Finding) (fs : List Finding) :
      keepApart (last.map g) (fs.map g) = (keepApart last fs).map g := by
    induction fs generalizing last with
    | nil => rfl
    | cons f fs ih =>
      have hany : ((last.map g).any fun l => l.overlaps (g f)) =
          last.any fun l => l.overlaps f := by
        cases last with
        | none => rfl
        | some l => exact hoverlaps l f
      rw [List.map_cons, keepApart, keepApart, hany, ih last]
      split
      · rfl
      · exact congrArg (g f :: ·) (ih (some f))
  rw [resolve, resolve, sort, sortStable_map hprecedes]
  exact hpass none _

/-- What is kept was proposed. -/
theorem mem_of_mem_resolve {f : Finding} {fs : List Finding} (h : f ∈ resolve fs) : f ∈ fs :=
  mem_sort.mp ((sublist_keepApart none (sort fs)).subset h)

/-- The kept findings stand in order. -/
theorem pairwise_precedes_resolve (fs : List Finding) :
    (resolve fs).Pairwise fun a b => a.precedes b = true :=
  (pairwise_sort fs).sublist (sublist_keepApart none (sort fs))

/-- Of findings that are not empty, the kept ones are disjoint. -/
theorem pairwise_disjoint_resolve {fs : List Finding} (hpos : ∀ f ∈ fs, f.start < f.stop) :
    (resolve fs).Pairwise fun a b => a.stop ≤ b.start :=
  (keepApart_apart none (fun f hf => hpos f (mem_sort.mp hf)) (pairwise_sort fs)
    (fun _ hl => absurd hl (Option.not_mem_none _))).2

/-- A finding that is not kept as often as it was proposed overlaps a kept one. That one precedes
it, and no other is kept in between. -/
theorem exists_overlaps_of_count_lt {f : Finding} {fs : List Finding}
    (h : (resolve fs).count f < fs.count f) :
    ∃ g ∈ resolve fs, g.overlaps f = true ∧ [g, f].Sublist (sort fs) ∧
      ∀ k ∈ resolve fs, k.precedes g = true ∨ f.precedes k = true := by
  rw [← (perm_sortStable precedes fs).count_eq f] at h
  obtain ⟨gs, hs, hsplit, hlast⟩ := exists_split_of_count_lt h
  obtain ⟨g, hg, hover⟩ := Option.any_eq_true _ _ |>.mp hlast
  rw [Option.or_none] at hg
  have hkept : resolve fs = keepApart none gs ++ keepApart (some g) (f :: hs) := by
    rw [resolve, hsplit, keepApart_append, hg]
    rfl
  obtain ⟨before, hbefore⟩ := List.getLast?_eq_some_iff.mp hg
  have hmem : g ∈ keepApart none gs := List.mem_of_getLast? hg
  refine ⟨g, by rw [hkept]; exact List.mem_append_left _ hmem, hover, ?_, fun k hk => ?_⟩
  · have hfirst : [g].Sublist gs :=
      List.singleton_sublist.mpr ((sublist_keepApart none gs).subset hmem)
    rw [hsplit]
    exact hfirst.append (List.singleton_sublist.mpr List.mem_cons_self)
  · have hsorted := pairwise_sort fs
    rw [hsplit] at hsorted
    obtain ⟨hgs, hrest, -⟩ := List.pairwise_append.mp hsorted
    rw [hkept, List.mem_append] at hk
    rcases hk with hk | hk
    · have hpair := hgs.sublist (sublist_keepApart none gs)
      rw [hbefore] at hk hpair
      rcases List.mem_append.mp hk with hk | hk
      · exact .inl ((List.pairwise_append.mp hpair).2.2 k hk g (List.mem_singleton_self g))
      · rw [List.mem_singleton.mp hk]
        exact .inl (precedes_refl g)
    · rcases List.mem_cons.mp ((sublist_keepApart (some g) (f :: hs)).subset hk) with rfl | hk
      · exact .inr (precedes_refl k)
      · exact .inr ((List.pairwise_cons.mp hrest).1 k hk)

/-- A finding that is not kept occurs less often in what is kept. -/
theorem count_lt_of_not_mem_resolve {f : Finding} {fs : List Finding} (hf : f ∈ fs)
    (h : f ∉ resolve fs) : (resolve fs).count f < fs.count f := by
  rw [List.count_eq_zero_of_not_mem h]
  exact List.count_pos_iff.mpr hf

/-- Each finding that is not kept overlaps a kept one that precedes it. -/
theorem exists_overlaps_of_not_mem_resolve {f : Finding} {fs : List Finding} (hf : f ∈ fs)
    (h : f ∉ resolve fs) :
    ∃ g ∈ resolve fs, g.overlaps f = true ∧ g.precedes f = true := by
  obtain ⟨g, hg, hover, hpair, -⟩ :=
    exists_overlaps_of_count_lt (count_lt_of_not_mem_resolve hf h)
  exact ⟨g, hg, hover, precedes_of_sublist_sort hpair⟩

end Finding

end Gloss
