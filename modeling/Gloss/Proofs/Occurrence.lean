import Gloss.Proofs.Text.Line
import Gloss.Text.Occurrence

/-!
# Where occurrences come from

A search is one pass, and all that it reports was recognised at the offset it is
reported at, in the text from there on and behind the character that stands
there. Whatever the recogniser, a reported stretch is not empty and ends within
the text, and reported stretches are disjoint and in order. Unless it stops at its
limit, a search accounts for each position: nothing is recognised there, or it lies
in a stretch that is reported or passed over. What it reports before the limit is the
same for all limits. Where nothing is recognised, it goes on with the next character, and
elsewhere behind what is recognised. A search for the first success looks at word
boundaries only.
-/

namespace Gloss

/-- An occurrence in a text that begins later. -/
def Occurrence.later {α : Type} (k : Nat) (o : Occurrence α) : Occurrence α :=
  { o with start := o.start + k, stop := o.stop + k }

namespace Text

variable {α : Type} {r : Recogniser α}

/-- The character before position `i` of a text that stands behind `prev`. -/
def before (prev : Option Char) (t : Text) : (i : Nat) → Option Char
  | 0 => prev
  | i + 1 => t[i]?

theorem before_cons (prev : Option Char) (c : Char) (t : Text) (i : Nat) :
    before prev (c :: t) (i + 1) = before (some c) t i := by
  cases i <;> rfl

/-- An occurrence was recognised at position `i` of a text that begins at offset `pos`. -/
structure ReportedAt (r : Recogniser α) (pos : Nat) (prev : Option Char) (t : Text)
    (o : Occurrence α) (i : Nat) (rest : Text) : Prop where
  /-- The position lies in the text. -/
  bound : i < t.length
  /-- The recogniser reports the value there. -/
  reported : r (before prev t i) (t.drop i) = some (some o.value, rest)
  /-- The occurrence starts there. -/
  start : o.start = pos + i
  /-- It covers all that the recogniser leaves behind, and one character at least. -/
  stop : o.stop = pos + i + 1 + (t.length - (i + 1) - rest.length)

/-- What is reported in a tail is reported in the whole text. -/
theorem ReportedAt.cons {pos : Nat} {prev : Option Char} {c : Char} {t : Text}
    {o : Occurrence α} {i : Nat} {rest : Text}
    (h : ReportedAt r (pos + 1) (some c) t o i rest) :
    ReportedAt r pos prev (c :: t) o (i + 1) rest where
  bound := Nat.succ_lt_succ h.bound
  reported := by
    rw [before_cons, List.drop_succ_cons]
    exact h.reported
  start := by
    have := h.start
    omega
  stop := by
    have := h.stop
    rw [List.length_cons]
    omega

/-- Whatever a search reports was recognised where it is reported. -/
theorem exists_reportedAt_of_mem_search {limit passed pos : Nat} {prev : Option Char} {t : Text}
    {o : Occurrence α} (h : o ∈ search r limit passed pos prev t) :
    ∃ i rest, ReportedAt r pos prev t o i rest := by
  fun_induction search r limit passed pos prev t with
  | case1 | case2 => exact absurd h List.not_mem_nil
  | case3 limit passed pos prev c t ih =>
    obtain ⟨i, rest, hi⟩ := ih h
    exact ⟨i + 1, rest, hi.cons⟩
  | case4 limit pos prev c t hr ih =>
    obtain ⟨i, rest, hi⟩ := ih h
    exact ⟨i + 1, rest, hi.cons⟩
  | case5 limit pos prev c t rest passed hr ih =>
    obtain ⟨i, rest', hi⟩ := ih h
    exact ⟨i + 1, rest', hi.cons⟩
  | case6 limit pos prev c t rest passed value hr ih =>
    rcases List.mem_cons.mp h with rfl | h
    · exact ⟨0, rest, Nat.zero_lt_succ _, hr, rfl, rfl⟩
    · obtain ⟨i, rest', hi⟩ := ih h
      exact ⟨i + 1, rest', hi.cons⟩

/-- Whatever a search for all occurrences reports was recognised where it is reported. -/
theorem exists_reportedAt_of_mem_occurrences {t : Text} {o : Occurrence α}
    (h : o ∈ occurrences r t) : ∃ i rest, ReportedAt r 0 none t o i rest :=
  exists_reportedAt_of_mem_search h

/-- A reported stretch is not empty and lies in the text. -/
theorem ReportedAt.range {prev : Option Char} {t : Text} {o : Occurrence α} {i pos : Nat}
    {rest : Text} (h : ReportedAt r pos prev t o i rest) :
    o.start < o.stop ∧ o.stop ≤ pos + t.length := by
  obtain ⟨hbound, -, hstart, hstop⟩ := h
  omega

/-- A reported stretch holds what the recogniser takes off the text there, and nothing else. -/
theorem ReportedAt.slice_eq {prev : Option Char} {t u : Text} {o : Occurrence α} {i : Nat}
    {rest : Text} (h : ReportedAt r 0 prev t o i rest) (htext : t.drop i = u ++ rest)
    (hne : u ≠ []) : slice t o.start o.stop = u := by
  obtain ⟨hbound, -, hstart, hstop⟩ := h
  have hpos := List.length_pos_iff.mpr hne
  have hlength := congrArg List.length htext
  rw [List.length_drop, List.length_append] at hlength
  obtain rfl : o.start = i := by omega
  rw [show o.stop = o.start + u.length by omega]
  exact (slice_of_drop_eq htext).1

/-- Nothing is reported in what belongs to an earlier stretch. -/
theorem le_start_of_mem_search {limit passed pos : Nat} {prev : Option Char} {t : Text}
    {o : Occurrence α} (h : o ∈ search r limit passed pos prev t) : pos + passed ≤ o.start := by
  fun_induction search r limit passed pos prev t with
  | case1 | case2 => exact absurd h List.not_mem_nil
  | case3 limit passed pos prev c t ih =>
    have := ih h
    omega
  | case4 limit pos prev c t hr ih =>
    have := ih h
    omega
  | case5 limit pos prev c t rest passed hr ih =>
    have := ih h
    omega
  | case6 limit pos prev c t rest passed value hr ih =>
    rcases List.mem_cons.mp h with rfl | h
    · exact Nat.le_refl _
    · have := ih h
      omega

/-- Nothing is found once the whole text is passed over. -/
theorem search_eq_nil {limit passed pos : Nat} {prev : Option Char} {t : Text}
    (h : t.length ≤ passed) : search r limit passed pos prev t = [] := by
  refine List.eq_nil_iff_forall_not_mem.mpr fun o ho => ?_
  have hstart := le_start_of_mem_search ho
  obtain ⟨i, rest, hi⟩ := exists_reportedAt_of_mem_search ho
  have := hi.range
  omega

/-- A text that is recognised as a whole is the only occurrence in it. -/
theorem occurrences_eq_singleton {t : Text} {value : α} (hne : t ≠ [])
    (h : r none t = some (some value, [])) : occurrences r t = [⟨0, t.length, value⟩] := by
  obtain ⟨c, t, rfl⟩ := List.exists_cons_of_ne_nil hne
  rw [occurrences, firstOccurrences, List.length_cons, search, h]
  simp only [List.length_nil, Nat.sub_zero]
  rw [search_eq_nil (Nat.le_refl _), Nat.zero_add, Nat.add_comm]

/-- The reported stretches are disjoint and in order. -/
theorem pairwise_search {limit passed pos : Nat} {prev : Option Char} {t : Text} :
    (search r limit passed pos prev t).Pairwise fun a b => a.stop ≤ b.start := by
  fun_induction search r limit passed pos prev t with
  | case1 | case2 => exact .nil
  | case3 limit passed pos prev c t ih => exact ih
  | case4 limit pos prev c t hr ih => exact ih
  | case5 limit pos prev c t rest passed hr ih => exact ih
  | case6 limit pos prev c t rest passed value hr ih =>
    exact .cons (fun o ho => le_start_of_mem_search ho) ih

/-- From position `j` of a text a recogniser passes over a stretch in which position `i` lies. -/
structure PassedOver (r : Recogniser α) (prev : Option Char) (t : Text) (i j : Nat)
    (rest : Text) : Prop where
  /-- The stretch does not begin behind the position. -/
  start : j ≤ i
  /-- It is recognised, with nothing to report. -/
  recognised : r (before prev t j) (t.drop j) = some (none, rest)
  /-- It ends behind the position. -/
  stop : i < j + 1 + (t.length - (j + 1) - rest.length)

/-- What is passed over is so in a text with one more character in front. -/
theorem PassedOver.cons {prev : Option Char} {c : Char} {t : Text} {i j : Nat} {rest : Text}
    (h : PassedOver r (some c) t i j rest) : PassedOver r prev (c :: t) (i + 1) (j + 1) rest where
  start := Nat.succ_le_succ h.start
  recognised := by
    rw [before_cons, List.drop_succ_cons]
    exact h.recognised
  stop := by
    have := h.stop
    rw [List.length_cons]
    omega

/-- What a search has to do with position `i` of a text: nothing is recognised there, or it lies
in an occurrence, or in a stretch that is passed over. -/
def Accounted (r : Recogniser α) (os : List (Occurrence α)) (pos : Nat) (prev : Option Char)
    (t : Text) (i : Nat) : Prop :=
  r (before prev t i) (t.drop i) = none ∨ (∃ o ∈ os, o.start ≤ pos + i ∧ pos + i < o.stop) ∨
    ∃ j rest, PassedOver r prev t i j rest

/-- What is accounted for is so in a text with one more character in front. -/
theorem Accounted.cons {os os' : List (Occurrence α)} {pos i : Nat} {prev : Option Char} {c : Char}
    {t : Text} (h : Accounted r os (pos + 1) (some c) t i) (hos : os ⊆ os') :
    Accounted r os' pos prev (c :: t) (i + 1) := by
  rcases h with h | ⟨o, ho, hstart, hstop⟩ | ⟨j, rest, h⟩
  · rw [Accounted, before_cons, List.drop_succ_cons]
    exact .inl h
  · exact .inr (.inl ⟨o, hos ho, by omega, by omega⟩)
  · exact .inr (.inr ⟨j + 1, rest, h.cons⟩)

/-- Unless it stops at its limit, a search accounts for each position. -/
theorem search_accounts {limit passed pos i : Nat} {prev : Option Char} {t : Text}
    (hlimit : (search r limit passed pos prev t).length < limit) (hpassed : passed ≤ i)
    (hi : i < t.length) : Accounted r (search r limit passed pos prev t) pos prev t i := by
  induction t generalizing limit passed pos prev i with
  | nil => exact absurd hi (Nat.not_lt_zero i)
  | cons c t ih =>
    obtain ⟨limit, rfl⟩ : ∃ n, limit = n + 1 := ⟨limit - 1, by omega⟩
    cases passed with
    | succ passed =>
      rw [search] at hlimit ⊢
      obtain ⟨i, rfl⟩ : ∃ k, i = k + 1 := ⟨i - 1, by omega⟩
      exact (ih hlimit (by omega) (Nat.lt_of_succ_lt_succ hi)).cons (List.Subset.refl _)
    | zero =>
      rw [search] at hlimit ⊢
      rcases hr : r prev (c :: t) with _ | ⟨_ | value, rest⟩
      · simp only [hr] at hlimit ⊢
        cases i with
        | zero => exact .inl hr
        | succ i =>
          exact (ih hlimit (Nat.zero_le i) (Nat.lt_of_succ_lt_succ hi)).cons (List.Subset.refl _)
      · simp only [hr] at hlimit ⊢
        by_cases hstop : i < 1 + (t.length - rest.length)
        · refine .inr (.inr ⟨0, rest, Nat.zero_le i, hr, ?_⟩)
          rw [List.length_cons]
          omega
        · obtain ⟨i, rfl⟩ : ∃ k, i = k + 1 := ⟨i - 1, by omega⟩
          exact (ih hlimit (by omega) (Nat.lt_of_succ_lt_succ hi)).cons (List.Subset.refl _)
      · simp only [hr, List.length_cons, Nat.add_lt_add_iff_right] at hlimit ⊢
        by_cases hstop : i < 1 + (t.length - rest.length)
        · exact .inr (.inl ⟨_, List.mem_cons_self, Nat.le_add_right _ _, by dsimp only; omega⟩)
        · obtain ⟨i, rfl⟩ : ∃ k, i = k + 1 := ⟨i - 1, by omega⟩
          exact (ih hlimit (by omega) (Nat.lt_of_succ_lt_succ hi)).cons
            (List.subset_cons_self _ _)

/-- The search reports no more than one occurrence for each character, so no limit that allows
for that many plays a part. -/
theorem search_limit {limit limit' passed pos : Nat} {prev : Option Char} {t : Text}
    (h : t.length ≤ limit) (h' : t.length ≤ limit') :
    search r limit passed pos prev t = search r limit' passed pos prev t := by
  induction t generalizing limit limit' passed pos prev with
  | nil => rw [search, search]
  | cons c t ih =>
    obtain ⟨limit, rfl⟩ : ∃ n, limit = n + 1 := ⟨limit - 1, by rw [List.length_cons] at h; omega⟩
    obtain ⟨limit', rfl⟩ : ∃ n, limit' = n + 1 :=
      ⟨limit' - 1, by rw [List.length_cons] at h'; omega⟩
    rw [List.length_cons, Nat.add_le_add_iff_right] at h h'
    cases passed with
    | succ passed =>
      rw [search, search]
      exact ih (by omega) (by omega)
    | zero =>
      rw [search, search]
      rcases r prev (c :: t) with _ | ⟨_ | value, rest⟩
      · exact ih (by omega) (by omega)
      · exact ih (by omega) (by omega)
      · exact congrArg (_ :: ·) (ih h h')

/-- A smaller limit only ends the search earlier: what it reports is reported first under a larger
one. Both searches stand at one offset, and only a report brings them nearer to their limits. -/
theorem search_take {limit limit' passed pos : Nat} {prev : Option Char} {t : Text}
    (h : limit ≤ limit') :
    search r limit passed pos prev t = (search r limit' passed pos prev t).take limit := by
  induction t generalizing limit limit' passed pos prev with
  | nil => rw [search, search, List.take_nil]
  | cons c t ih =>
    cases limit with
    | zero => rw [search, List.take_zero]
    | succ limit =>
      obtain ⟨limit', rfl⟩ : ∃ n, limit' = n + 1 := ⟨limit' - 1, by omega⟩
      cases passed with
      | succ passed =>
        rw [search, search]
        exact ih h
      | zero =>
        rw [search, search]
        rcases r prev (c :: t) with _ | ⟨_ | value, rest⟩
        · exact ih h
        · exact ih h
        · exact congrArg (_ :: ·) (ih (Nat.le_of_succ_le_succ h))

section From

variable {t : Text} {limit passed pos i k : Nat} {prev : Option Char}

end From

/-- In a text that begins later all is found later. -/
theorem search_add (k : Nat) {limit passed pos : Nat} {prev : Option Char} {t : Text} :
    search r limit passed (pos + k) prev t =
      (search r limit passed pos prev t).map (Occurrence.later k) := by
  fun_induction search r limit passed pos prev t with
  | case1 => rw [search]; rfl
  | case2 => rw [search]; rfl
  | case3 limit passed pos prev c t ih => rw [search, Nat.add_right_comm, ih]
  | case4 limit pos prev c t hr ih =>
    rw [search, hr]
    dsimp only
    rw [Nat.add_right_comm, ih]
  | case5 limit pos prev c t rest passed hr ih =>
    rw [search, hr]
    dsimp only
    rw [Nat.add_right_comm, ih]
  | case6 limit pos prev c t rest passed value hr ih =>
    rw [search, hr]
    dsimp only
    rw [List.map_cons, ← ih, Occurrence.later, Nat.add_right_comm pos k 1,
      Nat.add_right_comm (pos + 1) k]

/-- To a recogniser, a line feed is like the beginning of a text: nothing is recognised at it, and
behind it all is recognised as where a text begins. -/
structure BeginsBehindBreak (r : Recogniser α) : Prop where
  /-- Nothing is recognised at a line feed. -/
  at_break (prev : Option Char) (t : Text) : r prev ('\n' :: t) = none
  /-- Behind it the same is recognised as without it. -/
  behind (t : Text) : r (some '\n') t = r none t

/-- A line feed in front of a text moves what is found in it. -/
theorem firstOccurrences_cons_break (hr : BeginsBehindBreak r) (limit : Nat) (t : Text) :
    firstOccurrences r limit ('\n' :: t) =
      (firstOccurrences r limit t).map (Occurrence.later 1) := by
  have hbehind (pos : Nat) : search r limit 0 pos (some '\n') t = search r limit 0 pos none t := by
    cases t with
    | nil => rw [search, search]
    | cons c t =>
      cases limit with
      | zero => rw [search, search]
      | succ limit => rw [search, search, hr.behind]
  rw [firstOccurrences, firstOccurrences, ← search_add]
  cases limit with
  | zero =>
    cases t with
    | nil => rfl
    | cons c t => rw [search, search]
  | succ limit =>
    rw [search, hr.at_break]
    exact hbehind (0 + 1)

/-- A line feed in front of a text moves all that occurs in it. -/
theorem occurrences_cons_break (hr : BeginsBehindBreak r) (t : Text) :
    occurrences r ('\n' :: t) = (occurrences r t).map (Occurrence.later 1) := by
  have hlimit : firstOccurrences r (t.length + 1) t = occurrences r t :=
    search_limit (Nat.le_succ _) (Nat.le_refl _)
  rw [occurrences, List.length_cons, firstOccurrences_cons_break hr, hlimit]

/-- A reader stops at a character: it finds nothing in an empty text, and whatever it reads in
front of the character is the same for all texts from there on. -/
structure StopsAt {β : Type} (c : Char) (read : Text → Option (β × Text)) : Prop where
  /-- Nothing is read where the text ends. -/
  nil : read [] = none
  /-- What is read in front of the character leaves it behind. -/
  append (s t : Text) : read (s ++ c :: t) = (read s).map fun (x, rest) => (x, rest ++ c :: t)

/-- Nothing is read from the character itself. -/
theorem StopsAt.cons {β : Type} {c : Char} {read : Text → Option (β × Text)}
    (h : StopsAt c read) (t : Text) : read (c :: t) = none := by
  rw [← List.nil_append (c :: t), h.append, h.nil, Option.map_none]

/-- A search falls into two at a character that its recogniser stops at. -/
theorem search_append {c : Char} (hr : ∀ prev, StopsAt c (r prev)) {s t : Text}
    {limit limit' limit'' passed pos : Nat} {prev : Option Char} (hpassed : passed ≤ s.length)
    (h : s.length + 1 + t.length ≤ limit) (h' : s.length ≤ limit') (h'' : t.length ≤ limit'') :
    search r limit passed pos prev (s ++ c :: t) =
      search r limit' passed pos prev s ++
        search r limit'' 0 (pos + s.length + 1) (some c) t := by
  induction s generalizing limit limit' passed pos prev with
  | nil =>
    obtain ⟨limit, rfl⟩ : ∃ n, limit = n + 1 := ⟨limit - 1, by omega⟩
    obtain rfl : passed = 0 := by simpa using hpassed
    rw [List.nil_append, search, search, (hr prev).cons, List.nil_append]
    exact search_limit (by omega) h''
  | cons d s ih =>
    rw [List.length_cons] at h h' hpassed ⊢
    obtain ⟨limit, rfl⟩ : ∃ n, limit = n + 1 := ⟨limit - 1, by omega⟩
    obtain ⟨limit', rfl⟩ : ∃ n, limit' = n + 1 := ⟨limit' - 1, by omega⟩
    rw [← Nat.add_assoc, Nat.add_right_comm pos]
    cases passed with
    | succ passed =>
      rw [List.cons_append, search, search]
      exact ih (by omega) (by omega) (by omega)
    | zero =>
      rw [List.cons_append, search, search, ← List.cons_append, (hr prev).append]
      rcases r prev (d :: s) with _ | ⟨_ | value, rest⟩
      · exact ih (by omega) (by omega) (by omega)
      · simp only [Option.map_some, List.length_append, Nat.add_sub_add_right]
        exact ih (by omega) (by omega) (by omega)
      · simp only [Option.map_some, List.length_append, Nat.add_sub_add_right, List.cons_append]
        exact congrArg (_ :: ·) (ih (by omega) (by omega) (by omega))

/-- A text is empty or ends with a character. -/
def EndsAt (c : Char) (t : Text) : Prop := t = [] ∨ ∃ u, t = u ++ [c]

/-- A text is empty or begins with a character. -/
def BeginsAt (c : Char) (t : Text) : Prop := t = [] ∨ ∃ u, t = c :: u

/-- Between two characters that its recogniser stops at, a search goes its own way: what is
found before and behind them is the same for all texts of one length that stand there. -/
theorem occurrences_between {c : Char} (hr : ∀ prev, StopsAt c (r prev)) {s t : Text}
    (hs : EndsAt c s) (ht : BeginsAt c t) (k : Nat) :
    ∃ before behind prev, (∀ o ∈ before, o.stop ≤ s.length) ∧
      (∀ o ∈ behind, s.length + k ≤ o.start) ∧
      ∀ m : Text, m.length = k →
        occurrences r (s ++ (m ++ t)) = before ++ (search r k 0 s.length prev m ++ behind) := by
  have hright (pos : Nat) (prev : Option Char) :
      ∃ behind : List (Occurrence α), (∀ o ∈ behind, pos + k ≤ o.start) ∧
        ∀ m : Text, m.length = k →
          search r (m ++ t).length 0 pos prev (m ++ t) = search r k 0 pos prev m ++ behind := by
    rcases ht with rfl | ⟨u, rfl⟩
    · refine ⟨[], fun o ho => absurd ho List.not_mem_nil, fun m hm => ?_⟩
      rw [List.append_nil, List.append_nil, hm]
    · refine ⟨search r u.length 0 (pos + k + 1) (some c) u, fun o ho => ?_, fun m hm => ?_⟩
      · obtain ⟨i, rest, hi⟩ := exists_reportedAt_of_mem_search ho
        have := hi.start
        omega
      · subst hm
        refine search_append hr (Nat.zero_le _) ?_ (Nat.le_refl _) (Nat.le_refl _)
        rw [List.length_append, List.length_cons]
        omega
  rcases hs with rfl | ⟨u, rfl⟩
  · obtain ⟨behind, hstart, hall⟩ := hright 0 none
    exact ⟨[], behind, none, fun o ho => absurd ho List.not_mem_nil, by simpa using hstart,
      fun m hm => hall m hm⟩
  · obtain ⟨behind, hstart, hall⟩ := hright (0 + u.length + 1) (some c)
    refine ⟨search r u.length 0 0 none u, behind, some c, fun o ho => ?_, ?_, fun m hm => ?_⟩
    · obtain ⟨i, rest, hi⟩ := exists_reportedAt_of_mem_search ho
      have := hi.range.2
      rw [List.length_append]
      omega
    · simpa using hstart
    · rw [occurrences, firstOccurrences, List.append_assoc, List.singleton_append,
        search_append hr (Nat.zero_le _) _ (Nat.le_refl _) (Nat.le_refl (m ++ t).length),
        hall m hm]
      · simp
      · simp only [List.length_append, List.length_cons]
        omega

section Boundary

variable {f : Text → Option α} {prev : Option Char} {value : α} {s t : Text}

/-- If whatever succeeds before a boundary gives the same as the boundary itself, then the first
success is that. -/
theorem firstAtBoundary?_append (ht : t ≠ []) (hf : f t = some value)
    (hboundary : isWordBoundary (s.getLast?.or prev) t.head? = true)
    (hs : ∀ a b w, s = a ++ b → f (b ++ t) = some w → w = value) :
    firstAtBoundary? f prev (s ++ t) = some value := by
  induction s generalizing prev with
  | nil =>
    cases t with
    | nil => exact absurd rfl ht
    | cons c t =>
      have hc : isWordBoundary prev (some c) = true := hboundary
      rw [List.nil_append, firstAtBoundary?, if_pos hc, hf]
  | cons c s ih =>
    have hrest : firstAtBoundary? f (some c) (s ++ t) = some value := by
      refine ih ?_ fun a b w hab => hs (c :: a) b w (congrArg (c :: ·) hab)
      cases s with
      | nil => exact hboundary
      | cons d s => rwa [List.getLast?_cons_cons] at hboundary
    rw [List.cons_append, firstAtBoundary?, hrest]
    split
    · rename_i w hw
      split at hw
      · rw [hs [] (c :: s) w rfl hw]
      · cases hw
    · rfl

end Boundary

end Text

end Gloss
