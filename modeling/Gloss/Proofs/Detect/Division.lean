import Gloss.Detect.Division
import Gloss.Proofs.Candidate
import Gloss.Proofs.Mask.Line
import Gloss.Proofs.Mask.Position
import Gloss.Proofs.Text.Word

/-!
# How divisions are found

A division is recognised in the text in front of any character that stops all tokens, and that
character stops the search. What the search finds in a source is what masking leaves visible,
without what a `//` or a quote of its line hides. A stretch that is blanked as a whole between
two asterisks has no visible division; a harmless one hides nothing either.
-/

namespace Gloss

namespace Text

variable {c : Char}

/-- Taking an identifier stops at any character that continues none. -/
theorem stopsAt_takeIdent? (hc : isIdentPart c = false) : StopsAt c takeIdent? where
  nil := rfl
  append s t := by
    cases s with
    | nil =>
      have hstart : isIdentStart c = false := by
        rw [isIdentPart, Bool.or_eq_false_iff] at hc
        exact hc.1
      rw [List.nil_append, takeIdent?, takeIdent?, hstart, if_neg Bool.false_ne_true]
      rfl
    | cons d s =>
      obtain ⟨htake, hdrop⟩ := span_append_cons hc s t
      rw [List.cons_append, takeIdent?, takeIdent?, htake, hdrop]
      split <;> rfl

/-- Taking a numeral stops at any character that continues no token. -/
theorem stopsAt_takeNumber? (hc : isTokenPart c = false) : StopsAt c takeNumber? where
  nil := rfl
  append s t := by
    rw [isTokenPart, Bool.or_eq_false_iff, decide_eq_false_iff_not, isIdentPart,
      Bool.or_eq_false_iff] at hc
    obtain ⟨⟨-, hdigit⟩, hpoint⟩ := hc
    obtain ⟨htake, hdrop⟩ := span_append_cons hdigit s t
    unfold takeNumber?
    rw [htake, hdrop]
    generalize s.takeWhile Char.isDigit = whole
    cases whole with
    | nil => rfl
    | cons d whole =>
      cases s.dropWhile Char.isDigit with
      | nil => simp [hpoint]
      | cons e u =>
        by_cases he : e = '.'
        · subst he
          obtain ⟨htake, hdrop⟩ := span_append_cons hdigit u t
          simp only [List.cons_append, htake, hdrop]
          cases u.takeWhile Char.isDigit <;> rfl
        · simp [he]

end Text

namespace Division

open Text

variable {c : Char}

/-- Taking digits stops at any character that is none. -/
theorem stopsAt_takeDigits? (hc : c.isDigit = false) : StopsAt c takeDigits? where
  nil := rfl
  append s t := by
    obtain ⟨htake, hdrop⟩ := span_append_cons hc s t
    rw [takeDigits?, takeDigits?, htake, hdrop]
    cases s.takeWhile Char.isDigit <;> rfl

/-- A token is an identifier or else a numeral. -/
theorem takeToken?_eq_or (t : Text) : takeToken? t = (takeIdent? t).or (takeNumber? t) := by
  unfold takeToken?
  cases takeIdent? t <;> rfl

/-- A whole token is an identifier, or else a numeral or its digits, whichever ends where a word
does. -/
theorem takeWholeToken?_eq_or (t : Text) : takeWholeToken? t =
    (takeIdent? t).or (((takeNumber? t).filter endsWord).or ((takeDigits? t).filter endsWord)) := by
  unfold takeWholeToken?
  cases takeIdent? t <;> cases (takeNumber? t).filter endsWord <;> rfl

/-- Two readers that stop at a character, one tried after the other, stop there. -/
theorem stopsAt_or {read read' : Text → Option (Text × Text)} (h : StopsAt c read)
    (h' : StopsAt c read') : StopsAt c fun t => (read t).or (read' t) where
  nil := by
    rw [h.nil, h'.nil, Option.none_or]
  append s t := by
    rw [h.append, h'.append]
    cases read s <;> rfl

/-- A reader that stops at a character still does so if it has to end where a word does. -/
theorem stopsAt_filter_endsWord {read : Text → Option (Text × Text)} (h : StopsAt c read)
    (hc : isIdentPart c = false) : StopsAt c fun t => (read t).filter endsWord where
  nil := by
    rw [h.nil, Option.filter_none]
  append s t := by
    have hends (x rest : Text) : endsWord (x, rest ++ c :: t) = endsWord (x, rest) := by
      cases rest with
      | nil => simp [endsWord, hc]
      | cons d rest => rfl
    rw [h.append]
    rcases read s with _ | ⟨x, rest⟩
    · rfl
    · simp only [Option.map_some, Option.filter, hends]
      split <;> rfl

/-- Taking a token stops at any character that continues none. -/
theorem stopsAt_takeToken? (hc : isTokenPart c = false) : StopsAt c takeToken? := by
  rw [funext takeToken?_eq_or]
  exact stopsAt_or (stopsAt_takeIdent? (Bool.or_eq_false_iff.mp hc).1) (stopsAt_takeNumber? hc)

/-- Taking a whole token stops at any character that continues none. -/
theorem stopsAt_takeWholeToken? (hc : isTokenPart c = false) : StopsAt c takeWholeToken? := by
  have hpart : isIdentPart c = false := (Bool.or_eq_false_iff.mp hc).1
  rw [funext takeWholeToken?_eq_or]
  exact stopsAt_or (stopsAt_takeIdent? hpart) (stopsAt_or
    (stopsAt_filter_endsWord (stopsAt_takeNumber? hc) hpart)
    (stopsAt_filter_endsWord (stopsAt_takeDigits? (Bool.or_eq_false_iff.mp hpart).2) hpart))

/-- No division reaches over a character that is neither layout, nor a slash, nor part of a
token. -/
theorem stopsAt_recognise (hc : isTokenPart c = false) (hlayout : isLayout c = false)
    (hslash : c ≠ '/') (prev : Option Char) : StopsAt c (recognise prev) where
  nil := by
    unfold recognise
    split <;> rfl
  append s t := by
    have hskip (u : Text) : skipLayout (u ++ c :: t) = skipLayout u ++ c :: t :=
      (span_append_cons hlayout u t).2
    unfold recognise
    split
    · rfl
    · rw [(stopsAt_takeToken? hc).append]
      rcases takeToken? s with _ | ⟨numerator, u⟩
      · rfl
      · simp only [Option.map_some, Option.bind_eq_bind, Option.bind_some, hskip]
        cases skipLayout u with
        | nil => simp [hslash]
        | cons d v =>
          by_cases hd : d = '/'
          · subst hd
            simp only [List.cons_append, hskip, (stopsAt_takeWholeToken? hc).append]
            cases takeWholeToken? (skipLayout v) <;> rfl
          · simp [hd]

/-- A division begins with a letter, an underscore or a digit. -/
theorem head_of_recognise_eq_some {prev : Option Char} {t rest : Text}
    {found : Option (Text × Text)} (h : recognise prev t = some (found, rest)) :
    t.head?.any isIdentPart = true := by
  have htoken : takeToken? t ≠ none := by
    intro hnone
    unfold recognise at h
    rw [hnone] at h
    split at h <;> cases h
  rw [takeToken?_eq_or] at htoken
  by_contra hhead
  rw [Bool.not_eq_true] at hhead
  have hstart : t.head?.any isIdentStart = false ∧ t.head?.any Char.isDigit = false := by
    cases t with
    | nil => exact ⟨rfl, rfl⟩
    | cons c t => exact Bool.or_eq_false_iff.mp hhead
  rw [takeIdent?_eq_none_iff.mpr hstart.1, takeNumber?_eq_none hstart.2] at htoken
  exact htoken rfl

/-- Whether an offset of a line stands before its comment and outside its quotes. -/
def admits (line : Text) (offset : Nat) : Bool :=
  (exclusions line).1.all (offset < ·) &&
    !(exclusions line).2.any fun (start, stop) => start ≤ offset && offset < stop

/-- Whether an offset of a source stands before the comment and outside the quotes of its
line. -/
def shown (source : Text) (offset : Nat) : Bool :=
  (lineAt? source offset).any fun (n, line) => admits line (offset - n)

/-- The divisions of a line that masking leaves as they are. -/
def visibleIn (masked line : Text) : List (Occurrence (Text × Text)) :=
  (occurrences recognise line).filter fun o =>
    slice masked o.start o.stop = slice line o.start o.stop

/-- The divisions of a source that masking leaves as they are. -/
def visible (source masked : Text) : List Finding :=
  source.lines.flatMap fun (n, line) =>
    (visibleIn (masked.drop n) line).map fun o =>
      finding (LineIndex.ofText source) ↑(n + o.start) ↑(n + o.stop) o.value.1 o.value.2

/-- A finding starts at the offset it was made for. -/
theorem start_finding (ix : LineIndex) (start stop : Nat) (numerator denominator : Text) :
    (finding ix start stop numerator denominator).start.toNat = start := by
  rw [finding, Finding.start, LineIndex.location_offset, Int.toNat_natCast]

/-- What is found is what masking leaves, without what is not shown. -/
theorem find_eq_filter_visible (source masked : Text) :
    find source masked = (visible source masked).filter fun f => shown source f.start.toNat := by
  rw [find, visible, List.filter_flatMap]
  refine List.flatMap_congr ?_
  rintro ⟨n, line⟩ hl
  have hline := slice_of_mem_lines hl
  have hfilterMap (p : Occurrence (Text × Text) → Prop) [DecidablePred p]
      (f : Occurrence (Text × Text) → Finding) (os : List (Occurrence (Text × Text))) :
      os.filterMap (fun o => if p o then some (f o) else none) = (os.filter p).map f := by
    induction os with
    | nil => rfl
    | cons o os ih => by_cases h : p o <;> simp [h, ih]
  simp only [hfilterMap, inLine, visibleIn, List.filter_map, List.filter_filter]
  refine congrArg (List.map _) (List.filter_congr fun o ho => ?_)
  obtain ⟨i, rest, hi⟩ := exists_reportedAt_of_mem_occurrences ho
  obtain ⟨hlt, hle⟩ := hi.range
  rw [Nat.zero_add] at hle
  have hshown : shown source (n + o.start) = admits line o.start := by
    rw [shown, lineAt?_of_mem_lines hl (by omega), Option.any_some]
    change admits line (n + o.start - n) = _
    rw [Nat.add_sub_cancel_left]
  have hslice : slice line o.start o.stop = slice source (n + o.start) (n + o.stop) := by
    rw [← slice_slice _ _ _ (Nat.add_le_add_left hle n), hline]
  rw [Function.comp_apply, start_finding, hshown, slice_drop, hslice, Bool.and_comm]
  rfl

/-- A division that begins where the masked text has a blank is not visible. -/
theorem slice_ne_of_isBlank {masked source : Text} {o : Occurrence (Text × Text)} {c d : Char}
    (hlt : o.start < o.stop) (hc : source[o.start]? = some c) (hpart : isIdentPart c = true)
    (hd : masked[o.start]? = some d) (hblank : isBlank d = true) :
    slice masked o.start o.stop ≠ slice source o.start o.stop := by
  intro he
  have hhead := congrArg List.head? he
  rw [head?_slice _ _ _ hlt, head?_slice _ _ _ hlt, hc, hd] at hhead
  rw [Option.some.inj hhead, isBlank_of_isIdentPart hpart] at hblank
  cases hblank

/-- What is visible in a line around a blanked stretch between asterisks does not depend on what
stands in that stretch: nothing that begins inside it is visible. -/
theorem visibleIn_between {masked s m m' t : Text} (hs : EndsAt '*' s) (ht : BeginsAt '*' t)
    (hlength : m.length = m'.length)
    (hblank : ∀ i < m.length, ∃ d, masked[s.length + i]? = some d ∧ isBlank d = true) :
    visibleIn masked (s ++ (m ++ t)) = visibleIn masked (s ++ (m' ++ t)) := by
  obtain ⟨before, behind, prev, hbefore, hbehind, hall⟩ := occurrences_between
    (stopsAt_recognise (c := '*') (by decide) (by decide) (by decide)) hs ht m.length
  have hinside (u : Text) (hu : u.length = m.length) :
      (search recognise m.length 0 s.length prev u).filter (fun o =>
        slice masked o.start o.stop = slice (s ++ (u ++ t)) o.start o.stop) = [] := by
    refine List.filter_eq_nil_iff.mpr fun o ho => ?_
    obtain ⟨i, rest, hi⟩ := exists_reportedAt_of_mem_search ho
    obtain ⟨c, hc, hpart⟩ := Option.any_eq_true _ _ |>.mp (head_of_recognise_eq_some hi.reported)
    obtain ⟨d, hd, hblank⟩ := hblank i (hu ▸ hi.bound)
    rw [List.head?_drop] at hc
    rw [← hi.start] at hd
    have hline : (s ++ (u ++ t))[o.start]? = some c := by
      rw [hi.start, List.getElem?_append_right (Nat.le_add_right _ _), Nat.add_sub_cancel_left,
        List.getElem?_append_left hi.bound, hc]
    simpa using slice_ne_of_isBlank hi.range.1 hline hpart hd hblank
  rw [visibleIn, visibleIn, hall m rfl, hall m' hlength.symm]
  simp only [List.filter_append, hinside m rfl, hinside m' hlength.symm, List.nil_append]
  congr 1
  · refine List.filter_congr fun o ho => ?_
    rw [slice_append_of_le _ _ _ _ (hbefore o ho), slice_append_of_le _ _ _ _ (hbefore o ho)]
  · refine List.filter_congr fun o ho => ?_
    have hstart := hbehind o ho
    rw [slice_append_of_length_le s _ _ _ (by omega), slice_append_of_length_le m _ _ _ (by omega),
      slice_append_of_length_le s _ _ _ (by omega), slice_append_of_length_le m' _ _ _ (by omega),
      hlength]

/-- Nothing in a text opens or closes a quoted span, escapes a quote or begins a comment. -/
def Harmless (t : Text) : Prop :=
  (∀ c ∈ t, Mask.isQuote c = false ∧ c ≠ '\\') ∧ ¬ ['/', '/'] <:+: t

/-- A part of a harmless text is harmless. -/
theorem Harmless.slice {t : Text} (h : Harmless t) (n m : Nat) : Harmless (slice t n m) :=
  ⟨fun c hc => h.1 c ((slice_isInfix t n m).subset hc),
    fun hslashes => h.2 (hslashes.trans (slice_isInfix t n m))⟩

namespace QuoteState

/-- The quote that opened a span is one. -/
def Opened : QuoteState → Prop
  | outside => True
  | inside quote _ | escaped quote _ => Mask.isQuote quote = true

/-- No backslash stands before the position. -/
def Settled : QuoteState → Prop
  | outside => True
  | inside quote _ => Mask.isQuote quote = true
  | escaped .. => False

end QuoteState

variable {state : QuoteState} {m t : Text}

/-- The search for quotes passes over a harmless text before an asterisk or the end of the
line. -/
theorem exclusionsFrom_append (hstate : state.Settled) (hm : Harmless m) (ht : BeginsAt '*' t)
    (pos : Nat) : exclusionsFrom state pos (m ++ t) = exclusionsFrom state (pos + m.length) t := by
  induction m generalizing pos with
  | nil => rfl
  | cons c m ih =>
    obtain ⟨hchars, hslashes⟩ := hm
    obtain ⟨⟨hquote, hback⟩, hmore⟩ := List.forall_mem_cons.mp hchars
    have hstep := ih ⟨hmore, fun h => hslashes (h.trans (List.suffix_cons c m).isInfix)⟩ (pos + 1)
    rw [List.length_cons, ← Nat.add_assoc, Nat.add_right_comm, ← hstep, List.cons_append]
    cases state with
    | escaped => exact absurd hstate id
    | inside quote start =>
      have hne : c ≠ quote := fun he => by
        rw [he, show Mask.isQuote quote = true from hstate] at hquote
        cases hquote
      rw [exclusionsFrom, if_neg hback, if_neg hne]
    | outside =>
      have hcomment : ¬ (c = '/' && (m ++ t).head? = some '/') := by
        rw [Bool.and_eq_true, decide_eq_true_eq, decide_eq_true_eq]
        rintro ⟨rfl, hhead⟩
        cases m with
        | nil =>
          rcases ht with rfl | ⟨u, rfl⟩
          · cases hhead
          · exact absurd (Option.some.inj hhead) (by decide)
        | cons d m =>
          obtain rfl := Option.some.inj hhead
          exact hslashes ⟨[], m, rfl⟩
      rw [exclusionsFrom, if_neg hcomment, if_neg]
      rw [← Mask.isQuote, hquote]
      exact Bool.false_ne_true

/-- Behind an asterisk no backslash is pending. -/
theorem exclusionsFrom_append_asterisk {v v' : Text}
    (h : ∀ state : QuoteState, state.Settled → ∀ pos,
      exclusionsFrom state pos v = exclusionsFrom state pos v')
    (state : QuoteState) (hstate : state.Opened) (u : Text) (pos : Nat) :
    exclusionsFrom state pos (u ++ '*' :: v) = exclusionsFrom state pos (u ++ '*' :: v') := by
  induction u generalizing state pos with
  | nil =>
    rw [List.nil_append, List.nil_append]
    cases state with
    | outside =>
      rw [exclusionsFrom, exclusionsFrom, if_neg (by decide), if_neg (by simp),
        if_neg (by decide), if_neg (by simp)]
      exact h .outside trivial _
    | inside quote start =>
      have hne : '*' ≠ quote := by
        rintro rfl
        exact absurd (show Mask.isQuote '*' = true from hstate) (by decide)
      rw [exclusionsFrom, exclusionsFrom, if_neg (by decide), if_neg hne, if_neg (by decide),
        if_neg hne]
      exact h (.inside quote start) hstate _
    | escaped quote start =>
      rw [exclusionsFrom, exclusionsFrom]
      exact h (.inside quote start) hstate _
  | cons d u ih =>
    rw [List.cons_append, List.cons_append]
    cases state with
    | outside =>
      have hhead : (u ++ '*' :: v).head? = (u ++ '*' :: v').head? := by
        cases u <;> rfl
      rw [exclusionsFrom, exclusionsFrom, hhead]
      split
      · rename_i hquote
        exact ih (.inside d pos) hquote _
      · split
        · rfl
        · exact ih .outside trivial _
    | inside quote start =>
      rw [exclusionsFrom, exclusionsFrom]
      split
      · exact ih (.escaped quote start) hstate _
      · split
        · rw [ih .outside trivial]
        · exact ih (.inside quote start) hstate _
    | escaped quote start =>
      rw [exclusionsFrom, exclusionsFrom]
      exact ih (.inside quote start) hstate _

/-- Harmless texts of one length between asterisks exclude alike. -/
theorem exclusions_between {s m m' t : Text} (hs : EndsAt '*' s) (ht : BeginsAt '*' t)
    (hlength : m.length = m'.length) (hm : Harmless m) (hm' : Harmless m') :
    exclusions (s ++ (m ++ t)) = exclusions (s ++ (m' ++ t)) := by
  have hsettled (state : QuoteState) (hstate : state.Settled) (pos : Nat) :
      exclusionsFrom state pos (m ++ t) = exclusionsFrom state pos (m' ++ t) := by
    rw [exclusionsFrom_append hstate hm ht, exclusionsFrom_append hstate hm' ht, hlength]
  rw [exclusions, exclusions]
  rcases hs with rfl | ⟨u, rfl⟩
  · exact hsettled .outside trivial 0
  · rw [List.append_assoc, List.append_assoc]
    exact exclusionsFrom_append_asterisk hsettled .outside trivial u 0

end Division

end Gloss
