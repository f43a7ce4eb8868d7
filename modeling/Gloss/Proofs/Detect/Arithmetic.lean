import Gloss.Proofs.Detect.Literal
import Gloss.Proofs.Expr.Front
import Gloss.Proofs.Expr.Within

/-!
# What the search for expressions finds

The search reads at each offset where a token may begin an expression, and it sees all that
follows. What it reports is nevertheless a matter of the reported text alone: that text is read as
the expression by itself, and no more than its two neighbours decides whether it stands there. Nor
does the search miss an expression with an operator, except where it passes over an operand whose
text it does not understand: one with raw text or with a construction in it. A limit only cuts off
its last findings.
-/

namespace Gloss.Arithmetic

open Grammar Outcome Text

/-- An expression that the search looks at: its first token begins at offset `start`, where no
longer token does, its text ends at offset `stop`, where a token ends, if the blanks behind it do
not count, and it is more than a call or a construction. -/
structure Candidate (masked : Text) (start : Nat) (e : Expr) (stop : Nat) : Prop where
  /-- The first character may begin an expression. -/
  starts : masked[start]?.any isExprStart = true
  /-- It is not the rest of a longer token. -/
  edge : isTokenEdge (before none masked start) = true
  /-- The expression is read there, up to the blanks behind it. -/
  parsed : ∃ past, Expr.parseAt? masked start = some (e, past) ∧
    stop = start + (dropEndWhile isBlank (masked.slice start past)).length
  /-- It is not merely a call or a construction. -/
  proper : e.isInvocation = false
  /-- It ends where a token ends. -/
  ends : isTokenEdge masked[stop]? = true

section Candidate

variable {masked behind : Text} {prev : Option Char} {start stop : Nat} {e : Expr}
  {found : Option Expr}

/-- What is read at an offset is a text of the grammar and blanks. -/
theorem exists_reads_of_parseAt? {past : Nat} (h : Expr.parseAt? masked start = some (e, past)) :
    ∃ u rest left, masked.drop start = u ++ rest ∧
      dropEndWhile isBlank (masked.slice start past) = u ∧
      expression (maxDepth + 1) (masked.drop start) maxNodes = .parsed e (skipBlanks rest) left ∧
      Reads (maxDepth + 1) maxNodes u e left ∧ xorSign ∉ u := by
  obtain ⟨⟨hstart, -⟩, hxor, hfront⟩ := Expr.parseAt?_eq_some_iff.mp h
  obtain ⟨left, hread⟩ := Expr.parseFront?_eq_some_iff.mp hfront
  obtain ⟨u, g, htext, hg, hu⟩ := expression_sound _ hread
  have hslice : masked.slice start past = u ++ g := by
    rw [← slice_append_drop masked start past hstart, ← List.append_assoc] at htext
    exact List.append_cancel_right htext
  rw [hslice] at hxor ⊢
  refine ⟨u, g ++ masked.drop past, left, htext, dropEndWhile_append hu.endsVisible hg, ?_, hu,
    fun hmem => hxor (List.mem_append_left g hmem)⟩
  rw [skipBlanks_append hg, skipBlanks_of_expression hread]
  exact hread

/-- The text of a candidate is read as its expression. -/
theorem Candidate.exists_reads (h : Candidate masked start e stop) : ∃ left,
    expression (maxDepth + 1) (masked.drop start) maxNodes =
        .parsed e (skipBlanks (masked.drop stop)) left ∧
      Reads (maxDepth + 1) maxNodes (masked.slice start stop) e left ∧
      xorSign ∉ masked.slice start stop ∧ start < stop ∧ stop ≤ masked.length := by
  obtain ⟨past, hparsed, hstop⟩ := h.parsed
  obtain ⟨u, rest, left, htext, hshown, hread, hu, hxor⟩ := exists_reads_of_parseAt? hparsed
  rw [hshown] at hstop
  subst hstop
  obtain ⟨hslice, hdrop⟩ := slice_of_drop_eq htext
  rw [hslice, hdrop]
  refine ⟨left, hread, hu, hxor, ?_, ?_⟩
  · obtain ⟨g, c, v, rfl, -⟩ := hu.opens
    simp only [List.length_append, List.length_cons]
    omega
  · obtain ⟨c, hc, -⟩ := (Option.any_eq_true _ _).mp h.starts
    have hlength := congrArg List.length htext
    have := (List.getElem?_eq_some_iff.mp hc).1
    rw [List.length_drop, List.length_append] at hlength
    omega

/-- A candidate stands in the text in front of the rest. -/
theorem Candidate.slice_append (h : Candidate masked start e stop) :
    masked.slice start stop ++ masked.drop stop = masked.drop start := by
  obtain ⟨-, -, -, -, hlt, -⟩ := h.exists_reads
  exact slice_append_drop masked start stop (Nat.le_of_lt hlt)

/-- At an offset no more than one expression is a candidate. -/
theorem Candidate.unique {e' : Expr} {stop' : Nat} (h : Candidate masked start e stop)
    (h' : Candidate masked start e' stop') : e = e' ∧ stop = stop' := by
  obtain ⟨past, hparsed, hstop⟩ := h.parsed
  obtain ⟨past', hparsed', hstop'⟩ := h'.parsed
  rw [hparsed, Option.some.injEq, Prod.mk.injEq] at hparsed'
  obtain ⟨rfl, rfl⟩ := hparsed'
  exact ⟨rfl, hstop.trans hstop'.symm⟩

/-- What is recognised at an offset is a candidate. It is reported if it has an operator, and the
text is left behind that it is shown with. -/
theorem recognise_eq_some_iff :
    recognise (before none masked start) (masked.drop start) = some (found, behind) ↔
      ∃ e stop, Candidate masked start e stop ∧
        found = (if e.hasOperator then some e else none) ∧ behind = masked.drop stop := by
  have hspan (rest : Text) : (masked.drop start).take ((masked.drop start).length - rest.length) =
      masked.slice start (masked.length - rest.length) := by
    rw [slice, List.drop_take, List.length_drop, Nat.sub_right_comm]
  constructor
  · intro h
    unfold recognise at h
    split at h
    · cases h
    · rename_i hbegin
      split at h
      · cases h
      · rename_i e rest hfront
        dsimp only at h
        split at h
        · cases h
        · rename_i hpass
          rw [hspan] at h hpass
          simp only [Bool.or_eq_true, Bool.not_eq_true', not_or, Bool.not_eq_false,
            decide_eq_true_eq, Bool.not_eq_true, List.isEmpty_eq_false_iff, List.head?_drop,
            List.drop_drop] at hbegin hpass h
          obtain ⟨⟨⟨hxor, hinvoke⟩, -⟩, hends⟩ := hpass
          obtain ⟨rfl, rfl⟩ := Prod.mk.inj (Option.some.inj h)
          refine ⟨e, _, ⟨hbegin.1, hbegin.2, ⟨_, ?_, rfl⟩, hinvoke, hends⟩, rfl, rfl⟩
          rw [Expr.parseAt?, hfront, Option.bind_some]
          exact if_neg hxor
  · rintro ⟨e, stop, h, rfl, rfl⟩
    obtain ⟨-, -, -, -, hlt, -⟩ := h.exists_reads
    obtain ⟨hstarts, hedge, ⟨past, hparsed, rfl⟩, hproper, hends⟩ := h
    obtain ⟨⟨e₁, rest⟩, hfront, hresult⟩ := Option.bind_eq_some_iff.mp hparsed
    obtain ⟨hxor, hresult⟩ := Option.ite_none_left_eq_some.mp hresult
    obtain ⟨rfl, rfl⟩ := Prod.mk.inj (Option.some.inj hresult)
    have hne : dropEndWhile isBlank (masked.slice start (masked.length - rest.length)) ≠ [] := by
      intro hnil
      rw [hnil, List.length_nil] at hlt
      omega
    unfold recognise
    simp only [hfront, hspan, List.head?_drop, List.drop_drop]
    simp [hstarts, hedge, hxor, hproper, hne, hends]

end Candidate

/-- What a finding says of the expression that it stands for. -/
structure Shows (source masked : Text) (f : Finding) (start stop : Nat) (e : Expr) : Prop where
  /-- It is located where the expression stands. -/
  location : f.location = (LineIndex.ofText source).location start stop
  /-- It is a stretch of the text, and not an empty one. -/
  range : start < stop ∧ stop ≤ masked.length
  /-- The text of the stretch as a whole is the expression. -/
  whole : Expr.parse? (masked.slice start stop) = some e
  /-- It has an operator. -/
  operator : e.hasOperator = true
  /-- It is more than a call or a construction. -/
  proper : e.isInvocation = false
  /-- It is typeset. -/
  typeset : f.typeset = e.typeset
  /-- It is shown inline. -/
  inlineText : f.inlineText = e.inlineText
  /-- The source of the stretch is quoted. -/
  detail : f.detail = .expression (source.slice start stop)
  /-- There is no exclusive or in it. -/
  arithmetic : xorSign ∉ masked.slice start stop
  /-- There are no blanks at its ends. -/
  trimmed : (masked.slice start stop).trim = masked.slice start stop
  /-- No token reaches into it from before. -/
  before : isTokenEdge (before none masked start) = true
  /-- No token reaches out of it. -/
  behind : isTokenEdge masked[stop]? = true

section Find

variable {source masked : Text} {limit start stop : Nat} {e : Expr}

/-- A candidate is parsed by itself as what it was found to be. -/
theorem Candidate.parse? (h : Candidate masked start e stop) :
    Expr.parse? (masked.slice start stop) = some e := by
  obtain ⟨left, -, hreads, hxor, -⟩ := h.exists_reads
  exact parse?_eq_some_iff_reads.mpr
    ⟨hxor, _, [], left, (List.append_nil _).symm, allBlank_nil, hreads⟩

/-- A candidate has no blanks at its ends. -/
theorem Candidate.trim (h : Candidate masked start e stop) :
    (masked.slice start stop).trim = masked.slice start stop := by
  obtain ⟨left, -, hreads, -, hlt, -⟩ := h.exists_reads
  refine trim_eq_self ?_ hreads.endsVisible
  rw [head?_slice _ _ _ hlt]
  intro c hc
  have hstart := h.starts
  rw [Option.mem_def.mp hc] at hstart
  exact isBlank_of_isExprStart hstart

/-- What an occurrence covers is a candidate with an operator. -/
theorem candidate_of_mem {o : Occurrence Expr}
    (ho : o ∈ firstOccurrences recognise limit masked) :
    Candidate masked o.start o.value o.stop ∧ o.value.hasOperator = true := by
  obtain ⟨i, rest, hi⟩ := exists_reportedAt_of_mem_search ho
  obtain ⟨e, stop, hcandidate, hfound, hrest⟩ := recognise_eq_some_iff.mp hi.reported
  have hop : e.hasOperator = true ∧ o.value = e := by
    split at hfound
    · rename_i hop
      exact ⟨hop, Option.some.inj hfound⟩
    · cases hfound
  obtain ⟨-, -, -, -, hlt, hle⟩ := hcandidate.exists_reads
  have hstart := hi.start
  have hstop := hi.stop
  rw [hrest, List.length_drop] at hstop
  obtain rfl : o.start = i := by omega
  obtain rfl : o.stop = stop := by omega
  rw [hop.2]
  exact ⟨hcandidate, hop.1⟩

/-- Every finding shows an expression, which its text is by itself, and the findings are disjoint
and in order. -/
theorem find_shows (limit : Nat) (source masked : Text) :
    (∀ f ∈ find limit source masked, ∃ start stop e, Shows source masked f start stop e) ∧
      (find limit source masked).Pairwise fun f f' => f.start < f'.start ∧ f.stop ≤ f'.start := by
  constructor
  · intro f hf
    obtain ⟨o, ho, rfl⟩ := List.mem_map.mp hf
    obtain ⟨h, hop⟩ := candidate_of_mem ho
    obtain ⟨-, -, -, hxor, hlt, hle⟩ := h.exists_reads
    exact ⟨o.start, o.stop, o.value, rfl, ⟨hlt, hle⟩, h.parse?, hop, h.proper, rfl, rfl, rfl, hxor,
      h.trim, h.edge, h.ends⟩
  · refine List.pairwise_map.mpr (pairwise_search.imp_of_mem ?_)
    intro o o' ho _ hle
    obtain ⟨h, -⟩ := candidate_of_mem ho
    obtain ⟨-, -, -, -, hlt, -⟩ := h.exists_reads
    simp only [finding, Finding.start, Finding.stop, LineIndex.location_offset,
      LineIndex.location_endOffset]
    omega

open Mask in
/-- The product is shown, and the comment behind it does not matter. -/
theorem find_shows_product :
    ∃ f ∈ find 500 "area = width * height; // m^2".toList
        (mask "area = width * height; // m^2".toList),
      ∃ start stop e, Shows "area = width * height; // m^2".toList
        (mask "area = width * height; // m^2".toList) f start stop e := by
  obtain ⟨f, hf⟩ := List.exists_mem_of_ne_nil _
    (show find 500 "area = width * height; // m^2".toList
      (mask "area = width * height; // m^2".toList) ≠ [] by decide +kernel)
  exact ⟨f, hf, (find_shows _ _ _).1 f hf⟩

/-- Within a candidate that joins no operands begins none that does, unless it has a raw leaf or the
word `new`. -/
theorem Candidate.within {p : Nat} {e' : Expr} {stop' : Nat} (h : Candidate masked start e stop)
    (hop : e.hasOperator = false) (h' : Candidate masked p e' stop') (hop' : e'.hasOperator = true)
    (hstart : start < p) (hstop : p < stop) :
    e.hasRaw = true ∨ containsWord "new".toList none (masked.slice start stop) = true := by
  by_contra hneither
  rw [not_or, Bool.not_eq_true, Bool.not_eq_true] at hneither
  obtain ⟨left, hread, hreads, -⟩ := h.exists_reads
  obtain ⟨left', hread', -⟩ := h'.exists_reads
  have hends : isTokenEdge (masked.drop stop).head? = true := by
    rw [List.head?_drop]
    exact h.ends
  rw [← h.slice_append] at hread
  have hall := atStarts_hasOperator hread hreads hop hneither.1 hneither.2 hends
  obtain ⟨i, rfl⟩ : ∃ i, p = start + (i + 1) := ⟨p - start - 1, by omega⟩
  have hstarts : (masked.slice start stop)[i + 1]?.any isExprStart = true := by
    rw [getElem?_slice _ _ _ hstop]
    exact h'.starts
  have hedge : isTokenEdge (before none (masked.slice start stop) (i + 1)) = true := by
    rw [before, getElem?_slice _ _ _ (by omega)]
    exact h'.edge
  have hinner := hall.at_position hstarts hedge
  rw [slice, List.drop_drop, ← slice, slice_append_drop _ _ _ (Nat.le_of_lt hstop)] at hinner
  have := hinner hread'
  rw [hop'] at this
  cases this

/-- Unless it stops at its limit, the search misses no expression with an operator, except within an
operand that has a raw leaf or the word `new`, which it passes over. -/
theorem find_accounts (limit : Nat) (source masked : Text)
    (hlimit : (find limit source masked).length < limit) (p : Nat) (e : Expr) (stop : Nat)
    (h : Candidate masked p e stop) (hop : e.hasOperator = true) :
    (∃ f ∈ find limit source masked, f.start ≤ p ∧ p < f.stop) ∨
      ∃ start e' stop', Candidate masked start e' stop' ∧ start < p ∧ p < stop' ∧
        e'.hasOperator = false ∧
        (e'.hasRaw = true ∨ containsWord "new".toList none (masked.slice start stop') = true) := by
  have hp : p < masked.length := by
    obtain ⟨-, -, -, -, hlt, hle⟩ := h.exists_reads
    omega
  have hrecognised := recognise_eq_some_iff.mpr ⟨e, stop, h, rfl, rfl⟩
  rw [find, List.length_map] at hlimit
  rcases search_accounts hlimit (Nat.zero_le p) hp with hnone | ⟨o, ho, hstart, hstop⟩ |
      ⟨start, rest, hpassed⟩
  · rw [hrecognised] at hnone
    cases hnone
  · refine .inl ⟨_, List.mem_map_of_mem ho, ?_⟩
    simp only [finding, Finding.start, Finding.stop, LineIndex.location_offset,
      LineIndex.location_endOffset]
    omega
  · obtain ⟨e', stop', h', hfound, rfl⟩ := recognise_eq_some_iff.mp hpassed.recognised
    have hop' : e'.hasOperator = false := by
      by_contra hjoins
      rw [if_pos (by simpa using hjoins)] at hfound
      cases hfound
    obtain ⟨-, -, -, -, hlt, hle⟩ := h'.exists_reads
    have hstart := hpassed.start
    have hstop := hpassed.stop
    rw [List.length_drop] at hstop
    have hne : start ≠ p := by
      rintro rfl
      obtain ⟨rfl, -⟩ := h.unique h'
      rw [hop] at hop'
      cases hop'
    refine .inr ⟨start, e', stop', h', by omega, by omega, hop', ?_⟩
    exact h'.within hop' h hop (by omega) (by omega)

/-- The sum that begins with the last name of a construction is missed: the construction ends in
front of the subscript, and the search goes on there. -/
theorem find_accounts_construction :
    Candidate "-new a[i] + b".toList 5
        (.binary .add (.index (.identifier ['a']) (.identifier ['i'])) (.identifier ['b'])) 13 ∧
      ((∃ f ∈ find 500 "-new a[i] + b".toList "-new a[i] + b".toList, f.start ≤ 5 ∧ 5 < f.stop) ∨
        ∃ start e' stop', Candidate "-new a[i] + b".toList start e' stop' ∧ start < 5 ∧ 5 < stop' ∧
          e'.hasOperator = false ∧ (e'.hasRaw = true ∨
            containsWord "new".toList none (slice "-new a[i] + b".toList start stop') = true)) := by
  have h : Candidate "-new a[i] + b".toList 5
      (.binary .add (.index (.identifier ['a']) (.identifier ['i'])) (.identifier ['b'])) 13 :=
    ⟨by decide, by decide, ⟨13, by decide +kernel, by decide +kernel⟩, rfl, by decide⟩
  have hlimit : (find 500 "-new a[i] + b".toList "-new a[i] + b".toList).length < 500 := by
    decide +kernel
  exact ⟨h, find_accounts 500 _ _ hlimit 5 _ 13 h rfl⟩

/-- A limit decides nothing but how many findings are kept: under a smaller one, the first of those
under a larger one are found, as many as it allows. -/
theorem find_eq_take_find {few many : Nat} (h : few ≤ many) (source masked : Text) :
    find few source masked =
      (find many source masked).take (min few (find many source masked).length) := by
  have hfirst : find few source masked = (find many source masked).take few := by
    rw [find, find, firstOccurrences, firstOccurrences, search_take h, List.map_take]
  rw [hfirst, ← List.take_eq_take_min]

open Mask in
/-- Of three sums two are kept, and of two sums as many where three are allowed. -/
theorem find_eq_take_find_sums :
    let sums := "f(a + b, -c * 2); /* x - y */ z = d / e;".toList
    let two := "a - b, \"c + d\", e / f".toList
    (2 ≤ 500 ∧ (find 500 sums (mask sums)).length = 3 ∧
      find 2 sums (mask sums) =
        (find 500 sums (mask sums)).take (min 2 (find 500 sums (mask sums)).length)) ∧
    (3 ≤ 500 ∧ (find 500 two (mask two)).length = 2 ∧
      find 3 two (mask two) =
        (find 500 two (mask two)).take (min 3 (find 500 two (mask two)).length)) :=
  ⟨⟨by decide, by decide +kernel, find_eq_take_find (by decide) _ _⟩,
    by decide, by decide +kernel, find_eq_take_find (by decide) _ _⟩

end Find

end Gloss.Arithmetic
