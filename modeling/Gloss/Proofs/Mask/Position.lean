import Gloss.Proofs.Mask.Region

/-!
# Offsets and regions

Every offset of a source lies in exactly one of its regions. Where that region
is a comment or a literal the masked source has a blank; a quotation mark never
stands in a plain region, and the first character of a literal is one.
-/

namespace Gloss.Mask

/-- The region that an offset lies in. -/
def regionAt? : List Region → (offset : Nat) → Option Region
  | [], _ => none
  | r :: rs, offset =>
    if offset < r.text.length then some r else regionAt? rs (offset - r.text.length)

/-- An offset lies in a string, a character literal or a text block. -/
def InLiteral (rs : List Region) (offset : Nat) : Prop :=
  ∃ r, regionAt? rs offset = some r ∧ r.isLiteral = true

/-- An offset lies in a comment. -/
def InComment (rs : List Region) (offset : Nat) : Prop :=
  ∃ r, regionAt? rs offset = some r ∧ r.isComment = true

/-- A quotation mark stands at an offset. -/
def QuoteAt (source : Text) (offset : Nat) : Prop :=
  ∃ c, source[offset]? = some c ∧ isQuote c = true

variable {rs : List Region} {r : Region} {offset : Nat}

/-- A region occupies a stretch of the source, and all of the stretch lies in it. -/
theorem exists_start_of_regionAt?_eq_some (h : regionAt? rs offset = some r) :
    ∃ start, start ≤ offset ∧ offset < start + r.text.length ∧
      ∀ k, k < r.text.length → regionAt? rs (start + k) = some r ∧
        (flatten rs)[start + k]? = r.text[k]? ∧
        (rs.flatMap Region.blanked)[start + k]? = r.blanked[k]? := by
  induction rs generalizing offset with
  | nil => exact absurd h (by simp [regionAt?])
  | cons q rs ih =>
    rw [regionAt?] at h
    split at h
    · rename_i hlt
      obtain rfl := Option.some.inj h
      refine ⟨0, Nat.zero_le _, by omega, ?_⟩
      intro k hk
      rw [Nat.zero_add, regionAt?, if_pos hk, flatten_cons, List.flatMap_cons,
        List.getElem?_append_left hk, List.getElem?_append_left (by rwa [Region.length_blanked])]
      exact ⟨rfl, rfl, rfl⟩
    · obtain ⟨start, hle, hlt, hall⟩ := ih h
      refine ⟨q.text.length + start, by omega, by omega, ?_⟩
      intro k hk
      obtain ⟨hregion, htext, hblanked⟩ := hall k hk
      rw [regionAt?, if_neg (by omega), flatten_cons, List.flatMap_cons,
        List.getElem?_append_right (by omega),
        List.getElem?_append_right (by rw [Region.length_blanked]; omega), Region.length_blanked,
        show q.text.length + start + k - q.text.length = start + k by omega]
      exact ⟨hregion, htext, hblanked⟩

/-- The region at an offset is one of the regions. -/
theorem mem_of_regionAt?_eq_some (h : regionAt? rs offset = some r) : r ∈ rs := by
  induction rs generalizing offset with
  | nil => exact absurd h (by simp [regionAt?])
  | cons q rs ih =>
    rw [regionAt?] at h
    split at h
    · exact Option.some.inj h ▸ List.mem_cons_self ..
    · exact List.mem_cons_of_mem q (ih h)

/-- Every offset of the source lies in some region. -/
theorem exists_regionAt?_of_lt (h : offset < (flatten rs).length) :
    ∃ r, regionAt? rs offset = some r := by
  induction rs generalizing offset with
  | nil => exact absurd h (by simp)
  | cons q rs ih =>
    rw [regionAt?]
    split
    · exact ⟨q, rfl⟩
    · rw [flatten_cons, List.length_append] at h
      exact ih (by omega)

/-- What a blanked character becomes is a blank. -/
theorem isBlank_blank (c : Char) : isBlank (blank c) = true := by
  rw [blank]
  split
  · rename_i hc
    simp only [isLineBreak, Bool.or_eq_true, decide_eq_true_eq] at hc
    rcases hc with rfl | rfl <;> decide
  · decide

/-- A masked region shows nothing but blanks. -/
theorem isBlank_of_mem_blanked {mode : Mode} {body : Text} {closed : Bool} {c : Char}
    (h : c ∈ (Region.masked mode body closed).blanked) : isBlank c = true := by
  obtain ⟨d, -, rfl⟩ := List.mem_map.mp h
  exact isBlank_blank d

/-- A literal begins with a quotation mark. -/
theorem Lexed.quote_of_isLiteral (hrs : Lexed rs) (hmem : r ∈ rs) (hlit : r.isLiteral = true) :
    ∃ q, r.text[0]? = some q ∧ isQuote q = true := by
  induction hrs with
  | nil => exact absurd hmem List.not_mem_nil
  | plain opens tail ih =>
    rcases List.mem_cons.mp hmem with rfl | hmem
    · exact absurd hlit (by simp [Region.isLiteral])
    · exact ih hmem
  | @masked mode body closed rs opens runs tail ih =>
    rcases List.mem_cons.mp hmem with rfl | hmem
    · cases mode with
      | code | lineComment | blockComment =>
        exact absurd hlit (by simp [Region.isLiteral, Mode.isLiteral])
      | textBlock => exact ⟨'"', rfl, rfl⟩
      | quoted quote escaped =>
        refine ⟨quote, rfl, ?_⟩
        rw [flatten_cons, Region.text, Mode.opener, List.cons_append, List.cons_append,
          List.cons_append, opening?.eq_def] at opens
        split at opens <;> simp_all [isQuote]
    · exact ih hmem

/-- No quotation mark is plain. -/
theorem Lexed.not_isQuote_of_plain (hrs : Lexed rs) {c : Char} (hmem : Region.plain c ∈ rs) :
    ¬ isQuote c = true := by
  induction hrs with
  | nil => exact absurd hmem List.not_mem_nil
  | plain opens tail ih =>
    rcases List.mem_cons.mp hmem with he | hmem
    · obtain rfl := Region.plain.inj he
      intro hc
      unfold opening? at opens
      rcases isQuote_iff.mp hc with rfl | rfl
      · split at opens <;> simp_all
      · split at opens <;> simp_all
    · exact ih hmem
  | masked opens runs tail ih =>
    rcases List.mem_cons.mp hmem with he | hmem
    · exact absurd he (by simp)
    · exact ih hmem

/-- Inside a literal the masked source is blank, and a quotation mark stands where the literal
begins. -/
theorem InLiteral.exists_start (hrs : Lexed rs) (h : InLiteral rs offset) :
    ∃ start stop, start ≤ offset ∧ offset < stop ∧ QuoteAt (flatten rs) start ∧
      ∀ o, start ≤ o → o < stop →
        InLiteral rs o ∧ ∃ c, (mask (flatten rs))[o]? = some c ∧ isBlank c = true := by
  obtain ⟨r, hr, hlit⟩ := h
  obtain ⟨start, hle, hlt, hall⟩ := exists_start_of_regionAt?_eq_some hr
  obtain ⟨q, hq, hquote⟩ := hrs.quote_of_isLiteral (mem_of_regionAt?_eq_some hr) hlit
  have hfirst := (hall 0 (by omega)).2.1
  rw [Nat.add_zero, hq] at hfirst
  refine ⟨start, start + r.text.length, hle, hlt, ⟨q, hfirst, hquote⟩, ?_⟩
  intro o ho ho'
  obtain ⟨hregion, -, hblanked⟩ := hall (o - start) (by omega)
  rw [show start + (o - start) = o by omega] at hregion hblanked
  refine ⟨⟨r, hregion, hlit⟩, ?_⟩
  cases r with
  | plain c => exact absurd hlit (by simp [Region.isLiteral])
  | masked mode body closed =>
    have hk : o - start < (Region.masked mode body closed).blanked.length := by
      rw [Region.length_blanked]
      omega
    refine ⟨_, ?_, isBlank_of_mem_blanked (List.getElem_mem hk)⟩
    rw [mask, maskFrom_flatten hrs, hblanked, List.getElem?_eq_getElem hk]

/-- A quotation mark stands in a literal or in a comment. -/
theorem Lexed.inLiteral_or_inComment (hrs : Lexed rs) (h : QuoteAt (flatten rs) offset) :
    InLiteral rs offset ∨ InComment rs offset := by
  obtain ⟨c, hc, hquote⟩ := h
  obtain ⟨r, hr⟩ := exists_regionAt?_of_lt (List.getElem?_eq_some_iff.mp hc).1
  cases r with
  | plain d =>
    obtain ⟨start, hle, hlt, hall⟩ := exists_start_of_regionAt?_eq_some hr
    have hd := (hall (offset - start) (by omega)).2.1
    rw [Region.text, List.length_singleton] at hlt
    rw [show start + (offset - start) = offset by omega, hc,
      show offset - start = 0 by omega] at hd
    obtain rfl := Option.some.inj hd
    exact absurd hquote (hrs.not_isQuote_of_plain (mem_of_regionAt?_eq_some hr))
  | masked mode body closed =>
    cases hmode : mode.isLiteral with
    | true => exact Or.inl ⟨_, hr, hmode⟩
    | false => exact Or.inr ⟨_, hr, by rw [Region.isComment, hmode, Bool.not_false]⟩

/-- No offset lies both in a literal and in a comment. -/
theorem InLiteral.not_inComment (h : InLiteral rs offset) : ¬ InComment rs offset := by
  rintro ⟨r, hr, hcomment⟩
  obtain ⟨r', hr', hlit⟩ := h
  rw [hr] at hr'
  obtain rfl := Option.some.inj hr'
  cases r with
  | plain c => exact absurd hlit (by simp [Region.isLiteral])
  | masked mode body closed =>
    rw [Region.isLiteral] at hlit
    rw [Region.isComment, hlit] at hcomment
    exact absurd hcomment (by simp)

end Gloss.Mask
