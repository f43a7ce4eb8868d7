import Gloss.Mask
import Gloss.Text.Blank

/-!
# The regions of a source

A source is a sequence of plain characters, comments and literals. This module
says what such a sequence is without the masking pass: which marks open a
region, how far its body runs, and whether a closing mark ends it. Every text is
the text of such a sequence, and masking blanks exactly the characters of its
comments and literals.
-/

namespace Gloss.Mask

/-- A quotation mark opens a string or a character literal. -/
def isQuote (c : Char) : Bool := c = '"' || c = '\''

theorem isQuote_iff {c : Char} : isQuote c = true ↔ c = '"' ∨ c = '\'' := by
  simp only [isQuote, Bool.or_eq_true, decide_eq_true_eq]

/-- The comment or literal that the marks at the front of a text open. Three double quotes
open a text block, not a string. -/
def opening? : Text → Option Mode
  | '/' :: '/' :: _ => some .lineComment
  | '/' :: '*' :: _ => some .blockComment
  | '"' :: '"' :: '"' :: _ => some .textBlock
  | '"' :: _ => some (.quoted '"' false)
  | '\'' :: _ => some (.quoted '\'' false)
  | _ => none

namespace Mode

/-- The mark that opens a region. -/
def opener : Mode → Text
  | code => []
  | lineComment => ['/', '/']
  | blockComment => ['/', '*']
  | textBlock => ['"', '"', '"']
  | quoted quote _ => [quote]

/-- The mark that closes a region; a line comment has none. -/
def closer : Mode → Text
  | code | lineComment => []
  | blockComment => ['*', '/']
  | textBlock => ['"', '"', '"']
  | quoted quote _ => [quote]

/-- Whether a region runs to a mark that stands anywhere behind it. -/
def isMarked : Mode → Bool
  | blockComment | textBlock => true
  | code | lineComment | quoted .. => false

/-- Whether a region is a string, a character literal or a text block. -/
def isLiteral : Mode → Bool
  | textBlock | quoted .. => true
  | code | lineComment | blockComment => false

end Mode

/-- Whether a backslash escapes what follows a text inside a literal; there is no answer if a
line break or an unescaped quote stands in the text. -/
def escapeAfter? (quote : Char) : (escaped : Bool) → Text → Option Bool
  | escaped, [] => some escaped
  | escaped, c :: t =>
    if isLineBreak c then none
    else if escaped then escapeAfter? quote false t
    else if c = '\\' then escapeAfter? quote true t
    else if c = quote then none
    else escapeAfter? quote false t

/-- What stands behind the opening mark of a region: the body, whether a closing mark follows
it, and the rest of the text. -/
inductive Extends : Mode → (body : Text) → (closed : Bool) → (rest : Text) → Prop
  /-- A line comment ends before a line break or with the text. -/
  | line {body rest : Text} (unbroken : ∀ c ∈ body, isLineBreak c = false)
      (edge : rest.head?.all isLineBreak = true) : Extends .lineComment body false rest
  /-- The first closing mark ends a block comment or a text block. -/
  | marked {mode : Mode} {body rest : Text} (kind : mode.isMarked = true)
      (first : Text.contains mode.closer (body ++ mode.closer.dropLast) = false) :
      Extends mode body true rest
  /-- Without a closing mark they last to the end of the text. -/
  | unmarked {mode : Mode} {body : Text} (kind : mode.isMarked = true)
      (never : Text.contains mode.closer body = false) : Extends mode body false []
  /-- The first unescaped quote ends a literal. -/
  | closed {quote : Char} {escaped : Bool} {body rest : Text} (kind : isQuote quote = true)
      (free : escapeAfter? quote escaped body = some false) :
      Extends (.quoted quote escaped) body true rest
  /-- So does a line break before it, or the end of the text. -/
  | cut {quote : Char} {escaped e : Bool} {body rest : Text}
      (unquoted : escapeAfter? quote escaped body = some e)
      (edge : rest.head?.all isLineBreak = true) : Extends (.quoted quote escaped) body false rest

/-- A piece of a source. -/
inductive Region where
  /-- A character outside comments and literals. -/
  | plain (c : Char)
  /-- A comment or a literal. -/
  | masked (mode : Mode) (body : Text) (closed : Bool)
  deriving DecidableEq, Repr

namespace Region

/-- The closing mark of a region that has one. -/
def closing (mode : Mode) (closed : Bool) : Text := if closed then mode.closer else []

/-- The text of a region. -/
def text : Region → Text
  | plain c => [c]
  | masked mode body closed => mode.opener ++ body ++ closing mode closed

/-- What masking makes of a region. -/
def blanked : Region → Text
  | plain c => [c]
  | masked mode body closed => (text (masked mode body closed)).map blank

/-- Whether a region is a string, a character literal or a text block. -/
def isLiteral : Region → Bool
  | plain _ => false
  | masked mode _ _ => mode.isLiteral

/-- Whether a region is a comment. -/
def isComment : Region → Bool
  | plain _ => false
  | masked mode _ _ => !mode.isLiteral

@[simp] theorem length_blanked (r : Region) : r.blanked.length = r.text.length := by
  cases r with
  | plain c => rfl
  | masked mode body closed => rw [blanked, List.length_map]

end Region

/-- The text of a sequence of regions. -/
def flatten (rs : List Region) : Text := rs.flatMap Region.text

@[simp] theorem flatten_nil : flatten [] = [] := rfl

@[simp] theorem flatten_cons (r : Region) (rs : List Region) :
    flatten (r :: rs) = r.text ++ flatten rs := rfl

@[simp] theorem flatten_append (rs rs' : List Region) :
    flatten (rs ++ rs') = flatten rs ++ flatten rs' := List.flatMap_append

/-- A sequence of regions, each of which is what opens at its first character and runs as far
as it may. -/
inductive Lexed : List Region → Prop
  /-- Nothing. -/
  | nil : Lexed []
  /-- A character that opens nothing. -/
  | plain {c : Char} {rs : List Region} (opens : opening? (c :: flatten rs) = none)
      (tail : Lexed rs) : Lexed (.plain c :: rs)
  /-- A comment or a literal. -/
  | masked {mode : Mode} {body : Text} {closed : Bool} {rs : List Region}
      (opens : opening? (flatten (.masked mode body closed :: rs)) = some mode)
      (runs : Extends mode body closed (flatten rs)) (tail : Lexed rs) :
      Lexed (.masked mode body closed :: rs)

/-- A character that begins no mark is plain. -/
theorem opening?_eq_none {c : Char} (hslash : c ≠ '/') (hquote : isQuote c = false) (t : Text) :
    opening? (c :: t) = none := by
  rw [isQuote, Bool.or_eq_false_iff, decide_eq_false_iff_not, decide_eq_false_iff_not] at hquote
  unfold opening?
  split <;> simp_all

/-- No region is opened by a line break. -/
theorem opening?_of_isLineBreak {c : Char} (h : isLineBreak c = true) (t : Text) :
    opening? (c :: t) = none := by
  rw [isLineBreak, Bool.or_eq_true, decide_eq_true_eq, decide_eq_true_eq] at h
  rcases h with rfl | rfl <;> exact opening?_eq_none (by decide) (by decide) t

/-- Characters that begin no mark may stand before any sequence of regions. -/
theorem Lexed.append_plain {t : Text} {rs : List Region}
    (h : (t.all fun c => c ≠ '/' && !isQuote c) = true) (hrs : Lexed rs) :
    Lexed (t.map .plain ++ rs) := by
  induction t with
  | nil => exact hrs
  | cons c t ih =>
    simp only [List.all_cons, Bool.and_eq_true, decide_eq_true_eq, Bool.not_eq_true'] at h
    exact .plain (opening?_eq_none h.1.1 h.1.2 _) (ih h.2)

/-- What remains of a sequence of regions behind some of them is one. -/
theorem Lexed.of_append {rs rs' : List Region} (h : Lexed (rs ++ rs')) : Lexed rs' := by
  induction rs with
  | nil => exact h
  | cons r rs ih =>
    cases h with
    | plain _ tail | masked _ _ tail => exact ih tail

section Marks

variable {mark : Text}

/-- A mark that is not at the front of a text is not at the front of a longer one, if the text
is long enough to show it. -/
theorem after?_append_eq_none {t u : Text} (hlen : mark.length ≤ t.length)
    (h : Text.after? mark t = none) : Text.after? mark (t ++ u) = none := by
  induction mark generalizing t with
  | nil => simp only [Text.after?, reduceCtorEq] at h
  | cons m ms ih =>
    cases t with
    | nil => simp only [List.length_cons, List.length_nil] at hlen; omega
    | cons c t =>
      rw [List.cons_append, Text.after?]
      rw [Text.after?] at h
      by_cases hc : m = c
      · rw [if_pos hc] at h ⊢
        exact ih (Nat.le_of_succ_le_succ hlen) h
      · rw [if_neg hc]

/-- A mark at the front of a text is at the front of any longer one. -/
theorem after?_eq_none_of_append {t u : Text} (h : Text.after? mark (t ++ u) = none) :
    Text.after? mark t = none := by
  rw [Option.eq_none_iff_forall_ne_some] at h ⊢
  intro rest hrest
  apply h (rest ++ u)
  rw [Text.after?_eq_some_iff] at hrest ⊢
  rw [hrest, List.append_assoc]

/-- A text that does not contain a mark neither begins with it nor contains it behind its first
character. -/
theorem contains_cons_eq_false {c : Char} {t : Text} :
    Text.contains mark (c :: t) = false ↔
      Text.after? mark (c :: t) = none ∧ Text.contains mark t = false := by
  rw [Text.contains, Bool.or_eq_false_iff, Option.isSome_eq_false_iff, Option.isNone_iff_eq_none]

end Marks

theorem maskFrom_nil (mode : Mode) : maskFrom mode [] = [] := by
  cases mode <;> rfl

/-- Outside comments and literals a character that opens nothing stays. -/
theorem maskFrom_code_cons {c : Char} {t : Text} (h : opening? (c :: t) = none) :
    maskFrom .code (c :: t) = c :: maskFrom .code t := by
  rw [maskFrom]
  · rw [if_neg]
    intro hc
    simp only [Bool.or_eq_true, decide_eq_true_eq] at hc
    rcases hc with rfl | rfl
    · unfold opening? at h
      split at h <;> simp_all
    · exact absurd h (by simp [opening?])
  all_goals
    rintro u rfl rfl
    exact absurd h (by simp [opening?])

/-- What opens a region is blanked, and the pass goes on in the region. -/
theorem maskFrom_code_opener {mode : Mode} {t : Text}
    (h : opening? (mode.opener ++ t) = some mode) :
    maskFrom .code (mode.opener ++ t) = mode.opener.map blank ++ maskFrom mode t := by
  cases mode with
  | code =>
    rw [Mode.opener, List.nil_append, opening?.eq_def] at h
    split at h <;> simp at h
  | lineComment | blockComment | textBlock => rfl
  | quoted quote escaped =>
    simp only [Mode.opener, List.cons_append, List.nil_append] at h ⊢
    rw [maskFrom]
    · unfold opening? at h
      split at h <;> simp_all [blank, isLineBreak]
    all_goals
      rintro u rfl rfl
      exact absurd h (by simp [opening?])

/-- The two kinds of region that run to a mark are blanked up to its first occurrence. -/
theorem maskFrom_marked {mode : Mode} (kind : mode.isMarked = true) {c : Char} {t : Text}
    (h : Text.after? mode.closer (c :: t) = none) :
    maskFrom mode (c :: t) = blank c :: maskFrom mode t := by
  cases mode with
  | code | lineComment | quoted => exact absurd kind (by simp [Mode.isMarked])
  | blockComment | textBlock =>
    rw [maskFrom]
    rintro u rfl rfl
    exact absurd h (by simp [Mode.closer, Text.after?])

/-- The closing mark of a region is blanked, and behind it stands code. -/
theorem maskFrom_closer {mode : Mode} (kind : mode.isMarked = true) (t : Text) :
    maskFrom mode (mode.closer ++ t) = mode.closer.map blank ++ maskFrom .code t := by
  cases mode with
  | code | lineComment | quoted => exact absurd kind (by simp [Mode.isMarked])
  | blockComment | textBlock => rfl

/-- Where a line breaks or the text ends, the pass is outside comments and literals again. -/
theorem maskFrom_eq_code {mode : Mode} (kind : mode.isMarked = false) {t : Text}
    (edge : t.head?.all isLineBreak = true) : maskFrom mode t = maskFrom .code t := by
  cases t with
  | nil => rw [maskFrom_nil, maskFrom_nil]
  | cons c t =>
    have hc : isLineBreak c = true := edge
    have hplain := opening?_of_isLineBreak hc t
    rw [maskFrom_code_cons hplain]
    cases mode with
    | code => exact maskFrom_code_cons hplain
    | lineComment | quoted => rw [maskFrom, if_pos hc]
    | blockComment | textBlock => exact absurd kind (by simp [Mode.isMarked])

/-- Inside a literal, each character before its end is blanked. -/
theorem maskFrom_quoted_append {quote : Char} {escaped e : Bool} {body : Text}
    (h : escapeAfter? quote escaped body = some e) (rest : Text) :
    maskFrom (.quoted quote escaped) (body ++ rest) =
      body.map blank ++ maskFrom (.quoted quote e) rest := by
  induction body generalizing escaped with
  | nil =>
    obtain rfl := Option.some.inj h
    rfl
  | cons c body ih =>
    rw [escapeAfter?] at h
    rw [List.cons_append, maskFrom, List.map_cons, List.cons_append, blank]
    split at h
    · exact absurd h (by simp)
    · rename_i hbreak
      rw [if_neg hbreak, if_neg hbreak]
      congr 1
      split at h
      · rw [if_pos ‹_›]
        exact ih h
      · rw [if_neg ‹_›]
        split at h
        · rw [if_pos ‹_›]
          exact ih h
        · rw [if_neg ‹_›]
          split at h
          · exact absurd h (by simp)
          · rw [if_neg ‹_›]
            exact ih h

/-- Inside a region, its body and closing mark are blanked, and the pass goes on outside. One
character less than the mark is enough to see that it does not begin within the body. -/
theorem Extends.maskFrom_eq {mode : Mode} {body rest : Text} {closed : Bool}
    (h : Extends mode body closed rest) :
    maskFrom mode (body ++ Region.closing mode closed ++ rest) =
      (body ++ Region.closing mode closed).map blank ++ maskFrom .code rest := by
  cases h with
  | line unbroken edge =>
    simp only [Region.closing, Bool.false_eq_true, if_false, List.append_nil]
    induction body with
    | nil => exact maskFrom_eq_code rfl edge
    | cons c body ih =>
      obtain ⟨hc, hbody⟩ := List.forall_mem_cons.mp unbroken
      simp only [List.cons_append, maskFrom, hc, Bool.false_eq_true, if_false, List.map_cons,
        blank, ih hbody]
  | marked kind first =>
    simp only [Region.closing, if_true]
    induction body with
    | nil => exact maskFrom_closer kind rest
    | cons c body ih =>
      rw [List.cons_append, contains_cons_eq_false] at first
      have hlen : mode.closer.length ≤ (c :: (body ++ mode.closer.dropLast)).length := by
        simp only [List.length_cons, List.length_append, List.length_dropLast]
        omega
      have hsplit : c :: (body ++ mode.closer.dropLast) ++ mode.closer.getLast?.toList ++ rest =
          c :: (body ++ mode.closer ++ rest) := by
        cases mode <;> simp [Mode.closer]
      have hnone := after?_append_eq_none (u := mode.closer.getLast?.toList ++ rest) hlen first.1
      rw [← List.append_assoc, hsplit] at hnone
      rw [List.cons_append, List.cons_append, maskFrom_marked kind hnone, ih first.2]
      rfl
  | unmarked kind never =>
    simp only [Region.closing, Bool.false_eq_true, if_false, List.append_nil]
    induction body with
    | nil => rw [maskFrom_nil, maskFrom_nil, List.map_nil, List.append_nil]
    | cons c body ih =>
      rw [contains_cons_eq_false] at never
      rw [maskFrom_marked kind never.1, ih never.2]
      rfl
  | @closed quote escaped body rest kind free =>
    have hbreak : isLineBreak quote = false ∧ quote ≠ '\\' := by
      rcases isQuote_iff.mp kind with rfl | rfl <;> decide
    simp only [Region.closing, if_true, Mode.closer]
    rw [List.append_assoc, maskFrom_quoted_append free, List.map_append, List.append_assoc]
    simp only [List.cons_append, List.nil_append, maskFrom, hbreak.1, hbreak.2, if_false, if_true,
      Bool.false_eq_true, List.map_cons, List.map_nil, blank]
  | cut unquoted edge =>
    simp only [Region.closing, Bool.false_eq_true, if_false, List.append_nil]
    rw [maskFrom_quoted_append unquoted, maskFrom_eq_code rfl edge]

/-- Masking keeps the plain characters of a source and blanks its comments and literals. -/
theorem maskFrom_flatten {rs : List Region} (h : Lexed rs) :
    maskFrom .code (flatten rs) = rs.flatMap Region.blanked := by
  induction h with
  | nil => rfl
  | plain opens tail ih =>
    rw [flatten_cons, Region.text, List.cons_append, List.nil_append, maskFrom_code_cons opens, ih]
    rfl
  | @masked mode body closed rs opens runs tail ih =>
    rw [flatten_cons, Region.text, List.append_assoc, List.append_assoc] at opens ⊢
    rw [maskFrom_code_opener opens, ← List.append_assoc, runs.maskFrom_eq, ih]
    simp only [List.flatMap_cons, Region.blanked, Region.text, List.map_append, List.append_assoc]

/-- A text in a given mode is the rest of a region followed by a sequence of regions; outside
comments and literals it is such a sequence. -/
def Continues (mode : Mode) (t : Text) : Prop :=
  match mode with
  | .code => ∃ rs, Lexed rs ∧ flatten rs = t
  | mode => ∃ body closed rs, Lexed rs ∧ Extends mode body closed (flatten rs) ∧
      body ++ Region.closing mode closed ++ flatten rs = t

/-- What opens a region and then continues in it is a sequence of regions. -/
theorem continues_opener (mode : Mode) {t : Text} (opens : opening? (mode.opener ++ t) = some mode)
    (h : Continues mode t) : Continues .code (mode.opener ++ t) := by
  have hmode : ∃ body closed rs, Lexed rs ∧ Extends mode body closed (flatten rs) ∧
      body ++ Region.closing mode closed ++ flatten rs = t := by
    cases mode with
    | code =>
      rw [Mode.opener, List.nil_append, opening?.eq_def] at opens
      split at opens <;> simp at opens
    | lineComment | blockComment | textBlock | quoted => exact h
  obtain ⟨body, closed, rs, hrs, hext, rfl⟩ := hmode
  have hflat : flatten (.masked mode body closed :: rs) =
      mode.opener ++ (body ++ Region.closing mode closed ++ flatten rs) := by
    simp only [flatten_cons, Region.text, List.append_assoc]
  exact ⟨.masked mode body closed :: rs, .masked (hflat ▸ opens) hext hrs, hflat⟩

/-- A character at which no closing mark begins belongs to the body. -/
theorem Extends.marked_cons {mode : Mode} (kind : mode.isMarked = true) {c : Char}
    {body rest : Text} {closed : Bool} (h : Extends mode body closed rest)
    (hnone : Text.after? mode.closer (c :: (body ++ Region.closing mode closed ++ rest)) = none) :
    Extends mode (c :: body) closed rest := by
  cases h with
  | line | closed | cut => exact absurd kind (by simp [Mode.isMarked])
  | marked _ first =>
    refine .marked kind (contains_cons_eq_false.mpr ⟨?_, first⟩)
    have hsplit : c :: (body ++ Region.closing mode true ++ rest) =
        c :: (body ++ mode.closer.dropLast) ++ (mode.closer.getLast?.toList ++ rest) := by
      cases mode <;> simp [Region.closing, Mode.closer]
    rw [hsplit] at hnone
    exact after?_eq_none_of_append hnone
  | unmarked _ never =>
    refine .unmarked kind (contains_cons_eq_false.mpr ⟨?_, never⟩)
    rwa [List.append_nil, Region.closing, if_neg (by simp), List.append_nil] at hnone

/-- A character that does not break the line belongs to the line comment. -/
theorem Extends.line_cons {c : Char} {body rest : Text} {closed : Bool}
    (hc : isLineBreak c = false) (h : Extends .lineComment body closed rest) :
    Extends .lineComment (c :: body) closed rest := by
  cases h with
  | line unbroken edge => exact .line (List.forall_mem_cons.mpr ⟨hc, unbroken⟩) edge
  | marked kind | unmarked kind => exact absurd kind (by simp [Mode.isMarked])

/-- A character that neither breaks the line nor closes the literal belongs to it. -/
theorem Extends.quoted_cons {quote c : Char} {escaped e : Bool} {body rest : Text} {closed : Bool}
    (hstep : escapeAfter? quote escaped (c :: body) = escapeAfter? quote e body)
    (h : Extends (.quoted quote e) body closed rest) :
    Extends (.quoted quote escaped) (c :: body) closed rest := by
  cases h with
  | marked kind | unmarked kind => exact absurd kind (by simp [Mode.isMarked])
  | closed kind free => exact .closed kind (hstep.trans free)
  | cut unquoted edge => exact .cut (hstep.trans unquoted) edge

/-- Every text continues whatever it stands in: a character of a literal leads to a mode of the same
literal unless it closes it. -/
theorem continues (mode : Mode) (t : Text)
    (hmode : ∀ q e, mode = .quoted q e → isQuote q = true) : Continues mode t := by
  fun_induction maskFrom mode t with
  | case1 mode =>
    cases mode with
    | code => exact ⟨[], .nil, rfl⟩
    | lineComment => exact ⟨[], false, [], .nil, .line (by simp) rfl, rfl⟩
    | blockComment | textBlock => exact ⟨[], false, [], .nil, .unmarked rfl rfl, rfl⟩
    | quoted quote escaped => exact ⟨[], false, [], .nil, .cut rfl rfl, rfl⟩
  | case2 t ih => exact continues_opener .lineComment rfl (ih (by simp))
  | case3 t ih => exact continues_opener .blockComment rfl (ih (by simp))
  | case4 t ih => exact continues_opener .textBlock rfl (ih (by simp))
  | case5 c t h₁ h₂ h₃ hc ih =>
    have hquote : isQuote c = true := hc
    refine continues_opener (.quoted c false) ?_ (ih ?_)
    · rw [Mode.opener, List.cons_append, List.nil_append]
      rcases isQuote_iff.mp hquote with rfl | rfl
      · unfold opening?
        split <;> simp_all
      · rfl
    · rintro q e he
      rwa [← (Mode.quoted.inj he).1]
  | case6 c t h₁ h₂ h₃ hc ih =>
    obtain ⟨rs, hrs, rfl⟩ := ih (by simp)
    refine ⟨.plain c :: rs, .plain ?_ hrs, rfl⟩
    unfold opening?
    split <;> simp_all
  | case7 c t hbreak ih =>
    obtain ⟨rs, hrs, rfl⟩ := ih (by simp)
    have hplain := opening?_of_isLineBreak hbreak (flatten rs)
    exact ⟨[], false, .plain c :: rs, .plain hplain hrs, .line (by simp) hbreak, rfl⟩
  | case8 c t hbreak ih =>
    obtain ⟨body, closed, rs, hrs, hext, rfl⟩ := ih (by simp)
    exact ⟨c :: body, closed, rs, hrs, hext.line_cons (Bool.eq_false_iff.mpr hbreak), rfl⟩
  | case9 t ih | case11 t ih =>
    obtain ⟨rs, hrs, rfl⟩ := ih (by simp)
    exact ⟨[], true, rs, hrs, .marked rfl rfl, rfl⟩
  | case10 c t hmark ih | case12 c t hmark ih =>
    obtain ⟨body, closed, rs, hrs, hext, rfl⟩ := ih (by simp)
    refine ⟨c :: body, closed, rs, hrs, hext.marked_cons rfl ?_, rfl⟩
    rw [Option.eq_none_iff_forall_ne_some]
    intro rest hrest
    obtain ⟨hc, ht⟩ := List.cons.inj (Text.after?_eq_some_iff.mp hrest)
    exact hmark rest hc ht
  | case13 quote escaped c t hbreak ih =>
    obtain ⟨rs, hrs, rfl⟩ := ih (by simp)
    have hplain := opening?_of_isLineBreak hbreak (flatten rs)
    exact ⟨[], false, .plain c :: rs, .plain hplain hrs, .cut rfl hbreak, rfl⟩
  | case14 quote escaped c t hbreak ih =>
    have hquote := hmode quote escaped rfl
    have hnext : ∀ m e, m = Mode.quoted quote e → ∀ q e', m = .quoted q e' → isQuote q = true := by
      rintro m e rfl q e' he
      rwa [← (Mode.quoted.inj he).1]
    by_cases hclose : escaped = false ∧ c ≠ '\\' ∧ c = quote
    · obtain ⟨rfl, hback, rfl⟩ := hclose
      simp only [Bool.false_eq_true, if_false, hback, if_true] at ih
      obtain ⟨rs, hrs, rfl⟩ := ih (by simp)
      exact ⟨[], true, rs, hrs, .closed hquote rfl, rfl⟩
    · have hstep : ∃ e, (if escaped = true then Mode.quoted quote false
          else if c = '\\' then .quoted quote true
          else if c = quote then .code else .quoted quote false) = .quoted quote e ∧
          ∀ body, escapeAfter? quote escaped (c :: body) = escapeAfter? quote e body := by
        simp only [escapeAfter?, hbreak]
        cases escaped <;> by_cases hb : c = '\\' <;> by_cases hq : c = quote <;> simp_all
      obtain ⟨e, he, hstep⟩ := hstep
      rw [he] at ih
      obtain ⟨body, closed, rs, hrs, hext, rfl⟩ := ih (hnext _ e rfl)
      exact ⟨c :: body, closed, rs, hrs, hext.quoted_cons (hstep body), rfl⟩

/-- Every text is the text of a sequence of regions. -/
theorem exists_lexed (t : Text) : ∃ rs, Lexed rs ∧ flatten rs = t :=
  continues .code t (by simp)

end Gloss.Mask
