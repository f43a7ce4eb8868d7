import Gloss.Proofs.Detect.Division

/-!
# Divisions and block comments

What stands in a block comment takes no part in the recognition of divisions: masking leaves
the same divisions visible, whatever the body of the comment says. But quotes and slashes in a
comment count like those around it when the search tells which offsets of a line are shown, so
a body may hide a division that stands behind it, or show one again. A body without quotes,
backslashes and `//` does neither.
-/

namespace Gloss

namespace Text

variable {c : Char} {head tail body body' : Text}

/-- A slice up to the end of a text that ends with a character is empty or ends with it, too. -/
theorem EndsAt.slice {n m : Nat} (h : EndsAt c head) (hm : head.length < m) :
    EndsAt c (slice head n m) := by
  have hslice : Text.slice head n m = head.drop n := by
    rw [Text.slice, List.take_of_length_le (Nat.le_of_lt hm)]
  rw [hslice]
  rcases h with rfl | ⟨u, rfl⟩
  · exact .inl List.drop_nil
  · by_cases hn : n ≤ u.length
    · exact .inr ⟨u.drop n, List.drop_append_of_le_length hn⟩
    · refine .inl (List.drop_eq_nil_of_le ?_)
      rw [List.length_append, List.length_singleton]
      omega

/-- A slice from the beginning of a text that begins with a character is empty or begins with it,
too. -/
theorem BeginsAt.slice {m : Nat} (h : BeginsAt c tail) : BeginsAt c (slice tail 0 m) := by
  rcases h with rfl | ⟨u, rfl⟩
  · exact .inl List.take_nil
  · cases m with
    | zero => exact .inl rfl
    | succ m => exact .inr ⟨u.take m, rfl⟩

/-- Two texts that differ in one stretch between two characters have slices that differ in at
most one stretch between two such characters. -/
theorem slice_between {β : Type} (f : Text → β) (hhead : EndsAt c head) (htail : BeginsAt c tail)
    (hlength : body.length = body'.length) (n m : Nat)
    (h : ∀ s t i j, EndsAt c s → BeginsAt c t → n + s.length = head.length + i →
      f (s ++ (slice body i j ++ t)) = f (s ++ (slice body' i j ++ t))) :
    f (slice (head ++ (body ++ tail)) n m) = f (slice (head ++ (body' ++ tail)) n m) := by
  rw [slice_append, slice_append, slice_append, slice_append, ← hlength]
  by_cases hmeet : head.length < m ∧ n - head.length < body.length
  · obtain ⟨hm, hn⟩ := hmeet
    rw [Nat.sub_eq_zero_of_le (Nat.le_of_lt hn)]
    refine h _ _ _ _ (hhead.slice hm) htail.slice ?_
    rw [length_slice]
    omega
  · have hnil (u : Text) (hu : u.length = body.length) :
        slice u (n - head.length) (m - head.length) = [] := by
      rw [← List.length_eq_zero_iff, length_slice]
      omega
    rw [hnil body rfl, hnil body' hlength.symm]

end Text

namespace Division

open Text Mask

section Stretch

variable {head tail body body' : Text} (hhead : EndsAt '*' head) (htail : BeginsAt '*' tail)
  (hbody : body.map blank = body'.map blank)

include hhead htail hbody

/-- What is visible around a blanked stretch does not depend on what stands there. -/
theorem visible_between {masked : Text}
    (hmasked : ∀ i < body.length, ∃ d, masked[head.length + i]? = some d ∧ isBlank d = true) :
    visible (head ++ (body ++ tail)) masked = visible (head ++ (body' ++ tail)) masked := by
  have hblank : (head ++ (body ++ tail)).map blank = (head ++ (body' ++ tail)).map blank := by
    simp only [List.map_append, hbody]
  have hlength := length_eq_of_map_blank_eq hbody
  simp only [visible, lines_eq_map_slice, List.flatMap_map]
  rw [lineSpans_congr hblank, LineIndex.ofText_congr hblank]
  refine List.flatMap_congr ?_
  rintro ⟨n, k⟩ -
  refine congrArg (List.map _) (slice_between (visibleIn (masked.drop n)) hhead htail hlength n
    (n + k) fun s t i j hs ht hplace => visibleIn_between hs ht ?_ fun a ha => ?_)
  · rw [length_slice, length_slice, hlength]
  · rw [length_slice] at ha
    rw [List.getElem?_drop, ← Nat.add_assoc, hplace, Nat.add_assoc]
    exact hmasked (i + a) (by omega)

/-- Harmless stretches show the same offsets. -/
theorem shown_between (h : Harmless body) (h' : Harmless body') (offset : Nat) :
    shown (head ++ (body ++ tail)) offset = shown (head ++ (body' ++ tail)) offset := by
  have hblank : (head ++ (body ++ tail)).map blank = (head ++ (body' ++ tail)).map blank := by
    simp only [List.map_append, hbody]
  have hlength := length_eq_of_map_blank_eq hbody
  have hline (n m : Nat) : exclusions (slice (head ++ (body ++ tail)) n m) =
      exclusions (slice (head ++ (body' ++ tail)) n m) :=
    slice_between exclusions hhead htail hlength n m fun s t i j hs ht _ =>
      exclusions_between hs ht (by rw [length_slice, length_slice, hlength]) (h.slice i j)
        (h'.slice i j)
  simp only [shown, lineAt?, lines_eq_map_slice, List.find?_map, Option.any_map]
  rw [lineSpans_congr hblank]
  simp only [Function.comp_def, length_slice, length_eq_of_map_blank_eq hblank, admits, hline]

end Stretch

variable {before after : List Region} {body body' : Text} {closed : Bool}

/-- Behind the body of a block comment stands an asterisk, or the source ends. -/
theorem beginsAt_behind_blockComment
    (hrs : Lexed (before ++ .masked .blockComment body closed :: after)) :
    BeginsAt '*' (Region.closing .blockComment closed ++ flatten after) := by
  cases hrs.of_append with
  | masked _ runs _ =>
    generalize flatten after = rest at runs
    cases runs with
    | marked => exact .inr ⟨_, rfl⟩
    | unmarked => exact .inl rfl

/-- The text around a block comment, with its marks told apart from its body. -/
theorem flatten_around_blockComment (before after : List Region) (body : Text) (closed : Bool) :
    flatten (before ++ .masked .blockComment body closed :: after) =
      (flatten before ++ ['/', '*']) ++
        (body ++ (Region.closing .blockComment closed ++ flatten after)) := by
  simp only [flatten_append, flatten_cons, Region.text, Mode.opener, List.append_assoc]

/-- Masking shows the body of a block comment blanked. -/
theorem mask_around_blockComment
    (hrs : Lexed (before ++ .masked .blockComment body closed :: after)) :
    mask (flatten (before ++ .masked .blockComment body closed :: after)) =
      (before.flatMap Region.blanked ++ ['/', '*'].map blank) ++
        (body.map blank ++ ((Region.closing .blockComment closed).map blank ++
          after.flatMap Region.blanked)) := by
  rw [mask, maskFrom_flatten hrs]
  simp only [List.flatMap_append, List.flatMap_cons, Region.blanked, Region.text, Mode.opener,
    List.map_append, List.append_assoc]

/-- The body of a block comment is masked by blanks. -/
theorem isBlank_mask_blockComment
    (hrs : Lexed (before ++ .masked .blockComment body closed :: after)) {i : Nat}
    (hi : i < body.length) :
    ∃ d, (mask (flatten (before ++ .masked .blockComment body closed :: after)))[
      (flatten before ++ ['/', '*']).length + i]? = some d ∧ isBlank d = true := by
  have hlength : (flatten before ++ ['/', '*']).length =
      (before.flatMap Region.blanked ++ ['/', '*'].map blank).length := by
    simp only [flatten, List.length_append, List.length_flatMap, Region.length_blanked,
      List.length_map]
  refine ⟨blank body[i], ?_, isBlank_blank _⟩
  rw [mask_around_blockComment hrs, hlength, List.getElem?_append_right (Nat.le_add_right _ _),
    Nat.add_sub_cancel_left, List.getElem?_append_left (by rwa [List.length_map]),
    List.getElem?_map, List.getElem?_eq_getElem hi, Option.map_some]

/-- Lists are filtered alike exactly by what is the same on all their members. -/
theorem filter_eq_filter_iff {β : Type} {l : List β} {p q : β → Bool} :
    l.filter p = l.filter q ↔ ∀ x ∈ l, p x = q x := by
  refine ⟨fun h x hx => ?_, List.filter_congr⟩
  have hmem : x ∈ l.filter p ↔ x ∈ l.filter q := by rw [h]
  rwa [List.mem_filter, List.mem_filter, and_iff_right hx, and_iff_right hx,
    ← Bool.eq_iff_iff] at hmem

/-- Block comments whose bodies have the same length and line breaks are masked alike and leave
the same divisions visible. The same divisions are found exactly if the two bodies show the same
ones of these, and harmless bodies do. -/
theorem find_eq_iff_shown_eq
    (hrs : Lexed (before ++ .masked .blockComment body closed :: after))
    (hrs' : Lexed (before ++ .masked .blockComment body' closed :: after))
    (hbody : body.map blank = body'.map blank) :
    let s := flatten (before ++ .masked .blockComment body closed :: after)
    let s' := flatten (before ++ .masked .blockComment body' closed :: after)
    mask s = mask s' ∧ visible s (mask s) = visible s' (mask s') ∧
      (find s (mask s) = find s' (mask s') ↔
        ∀ f ∈ visible s (mask s), shown s f.start.toNat = shown s' f.start.toNat) ∧
      (Harmless body → Harmless body' → find s (mask s) = find s' (mask s')) := by
  intro s s'
  have hhead : EndsAt '*' (flatten before ++ ['/', '*']) :=
    .inr ⟨flatten before ++ ['/'], (List.append_assoc _ ['/'] ['*']).symm⟩
  have htail := beginsAt_behind_blockComment hrs
  have hmask : mask s = mask s' := by
    rw [mask_around_blockComment hrs, mask_around_blockComment hrs', hbody]
  have hvisible : visible s (mask s) = visible s' (mask s') := by
    have hmasked := fun i => isBlank_mask_blockComment hrs (i := i)
    rw [← hmask]
    simp only [s, s', flatten_around_blockComment] at hmasked ⊢
    exact visible_between hhead htail hbody hmasked
  have hfind : find s (mask s) = find s' (mask s') ↔
      ∀ f ∈ visible s (mask s), shown s f.start.toNat = shown s' f.start.toNat := by
    rw [find_eq_filter_visible, find_eq_filter_visible, ← hvisible, filter_eq_filter_iff]
  refine ⟨hmask, hvisible, hfind, fun h h' => hfind.mpr fun f _ => ?_⟩
  simp only [s, s', flatten_around_blockComment]
  exact shown_between hhead htail hbody h h' _

/-- A comment of two lines whose bodies both show the division before it and hide the one
behind it. -/
theorem find_eq_of_two_lines :
    let source (body : Text) := flatten ("x / y ".toList.map .plain ++
      .masked .blockComment body true :: " c / d".toList.map .plain)
    let s := source " u/v\n 'w ".toList
    let s' := source "\"//\"\nu'w ".toList
    mask s = mask s' ∧ (visible s (mask s)).length = 2 ∧ (find s (mask s)).length = 1 ∧
      find s (mask s) = find s' (mask s') := by
  intro source s s'
  have hd : Lexed (" d".toList.map .plain ++ []) := Lexed.append_plain (by decide) .nil
  have hc := Lexed.append_plain (t := " c ".toList) (by decide)
    (show Lexed (.plain '/' :: _) from .plain rfl hd)
  have hlexed (body : Text) (hbody : Text.contains ['*', '/'] (body ++ ['*']) = false) :
      Lexed ("x / y ".toList.map .plain ++
        .masked .blockComment body true :: " c / d".toList.map .plain) :=
    Lexed.append_plain (t := "x ".toList) (by decide)
      (show Lexed (.plain '/' :: _) from .plain rfl
        (Lexed.append_plain (t := " y ".toList) (by decide)
          (show Lexed (.masked .blockComment body true :: _) from
            .masked rfl (.marked rfl hbody) hc)))
  obtain ⟨hmask, -, hiff, -⟩ := find_eq_iff_shown_eq (hlexed " u/v\n 'w ".toList (by decide))
    (hlexed "\"//\"\nu'w ".toList (by decide)) (by decide)
  exact ⟨hmask, by decide +kernel, by decide +kernel, hiff.mpr (by decide +kernel)⟩

/-- A quotation mark in a comment hides what follows on its line: `a / b` is found behind one
comment and not behind the other. -/
theorem find_ne_of_quoted_blockComment :
    ¬ ∀ (before after : List Region) (body body' : Text) (closed : Bool),
      Lexed (before ++ .masked .blockComment body closed :: after) →
      Lexed (before ++ .masked .blockComment body' closed :: after) →
      body.map blank = body'.map blank →
      let s := flatten (before ++ .masked .blockComment body closed :: after)
      let s' := flatten (before ++ .masked .blockComment body' closed :: after)
      find s (mask s) = find s' (mask s') := by
  intro h
  have hb : Lexed (" b".toList.map .plain ++ []) := Lexed.append_plain (by decide) .nil
  have htail := Lexed.append_plain (t := " a ".toList) (by decide)
    (show Lexed (.plain '/' :: _) from .plain rfl hb)
  exact absurd (h [] _ " x ".toList " ' ".toList true (.masked rfl (.marked rfl rfl) htail)
    (.masked rfl (.marked rfl rfl) htail) rfl)
    (show find "/* x */ a / b".toList (mask "/* x */ a / b".toList) ≠
      find "/* ' */ a / b".toList (mask "/* ' */ a / b".toList) by decide +kernel)

end Division

end Gloss
