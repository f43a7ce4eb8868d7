import Gloss.Proofs.Candidate
import Gloss.Proofs.Expr.Bound
import Gloss.Proofs.Mask.Unmarked
import Gloss.Proofs.Text.Line
import Gloss.Proofs.Text.Row

/-!
# What the search for powers finds

A power is looked for by its segments: the longest dotted name before a parenthesis is taken, and
it names a function if its last segments are those of the function. Since no segment holds a dot,
the name that a call is written with fixes its segments, and no choice between functions, nor of
where the qualifiers end, is left. The search therefore reports just the calls of its functions
with two arguments, and the parser reads such a call as one.
-/

namespace Gloss.Power

open Text Grammar

/-- Neither a name nor the layout around it holds a mark. -/
theorem no_mark {c : Char} (hc : isBlank c = true ∨ isTokenPart c = true) :
    c ≠ '/' ∧ Mask.isQuote c = false := by
  constructor
  · rintro rfl
    revert hc
    decide
  · rw [Bool.eq_false_iff, Ne, Mask.isQuote_iff]
    rintro (rfl | rfl)
    all_goals
      revert hc
      decide

/-- A call as it is written: a dotted name, layout, and what its parentheses enclose. -/
structure Written where
  /-- The name, with layout around its dots. -/
  callee : Text
  /-- What stands between the dots. -/
  segments : List Text
  /-- What stands before the opening parenthesis. -/
  gap : Text
  /-- What stands before the closing parenthesis. -/
  inside : Text
  /-- The name is a dotted name. -/
  dotted : Dotted isLayout callee segments
  /-- Only layout stands between the name and the parenthesis. -/
  layout : AllLayout gap
  /-- The two parentheses belong together. -/
  closed : Bracket.paren.Encloses inside

namespace Written

/-- The whole text of a call. -/
def text (w : Written) : Text := w.callee ++ (w.gap ++ '(' :: (w.inside ++ [')']))

/-- The name that is called, without the blanks in it. -/
def name (w : Written) : Text := w.callee.filter fun c => !isBlank c

/-- A call of one of the functions with two arguments, in which there is no exclusive or. -/
structure IsPower (functions : List Text) (w : Written) (base exponent : Text) : Prop where
  /-- The last segments of the name are those of a function. -/
  named : ∃ function ∈ functions, splitAt '.' function <:+ w.segments
  /-- There are two arguments. -/
  arguments : splitTopLevel [','] w.inside = [base, exponent]
  /-- There is no exclusive or in them. -/
  arithmetic : xorSign ∉ base ∧ xorSign ∉ exponent

variable (w : Written)

/-- The name of a written call is that of its segments. -/
theorem name_eq_join : w.name = join ['.'] w.segments := by
  have hspells : SpellsName w.callee (join ['.'] w.segments) :=
    ⟨_, w.dotted.mono isBlank_of_isLayout, rfl⟩
  exact hspells.filter_eq

/-- The callee of a written call spells its name. -/
theorem spellsName : SpellsName w.callee w.name :=
  ⟨_, w.dotted.mono isBlank_of_isLayout, w.name_eq_join.symm⟩

theorem length_text : w.text.length = (w.callee ++ w.gap).length + w.inside.length + 2 := by
  simp only [text, List.length_append, List.length_cons, List.length_nil]
  omega

/-- No mark stands in a call but in its arguments, and none begins or ends at a parenthesis. -/
theorem unmarked_text (h : Mask.Unmarked w.inside) : Mask.Unmarked w.text := by
  have hclose : Mask.Unmarked (w.inside ++ [')']) :=
    h.append ⟨by decide, by decide, by decide, by decide⟩ (by simp)
  have hopen : Mask.Unmarked (['('] ++ (w.inside ++ [')'])) :=
    hclose.append_plain (List.forall_mem_singleton.mpr (by decide))
  refine .append_plain (fun c hc => no_mark (w.spellsName.chars c hc)) ?_
  exact hopen.append_plain fun c hc => no_mark (.inl (w.layout.allBlank c hc))

variable {w} {functions : List Text} {base exponent : Text} {b x : Expr}

/-- The name of a power is that of a function, or ends with it behind a dot. -/
theorem IsPower.name (h : w.IsPower functions base exponent) :
    ∃ function ∈ functions, w.name = function ∨ '.' :: function <:+ w.name := by
  obtain ⟨function, hmem, hsuffix⟩ := h.named
  rw [w.name_eq_join]
  exact ⟨function, hmem, join_of_splitAt_suffix hsuffix⟩

/-- The parser reads a power as a call of its name, if it reads the arguments. -/
theorem IsPower.parse? (h : w.IsPower functions base exponent)
    (hbase : ReadsAlone maxDepth base b) (hexponent : ReadsAlone maxDepth exponent x)
    (hsize : b.size + x.size + 2 ≤ maxNodes) :
    Expr.parse? w.text = some (.call (.identifier w.name) [b, x]) := by
  refine parse?_call w.spellsName w.layout.allBlank w.closed ?_ ?_
  · rw [h.arguments]
    exact .cons hbase (.cons hexponent .nil)
  · simpa only [Expr.sizes, Nat.add_zero] using hsize

end Written

section Recognise

variable {functions segments : List Text} {prev : Option Char} {t inside rest : Text}

/-- A callee is taken if a dotted name stands in front of an opening parenthesis, with layout
between. -/
theorem takeCallee?_eq_some_iff : takeCallee? t = some (segments, inside) ↔
    ∃ callee gap, t = callee ++ (gap ++ '(' :: inside) ∧ Dotted isLayout callee segments ∧
      AllLayout gap := by
  have htoken : ∀ c, isTokenPart c = true → isLayout c = false := fun _ => isLayout_of_isTokenPart
  constructor
  · intro h
    unfold takeCallee? at h
    split at h
    · cases h
    · rename_i segments' behind hdotted
      obtain ⟨callee, rfl, hcallee, -⟩ := (takeDotted?_eq_some_iff htoken).mp hdotted
      split at h
      · rename_i inside' hskip
        obtain ⟨rfl, rfl⟩ := Prod.mk.inj (Option.some.inj h)
        obtain ⟨hbehind, hgap, -⟩ := span_eq_iff.mp ⟨rfl, hskip⟩
        exact ⟨callee, _, by rw [← hbehind], hcallee, List.all_eq_true.mp hgap⟩
      · cases h
  · rintro ⟨callee, gap, rfl, hcallee, hgap⟩
    have hskip : skipLayout (gap ++ '(' :: inside) = '(' :: inside := by
      rw [skipLayout, List.dropWhile_append_of_pos hgap]
      rfl
    have hends : NameEnds isLayout (gap ++ '(' :: inside) := by
      refine ⟨?_, fun u hu => ?_⟩
      · cases gap with
        | nil => rfl
        | cons c gap => exact isIdentPart_of_isLayout (hgap c List.mem_cons_self)
      · rw [← skipLayout, hskip] at hu
        cases hu
    rw [takeCallee?, (takeDotted?_eq_some_iff htoken).mpr ⟨callee, rfl, hcallee, hends⟩]
    dsimp only
    rw [hskip]
    rfl

/-- The arguments of a power are the only two parts of what the parentheses enclose, and neither has
an exclusive or. -/
theorem arguments?_eq_some_iff {base exponent : Text} :
    arguments? inside = some (base, exponent) ↔
      splitTopLevel [','] inside = [base, exponent] ∧ xorSign ∉ base ∧ xorSign ∉ exponent := by
  unfold arguments?
  split
  · rename_i base' exponent' hsplit
    rw [hsplit]
    by_cases hxor : xorSign ∈ base' ∨ xorSign ∈ exponent'
    · rw [if_pos (by simpa using hxor)]
      simp only [reduceCtorEq, List.cons.injEq, and_true, false_iff, not_and]
      rintro ⟨rfl, rfl⟩ hbase
      exact not_not.mpr (hxor.resolve_left hbase)
    · rw [if_neg (by simpa using hxor)]
      simp only [Option.some.injEq, Prod.mk.injEq, List.cons.injEq, and_true]
      constructor
      · rintro ⟨rfl, rfl⟩
        exact ⟨⟨rfl, rfl⟩, not_or.mp hxor⟩
      · exact And.left
  · rename_i hsplit
    exact iff_of_false (by simp) fun h => hsplit _ _ h.1

/-- Where no token goes on, a function is named by its segments at the end of a name. -/
theorem names_iff {function : Text} (hprev : prev.any isTokenPart = false) :
    names function prev segments = true ↔ splitAt '.' function <:+ segments := by
  have hword : prev.any isIdentPart = false := by
    cases prev with
    | none => rfl
    | some c =>
      rw [Option.any_some, Bool.eq_false_iff] at hprev ⊢
      exact fun hc => hprev (isTokenPart_of_isIdentPart hc)
  rw [names, hword]
  simp only [Bool.not_false, Bool.and_true, Bool.or_eq_true, decide_eq_true_eq,
    List.isSuffixOf_iff_suffix]
  refine or_iff_right_of_imp ?_
  rintro rfl
  exact List.suffix_rfl

/-- The calls that are reported are the powers before which no token goes on. -/
theorem recognise_eq_some_iff {call : Call} :
    recognise functions prev t = some (some call, rest) ↔ prev.any isTokenPart = false ∧
      ∃ w : Written, t = w.text ++ rest ∧ call.nameLength = (w.callee ++ w.gap).length ∧
        w.IsPower functions call.base call.exponent := by
  constructor
  · intro h
    unfold recognise at h
    split at h
    · cases h
    · rename_i segments behind hcallee
      obtain ⟨callee, gap, rfl, hdotted, hgap⟩ := takeCallee?_eq_some_iff.mp hcallee
      split at h
      · rename_i hnamed
        split at h
        · cases h
        · rename_i hprev
          rw [Bool.not_eq_true] at hprev
          split at h
          · cases h
          · rename_i inside rest' hclose
            obtain ⟨rfl, hclosed⟩ := Bracket.close?_eq_some_iff.mp hclose
            split at h
            · cases h
            · rename_i base exponent hargs
              obtain ⟨hsplit, harith⟩ := arguments?_eq_some_iff.mp hargs
              obtain ⟨hcall, rfl⟩ := Prod.mk.inj (Option.some.inj h)
              obtain rfl := Option.some.inj hcall
              obtain ⟨function, hmem, hnames⟩ := List.any_eq_true.mp hnamed
              refine ⟨hprev, ⟨callee, segments, gap, inside, hdotted, hgap, hclosed⟩, ?_, ?_,
                ⟨⟨function, hmem, (names_iff hprev).mp hnames⟩, hsplit, harith⟩⟩
              · simp [Written.text, Bracket.closer]
              · simp only [List.length_append, List.length_cons]
                omega
      · cases h
  · rintro ⟨hprev, w, rfl, hlength, ⟨⟨function, hmem, hsuffix⟩, hsplit, harith⟩⟩
    have htext : w.text ++ rest =
        w.callee ++ (w.gap ++ '(' :: (w.inside ++ Bracket.paren.closer :: rest)) := by
      simp [Written.text, Bracket.closer]
    have hcallee := takeCallee?_eq_some_iff.mpr ⟨w.callee, w.gap, htext, w.dotted, w.layout⟩
    have hnamed : functions.any (fun function => names function prev w.segments) = true :=
      List.any_eq_true.mpr ⟨function, hmem, (names_iff hprev).mpr hsuffix⟩
    have hname : (w.text ++ rest).length - (w.inside ++ Bracket.paren.closer :: rest).length - 1 =
        call.nameLength := by
      rw [hlength, List.length_append, w.length_text, @List.length_append _ w.inside,
        List.length_cons]
      omega
    unfold recognise
    rw [hcallee]
    dsimp only
    rw [if_pos hnamed, hprev, if_neg Bool.false_ne_true, w.closed.close? rest]
    dsimp only
    rw [arguments?_eq_some_iff.mpr ⟨hsplit, harith⟩]
    dsimp only
    rw [hname]

end Recognise

/-- What a finding says of the call that it stands for. -/
structure Shows (functions : List Text) (source masked : Text) (f : Finding) (start stop : Nat)
    (w : Written) (base exponent : Text) : Prop where
  /-- It is located where the call stands. -/
  location : f.location = (LineIndex.ofText source).location start stop
  /-- It is a stretch of the text, and not an empty one. -/
  range : start < stop ∧ stop ≤ masked.length
  /-- The stretch holds the call and nothing else. -/
  text : masked.slice start stop = w.text
  /-- The name is that of a function, or ends with it behind a dot. -/
  named : ∃ function ∈ functions, w.name = function ∨ '.' :: function <:+ w.name
  /-- There are two arguments. -/
  arguments : splitTopLevel [','] w.inside = [base, exponent]
  /-- The name is quoted from the source, and the arguments are given. -/
  detail : f.detail =
    .power (trim (source.slice start (start + (w.callee ++ w.gap).length))) base exponent
  /-- The text of the stretch as a whole is the call, if the arguments can be read in it. -/
  parsed : ∀ b x, ReadsAlone maxDepth base b → ReadsAlone maxDepth exponent x →
    b.size + x.size + 2 ≤ maxNodes →
    Expr.parse? (masked.slice start stop) = some (.call (.identifier w.name) [b, x])

/-- Every finding shows a call of one of the functions with two arguments. -/
theorem find_shows_power (functions : List Text) (source masked : Text) :
    ∀ f ∈ find functions source masked, ∃ start stop w base exponent,
      Shows functions source masked f start stop w base exponent := by
  intro f hf
  obtain ⟨o, ho, rfl⟩ := List.mem_map.mp hf
  obtain ⟨i, rest, hi⟩ := exists_reportedAt_of_mem_occurrences ho
  obtain ⟨-, w, htext, hlength, hpower⟩ := recognise_eq_some_iff.mp hi.reported
  obtain ⟨hslice, -⟩ := slice_of_drop_eq htext
  obtain rfl : o.start = i := by
    have := hi.start
    omega
  have hstop : o.stop = o.start + w.text.length := by
    have hlong := congrArg List.length htext
    rw [List.length_drop, List.length_append] at hlong
    have := hi.stop
    have := hi.bound
    have := w.length_text
    omega
  rw [← hstop] at hslice
  have hrange := hi.range
  refine ⟨o.start, o.stop, w, o.value.base, o.value.exponent, rfl, ⟨hrange.1, by omega⟩, hslice,
    hpower.name, hpower.arguments, ?_, fun b x hbase hexponent hsize => ?_⟩
  · rw [← hlength]
    rfl
  · rw [hslice]
    exact hpower.parse? hbase hexponent hsize

/-- The call is shown, with its own arguments and not with those of the call in them. -/
theorem find_shows_power_nested :
    ∃ f ∈ find ["Math.pow".toList] "x = 3 / java . Math.pow (pow(9, 2), n); // 9^n".toList
        (mask "x = 3 / java . Math.pow (pow(9, 2), n); // 9^n".toList),
      ∃ start stop w base exponent, Shows ["Math.pow".toList]
        "x = 3 / java . Math.pow (pow(9, 2), n); // 9^n".toList
        (mask "x = 3 / java . Math.pow (pow(9, 2), n); // 9^n".toList)
        f start stop w base exponent := by
  obtain ⟨f, hf⟩ := List.exists_mem_of_ne_nil _
    (show find ["Math.pow".toList] "x = 3 / java . Math.pow (pow(9, 2), n); // 9^n".toList
      (mask "x = 3 / java . Math.pow (pow(9, 2), n); // 9^n".toList) ≠ [] by decide +kernel)
  exact ⟨f, hf, find_shows_power _ _ _ f hf⟩

/-- A text that stands for an argument between commas, with blanks around it or without. -/
structure Argument (t arg : Text) : Prop where
  /-- The argument is the text without the blanks at its ends. -/
  trim_eq : trim t = arg
  /-- It is not empty. -/
  ne_nil : arg ≠ []
  /-- The brackets of each kind belong together. -/
  matched : ∀ b : Bracket, b.Encloses t
  /-- No comma stands outside all brackets. -/
  uncut : Uncut {} t
  /-- There is no exclusive or. -/
  arithmetic : xorSign ∉ t
  /-- There is no quotation mark and no comment. -/
  unmarked : Mask.Unmarked t

section Whole

variable {s t base exponent : Text}

/-- No argument has an exclusive or. -/
theorem Argument.xorSign_not_mem (h : Argument s base) : xorSign ∉ base := by
  have hsolid : solid base = solid s := by
    rw [← h.trim_eq, solid_trim]
  exact fun hmem => h.arithmetic (mem_of_solid_eq hsolid (by decide) (by decide) hmem)

/-- Two arguments are split at the comma between them. -/
theorem splitTopLevel_arguments (hs : Argument s base) (ht : Argument t exponent) :
    splitTopLevel [','] (s ++ ',' :: t) = [base, exponent] := by
  have hparts : Separable [s, t] := by
    refine ⟨List.forall_mem_cons.mpr ⟨hs.uncut, List.forall_mem_singleton.mpr ht.uncut⟩, ?_⟩
    exact List.pairwise_pair.mpr (Bracket.Nesting.isFlat_after hs.matched)
  have hsplit := splitTopLevel_join hparts
  rw [join_cons_cons, join_singleton, List.map_cons, List.map_singleton, hs.trim_eq,
    ht.trim_eq] at hsplit
  refine hsplit.trans (List.filter_eq_self.mpr ?_)
  simpa using ⟨hs.ne_nil, ht.ne_nil⟩

/-- Two arguments with a comma between can stand in parentheses. -/
theorem encloses_arguments (hs : Argument s base) (ht : Argument t exponent) :
    Bracket.paren.Encloses (s ++ ',' :: t) := by
  have hfirst : Bracket.paren.depthAfter? 0 s = some 0 := hs.matched .paren
  have hsecond : Bracket.paren.depthAfter? 0 t = some 0 := ht.matched .paren
  rw [Bracket.Encloses, Bracket.depthAfter?_append, hfirst, Option.bind_some,
    Bracket.depthAfter?_cons, Bracket.step?_other (by decide) (by decide), Option.bind_some,
    hsecond]

/-- Two arguments with a comma between are left by masking. -/
theorem unmarked_arguments (hs : Argument s base) (ht : Argument t exponent) :
    Mask.Unmarked (s ++ ',' :: t) := by
  have hcomma : Mask.Unmarked ([','] ++ t) :=
    ht.unmarked.append_plain (List.forall_mem_singleton.mpr (by decide))
  exact hs.unmarked.append hcomma (by simp)

end Whole

/-- In a source that is one call of a configured function, however qualified, that call is found and
nothing else. -/
theorem find_call (config : Config) {name callee gap s t base exponent source : Text}
    {qualifiers : List Text} (hname : name ∈ config.powerFunctions)
    (hcallee : Dotted isLayout callee (qualifiers ++ splitAt '.' name)) (hgap : AllLayout gap)
    (hs : Argument s base) (ht : Argument t exponent)
    (hsource : source = callee ++ (gap ++ '(' :: (s ++ ',' :: (t ++ [')'])))) :
    ∃ f, find config.powerFunctions source (mask source) = [f] ∧ f.start = 0 ∧
      f.stop = source.length ∧ f.detail = .power callee base exponent := by
  let w : Written := ⟨callee, _, gap, s ++ ',' :: t, hcallee, hgap, encloses_arguments hs ht⟩
  obtain rfl : source = w.text := by
    simp [hsource, w, Written.text]
  have hmask : mask w.text = w.text := (w.unmarked_text (unmarked_arguments hs ht)).mask_eq
  have hpower : w.IsPower config.powerFunctions base exponent :=
    ⟨⟨name, hname, List.suffix_append qualifiers _⟩, splitTopLevel_arguments hs ht,
      hs.xorSign_not_mem, ht.xorSign_not_mem⟩
  have hrecognised : recognise config.powerFunctions none w.text =
      some (some ⟨(callee ++ gap).length, base, exponent⟩, []) :=
    recognise_eq_some_iff.mpr ⟨rfl, w, (List.append_nil _).symm, rfl, hpower⟩
  have hne : w.text ≠ [] := by
    simp [Written.text]
  have hquoted : trim (w.text.slice 0 (0 + (callee ++ gap).length)) = callee := by
    have hfront : w.text.drop 0 = (callee ++ gap) ++ '(' :: (w.inside ++ [')']) := by
      rw [List.drop_zero, List.append_assoc]
      rfl
    rw [(slice_of_drop_eq hfront).1, ← List.nil_append (callee ++ gap),
      trim_append allBlank_nil hgap.allBlank]
    exact w.spellsName.trim_eq
  refine ⟨finding (LineIndex.ofText w.text) w.text
    ⟨0, w.text.length, ⟨(callee ++ gap).length, base, exponent⟩⟩, ?_, ?_, ?_, ?_⟩
  · rw [find, hmask, occurrences_eq_singleton hne hrecognised, List.map_singleton]
  · rw [finding, Finding.start, LineIndex.location_offset]
    rfl
  · rw [finding, Finding.stop, LineIndex.location_endOffset]
  · rw [finding, hquoted]

/-- Each of two configured names ends the name that is called, and the one is an ending of the
other; the call in the first argument is not found. -/
theorem find_call_nested :
    ∃ f, find [['p', 'o', 'w'], ['m', '.', 'p', 'o', 'w']] "m .m.pow (pow(a,b), -2)".toList
        (mask "m .m.pow (pow(a,b), -2)".toList) = [f] ∧ f.start = 0 ∧
      f.stop = "m .m.pow (pow(a,b), -2)".toList.length ∧
      f.detail = .power "m .m.pow".toList "pow(a,b)".toList "-2".toList := by
  let config : Config := { powerFunctions := [['p', 'o', 'w'], ['m', '.', 'p', 'o', 'w']] }
  have hcallee : Dotted isLayout (['m'] ++ ([' '] ++ '.' :: ([] ++ (['m'] ++ ([] ++ '.' ::
      ([] ++ (['p', 'o', 'w'] ++ []))))))) ([['m']] ++ splitAt '.' ['m', '.', 'p', 'o', 'w']) :=
    .mk (by decide) (.cons (by decide) (by decide) (by decide)
      (.cons (by decide) (by decide) (by decide) .nil))
  have hgap : AllLayout [' '] := by decide
  have hbase : Argument "pow(a,b)".toList "pow(a,b)".toList := {
    trim_eq := by decide +kernel
    ne_nil := by decide +kernel
    matched := fun b => by cases b <;> rfl
    uncut := by decide +kernel
    arithmetic := by decide +kernel
    unmarked := ⟨by decide +kernel, by decide +kernel, by decide +kernel, by decide +kernel⟩ }
  have hexponent : Argument " -2".toList "-2".toList := {
    trim_eq := by decide +kernel
    ne_nil := by decide +kernel
    matched := fun b => by cases b <;> rfl
    uncut := by decide +kernel
    arithmetic := by decide +kernel
    unmarked := ⟨by decide +kernel, by decide +kernel, by decide +kernel, by decide +kernel⟩ }
  exact find_call config (by decide) hcallee hgap hbase hexponent (by decide +kernel)

end Gloss.Power
