import Gloss.Expr.Inline
import Gloss.Proofs.Expr.Complete

/-!
# The inline form as source

With the operators of the source put back, the inline form of an expression that was read
is itself source, and it is read as the same expression. It has lost only blanks and commas,
so brackets match and arguments part as they did before; a raw leaf is repeated as it was,
and is tried within the same budget.
-/

namespace Gloss

open Text

namespace Expr

mutual

/-- The inline form of an expression, but with the operators of the source. -/
def sourceText : Expr → Text
  | number digits => digits
  | identifier name => name
  | raw text => text
  | group fence e => fence.bracket.opener :: (e.sourceText ++ [fence.bracket.closer])
  | unary sign e => sign.symbol ++ e.sourceText
  | binary op l r => l.sourceText ++ (op.symbol ++ r.sourceText)
  | member e name => e.sourceText ++ '.' :: name
  | index e s => e.sourceText ++ '[' :: (s.sourceText ++ [']'])
  | call f args => f.sourceText ++ '(' :: (join [','] (sourceTexts args) ++ [')'])
  | construct type => ['n', 'e', 'w', ' '] ++ type.sourceText
  | constructWith type args =>
    ['n', 'e', 'w', ' '] ++ (type.sourceText ++ '(' :: (join [','] (sourceTexts args) ++ [')']))

/-- The source forms of several expressions. -/
def sourceTexts : List Expr → List Text
  | [] => []
  | e :: es => e.sourceText :: sourceTexts es

end

end Expr

namespace Grammar

variable {room b b' : Nat} {t u : Text} {e : Expr} {es : List Expr} {ps : List Text}

/-- A text may take the place of another in which the same expression was read: it has the
same characters but for blanks and commas, and it begins with a visible one. -/
structure Reprints (text original : Text) : Prop where
  /-- They differ in blanks and commas at most. -/
  solid_eq : solid text = solid original
  /-- It begins with a visible character. -/
  start : ∃ c v, text = c :: v ∧ isBlank c = false

/-- No exclusive or comes in. -/
theorem Reprints.no_xor (h : Reprints t u) (hxor : xorSign ∉ u) : xorSign ∉ t := fun hmem =>
  hxor (mem_of_solid_eq h.solid_eq (by decide) (by decide) hmem)

/-- What has been read may be read from its source form as well. -/
def Reprintable (R : Reading) : Prop :=
  ∀ ⦃b t e b'⦄, R b t e b' → R b e.sourceText e b' ∧ Reprints e.sourceText t

/-- What is read in any room ends with a visible character. -/
theorem Reads.endsVisible : ∀ room {b t e b'}, Reads room b t e b' → EndsVisible t
  | 0, _, _, _, _, h => h.elim
  | _ + 1, _, _, _, _, h => Spells.endsVisible h

/-- A whole text, read again from the source form of what it was read as. -/
theorem readWhole_sourceText (hinner : Reprintable (Reads room))
    (h : readWhole (expression room) t b = some (e, b')) (htrim : trim t = t) :
    readWhole (expression room) e.sourceText b = some (e, b') ∧
      solid e.sourceText = solid t ∧ trim e.sourceText = e.sourceText ∧
      (t ≠ [] → e.sourceText ≠ []) ∧ (Uncut {} t → Uncut {} e.sourceText) := by
  rcases readWhole_cases (expression_sound room) h with ⟨rfl, -⟩ | ⟨hxor, u, g, rfl, hg, hu⟩
  · rw [Expr.sourceText]
    exact ⟨h, rfl, htrim, id, id⟩
  · obtain ⟨hreads, hreprints⟩ := hinner hu
    have hno : xorSign ∉ e.sourceText :=
      hreprints.no_xor fun hm => hxor (List.mem_append_left g hm)
    obtain ⟨c, v, hcons, hc⟩ := hreprints.start
    have hstart : ∀ d ∈ e.sourceText.head?, isBlank d = false := by
      intro d hd
      rw [hcons, List.head?_cons, Option.mem_some_iff] at hd
      rwa [← hd]
    refine ⟨readWhole_of_reads hreads hno, ?_, ?_, ?_, ?_⟩
    · rw [hreprints.solid_eq, solid_append, hg.solid_eq, List.append_nil]
    · exact trim_eq_self hstart (Reads.endsVisible room hreads)
    · intro _
      rw [hcons]
      exact List.cons_ne_nil c v
    · intro _
      exact Reads.uncut room hreads {}

/-- Arguments, read again from their source forms. Behind the source form of an argument as many
brackets are open as behind the argument itself. -/
theorem readEach_sourceTexts (hinner : Reprintable (Reads room))
    (h : readEach (expression room) ps b = some (es, b'))
    (hps : ∀ p ∈ ps, trim p = p ∧ p ≠ []) (hapart : Separable ps) :
    readEach (expression room) (Expr.sourceTexts es) b = some (es, b') ∧
      (Expr.sourceTexts es).flatMap solid = ps.flatMap solid ∧
      (∀ q ∈ Expr.sourceTexts es, trim q = q ∧ q ≠ []) ∧ Separable (Expr.sourceTexts es) ∧
      (Expr.sourceTexts es).length = ps.length := by
  induction ps generalizing b es with
  | nil =>
    cases h
    exact ⟨rfl, rfl, hps, hapart, rfl⟩
  | cons p ps ih =>
    obtain ⟨e, b₁, es', rfl, he, hes⟩ := readEach_cons.mp h
    obtain ⟨hp, hps⟩ := List.forall_mem_cons.mp hps
    obtain ⟨huncut, huncuts⟩ := List.forall_mem_cons.mp hapart.uncut
    obtain ⟨hflat, hflats⟩ := List.pairwise_cons.mp hapart.flat
    obtain ⟨hread, hsolid, htrim, hne, hcut⟩ := readWhole_sourceText hinner he hp.1
    obtain ⟨hreads, hsolids, htrims, hseparable, hlength⟩ := ih hes hps ⟨huncuts, hflats⟩
    rw [Expr.sourceTexts]
    refine ⟨readEach_cons.mpr ⟨e, b₁, es', rfl, hread, hreads⟩, ?_, ?_, ⟨?_, ?_⟩, ?_⟩
    · rw [List.flatMap_cons, List.flatMap_cons, hsolid, hsolids]
    · exact List.forall_mem_cons.mpr ⟨⟨htrim, hne hp.2⟩, htrims⟩
    · exact List.forall_mem_cons.mpr ⟨hcut huncut, hseparable.uncut⟩
    · refine List.pairwise_cons.mpr ⟨fun q hq => ?_, hseparable.flat⟩
      have hmore : ps ≠ [] := by
        rintro rfl
        rw [List.length_eq_zero_iff.mp hlength] at hq
        exact absurd hq List.not_mem_nil
      obtain ⟨p', hp'⟩ := List.exists_mem_of_ne_nil ps hmore
      have := hflat p' hp'
      rwa [← Bracket.Nesting.after_solid, ← hsolid, Bracket.Nesting.after_solid] at this
    · rw [List.length_cons, List.length_cons, hlength]

/-- An argument list, read again from the source forms of its arguments. -/
theorem readArgs_sourceTexts (hinner : Reprintable (Reads room))
    (h : readArgs (expression room) t b = some (es, b')) :
    readArgs (expression room) (join [','] (Expr.sourceTexts es)) b = some (es, b') ∧
      solid (join [','] (Expr.sourceTexts es)) = solid t := by
  obtain ⟨hreads, hsolid, htrims, hapart, -⟩ := readEach_sourceTexts hinner h
    (fun p hp => mem_splitTopLevel hp) (separable_splitTopLevel t)
  have hkeep : (Expr.sourceTexts es).map trim = Expr.sourceTexts es := by
    rw [List.map_congr_left fun q hq => (htrims q hq).1, List.map_id']
  have hsplit : splitTopLevel [','] (join [','] (Expr.sourceTexts es)) = Expr.sourceTexts es := by
    rw [splitTopLevel_join hapart, hkeep, List.filter_eq_self]
    intro q hq
    simpa using (htrims q hq).2
  rw [readArgs, hsplit, solid_join, hsolid, flatMap_solid_splitTopLevel]
  exact ⟨hreads, rfl⟩

section Reprint

variable {g c v w : Text}

/-- Texts with the same visible characters may be added to a text and to the one it stands for. -/
theorem Reprints.append (h : Reprints t u) (hv : solid v = solid w) :
    Reprints (t ++ v) (u ++ w) where
  solid_eq := by rw [solid_append, solid_append, h.solid_eq, hv]
  start := by
    obtain ⟨c, r, rfl, hc⟩ := h.start
    exact ⟨c, r ++ v, rfl, hc⟩

/-- Behind a visible character, texts with the same visible characters may take the place of each
other. -/
theorem Reprints.cons {c : Char} (hc : isBlank c = false) (hv : solid v = solid w) :
    Reprints (c :: v) (c :: w) where
  solid_eq := by
    by_cases hcomma : c = ','
    · rw [hcomma, solid_comma, solid_comma, hv]
    · rw [solid_cons hc hcomma, solid_cons hc hcomma, hv]
  start := ⟨c, v, rfl, hc⟩

/-- Blanks in front of the original do not matter. -/
theorem Reprints.skip (h : Reprints t u) (hg : AllBlank g) : Reprints t (g ++ u) where
  solid_eq := by rw [solid_append, hg.solid_eq, List.nil_append, h.solid_eq]
  start := h.start

/-- What follows behind an operator, a dot or an opening bracket may be reprinted, too; the
blanks before that character get lost. -/
theorem Reprints.behind {c : Char} (h : Reprints t u) (hg : AllBlank g) (hc : isBlank c = false)
    (hv : solid v = solid w) : Reprints (t ++ c :: v) (u ++ (g ++ c :: w)) :=
  h.append ((Reprints.cons hc hv).skip hg).solid_eq

/-- At every level, an expression is read again from its source form. -/
theorem Spells.reprintable (hinner : Reprintable (Reads room)) (level : Level) :
    Reprintable (Spells (expression room) (Reads room) level) := by
  have hspace : AllBlank [' '] := allBlank_cons.mpr ⟨by decide, allBlank_nil⟩
  have hnew : Reprints ['n', 'e', 'w'] ['n', 'e', 'w'] := ⟨rfl, 'n', _, rfl, by decide⟩
  intro b t e b' h
  induction h with
  | name hname =>
    obtain ⟨c, v, hcons, hc⟩ := hname.self.exists_cons
    rw [Expr.sourceText]
    refine ⟨.name hname.self, ?_, c, v, hcons, ?_⟩
    · rw [hname.solid_eq, hname.self.solid_eq]
    · exact isBlank_of_isIdentPart (isIdentPart_of_isIdentStart hc)
  | member _ happlied hg hh hname ih =>
    rw [Expr.sourceText]
    refine ⟨.member (g := []) (h := []) ih.1 happlied allBlank_nil allBlank_nil hname.self, ?_⟩
    refine ih.2.behind hg (by decide) ?_
    rw [solid_append, hh.solid_eq, List.nil_append, hname.solid_eq, hname.self.solid_eq]
  | index _ hg hinside hs ih =>
    obtain ⟨hread, hsolid, htrim, -, -⟩ := readWhole_sourceText hinner hs (trim_trim _)
    rw [solid_trim] at hsolid
    rw [Expr.sourceText]
    refine ⟨.index (g := []) ih.1 allBlank_nil ?_ ?_, ih.2.behind hg (by decide) ?_⟩
    · exact (Bracket.encloses_congr hsolid).mpr hinside
    · rwa [htrim]
    · rw [solid_append, solid_append, hsolid]
  | call _ hg hinside hargs ih =>
    obtain ⟨hread, hsolid⟩ := readArgs_sourceTexts hinner hargs
    rw [Expr.sourceText]
    refine ⟨.call (g := []) ih.1 allBlank_nil ?_ hread, ih.2.behind hg (by decide) ?_⟩
    · exact (Bracket.encloses_congr hsolid).mpr hinside
    · rw [solid_append, solid_append, hsolid]
  | trailed _ ih => exact ⟨.trailed ih.1, ih.2⟩
  | number hnumeral =>
    obtain ⟨c, v, hcons, hc⟩ := hnumeral.exists_cons
    rw [Expr.sourceText]
    exact ⟨.number hnumeral, rfl, c, v, hcons, isBlank_of_isIdentPart (isIdentPart_of_isDigit hc)⟩
  | @group _ _ fence _ _ _ he hg =>
    obtain ⟨hreads, hreprints⟩ := hinner he
    have hblank : isBlank fence.bracket.opener = false := by cases fence <;> decide
    rw [Expr.sourceText]
    refine ⟨.group (g := []) hreads allBlank_nil, .cons hblank ?_⟩
    rw [solid_append, solid_append, solid_append, hreprints.solid_eq, hg.solid_eq,
      List.nil_append]
  | construct hg _ hname =>
    rw [Expr.sourceText, Expr.sourceText]
    refine ⟨.construct hspace (by simp) hname.self, hnew.append (v := [' '] ++ _) ?_⟩
    rw [solid_append, solid_append, hspace.solid_eq, hg.solid_eq, hname.solid_eq,
      hname.self.solid_eq]
  | constructWith hg _ hname hh hinside hargs =>
    obtain ⟨hread, hsolid⟩ := readArgs_sourceTexts hinner hargs
    have hencloses := (Bracket.encloses_congr hsolid).mpr hinside
    rw [Expr.sourceText, Expr.sourceText]
    refine ⟨.constructWith (h := []) hspace (by simp) hname.self allBlank_nil hencloses hread,
      hnew.append (v := [' '] ++ _) ?_⟩
    have hparen (v : Text) : solid ('(' :: v) = '(' :: solid v :=
      solid_cons (by decide) (by decide)
    simp only [solid_append, hspace.solid_eq, hg.solid_eq, hh.solid_eq, hname.solid_eq,
      hname.self.solid_eq, hparen, hsolid, List.nil_append]
  | unsigned hg _ ih => exact ⟨.unsigned (g := []) allBlank_nil ih.1, ih.2.skip hg⟩
  | signed hg hsign _ ih =>
    have hblank := Sign.isBlank_of_ofChar? hsign
    rw [Expr.sourceText, (Sign.ofChar?_eq_some hsign).1]
    refine ⟨.signed (g := []) allBlank_nil hsign ih.1, ?_⟩
    exact (Reprints.cons hblank ih.2.solid_eq).skip hg
  | factor _ ih => exact ⟨.factor ih.1, ih.2⟩
  | multiply _ hg hop _ ihl ihr =>
    have hblank := Operator.isBlank_of_multiplicative? hop
    rw [Expr.sourceText, (Operator.multiplicative?_eq_some hop).1]
    exact ⟨.multiply (g := []) ihl.1 allBlank_nil hop ihr.1, ihl.2.behind hg hblank ihr.2.solid_eq⟩
  | term _ ih => exact ⟨.term ih.1, ih.2⟩
  | add _ hg hop _ ihl ihr =>
    have hblank := Operator.isBlank_of_additive? hop
    rw [Expr.sourceText, (Operator.additive?_eq_some hop).1]
    exact ⟨.add (g := []) ihl.1 allBlank_nil hop ihr.1, ihl.2.behind hg hblank ihr.2.solid_eq⟩

/-- What was read in any room may be read from its source form. -/
theorem Reads.reprintable (room : Nat) : Reprintable (Reads room) := by
  induction room with
  | zero => exact fun _ _ _ _ h => h.elim
  | succ room ih => exact Spells.reprintable ih .sum

end Reprint

end Grammar

namespace Expr

open Grammar Inline

variable {t : Text} {e : Expr}

/-- An expression that was read is read again from its source form, which has the characters
of the text but for blanks and commas. -/
theorem parse?_sourceText (h : parse? t = some e) :
    parse? e.sourceText = some e ∧ solid e.sourceText = solid t := by
  obtain ⟨hxor, u, g, b', rfl, hg, hu⟩ := parse?_eq_some_iff_reads.mp h
  obtain ⟨hreads, hreprints⟩ := Reads.reprintable _ hu
  have hno : xorSign ∉ e.sourceText :=
    hreprints.no_xor fun hm => hxor (List.mem_append_left g hm)
  refine ⟨parse?_eq_some_iff_reads.mpr ?_, (hreprints.skip allBlank_nil).solid_eq.trans ?_⟩
  · exact ⟨hno, e.sourceText, [], b', by rw [List.append_nil], allBlank_nil, hreads⟩
  · rw [List.nil_append, solid_append, hg.solid_eq, List.append_nil]

/-- The character of the source for which a character of the inline form stands. -/
def sourceChar (c : Char) : Char :=
  if c = middleDot then '*' else if c = fractionSlash then '/' else c

/-- A text without the signs of the inline form stands for itself. -/
theorem map_sourceChar (hdot : middleDot ∉ t) (hslash : fractionSlash ∉ t) :
    t.map sourceChar = t := by
  have hkeep : ∀ c ∈ t, sourceChar c = id c := by
    intro c hc
    have hne : c ≠ middleDot := fun he => hdot (he ▸ hc)
    have hne' : c ≠ fractionSlash := fun he => hslash (he ▸ hc)
    rw [sourceChar, if_neg hne, if_neg hne', id]
  rw [List.map_congr_left hkeep, List.map_id]

/-- The inline sign of an operator stands for its symbol in the source. -/
theorem map_sourceChar_inlineText_operator (op : Operator) :
    op.inlineText.map sourceChar = op.symbol.map sourceChar := by
  cases op <;> rfl

mutual

/-- The inline form differs from the source form in its operators alone. -/
theorem map_sourceChar_inlineText :
    (e : Expr) → e.inlineText.map sourceChar = e.sourceText.map sourceChar
  | number _ | identifier _ | raw _ => rfl
  | group _ e | member e _ => by
    simp only [inlineText, sourceText, List.cons_append, List.map_cons, List.map_append,
      map_sourceChar_inlineText e]
  | unary _ e => by
    rw [inlineText, sourceText, List.map_append, List.map_append, map_sourceChar_inlineText e]
  | binary op l r => by
    simp only [inlineText, sourceText, List.map_append, List.append_assoc,
      map_sourceChar_inlineText l, map_sourceChar_inlineText r,
      map_sourceChar_inlineText_operator op]
  | index e s => by
    simp only [inlineText, sourceText, List.cons_append, List.map_cons, List.map_append,
      List.append_assoc, map_sourceChar_inlineText e, map_sourceChar_inlineText s]
  | call f args => by
    simp only [inlineText, sourceText, List.cons_append, List.map_cons, List.map_append,
      List.append_assoc, map_sourceChar_inlineText f, map_sourceChar_inlineTexts args]
  | construct type => by
    rw [inlineText, sourceText, List.map_append, List.map_append, map_sourceChar_inlineText type]
    rfl
  | constructWith type args => by
    simp only [inlineText, sourceText, List.cons_append, List.map_cons, List.map_append,
      List.append_assoc, map_sourceChar_inlineText type, map_sourceChar_inlineTexts args]
    rfl

/-- The same for arguments with commas between them. -/
theorem map_sourceChar_inlineTexts : (es : List Expr) →
    (commaSeparated (inlineTexts es)).map sourceChar =
      (join [','] (sourceTexts es)).map sourceChar
  | [] => rfl
  | [e] => by
    simp only [commaSeparated, inlineTexts, sourceTexts, join_singleton,
      map_sourceChar_inlineText e]
  | e :: e' :: es => by
    have hmore := map_sourceChar_inlineTexts (e' :: es)
    simp only [commaSeparated, inlineTexts, sourceTexts] at hmore
    simp only [commaSeparated, inlineTexts, sourceTexts, join_cons_cons, List.map_append,
      map_sourceChar_inlineText e, hmore]

end

/-- For source without the symbols of the inline form, that form says which source it stands
for. -/
theorem map_sourceChar_inlineText_of_parse? (hdot : middleDot ∉ t) (hslash : fractionSlash ∉ t)
    (h : parse? t = some e) : e.inlineText.map sourceChar = e.sourceText := by
  have hsolid := (parse?_sourceText h).2
  have habsent {c : Char} (hc : c ∉ t) (hblank : isBlank c = false) (hcomma : c ≠ ',') :
      c ∉ e.sourceText := by
    intro hmem
    have hmem' : c ∈ solid e.sourceText := mem_solid.mpr ⟨hmem, hblank, hcomma⟩
    rw [hsolid] at hmem'
    exact hc (mem_solid.mp hmem').1
  rw [map_sourceChar_inlineText, map_sourceChar (habsent hdot (by decide) (by decide))
    (habsent hslash (by decide) (by decide))]

/-- The inline form is read as the expression it shows, once its operators are those of the source
again. -/
theorem parse?_map_sourceChar_inlineText (hdot : middleDot ∉ t) (hslash : fractionSlash ∉ t)
    (h : parse? t = some e) : parse? (e.inlineText.map sourceChar) = some e := by
  rw [map_sourceChar_inlineText_of_parse? hdot hslash h]
  exact (parse?_sourceText h).1

/-- The inline form of an expression, with the symbols of the source put back, is read as that
expression; so expressions that look the same inline are the same. -/
theorem parse?_inlineText (hdot : middleDot ∉ t) (hslash : fractionSlash ∉ t)
    (h : parse? t = some e) :
    parse? (e.inlineText.map sourceChar) = some e ∧
      ∀ {t' : Text} {e' : Expr}, middleDot ∉ t' → fractionSlash ∉ t' → parse? t' = some e' →
        e'.inlineText = e.inlineText → e' = e := by
  have hread := parse?_map_sourceChar_inlineText hdot hslash h
  refine ⟨hread, fun hdot' hslash' h' hsame => ?_⟩
  have hread' := parse?_map_sourceChar_inlineText hdot' hslash' h'
  rw [hsame, hread] at hread'
  exact (Option.some.inj hread').symm

/-- Blanks and an empty argument get lost; a raw leaf keeps its blank. -/
theorem parse?_inlineText_raw :
    parse? "f ( x*y, , a b )".toList =
        some (.call (.identifier ['f'])
          [.binary .mul (.identifier ['x']) (.identifier ['y']), .raw ['a', ' ', 'b']]) ∧
      parse? "f(x*y,a b)".toList =
        some (.call (.identifier ['f'])
          [.binary .mul (.identifier ['x']) (.identifier ['y']), .raw ['a', ' ', 'b']]) := by
  have h : parse? "f ( x*y, , a b )".toList =
      some (.call (.identifier ['f'])
        [.binary .mul (.identifier ['x']) (.identifier ['y']), .raw ['a', ' ', 'b']]) := by
    decide +kernel
  exact ⟨h, (parse?_inlineText (by decide) (by decide) h).1⟩

end Expr

end Gloss
