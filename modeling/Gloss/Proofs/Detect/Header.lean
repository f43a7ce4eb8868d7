import Gloss.Detect.Loop
import Gloss.Proofs.Occurrence
import Gloss.Proofs.Text.Join
import Gloss.Proofs.Text.Row

/-!
# Loop headers

The header of a counting loop is written with any layout between its tokens. Behind a type name
the variable is read as a whole. Without one, a variable that is a type name run together with an
identifier is taken for a declaration of that identifier, and the header is refused, since the
condition and the update speak of another variable.
-/

namespace Gloss

namespace Loop

open Text

variable {c : Char} {g k name low rest t v x : Text}

/-- The type names are made of characters of identifiers. -/
theorem all_isIdentPart_of_mem_typeNames (h : k ∈ typeNames) : k.all isIdentPart = true := by
  have hall : ∀ k ∈ typeNames, k.all isIdentPart = true := by decide
  exact hall k h

/-- No type name begins with another one. -/
theorem eq_of_mem_typeNames {k' u u' : Text} (hk : k ∈ typeNames) (hk' : k' ∈ typeNames)
    (h : k ++ u = k' ++ u') : k = k' := by
  have hapart : ∀ k ∈ typeNames, ∀ k' ∈ typeNames, k <+: k' → k = k' := by decide
  rcases List.append_eq_append_iff.mp h with ⟨a, ha, -⟩ | ⟨a, ha, -⟩
  · exact hapart k hk k' hk' ⟨a, ha.symm⟩
  · exact (hapart k' hk' k hk ⟨a, ha.symm⟩).symm

section Target

/-- Behind layout and an equals sign stands the value, if no second equals sign does. -/
theorem afterEquals?_append (hg : AllLayout g) (hrest : rest.head? ≠ some '=') :
    afterEquals? (g ++ '=' :: rest) = some rest := by
  have hskip : skipLayout (g ++ '=' :: rest) = '=' :: rest := by
    rw [skipLayout, List.dropWhile_append_of_pos hg]
    rfl
  rw [afterEquals?, hskip]
  exact if_neg hrest

/-- A name in front of an equals sign is the target. -/
theorem takeTarget?_append (hv : isIdent v = true) (hg : AllLayout g)
    (hrest : rest.head? ≠ some '=') : takeTarget? (v ++ (g ++ '=' :: rest)) = some (v, rest) := by
  have hend : (g ++ '=' :: rest).head?.any isIdentPart = false := by
    cases g with
    | nil => rfl
    | cons d g => exact isIdentPart_of_isLayout (hg d List.mem_cons_self)
  have hident := takeIdent?_eq_some_iff.mpr ⟨rfl, hv, hend⟩
  simp [takeTarget?, hident, afterEquals?_append hg hrest]

/-- What stands behind an equals sign stands behind layout and that sign. -/
theorem of_afterEquals? (h : afterEquals? t = some rest) :
    ∃ g, AllLayout g ∧ t = g ++ '=' :: rest := by
  obtain ⟨ht, hg, -⟩ := (@span_eq_iff isLayout _ t _).mp ⟨rfl, rfl⟩
  rw [afterEquals?] at h
  split at h
  · rename_i u hu
    split at h
    · cases h
    · obtain rfl := Option.some.inj h
      rw [skipLayout] at hu
      rw [hu] at ht
      exact ⟨_, List.all_eq_true.mp hg, ht⟩
  · cases h

/-- A target is a name in front of layout and an equals sign. -/
theorem of_takeTarget? (h : takeTarget? t = some (name, rest)) :
    ∃ g, AllLayout g ∧ isIdent name = true ∧ t = name ++ (g ++ '=' :: rest) := by
  obtain ⟨⟨name', u⟩, hident, h⟩ := Option.bind_eq_some_iff.mp h
  obtain ⟨rest', hequals, h⟩ := Option.bind_eq_some_iff.mp h
  obtain ⟨rfl, rfl⟩ := Prod.mk.inj (Option.some.inj h)
  obtain ⟨rfl, hname, -⟩ := takeIdent?_eq_some_iff.mp hident
  obtain ⟨g, hg, rfl⟩ := of_afterEquals? hequals
  exact ⟨g, hg, hname, rfl⟩

end Target

section Initial

/-- The name behind a type name, and the text it starts from. -/
def behindType? (t : Text) : Option (Text × Text) :=
  (typeNames.findSome? fun k => after? k t).bind fun u => takeTarget? (skipLayout u)

/-- A text that goes on with a name and an equals sign behind `k`, with layout between them. -/
def Declares (k name rest t : Text) : Prop :=
  ∃ g h, AllLayout g ∧ AllLayout h ∧ isIdent name = true ∧
    t = k ++ (g ++ (name ++ (h ++ '=' :: rest)))

/-- The name that is declared is an identifier. -/
theorem Declares.name_isIdent (h : Declares k name rest t) : isIdent name = true := by
  obtain ⟨_, _, _, _, hname, -⟩ := h
  exact hname

/-- The first clause is read behind a type name or, if there is none, from its beginning. -/
theorem initialised?_eq_some_iff : initialised? t = some (name, low) ↔
    ∃ rest, rest ≠ [] ∧ (behindType? t).or (takeTarget? t.skipLayout) = some (name, rest) ∧
      trim rest = low := by
  rw [initialised?, ← behindType?]
  rcases (behindType? t).or (takeTarget? t.skipLayout) with _ | ⟨name', _ | ⟨c, rest⟩⟩
  · simp
  · simp
  · simp [and_assoc, eq_comm]

/-- A target alone declares its name. -/
theorem declares_of_takeTarget? (h : takeTarget? t.skipLayout = some (name, rest)) :
    Declares [] name rest t := by
  obtain ⟨h, hh, hname, htarget⟩ := of_takeTarget? h
  refine ⟨t.takeWhile isLayout, h, fun c hc => List.mem_takeWhile_imp hc, hh, hname, ?_⟩
  rw [List.nil_append, ← htarget, skipLayout, List.takeWhile_append_dropWhile]

/-- A target behind a type name declares its name. -/
theorem declares_of_behindType? (h : behindType? t = some (name, rest)) :
    ∃ k ∈ typeNames, Declares k name rest t := by
  obtain ⟨u, hfind, htarget⟩ := Option.bind_eq_some_iff.mp h
  obtain ⟨k, hk, hafter⟩ := List.exists_of_findSome?_eq_some hfind
  obtain ⟨g, h, hg, hh, hname, rfl⟩ := declares_of_takeTarget? htarget
  exact ⟨k, hk, g, h, hg, hh, hname, after?_eq_some_iff.mp hafter⟩

/-- The name declared is the end of what stands before the equals sign, layout aside: both ways of
putting the text together are cut at the first equals sign and then at the layout before it. -/
theorem Declares.eq_append {rest' : Text}
    (h : Declares k name rest' (x ++ (v ++ (g ++ '=' :: rest))))
    (hk : k.all isIdentPart = true) (hx : '=' ∉ x) (hv : isIdent v = true) (hg : AllLayout g) :
    rest' = rest ∧ ∃ a, AllLayout a ∧ k ++ (a ++ name) = x ++ v := by
  obtain ⟨a, b, ha, hb, hname, htext⟩ := h
  have hequals {u : Text} (hu : u.all isIdentPart = true) : '=' ∉ u := fun hmem =>
    absurd (List.all_eq_true.mp hu _ hmem) (by decide)
  have hlast {s u : Text} (hu : isIdent u = true) : (s ++ u).getLast?.any isLayout = false := by
    have hall := List.all_eq_true.mp (all_isIdentPart_of_isIdent hu)
    obtain ⟨c, w, rfl, -⟩ := isIdent_iff.mp hu
    rw [List.getLast?_append, List.getLast?_eq_some_getLast (List.cons_ne_nil c w),
      Option.some_or, Option.any_some]
    exact isLayout_of_isIdentPart (hall _ (List.getLast_mem _))
  have hbefore : '=' ∉ k ++ (a ++ (name ++ b)) := by
    simp only [List.mem_append, not_or]
    exact ⟨hequals hk, ha.not_mem rfl, hequals (all_isIdentPart_of_isIdent hname), hb.not_mem rfl⟩
  have hbefore' : '=' ∉ x ++ (v ++ g) := by
    simp only [List.mem_append, not_or]
    exact ⟨hx, hequals (all_isIdentPart_of_isIdent hv), hg.not_mem rfl⟩
  have hcut : k ++ (a ++ (name ++ b)) ++ '=' :: rest' = x ++ (v ++ g) ++ '=' :: rest := by
    simpa only [List.append_assoc] using htext.symm
  have hbreak := breakAt_eq_some_iff.mpr ⟨hcut, hbefore'⟩
  rw [breakAt_eq_some_iff.mpr ⟨rfl, hbefore⟩, Prod.mk.injEq, Option.some.injEq] at hbreak
  obtain ⟨hfront, rfl⟩ := hbreak
  have hfront' : k ++ (a ++ name) ++ b = x ++ v ++ g := by
    simpa only [List.append_assoc] using hfront
  have hwhole : (k ++ (a ++ name)).getLast?.any isLayout = false := by
    rw [← List.append_assoc]
    exact hlast hname
  exact ⟨rfl, a, ha, (append_inj_of_class hfront' (List.all_eq_true.mpr hb)
    (List.all_eq_true.mpr hg) hwhole (hlast hv)).1⟩

/-- Behind a gap the name declared is the whole identifier: without layout before that name, the gap
would be part of it or of the name of the type. -/
theorem Declares.eq_of_gap {gap rest' : Text}
    (h : Declares k name rest' (x ++ (gap ++ (v ++ (g ++ '=' :: rest)))))
    (hk : k.all isIdentPart = true) (hx : '=' ∉ x) (hgap : AllLayout gap) (hne : gap ≠ [])
    (hv : isIdent v = true) (hg : AllLayout g) : name = v ∧ rest' = rest := by
  have hname : name.all isIdentPart = true := all_isIdentPart_of_isIdent h.name_isIdent
  have hends {s u : Text} (hu : AllLayout u) (hne : u ≠ []) :
      (s ++ u).getLast?.any isIdentPart = false := by
    rw [List.getLast?_append, List.getLast?_eq_some_getLast hne, Option.some_or, Option.any_some]
    exact isIdentPart_of_isLayout (hu _ (List.getLast_mem hne))
  rw [← List.append_assoc x gap] at h
  have hx' : '=' ∉ x ++ gap := by
    rw [List.mem_append, not_or]
    exact ⟨hx, hgap.not_mem rfl⟩
  obtain ⟨hrest, a, ha, hwhole⟩ := h.eq_append hk hx' hv hg
  have hane : a ≠ [] := by
    rintro rfl
    obtain ⟨c, hc⟩ := List.exists_mem_of_ne_nil gap hne
    have hall : (k ++ ([] ++ name)).all isIdentPart = true := by
      rw [List.nil_append, List.all_append, hk, hname, Bool.and_true]
    rw [hwhole] at hall
    have hpart := List.all_eq_true.mp hall c (by simp [hc])
    rw [isIdentPart_of_isLayout (hgap c hc)] at hpart
    cases hpart
  rw [← List.append_assoc] at hwhole
  exact ⟨(append_inj_of_class hwhole hname (all_isIdentPart_of_isIdent hv) (hends ha hane)
    (hends hgap hne)).2, hrest⟩

/-- A variable hides another one if it is a type name run together with that. -/
theorem behindType?_append_eq_some_iff {w rest' : Text} (hv : isIdent v = true) (hg : AllLayout g)
    (hrest : rest.head? ≠ some '=') :
    behindType? (v ++ (g ++ '=' :: rest)) = some (w, rest') ↔
      rest' = rest ∧ isIdent w = true ∧ ∃ k ∈ typeNames, v = k ++ w := by
  constructor
  · intro h
    obtain ⟨k, hk, h⟩ := declares_of_behindType? h
    have hw : isIdent w = true := h.name_isIdent
    obtain ⟨hrest', a, ha, hwhole⟩ := Declares.eq_append (x := []) h
      (all_isIdentPart_of_mem_typeNames hk) List.not_mem_nil hv hg
    have hnil : a = [] := by
      refine List.eq_nil_iff_forall_not_mem.mpr fun c hc => ?_
      have hmem : c ∈ v := by
        rw [List.nil_append] at hwhole
        rw [← hwhole]
        simp [hc]
      have hpart := isIdentPart_of_isLayout (ha c hc)
      rw [List.all_eq_true.mp (all_isIdentPart_of_isIdent hv) c hmem] at hpart
      cases hpart
    subst hnil
    exact ⟨hrest', hw, k, hk, hwhole.symm⟩
  · rintro ⟨rfl, hw, k, hk, rfl⟩
    have hfind : typeNames.findSome? (fun k' => after? k' (k ++ w ++ (g ++ '=' :: rest'))) =
        some (w ++ (g ++ '=' :: rest')) := by
      rw [List.append_assoc]
      cases hfind : typeNames.findSome? (fun k' => after? k' (k ++ (w ++ (g ++ '=' :: rest')))) with
      | none =>
        have hk := List.findSome?_eq_none_iff.mp hfind k hk
        rw [after?_eq_some_iff.mpr rfl] at hk
        cases hk
      | some u =>
        obtain ⟨k', hk', hafter⟩ := List.exists_of_findSome?_eq_some hfind
        have hafter := after?_eq_some_iff.mp hafter
        obtain rfl := eq_of_mem_typeNames hk hk' hafter
        rw [List.append_cancel_left hafter]
    have hskip := (isToken_of_isIdent hw).skipLayout_append (g := []) (fun c hc => nomatch hc)
      (g ++ '=' :: rest')
    rw [behindType?, hfind, Option.bind_some, ← List.nil_append (w ++ _), hskip,
      takeTarget?_append hw hg hrest]

/-- Whether a variable is a type name run together with an identifier. -/
def opensWithType (v : Text) : Bool := typeNames.any fun k => (after? k v).any isIdent

/-- A name opens with a type if it is the name of one with another name behind it. -/
theorem opensWithType_iff : opensWithType v = true ↔
    ∃ k ∈ typeNames, ∃ w, isIdent w = true ∧ v = k ++ w := by
  simp only [opensWithType, List.any_eq_true, Option.any_eq_true, after?_eq_some_iff]
  exact exists_congr fun k => and_congr_right fun _ => exists_congr fun w => and_comm

/-- Behind a type name and a gap the variable is read as a whole, since no type name begins with
layout. -/
theorem firstAtBoundary?_of_typed {q gap : Text} (hq : '=' ∉ q)
    (hlast : q.getLast?.any isIdentPart = true) (hgap : AllLayout gap) (hne : gap ≠ [])
    (hv : isIdent v = true) (hg : AllLayout g) (hrest : rest ≠ []) (heq : rest.head? ≠ some '=') :
    firstAtBoundary? initialised? none (q ++ (gap ++ (v ++ (g ++ '=' :: rest)))) =
      some (v, trim rest) := by
  obtain ⟨c, gap', hcons⟩ := List.exists_cons_of_ne_nil hne
  have hc : isLayout c = true := hgap c (by simp [hcons])
  have htarget : takeTarget? (skipLayout (gap ++ (v ++ (g ++ '=' :: rest)))) = some (v, rest) := by
    rw [(isToken_of_isIdent hv).skipLayout_append hgap, takeTarget?_append hv hg heq]
  have hbehind : behindType? (gap ++ (v ++ (g ++ '=' :: rest))) = none := by
    rw [Option.eq_none_iff_forall_not_mem]
    rintro ⟨name, rest'⟩ hmem
    obtain ⟨k, hk, a, b, -, -, -, htext⟩ := declares_of_behindType? hmem
    have hall := all_isIdentPart_of_mem_typeNames hk
    cases k with
    | nil => exact absurd hk (by decide)
    | cons d k =>
      rw [hcons] at htext
      obtain ⟨rfl, -⟩ := List.cons.inj htext
      rw [List.all_cons, isIdentPart_of_isLayout hc] at hall
      cases hall
  refine firstAtBoundary?_append (by simp [hcons]) ?_ ?_ ?_
  · exact initialised?_eq_some_iff.mpr ⟨rest, hrest, by rw [hbehind, htarget]; rfl, rfl⟩
  · obtain ⟨d, hd, hpart⟩ := Option.any_eq_true _ _ |>.mp hlast
    simp [isWordBoundary, hd, hpart, hcons, isIdentPart_of_isLayout hc]
  · rintro a b ⟨name, low⟩ rfl h
    obtain ⟨rest', -, hor, rfl⟩ := initialised?_eq_some_iff.mp h
    have hdeclares : ∃ k, k.all isIdentPart = true ∧
        Declares k name rest' (b ++ (gap ++ (v ++ (g ++ '=' :: rest)))) := by
      rcases Option.or_eq_some_iff.mp hor with htyped | ⟨-, huntyped⟩
      · obtain ⟨k, hk, h⟩ := declares_of_behindType? htyped
        exact ⟨k, all_isIdentPart_of_mem_typeNames hk, h⟩
      · exact ⟨[], rfl, declares_of_takeTarget? huntyped⟩
    obtain ⟨k, hk, h⟩ := hdeclares
    have hb : '=' ∉ b := fun hmem => hq (List.mem_append_right a hmem)
    obtain ⟨rfl, rfl⟩ := h.eq_of_gap hk hb hgap hne hv hg
    rfl

/-- At the beginning of a text the variable is read as a whole, unless it hides another one. -/
theorem firstAtBoundary?_of_untyped (hv : isIdent v = true) (hg : AllLayout g) (hrest : rest ≠ [])
    (heq : rest.head? ≠ some '=') :
    ∃ name, firstAtBoundary? initialised? none (v ++ (g ++ '=' :: rest)) =
        some (name, trim rest) ∧
      (opensWithType v = false → name = v) ∧
      (opensWithType v = true → ∃ k ∈ typeNames, v = k ++ name) := by
  have htarget : takeTarget? (skipLayout (v ++ (g ++ '=' :: rest))) = some (v, rest) := by
    have hskip := (isToken_of_isIdent hv).skipLayout_append (g := []) (fun c hc => nomatch hc)
      (g ++ '=' :: rest)
    rw [← List.nil_append (v ++ _), hskip, takeTarget?_append hv hg heq]
  have hread {name : Text}
      (hor : (behindType? (v ++ (g ++ '=' :: rest))).or
        (takeTarget? (skipLayout (v ++ (g ++ '=' :: rest)))) = some (name, rest)) :
      firstAtBoundary? initialised? none (v ++ (g ++ '=' :: rest)) = some (name, trim rest) := by
    have hf := initialised?_eq_some_iff.mpr ⟨rest, hrest, hor, rfl⟩
    obtain ⟨c, u, rfl, hc, -⟩ := isIdent_iff.mp hv
    refine firstAtBoundary?_append (s := []) (by simp) hf ?_ fun a b w hab hw => ?_
    · simp [isWordBoundary, isIdentPart_of_isIdentStart hc]
    · obtain ⟨-, rfl⟩ := List.append_eq_nil_iff.mp hab.symm
      exact Option.some.inj (hw.symm.trans hf)
  cases hopens : opensWithType v with
  | true =>
    obtain ⟨k, hk, w, hw, hkw⟩ := opensWithType_iff.mp hopens
    have hbehind := (behindType?_append_eq_some_iff hv hg heq).mpr ⟨rfl, hw, k, hk, hkw⟩
    exact ⟨w, hread (by rw [hbehind]; rfl), nofun, fun _ => ⟨k, hk, hkw⟩⟩
  | false =>
    have hbehind : behindType? (v ++ (g ++ '=' :: rest)) = none := by
      rw [Option.eq_none_iff_forall_not_mem]
      rintro ⟨w, rest'⟩ hmem
      obtain ⟨-, hw, k, hk, hkw⟩ := (behindType?_append_eq_some_iff hv hg heq).mp hmem
      rw [opensWithType_iff.mpr ⟨k, hk, w, hw, hkw⟩] at hopens
      cases hopens
    exact ⟨v, hread (by rw [hbehind, htarget]; rfl), fun _ => rfl, nofun⟩

end Initial

section Clauses

variable {rhs condition update w : Text} {strict : Bool}

/-- A lower or upper bound of a loop. -/
structure IsBound (t : Text) : Prop extends IsToken t where
  /-- It holds nothing that ends a clause, a target or a condition, and no exclusive or. -/
  plain : t.all (· ∉ [';', ',', '=', '<', '^']) = true

/-- A type as it may stand before a loop variable: it ends as a word does. -/
structure IsTypeText (t : Text) : Prop extends IsToken t where
  /-- It holds nothing that ends a clause or a target. -/
  plain : t.all (· ∉ [';', ',', '=']) = true
  /-- Its last character belongs to a word. -/
  word : t.getLast?.any isIdentPart = true

/-- The comparison of a loop variable with its upper bound. -/
def comparison (strict : Bool) : Text := if strict then ['<'] else ['<', '=']

/-- The last value of a loop variable. -/
def lastValue (strict : Bool) (rhs : Text) : Text := if strict then rhs ++ " - 1".toList else rhs

/-- The updates that add one to a variable, as rows of tokens. -/
def unitSteps (v : Text) : List (List Text) :=
  [[v, ['+', '+']], [['+', '+'], v], [v, ['+', '='], ['1']], [v, ['='], v, ['+'], ['1']]]

/-- The upper bound is read out of a condition on the variable. -/
theorem upperBound?_append (hrhs : IsBound rhs) (ht : Row [comparison strict, rhs] t) :
    upperBound? v (v ++ t) = some (lastValue strict rhs) := by
  have hop : IsToken (comparison strict) := by
    cases strict <;> exact ⟨by decide, by decide⟩
  obtain ⟨u, hskip, hrow⟩ := ht.exists_skipLayout hop
  obtain ⟨g, u', hg, hnil, -, rfl⟩ := hrow.of_cons
  cases hnil
  obtain ⟨c, bound, hbound⟩ := List.exists_cons_of_ne_nil
    (show g ++ (rhs ++ []) ≠ [] by simp [hrhs.ne_nil])
  have hmem : c ∈ g ++ (rhs ++ []) := by
    rw [hbound]
    exact List.mem_cons_self
  have hplain : c ≠ '<' ∧ c ≠ '=' := by
    rw [List.append_nil, List.mem_append] at hmem
    rcases hmem with hmem | hmem
    · exact ⟨fun he => hg.not_mem rfl (he ▸ hmem), fun he => hg.not_mem rfl (he ▸ hmem)⟩
    · exact ⟨fun he => not_mem_of_all hrhs.plain (by decide) (he ▸ hmem),
        fun he => not_mem_of_all hrhs.plain (by decide) (he ▸ hmem)⟩
  have htrim : trim (c :: bound) = rhs := by
    rw [← hbound, trim_append hg.allBlank allBlank_nil, hrhs.trim_eq]
  rw [upperBound?, after?_append, Option.bind_eq_bind, Option.bind_some, hskip, hbound]
  cases strict <;> simp [comparison, lastValue, hplain, htrim]

/-- Nothing is read out of a condition on a longer identifier. -/
theorem upperBound?_eq_none {k : Text} (hv : isIdent v = true) (hk : k ≠ []) (hw : v = k ++ w) :
    upperBound? w (v ++ t) = none := by
  cases hafter : after? w (v ++ t) with
  | none => rw [upperBound?, hafter]; rfl
  | some u =>
    have htext := after?_eq_some_iff.mp hafter
    have hlong : w.length < v.length := by
      rw [hw, List.length_append]
      have := List.length_pos_iff.mpr hk
      omega
    rcases List.append_eq_append_iff.mp htext with ⟨a, ha, -⟩ | ⟨a, ha, hu⟩
    · have := congrArg List.length ha
      rw [List.length_append] at this
      omega
    · cases a with
      | nil =>
        rw [ha, List.append_nil] at hlong
        omega
      | cons c a =>
        have hc : isIdentPart c = true :=
          List.all_eq_true.mp (all_isIdentPart_of_isIdent hv) c (by simp [ha])
        have hskip : skipLayout u = u := by
          rw [hu, skipLayout, List.cons_append]
          exact List.dropWhile_cons_of_neg (by simp [isLayout_of_isIdentPart hc])
        have hless : c ≠ '<' := fun he => by rw [he] at hc; cases hc
        rw [upperBound?, hafter, Option.bind_eq_bind, Option.bind_some, hskip, hu]
        simp [hless]

/-- Each of the updates that add one is recognised. -/
theorem isUnitStep_of_clause {toks : List Text} (hv : isIdent v = true)
    (htoks : toks ∈ unitSteps v) (hupdate : Clause toks update) :
    isUnitStep v (trim update) = true := by
  have hname := isToken_of_isIdent hv
  have hplus : IsToken ['+'] := ⟨by decide, by decide⟩
  have hequals : IsToken ['='] := ⟨by decide, by decide⟩
  have hone : IsToken ['1'] := ⟨by decide, by decide⟩
  have htwice : IsToken ['+', '+'] := ⟨by decide, by decide⟩
  have hadd : IsToken ['+', '='] := ⟨by decide, by decide⟩
  have hlast {tok t : Text} (htok : IsToken tok) (h : Row [tok] t) : skipLayout t = tok := by
    obtain ⟨u, hskip, hnil⟩ := h.exists_skipLayout htok
    cases hnil
    rw [hskip, List.append_nil]
  simp only [unitSteps, List.mem_cons, List.not_mem_nil, or_false] at htoks
  rcases htoks with rfl | rfl | rfl | rfl
  · obtain ⟨t, htrim, hrow, -⟩ := hupdate.exists_trim (by simp [hname, htwice])
    simp [isUnitStep, htrim, after?_append, hlast htwice hrow]
  · obtain ⟨t, htrim, hrow, -⟩ := hupdate.exists_trim (by simp [hname, htwice])
    have hafter : after? ['+', '+'] (['+', '+'] ++ t) = some t := after?_append _ t
    rw [isUnitStep, htrim, hafter, Option.any_some, hlast hname hrow, decide_eq_true rfl,
      Bool.true_or]
  · obtain ⟨t, htrim, hrow, -⟩ := hupdate.exists_trim (by simp [hname, hadd, hone])
    obtain ⟨u, hskip, hrow'⟩ := hrow.exists_skipLayout hadd
    have hafter : after? ['+', '='] ('+' :: '=' :: u) = some u := after?_append ['+', '='] u
    simp [isUnitStep, htrim, after?_append, hskip, hafter, hlast hone hrow']
  · obtain ⟨t, htrim, hrow, -⟩ := hupdate.exists_trim (by simp [hname, hequals, hplus, hone])
    obtain ⟨u, hskip, hrow⟩ := hrow.exists_skipLayout hequals
    obtain ⟨u', hskip', hrow⟩ := hrow.exists_skipLayout hname
    obtain ⟨u'', hskip'', hrow⟩ := hrow.exists_skipLayout hplus
    have hafter : after? ['='] ('=' :: u) = some u := after?_append ['='] u
    have hafter' : after? ['+'] ('+' :: u'') = some u'' := after?_append ['+'] u''
    simp [isUnitStep, htrim, after?_append, hskip, hafter, hskip', hskip'', hafter',
      hlast hone hrow]

/-- A character that is in no identifier is not in a name. -/
theorem not_mem_of_isIdent (hv : isIdent v = true) (hc : isIdentPart c = false) : c ∉ v := by
  intro hmem
  rw [List.all_eq_true.mp (all_isIdentPart_of_isIdent hv) c hmem] at hc
  cases hc

/-- What stands behind a variable in the first clause. -/
theorem exists_of_row_lower (hlower : IsBound t) (h : Row [['='], t] x) :
    ∃ g rest, AllLayout g ∧ x = g ++ '=' :: rest ∧ rest ≠ [] ∧ rest.head? ≠ some '=' ∧
      trim rest = t := by
  obtain ⟨g, u, hg, hrow, -, rfl⟩ := h.of_cons
  obtain ⟨g', u', hg', hnil, -, rfl⟩ := hrow.of_cons
  cases hnil
  refine ⟨g, g' ++ (t ++ []), hg, rfl, by simp [hlower.ne_nil], fun hhead => ?_, ?_⟩
  · have hmem := List.mem_of_mem_head? hhead
    rw [List.append_nil, List.mem_append] at hmem
    rcases hmem with hmem | hmem
    · exact hg'.not_mem rfl hmem
    · exact not_mem_of_all hlower.plain (by decide) hmem
  · rw [trim_append hg'.allBlank allBlank_nil, hlower.trim_eq]

/-- The name read in the first clause is the variable, unless that stands alone and hides another
one. A type and the variable behind it are kept apart by a gap. -/
theorem firstAtBoundary?_of_clause {type : Option Text} {initial : Text}
    (htype : ∀ q ∈ type, IsTypeText q) (hv : isIdent v = true) (hlower : IsBound low)
    (h : Clause (type.toList ++ [v, ['='], low]) initial) :
    ∃ name, firstAtBoundary? initialised? none (trim initial) = some (name, low) ∧
      if type = none ∧ opensWithType v = true then ∃ k ∈ typeNames, v = k ++ name
      else name = v := by
  have hequals : IsToken ['='] := ⟨by decide, by decide⟩
  have hname := isToken_of_isIdent hv
  cases type with
  | none =>
    obtain ⟨u, htrim, hrow, -⟩ := h.exists_trim (by simp [hname, hequals, hlower.toIsToken])
    obtain ⟨g, rest, hg, rfl, hrest, heq, rfl⟩ := exists_of_row_lower hlower hrow
    obtain ⟨name, hread, hwhole, hhides⟩ := firstAtBoundary?_of_untyped hv hg hrest heq
    rw [htrim]
    refine ⟨name, hread, ?_⟩
    cases hopens : opensWithType v with
    | true => simpa using hhides hopens
    | false => simpa using hwhole hopens
  | some q =>
    have hq := htype q rfl
    obtain ⟨u, htrim, hrow, hapart⟩ :=
      h.exists_trim (by simp [hname, hequals, hlower.toIsToken, hq.toIsToken])
    obtain ⟨gap, u', hgap, hrow', -, rfl⟩ := hrow.of_cons
    obtain ⟨g, rest, hg, rfl, hrest, heq, rfl⟩ := exists_of_row_lower hlower hrow'
    have hne : gap ≠ [] := by
      rintro rfl
      obtain ⟨d, w, rfl, hd, -⟩ := isIdent_iff.mp hv
      rw [hq.word, Bool.true_and, List.nil_append, List.cons_append, List.head?_cons,
        Option.any_some, isIdentPart_of_isIdentStart hd] at hapart
      cases hapart
    have hqe : '=' ∉ q := not_mem_of_all hq.plain (by decide)
    rw [htrim]
    exact ⟨v, firstAtBoundary?_of_typed hqe hq.word hgap hne hv hg hrest heq, by simp⟩

/-- No separator of clauses or variables stands in the first clause. -/
theorem not_mem_of_clause {type : Option Text} {initial : Text} (hc : c = ';' ∨ c = ',')
    (htype : ∀ q ∈ type, IsTypeText q) (hv : isIdent v = true) (hlower : IsBound low)
    (h : Clause (type.toList ++ [v, ['='], low]) initial) : c ∉ initial := by
  have hmem : c ∈ [';', ',', '='] := by rcases hc with rfl | rfl <;> decide
  refine h.not_mem (by rcases hc with rfl | rfl <;> rfl) fun tok htok => ?_
  simp only [List.mem_append, Option.mem_toList, List.mem_cons, List.not_mem_nil, or_false]
    at htok
  rcases htok with htok | rfl | rfl | rfl
  · exact not_mem_of_all (htype tok htok).plain hmem
  · exact not_mem_of_isIdent hv (by rcases hc with rfl | rfl <;> rfl)
  · rcases hc with rfl | rfl <;> decide
  · exact not_mem_of_all hlower.plain (List.mem_append_left ['<', '^'] hmem)

/-- Behind the first clause the separators are those between the clauses. -/
theorem splitAt_clauses {initial : Text} {toks : List Text} (hinitial : ';' ∉ initial)
    (hv : isIdent v = true) (hrhs : IsBound rhs) (htoks : toks ∈ unitSteps v)
    (hcondition : Clause [v, comparison strict, rhs] condition) (hupdate : Clause toks update) :
    splitAt ';' (join [';'] [initial, condition, update]) = [initial, condition, update] := by
  have hname : ';' ∉ v := not_mem_of_isIdent hv rfl
  have hbound : ';' ∉ rhs := not_mem_of_all hrhs.plain (by decide)
  have hop : ';' ∉ comparison strict := by cases strict <;> decide
  have hsecond : ';' ∉ condition := hcondition.not_mem rfl (by simp [hname, hop, hbound])
  have hthird : ';' ∉ update := by
    refine hupdate.not_mem rfl fun tok htok => ?_
    have hsteps : ∀ toks ∈ unitSteps v, ∀ tok ∈ toks, ';' ∉ tok := by
      simp [unitSteps, hname]
    exact hsteps toks htoks tok htok
  exact splitAt_join (by simp) (by simp [hinitial, hsecond, hthird])

/-- A header with a unit step tells the variable and its bounds, whatever layout stands between
its tokens. The one exception is a variable that hides another one and has no type before it:
then nothing is read. -/
theorem readHeader?_of_clauses {type : Option Text} {lower initial : Text} {toks : List Text}
    (htype : ∀ q ∈ type, IsTypeText q) (hv : isIdent v = true) (hlower : IsBound lower)
    (hrhs : IsBound rhs) (htoks : toks ∈ unitSteps v)
    (hinitial : Clause (type.toList ++ [v, ['='], lower]) initial)
    (hcondition : Clause [v, comparison strict, rhs] condition) (hupdate : Clause toks update) :
    readHeader? (join [';'] [initial, condition, update]) =
      if type = none ∧ opensWithType v = true then none
      else some ⟨v, lower, lastValue strict rhs⟩ := by
  have hsplit := splitAt_clauses (not_mem_of_clause (.inl rfl) htype hv hlower hinitial) hv hrhs
    htoks hcondition hupdate
  have hcomma : ',' ∉ trim initial := by
    obtain ⟨g, h, -, -, ht⟩ := exists_allBlank_append_trim initial
    have hnot := not_mem_of_clause (.inr rfl) htype hv hlower hinitial
    rw [ht, List.mem_append, List.mem_append, not_or, not_or] at hnot
    exact hnot.2.1
  obtain ⟨name, hread, hname⟩ := firstAtBoundary?_of_clause htype hv hlower hinitial
  have hop : IsToken (comparison strict) := by
    cases strict <;> exact ⟨by decide, by decide⟩
  obtain ⟨t, htrim, hrow, -⟩ :=
    hcondition.exists_trim (by simp [isToken_of_isIdent hv, hop, hrhs.toIsToken])
  have hstep := isUnitStep_of_clause hv htoks hupdate
  rw [readHeader?, hsplit]
  dsimp only
  rw [if_neg hcomma, hread, htrim, Option.bind_eq_bind, Option.bind_some]
  split at hname
  · rename_i hhides
    obtain ⟨k, hk, hkname⟩ := hname
    have hkne : k ≠ [] := by
      rintro rfl
      exact absurd hk (by decide)
    rw [if_pos hhides, upperBound?_eq_none hv hkne hkname]
    rfl
  · rename_i hwhole
    subst hname
    rw [if_neg hwhole, upperBound?_append hrhs hrow]
    simp [hstep]

/-- The clause `integer < n`, as a row of its three tokens. -/
theorem clause_integer_less_n :
    Clause ["integer".toList, comparison true, ['n']] " integer < n".toList :=
  ⟨_, [], .cons (g := [' ']) (by decide) (.cons (g := [' ']) (by decide) (.cons (g := [' '])
    (by decide) .nil rfl) rfl) rfl, by decide, rfl⟩

/-- Behind the type `unsigned int` the variable `integer` is read as a whole. -/
theorem readHeader?_of_clauses_unsigned_int :
    readHeader? "unsigned int integer=0; integer < n;\t++ integer".toList =
      some ⟨"integer".toList, ['0'], "n - 1".toList⟩ := by
  have htype : ∀ q ∈ some "unsigned int".toList, IsTypeText q := by
    rintro q ⟨⟩
    exact ⟨⟨by decide, by decide⟩, by decide, rfl⟩
  have hinitial : Clause ((some "unsigned int".toList).toList ++ ["integer".toList, ['='], ['0']])
      "unsigned int integer=0".toList :=
    ⟨_, [], .cons (g := []) (by decide) (.cons (g := [' ']) (by decide) (.cons (g := [])
      (by decide) (.cons (g := []) (by decide) .nil rfl) rfl) rfl) rfl, by decide, rfl⟩
  have hupdate : Clause [['+', '+'], "integer".toList] "\t++ integer".toList :=
    ⟨_, [], .cons (g := ['\t']) (by decide) (.cons (g := [' ']) (by decide) .nil rfl) rfl,
      by decide, rfl⟩
  exact readHeader?_of_clauses htype (by decide) ⟨⟨by decide, by decide⟩, by decide⟩
    ⟨⟨by decide, by decide⟩, by decide⟩ (by decide) hinitial clause_integer_less_n hupdate

/-- Without a type before it, `integer` hides `eger`. -/
theorem not_readHeader?_eq_of_clauses : ¬ ∀ (type : Option Text) (v lower rhs : Text)
    (strict : Bool) (initial condition update : Text) (toks : List Text),
    (∀ q ∈ type, IsTypeText q) → isIdent v = true → IsBound lower → IsBound rhs →
    toks ∈ unitSteps v → Clause (type.toList ++ [v, ['='], lower]) initial →
    Clause [v, comparison strict, rhs] condition → Clause toks update →
    readHeader? (join [';'] [initial, condition, update]) =
      some ⟨v, lower, lastValue strict rhs⟩ := by
  intro h
  have hinitial : Clause ["integer".toList, ['='], ['0']] "integer = 0".toList :=
    ⟨_, [], .cons (g := []) (by decide) (.cons (g := [' ']) (by decide) (.cons (g := [' '])
      (by decide) .nil rfl) rfl) rfl, by decide, rfl⟩
  have hupdate : Clause ["integer".toList, ['+', '+']] " integer++".toList :=
    ⟨_, [], .cons (g := [' ']) (by decide) (.cons (g := []) (by decide) .nil rfl) rfl,
      by decide, rfl⟩
  have hread := h none "integer".toList ['0'] ['n'] true _ _ _ _ nofun (by decide)
    ⟨⟨by decide, by decide⟩, by decide⟩ ⟨⟨by decide, by decide⟩, by decide⟩ (by decide)
    hinitial clause_integer_less_n hupdate
  have hnone : readHeader? (join [';'] ["integer = 0".toList, " integer < n".toList,
      " integer++".toList]) = none := by decide
  rw [hnone] at hread
  cases hread

end Clauses

end Loop

end Gloss
