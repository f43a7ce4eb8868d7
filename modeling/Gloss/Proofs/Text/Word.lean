import Gloss.Proofs.Text.Blank
import Gloss.Proofs.Text.Join

/-!
# Words at the front of a text

Each recogniser of a word takes exactly the longest one off the front of a text. A
dotted name has one text for every choice of gaps around its dots; it ends where no
further segment can be read.
-/

namespace Gloss

theorem isIdentPart_of_isIdentStart {c : Char} (h : isIdentStart c = true) :
    isIdentPart c = true := by
  rw [isIdentPart, h, Bool.true_or]

theorem isIdentPart_of_isDigit {c : Char} (h : c.isDigit = true) : isIdentPart c = true := by
  rw [isIdentPart, h, Bool.or_true]

/-- No identifier begins with a digit. -/
theorem isDigit_of_isIdentStart {c : Char} (h : isIdentStart c = true) : c.isDigit = false := by
  rw [Bool.eq_false_iff]
  intro hdigit
  have hbounds := bounds_of_isDigit hdigit
  rcases bounds_of_isIdentStart h with h | h | rfl
  · omega
  · omega
  · exact absurd hdigit (by decide)

theorem isTokenPart_of_isIdentPart {c : Char} (h : isIdentPart c = true) :
    isTokenPart c = true := by
  rw [isTokenPart, h, Bool.true_or]

/-- Characters of tokens are visible ASCII characters. -/
theorem visible_of_isTokenPart {c : Char} (h : isTokenPart c = true) :
    0x2E ≤ c.toNat ∧ c.toNat ≤ 0x7A := by
  simp only [isTokenPart, Bool.or_eq_true, decide_eq_true_eq] at h
  rcases h with h | rfl
  · have := visible_of_isIdentPart h
    omega
  · decide

/-- No character of a token is blank. -/
theorem isBlank_of_isTokenPart {c : Char} (h : isTokenPart c = true) : isBlank c = false := by
  have := visible_of_isTokenPart h
  exact isBlank_of_visible (by omega) (by omega)

/-- No character that may begin an expression is a blank. -/
theorem isBlank_of_isExprStart {c : Char} (h : isExprStart c = true) : isBlank c = false := by
  simp only [isExprStart, Bool.or_eq_true, decide_eq_true_eq] at h
  rcases h with ((((h | rfl) | rfl) | rfl) | rfl) | rfl
  · exact isBlank_of_isIdentPart h
  all_goals decide

namespace Text

/-- The texts of decimal numerals: digits, or digits with a point among them. -/
inductive Numeral : Text → Prop
  | whole {s : Text} : isDigits s = true → Numeral s
  | decimal {s t : Text} : isDigits s = true → isDigits t = true → Numeral (s ++ '.' :: t)

/-- The texts of the further segments of a dotted name, with gaps around each dot. -/
inductive Segments (gap : Char → Bool) : Text → List Text → Prop
  | nil : Segments gap [] []
  | cons {g h s t : Text} {ss : List Text} : g.all gap = true → h.all gap = true →
      isIdent s = true → Segments gap t ss → Segments gap (g ++ '.' :: (h ++ (s ++ t))) (s :: ss)

/-- The texts of the dotted name with given segments. -/
inductive Dotted (gap : Char → Bool) : Text → List Text → Prop
  | mk {s t : Text} {ss : List Text} : isIdent s = true → Segments gap t ss →
      Dotted gap (s ++ t) (s :: ss)

/-- A dotted name that ends before `rest` cannot be continued into it. -/
def NameEnds (gap : Char → Bool) (rest : Text) : Prop :=
  rest.head?.any isIdentPart = false ∧
    ∀ u, rest.dropWhile gap = '.' :: u → (u.dropWhile gap).head?.any isIdentStart = false

/-- A numeral that ends before `rest` is not continued into it, be it by a digit or, if it has no
fraction, by a point and a digit. -/
def NumberEnds (s rest : Text) : Prop :=
  rest.head?.any Char.isDigit = false ∧
    (isDigits s = true → ∀ u : Text, rest = '.' :: u → u.head?.any Char.isDigit = false)

variable {gap p : Char → Bool} {s t u rest : Text} {ss : List Text}

/-- A text falls into its longest stretch of one class of characters and the rest. -/
theorem span_eq_iff : (t.takeWhile p = s ∧ t.dropWhile p = rest) ↔
    t = s ++ rest ∧ s.all p = true ∧ rest.head?.any p = false := by
  constructor
  · rintro ⟨rfl, rfl⟩
    refine ⟨List.takeWhile_append_dropWhile.symm, List.all_takeWhile, ?_⟩
    have hnot := List.head?_dropWhile_not p t
    cases hd : t.dropWhile p with
    | nil => rfl
    | cons c u =>
      rw [hd] at hnot
      exact hnot
  · rintro ⟨rfl, hs, hrest⟩
    have hall : ∀ c ∈ s, p c = true := List.all_eq_true.mp hs
    rw [List.takeWhile_append_of_pos hall, List.dropWhile_append_of_pos hall]
    cases rest with
    | nil => simp
    | cons c u =>
      have hc : p c = false := hrest
      simp [hc]

/-- A stretch of one class of characters ends at the latest where another character follows. -/
theorem span_append_cons {c : Char} (hc : p c = false) (s t : Text) :
    (s ++ c :: t).takeWhile p = s.takeWhile p ∧
      (s ++ c :: t).dropWhile p = s.dropWhile p ++ c :: t := by
  obtain ⟨hs, hall, hedge⟩ := (@span_eq_iff p _ s _).mp ⟨rfl, rfl⟩
  refine span_eq_iff.mpr ⟨?_, hall, ?_⟩
  · rw [← List.append_assoc, ← hs]
  · cases hd : s.dropWhile p with
    | nil => exact hc
    | cons d u => rwa [hd] at hedge

section Ident

/-- An identifier begins with the start of one and goes on with parts of one. -/
theorem isIdent_cons (c : Char) (t : Text) :
    isIdent (c :: t) = (isIdentStart c && t.all isIdentPart) := by
  rw [Bool.eq_iff_iff, Bool.and_eq_true, List.all_eq_true, ← List.dropWhile_eq_nil_iff]
  by_cases hc : isIdentStart c = true
  · cases hd : t.dropWhile isIdentPart <;> simp [isIdent, takeIdent?, hc, hd]
  · simp [isIdent, takeIdent?, hc]

/-- An identifier is a start of one with parts of one behind it. -/
theorem isIdent_iff :
    isIdent s = true ↔ ∃ c u, s = c :: u ∧ isIdentStart c = true ∧ u.all isIdentPart = true := by
  cases s with
  | nil => simp [isIdent, takeIdent?]
  | cons c u => simp [isIdent_cons]

/-- All characters of an identifier are parts of one. -/
theorem all_isIdentPart_of_isIdent (h : isIdent s = true) : s.all isIdentPart = true := by
  obtain ⟨c, u, rfl, hc, hu⟩ := isIdent_iff.mp h
  rw [List.all_cons, isIdentPart_of_isIdentStart hc, hu, Bool.and_true]

/-- The identifier taken is one, and it is the longest. -/
theorem takeIdent?_eq_some_iff : takeIdent? t = some (s, rest) ↔
    t = s ++ rest ∧ isIdent s = true ∧ rest.head?.any isIdentPart = false := by
  rw [isIdent_iff]
  cases t with
  | nil =>
    simp only [takeIdent?, reduceCtorEq, false_iff, not_and]
    rintro h ⟨c, u, rfl, -⟩
    cases h
  | cons c t =>
    by_cases hc : isIdentStart c = true
    · simp only [takeIdent?, hc, if_true, Option.some.injEq, Prod.mk.injEq]
      constructor
      · rintro ⟨rfl, hrest⟩
        obtain ⟨ht, hall, hend⟩ := span_eq_iff.mp ⟨rfl, hrest⟩
        refine ⟨?_, ⟨c, _, rfl, hc, hall⟩, hend⟩
        rw [List.cons_append, ← ht]
      · rintro ⟨ht, ⟨d, u, rfl, -, hall⟩, hend⟩
        rw [List.cons_append, List.cons.injEq] at ht
        obtain ⟨htake, hdrop⟩ := span_eq_iff.mpr ⟨ht.2, hall, hend⟩
        rw [htake, ht.1]
        exact ⟨rfl, hdrop⟩
    · simp only [takeIdent?, hc, reduceCtorEq, if_false, false_iff, not_and]
      rintro ht ⟨d, u, rfl, hd, -⟩
      rw [List.cons_append, List.cons.injEq] at ht
      exact absurd (ht.1 ▸ hd) hc

/-- No identifier is taken exactly if the text does not begin with the start of one. -/
theorem takeIdent?_eq_none_iff : takeIdent? t = none ↔ t.head?.any isIdentStart = false := by
  cases t with
  | nil => simp [takeIdent?]
  | cons c t => by_cases hc : isIdentStart c = true <;> simp [takeIdent?, hc]

end Ident

section Number

theorem isDigits_iff : isDigits t = true ↔ t ≠ [] ∧ t.all Char.isDigit = true := by
  cases t <;> simp [isDigits]

/-- No numeral is taken if the text does not begin with a digit. -/
theorem takeNumber?_eq_none (h : t.head?.any Char.isDigit = false) : takeNumber? t = none := by
  obtain ⟨htake, -⟩ := span_eq_iff.mpr ⟨(List.nil_append t).symm, rfl, h⟩
  unfold takeNumber?
  rw [htake]

/-- Nothing is taken where no digit stands. -/
theorem takeNumber?_eq_none_iff : takeNumber? t = none ↔ t.head?.any Char.isDigit = false := by
  refine ⟨fun h => ?_, takeNumber?_eq_none⟩
  cases t with
  | nil => rfl
  | cons c t =>
    rw [List.head?_cons, Option.any_some, Bool.eq_false_iff]
    intro hc
    rw [takeNumber?, List.takeWhile_cons_of_pos hc] at h
    split at h
    · rename_i hnil
      cases hnil
    · split at h <;> cases h
    · cases h

/-- A text with a point in it is not digits. -/
theorem isDigits_append_point (s u : Text) : isDigits (s ++ '.' :: u) = false := by
  rw [Bool.eq_false_iff, Ne, isDigits_iff, List.all_eq_true]
  rintro ⟨-, hall⟩
  have hpoint := hall '.' (by simp)
  cases hpoint

/-- The numeral taken is one, and it is the longest. -/
theorem takeNumber?_eq_some_iff : takeNumber? t = some (s, rest) ↔
    t = s ++ rest ∧ Numeral s ∧ NumberEnds s rest := by
  constructor
  · intro h
    obtain ⟨happ, hall, hedge⟩ := (@span_eq_iff Char.isDigit _ t _).mp ⟨rfl, rfl⟩
    unfold takeNumber? at h
    revert h
    generalize t.takeWhile Char.isDigit = whole at happ hall ⊢
    generalize t.dropWhile Char.isDigit = behind at happ hedge ⊢
    intro h
    split at h
    · cases h
    · rename_i v hne
      have hwhole : isDigits whole = true := isDigits_iff.mpr ⟨hne, hall⟩
      obtain ⟨hv, hdigits, hend⟩ := (@span_eq_iff Char.isDigit _ v _).mp ⟨rfl, rfl⟩
      split at h
      · rename_i hfraction
        cases h
        rw [hfraction, List.nil_append] at hv
        refine ⟨happ, .whole hwhole, hedge, fun _ u hu => ?_⟩
        rw [← (List.cons.inj hu).2, hv]
        exact hend
      · rename_i hfraction
        cases h
        refine ⟨?_, .decimal hwhole (isDigits_iff.mpr ⟨hfraction, hdigits⟩), hend, fun hs => ?_⟩
        · rw [happ, List.append_assoc, List.cons_append, ← hv]
        · rw [isDigits_append_point] at hs
          cases hs
    · rename_i hne hpoint
      cases h
      exact ⟨happ, .whole (isDigits_iff.mpr ⟨hne, hall⟩), hedge, fun _ u hu => absurd hu (hpoint u)⟩
  · rintro ⟨rfl, hs, hedge, hpoint⟩
    cases hs with
    | whole hs =>
      obtain ⟨hne, hall⟩ := isDigits_iff.mp hs
      obtain ⟨htake, hdrop⟩ := span_eq_iff.mpr ⟨rfl, hall, hedge⟩
      unfold takeNumber?
      rw [htake, hdrop]
      split
      · exact absurd rfl hne
      · rename_i v _
        have hnone : v.takeWhile Char.isDigit = [] :=
          (span_eq_iff.mpr ⟨(List.nil_append v).symm, rfl, hpoint hs v rfl⟩).1
        rw [hnone]
      · rfl
    | @decimal w f hw hf =>
      obtain ⟨hne, hall⟩ := isDigits_iff.mp hw
      obtain ⟨hfne, hfall⟩ := isDigits_iff.mp hf
      obtain ⟨htake, hdrop⟩ := span_eq_iff.mpr
        ⟨List.append_assoc w ('.' :: f) rest, hall, show ('.' :: f ++ rest).head?.any _ = _ by rfl⟩
      obtain ⟨hftake, hfdrop⟩ := span_eq_iff.mpr ⟨rfl, hfall, hedge⟩
      unfold takeNumber?
      rw [htake, hdrop, List.cons_append]
      split
      · exact absurd rfl hne
      · rename_i v _ hv
        cases hv
        rw [hftake, hfdrop]
        split
        · exact absurd rfl hfne
        · rfl
      · rename_i hno
        exact absurd rfl (hno _)
/-- The numeral taken is one. -/
theorem numeral_of_takeNumber? (h : takeNumber? t = some (s, rest)) :
    t = s ++ rest ∧ Numeral s := by
  obtain ⟨ht, hs, -⟩ := takeNumber?_eq_some_iff.mp h
  exact ⟨ht, hs⟩

/-- A numeral is taken as a whole if the text cannot continue it. -/
theorem takeNumber?_append (h : Numeral s) (hrest : isTokenEdge rest.head? = true) :
    takeNumber? (s ++ rest) = some (s, rest) := by
  refine takeNumber?_eq_some_iff.mpr ⟨rfl, h, ?_⟩
  cases rest with
  | nil => exact ⟨rfl, fun _ u hu => by cases hu⟩
  | cons c v =>
    have hc : isTokenPart c = false := by simpa [isTokenEdge] using hrest
    constructor
    · rw [List.head?_cons, Option.any_some, Bool.eq_false_iff]
      intro hd
      rw [isTokenPart_of_isIdentPart (isIdentPart_of_isDigit hd)] at hc
      cases hc
    · rintro - w hw
      rw [(List.cons.inj hw).1] at hc
      cases hc

/-- Whether a text is a decimal numeral. -/
def isNumeral (t : Text) : Bool :=
  match splitAt '.' t with
  | [s] => isDigits s
  | [s, u] => isDigits s && isDigits u
  | _ => false

/-- The test for numerals admits numerals only. -/
theorem numeral_of_isNumeral (h : isNumeral t = true) : Numeral t := by
  have hjoin := join_splitAt '.' t
  rw [isNumeral] at h
  split at h
  · rename_i s hs
    rw [hs, join_singleton] at hjoin
    exact hjoin ▸ .whole h
  · rename_i s u hsu
    rw [hsu, join_cons_cons, join_singleton] at hjoin
    rw [Bool.and_eq_true] at h
    exact hjoin ▸ .decimal h.1 h.2
  · cases h

/-- A numeral is spelled in the characters of tokens. -/
theorem Numeral.all_isTokenPart (h : Numeral s) : s.all isTokenPart = true := by
  have hdigits {t : Text} (ht : isDigits t = true) : t.all isTokenPart = true := by
    rw [List.all_eq_true]
    intro c hc
    have hd := List.all_eq_true.mp (isDigits_iff.mp ht).2 c hc
    exact isTokenPart_of_isIdentPart (isIdentPart_of_isDigit hd)
  cases h with
  | whole hs => exact hdigits hs
  | decimal ht hu =>
    rw [List.all_append, List.all_cons, hdigits ht, hdigits hu]
    rfl

/-- A numeral begins with a digit. -/
theorem Numeral.exists_cons (h : Numeral s) : ∃ c u, s = c :: u ∧ c.isDigit = true := by
  have hdigits {t : Text} (ht : isDigits t = true) : ∃ c u, t = c :: u ∧ c.isDigit = true := by
    obtain ⟨hne, hall⟩ := isDigits_iff.mp ht
    cases t with
    | nil => exact absurd rfl hne
    | cons c u => exact ⟨c, u, rfl, List.all_eq_true.mp hall c List.mem_cons_self⟩
  cases h with
  | whole hs => exact hdigits hs
  | decimal ht hu =>
    obtain ⟨c, u, rfl, hc⟩ := hdigits ht
    exact ⟨c, _, rfl, hc⟩

end Number

section Name

/-- The segments taken are segments. -/
theorem segments_of_takeSegments (gap : Char → Bool) (fuel : Nat) (t : Text) :
    ∃ u, t = u ++ (takeSegments gap fuel t).2 ∧ Segments gap u (takeSegments gap fuel t).1 := by
  fun_induction takeSegments gap fuel t with
  | case1 t => exact ⟨[], rfl, .nil⟩
  | case2 fuel t u hdot s rest hident more left hmore ih =>
    rw [hmore] at ih
    obtain ⟨w, hrest, hsegments⟩ := ih
    obtain ⟨hu, hs, -⟩ := takeIdent?_eq_some_iff.mp hident
    obtain ⟨ht, hg, -⟩ := span_eq_iff.mp ⟨rfl, hdot⟩
    obtain ⟨hv, hh, -⟩ := (@span_eq_iff gap _ u _).mp ⟨rfl, rfl⟩
    refine ⟨_, ?_, .cons hg hh hs hsegments⟩
    rw [List.append_assoc, List.cons_append, List.append_assoc, List.append_assoc, ← hrest, ← hu,
      ← hv, ← ht]
  | case3 fuel t u _ _ => exact ⟨[], rfl, .nil⟩
  | case4 fuel t _ => exact ⟨[], rfl, .nil⟩

/-- Segments are taken as long as there are any. -/
theorem nameEnds_takeSegments (fuel : Nat) (t : Text) (hfuel : t.length ≤ fuel)
    (hend : t.head?.any isIdentPart = false) : NameEnds gap (takeSegments gap fuel t).2 := by
  fun_induction takeSegments gap fuel t with
  | case1 t =>
    have ht : t = [] := List.length_eq_zero_iff.mp (by omega)
    subst ht
    exact ⟨rfl, fun u hu => absurd hu (by simp)⟩
  | case2 fuel t u hdot s rest hident more left hmore ih =>
    rw [hmore] at ih
    obtain ⟨hu, -, hrest⟩ := takeIdent?_eq_some_iff.mp hident
    obtain ⟨ht, -, -⟩ := span_eq_iff.mp ⟨rfl, hdot⟩
    refine ih ?_ hrest
    have hlong := congrArg List.length ht
    have hshort : (u.dropWhile gap).length ≤ u.length := (List.dropWhile_suffix gap).length_le
    rw [hu, List.length_append] at hshort
    simp only [List.length_append, List.length_cons] at hlong
    omega
  | case3 fuel t u hdot hident =>
    refine ⟨hend, fun v hv => ?_⟩
    rw [hdot, List.cons.injEq] at hv
    rw [← hv.2]
    exact takeIdent?_eq_none_iff.mp hident
  | case4 fuel t hdot => exact ⟨hend, fun v hv => absurd hv (hdot v)⟩

/-- There are no more segments than characters. -/
theorem Segments.length_le (h : Segments gap u ss) : ss.length ≤ u.length := by
  induction h with
  | nil => exact le_rfl
  | cons _ _ _ _ ih =>
    simp only [List.length_append, List.length_cons]
    omega

variable (hgap : ∀ c, isTokenPart c = true → gap c = false)

include hgap

/-- A character that no gap contains ends the gap before it. -/
theorem dropWhile_gap {g v : Text} {c : Char} (hg : g.all gap = true)
    (hc : isTokenPart c = true) : (g ++ c :: v).dropWhile gap = c :: v := by
  rw [List.dropWhile_append_of_pos (List.all_eq_true.mp hg),
    List.dropWhile_cons_of_neg (by rw [hgap c hc]; exact Bool.false_ne_true)]

/-- Behind the first identifier of a name stands no character of an identifier. -/
theorem Segments.head?_append (h : Segments gap u ss) (hrest : NameEnds gap rest) :
    (u ++ rest).head?.any isIdentPart = false := by
  cases h with
  | nil => exact hrest.1
  | @cons g _ _ _ _ hg =>
    cases g with
    | nil => rfl
    | cons d g =>
      have hd : gap d = true := List.all_eq_true.mp hg d List.mem_cons_self
      rw [List.cons_append, List.cons_append, List.head?_cons, Option.any_some, Bool.eq_false_iff]
      intro hpart
      rw [hgap d (isTokenPart_of_isIdentPart hpart)] at hd
      cases hd

/-- All further segments are taken, whatever the gaps. -/
theorem takeSegments_append (h : Segments gap u ss) (hrest : NameEnds gap rest) {fuel : Nat}
    (hfuel : ss.length ≤ fuel) : takeSegments gap fuel (u ++ rest) = (ss, rest) := by
  induction h generalizing fuel with
  | nil =>
    cases fuel with
    | zero => rfl
    | succ fuel =>
      rw [List.nil_append, takeSegments]
      split
      · rename_i v hdot
        rw [takeIdent?_eq_none_iff.mpr (hrest.2 v hdot)]
      · rfl
  | @cons g h s t ss hg hh hs hmore ih =>
    obtain ⟨c, v, rfl, hc, hall⟩ := isIdent_iff.mp hs
    have hident : takeIdent? (c :: v ++ (t ++ rest)) = some (c :: v, t ++ rest) :=
      takeIdent?_eq_some_iff.mpr ⟨rfl, hs, hmore.head?_append hgap hrest⟩
    have htoken : isTokenPart c = true :=
      isTokenPart_of_isIdentPart (isIdentPart_of_isIdentStart hc)
    cases fuel with
    | zero => simp at hfuel
    | succ fuel =>
      rw [List.append_assoc, List.cons_append, List.append_assoc, List.append_assoc, takeSegments,
        dropWhile_gap hgap hg (by decide)]
      simp only
      rw [List.cons_append, dropWhile_gap hgap hh htoken, ← List.cons_append, hident]
      simp only
      rw [ih (by simpa using hfuel)]

/-- The dotted name taken is one, and it is the longest. -/
theorem takeDotted?_eq_some_iff : takeDotted? gap t = some (ss, rest) ↔
    ∃ u, t = u ++ rest ∧ Dotted gap u ss ∧ NameEnds gap rest := by
  constructor
  · intro h
    rw [takeDotted?, Option.map_eq_some_iff] at h
    obtain ⟨⟨s, v⟩, hident, hv⟩ := h
    obtain ⟨rfl, hs, hend⟩ := takeIdent?_eq_some_iff.mp hident
    obtain ⟨w, hw, hsegments⟩ := segments_of_takeSegments gap v.length v
    have hends : NameEnds gap (takeSegments gap v.length v).2 :=
      nameEnds_takeSegments v.length v le_rfl hend
    rw [Prod.mk.injEq] at hv
    rw [hv.2] at hw hends
    rw [← hv.1]
    exact ⟨s ++ w, by rw [hw, List.append_assoc], .mk hs hsegments, hends⟩
  · rintro ⟨u, rfl, ⟨hs, hsegments⟩, hends⟩
    rename_i s v ss
    have hlong : ss.length ≤ (v ++ rest).length := by
      have := hsegments.length_le
      rw [List.length_append]
      omega
    have hident : takeIdent? (s ++ (v ++ rest)) = some (s, v ++ rest) :=
      takeIdent?_eq_some_iff.mpr ⟨rfl, hs, hsegments.head?_append hgap hends⟩
    rw [takeDotted?, List.append_assoc, hident, Option.map_some]
    simp only
    rw [takeSegments_append hgap hsegments hends hlong]

end Name

section Spelling

/-- The texts that spell a name, with blanks around its dots. -/
def SpellsName (u name : Text) : Prop := ∃ ss, Dotted isBlank u ss ∧ join ['.'] ss = name

/-- Each segment is an identifier. -/
theorem Segments.isIdent (h : Segments gap u ss) : ∀ s ∈ ss, isIdent s = true := by
  induction h with
  | nil => exact fun s hs => absurd hs List.not_mem_nil
  | cons _ _ hs _ ih => exact List.forall_mem_cons.mpr ⟨hs, ih⟩

/-- Segments with narrow gaps are segments with wide ones. -/
theorem Segments.mono {gap' : Char → Bool} (hgap : ∀ {c}, gap c = true → gap' c = true)
    (h : Segments gap u ss) : Segments gap' u ss := by
  induction h with
  | nil => exact .nil
  | cons hg hh hs _ ih =>
    rw [List.all_eq_true] at hg hh
    exact .cons (List.all_eq_true.mpr fun c hc => hgap (hg c hc))
      (List.all_eq_true.mpr fun c hc => hgap (hh c hc)) hs ih

/-- The gaps of a name may be taken from a larger class of characters. -/
theorem Dotted.mono {gap' : Char → Bool} (hgap : ∀ {c}, gap c = true → gap' c = true)
    (h : Dotted gap u ss) : Dotted gap' u ss := by
  obtain ⟨hs, hsegments⟩ := h
  exact .mk hs (hsegments.mono hgap)

/-- Identifiers behind dots are segments, whatever may stand in gaps. -/
theorem segments_flatMap (h : ∀ s ∈ ss, isIdent s = true) :
    Segments gap (ss.flatMap (['.'] ++ ·)) ss := by
  induction ss with
  | nil => exact .nil
  | cons s ss ih =>
    obtain ⟨hs, hss⟩ := List.forall_mem_cons.mp h
    rw [List.flatMap_cons, List.append_assoc]
    exact .cons (g := []) (h := []) rfl rfl hs (ih hss)

/-- Identifiers joined by dots are a dotted name without gaps. -/
theorem dotted_join (hne : ss ≠ []) (h : ∀ s ∈ ss, isIdent s = true) :
    Dotted gap (join ['.'] ss) ss := by
  cases ss with
  | nil => exact absurd rfl hne
  | cons s ss =>
    obtain ⟨hs, hss⟩ := List.forall_mem_cons.mp h
    rw [join_cons]
    exact .mk hs (segments_flatMap hss)

/-- A name spells itself. -/
theorem SpellsName.self {name : Text} (h : SpellsName u name) : SpellsName name name := by
  obtain ⟨ss, ⟨hs, hsegments⟩, rfl⟩ := h
  exact ⟨_, dotted_join (by simp) (List.forall_mem_cons.mpr ⟨hs, hsegments.isIdent⟩), rfl⟩

/-- A dotted name spells itself. -/
theorem spellsName_of_isDottedName (h : isDottedName t = true) : SpellsName t t := by
  have hdotted : Dotted isBlank (join ['.'] (splitAt '.' t)) (splitAt '.' t) :=
    dotted_join (splitAt_ne_nil '.' t) (List.all_eq_true.mp h)
  rw [join_splitAt] at hdotted
  exact ⟨_, hdotted, join_splitAt '.' t⟩

/-- An identifier is spelled in the characters of tokens. -/
theorem isTokenPart_of_isIdent (h : isIdent s = true) : ∀ c ∈ s, isTokenPart c = true := by
  intro c hc
  exact isTokenPart_of_isIdentPart (List.all_eq_true.mp (all_isIdentPart_of_isIdent h) c hc)

/-- A name is spelled with token characters and blanks. -/
theorem SpellsName.chars {name : Text} (h : SpellsName u name) :
    ∀ c ∈ u, isBlank c = true ∨ isTokenPart c = true := by
  obtain ⟨ss, ⟨hs, hsegments⟩, -⟩ := h
  have hsegments : ∀ {t ss}, Segments isBlank t ss →
      ∀ c ∈ t, isBlank c = true ∨ isTokenPart c = true := by
    intro t ss h
    induction h with
    | nil => exact fun c hc => absurd hc List.not_mem_nil
    | cons hg hh hs _ ih =>
      simp only [List.mem_append, List.mem_cons]
      rintro c (hc | rfl | hc | hc | hc)
      · exact .inl (List.all_eq_true.mp hg c hc)
      · exact .inr rfl
      · exact .inl (List.all_eq_true.mp hh c hc)
      · exact .inr (isTokenPart_of_isIdent hs c hc)
      · exact ih c hc
  intro c hc
  rcases List.mem_append.mp hc with hc | hc
  · exact .inr (isTokenPart_of_isIdent hs c hc)
  · exact hsegments ‹_› c hc

/-- An identifier has neither blanks nor commas. -/
theorem solid_of_isIdent (h : isIdent s = true) : solid s = s := by
  refine solid_eq_self fun c hc => ?_
  have htoken := isTokenPart_of_isIdent h c hc
  exact ⟨isBlank_of_isTokenPart htoken, fun he => absurd (he ▸ htoken) (by decide)⟩

/-- The name is what is spelled, without the blanks. -/
theorem SpellsName.solid_eq {name : Text} (h : SpellsName u name) : solid u = name := by
  obtain ⟨ss, ⟨hs, hsegments⟩, rfl⟩ := h
  have hblank {g : Text} (hg : g.all isBlank = true) : solid g = [] :=
    AllBlank.solid_eq (List.all_eq_true.mp hg)
  have hsegments : ∀ {t ss}, Segments isBlank t ss → solid t = ss.flatMap (['.'] ++ ·) := by
    intro t ss h
    induction h with
    | nil => rfl
    | cons hg hh hs _ ih =>
      rw [solid_append, hblank hg, solid_cons (by decide) (by decide), solid_append, hblank hh,
        solid_append, solid_of_isIdent hs, ih]
      rfl
  rw [join_cons, solid_append, solid_of_isIdent hs, hsegments ‹_›]

/-- The name is what is spelled, without the blanks; there are no commas to lose. -/
theorem SpellsName.filter_eq {name : Text} (h : SpellsName u name) :
    u.filter (fun c => !isBlank c) = name := by
  rw [← h.solid_eq, solid]
  refine List.filter_congr fun c hc => ?_
  have hcomma : c ≠ ',' := by
    rintro rfl
    rcases h.chars _ hc with hblank | htoken
    · exact absurd hblank (by decide)
    · exact absurd htoken (by decide)
  rw [decide_eq_false hcomma, Bool.or_false]

/-- A dotted name is spelled in the characters of tokens. -/
theorem all_isTokenPart_of_isDottedName (h : isDottedName t = true) :
    t.all isTokenPart = true := by
  have hname := spellsName_of_isDottedName h
  rw [List.all_eq_true]
  intro c hc
  rw [← hname.solid_eq] at hc
  refine (hname.chars c (mem_solid.mp hc).1).resolve_left ?_
  rw [(mem_solid.mp hc).2.1]
  exact Bool.false_ne_true

/-- What spells a name begins as an identifier does. -/
theorem SpellsName.exists_cons {name : Text} (h : SpellsName u name) :
    ∃ c v, u = c :: v ∧ isIdentStart c = true := by
  obtain ⟨ss, ⟨hs, -⟩, -⟩ := h
  obtain ⟨c, v, rfl, hc, -⟩ := isIdent_iff.mp hs
  exact ⟨c, _, rfl, hc⟩

/-- What spells a name ends as an identifier does. -/
theorem SpellsName.endsVisible {name : Text} (h : SpellsName u name) : EndsVisible u := by
  obtain ⟨ss, ⟨hs, hsegments⟩, -⟩ := h
  have hident {s : Text} (hs : isIdent s = true) : EndsVisible s :=
    endsVisible_of_forall fun c hc => isBlank_of_isTokenPart (isTokenPart_of_isIdent hs c hc)
  have hsegments : ∀ {t ss}, Segments isBlank t ss → EndsVisible t := by
    intro t ss h
    induction h with
    | nil => exact endsVisible_of_forall fun c hc => absurd hc List.not_mem_nil
    | @cons g h s t _ _ _ hs _ ih =>
      have hne : s ++ t ≠ [] := by
        obtain ⟨c, v, rfl, -⟩ := isIdent_iff.mp hs
        simp
      have := ((hident hs).append ih).append_left hne (g ++ '.' :: h)
      rwa [List.append_assoc, List.cons_append] at this
  exact (hident hs).append (hsegments ‹_›)

/-- The spelling of a name has no blanks at its ends. -/
theorem SpellsName.trim_eq {name : Text} (h : SpellsName u name) : trim u = u := by
  refine trim_eq_self (fun c hc => ?_) h.endsVisible
  obtain ⟨d, v, rfl, hd⟩ := h.exists_cons
  obtain rfl := Option.some.inj hc
  exact isBlank_of_isIdentPart (isIdentPart_of_isIdentStart hd)

end Spelling

end Text

end Gloss
