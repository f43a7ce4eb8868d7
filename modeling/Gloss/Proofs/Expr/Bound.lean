import Gloss.Proofs.Expr.Layout
import Mathlib.Data.List.Forall2

/-!
# The bounds of the parser

Without a raw leaf an expression owes nothing to the bounds it was read within: its text is read
alike within all bounds that its own depth and size allow. A raw leaf may stand for text that only
some bound kept from being read. So a call is read as soon as each of its arguments is read by
itself and their nodes can be paid for together.
-/

namespace Gloss

namespace Expr

mutual

/-- Whether an expression has a raw leaf. -/
def hasRaw : Expr → Bool
  | raw _ => true
  | number _ | identifier _ => false
  | group _ e | unary _ e | member e _ | construct e => e.hasRaw
  | binary _ l r | index l r => l.hasRaw || r.hasRaw
  | call f args | constructWith f args => f.hasRaw || anyHasRaw args

/-- Whether one of several expressions has a raw leaf. -/
def anyHasRaw : List Expr → Bool
  | [] => false
  | e :: es => e.hasRaw || anyHasRaw es

end

end Expr

namespace Grammar

open Text Outcome

variable {nested nested' : Rule} {room room' b b' : Nat} {t u g : Text} {e : Expr}

/-- A text of the grammar is read where a whole text is wanted, blanks behind it aside. -/
theorem readWhole_append_of_reads (h : Reads room b u e b') (hg : AllBlank g)
    (hxor : xorSign ∉ u ++ g) : readWhole (expression room) (u ++ g) b = some (e, b') := by
  obtain ⟨rest, hparsed, hrest⟩ := expression_of_reads h hg
  rw [readWhole, if_neg hxor, hparsed]
  exact if_pos hrest

/-- The rule `nested'` reads whole texts without raw leaves as `nested` does, within every budget
that pays for them, if they nest less than `room'` deep. -/
def Rereads (nested nested' : Rule) (room' : Nat) : Prop :=
  ∀ ⦃t b e b'⦄, readWhole nested t b = some (e, b') → e.hasRaw = false → e.depth < room' →
    ∀ c, readWhole nested' t (c + e.size) = some (e, c)

/-- Several texts are read again within the depth of what they were read as. -/
theorem Rereads.readEach (h : Rereads nested nested' room') {ts : List Text} {es : List Expr}
    (hes : readEach nested ts b = some (es, b')) (hraw : Expr.anyHasRaw es = false)
    (hdepth : Expr.argDepth es < room' + 1) (c : Nat) :
    Grammar.readEach nested' ts (c + Expr.sizes es) = some (es, c) := by
  induction ts generalizing b es with
  | nil =>
    cases hes
    rfl
  | cons t ts ih =>
    obtain ⟨e, b₁, es, rfl, he, hes⟩ := readEach_cons.mp hes
    rw [Expr.anyHasRaw, Bool.or_eq_false_iff] at hraw
    rw [Expr.argDepth] at hdepth
    have hbudget : c + Expr.sizes (e :: es) = c + Expr.sizes es + e.size := by
      rw [Expr.sizes]
      omega
    rw [hbudget]
    exact readEach_cons.mpr ⟨e, _, es, rfl, h he hraw.1 (by omega) _, ih hes hraw.2 (by omega)⟩

section Rebound

variable {level : Level} {Inner : Reading}

/-- What is read without raw leaves within some bounds is read within all that suffice. -/
theorem Spells.rebound
    (hreads : Rereads nested (expression room') room')
    (hinner : ∀ {b t e b'}, Inner b t e b' → e.hasRaw = false → e.depth < room' →
      ∀ c, Reads room' (c + e.size) t e c)
    (h : Spells nested Inner level b t e b') (hraw : e.hasRaw = false)
    (hdepth : e.depth < room' + 1) (c : Nat) :
    Spells (expression room') (Reads room') level (c + e.size) t e c := by
  induction h generalizing c with
  | name hname => exact .name hname
  | @member _ _ _ _ _ _ _ e _ happlied hg hh hname ih =>
    have hobject := ih hraw hdepth (c + 1)
    rw [Expr.size, Nat.add_comm e.size, ← Nat.add_assoc]
    exact .member hobject happlied hg hh hname
  | @index _ _ _ _ _ _ e s _ hg hinside hs ih =>
    rw [Expr.hasRaw, Bool.or_eq_false_iff] at hraw
    rw [Expr.depth] at hdepth
    have hobject := ih hraw.1 (by omega) (c + 1 + s.size)
    have hsubscript := hreads hs hraw.2 (by omega) (c + 1)
    have hbudget : c + (Expr.index e s).size = c + 1 + s.size + e.size := by
      rw [Expr.size]
      omega
    rw [hbudget]
    exact .index hobject hg hinside hsubscript
  | @call _ _ _ _ _ _ e args _ hg hinside hargs ih =>
    rw [Expr.hasRaw, Bool.or_eq_false_iff] at hraw
    rw [Expr.depth] at hdepth
    have hcallee := ih hraw.1 (by omega) (c + 1 + Expr.sizes args)
    have hbudget : c + (Expr.call e args).size = c + 1 + Expr.sizes args + e.size := by
      rw [Expr.size]
      omega
    rw [hbudget]
    exact .call hcallee hg hinside (hreads.readEach hargs hraw.2 (by omega) (c + 1))
  | trailed _ ih => exact .trailed (ih hraw hdepth c)
  | number hnumeral => exact .number hnumeral
  | @group _ _ fence _ _ e he hg =>
    have hdepth' : e.depth + 1 < room' + 1 := hdepth
    have hbudget : c + (Expr.group fence e).size = c + 1 + e.size := by
      rw [Expr.size]
      omega
    rw [hbudget]
    exact .group (hinner he hraw (by omega) (c + 1)) hg
  | construct hg hne hname => exact .construct hg hne hname
  | @constructWith _ _ _ _ _ _ name args hg hne hname hh hinside hargs =>
    have hargsRaw : Expr.anyHasRaw args = false := hraw
    have hargsDepth : max 0 (Expr.argDepth args) < room' + 1 := hdepth
    have hbudget :
        c + (Expr.constructWith (.identifier name) args).size = c + 2 + Expr.sizes args := by
      simp only [Expr.size]
      omega
    rw [hbudget]
    exact .constructWith hg hne hname hh hinside
      (hreads.readEach hargs hargsRaw (by omega) (c + 2))
  | unsigned hg _ ih => exact .unsigned hg (ih hraw hdepth c)
  | signed hg hsign _ ih =>
    rw [Expr.size, ← Nat.add_assoc]
    exact .signed hg hsign (ih hraw hdepth c)
  | factor _ ih => exact .factor (ih hraw hdepth c)
  | @multiply _ _ _ _ _ _ _ op l r _ hg hop _ ihl ihr =>
    rw [Expr.hasRaw, Bool.or_eq_false_iff] at hraw
    rw [Expr.depth] at hdepth
    have hbudget : c + (Expr.binary op l r).size = c + 1 + r.size + l.size := by
      rw [Expr.size]
      omega
    rw [hbudget]
    exact .multiply (ihl hraw.1 (by omega) _) hg hop (ihr hraw.2 (by omega) (c + 1))
  | term _ ih => exact .term (ih hraw hdepth c)
  | @add _ _ _ _ _ _ _ op l r _ hg hop _ ihl ihr =>
    rw [Expr.hasRaw, Bool.or_eq_false_iff] at hraw
    rw [Expr.depth] at hdepth
    have hbudget : c + (Expr.binary op l r).size = c + 1 + r.size + l.size := by
      rw [Expr.size]
      omega
    rw [hbudget]
    exact .add (ihl hraw.1 (by omega) _) hg hop (ihr hraw.2 (by omega) (c + 1))

end Rebound

/-- If texts of the grammar can be read within other bounds, so can whole texts. -/
theorem rereads_of_rebound
    (hreads : ∀ {b t e b'}, Reads room b t e b' → e.hasRaw = false → e.depth < room' →
      ∀ c, Reads room' (c + e.size) t e c) :
    Rereads (expression room) (expression room') room' := by
  intro t b e b' hread hraw hdepth c
  rcases readWhole_cases (expression_sound room) hread with ⟨rfl, -⟩ | ⟨hxor, u, g, rfl, hg, hu⟩
  · cases hraw
  · exact readWhole_append_of_reads (hreads hu hraw hdepth c) hg hxor

section Depth

variable {level : Level} {Inner : Reading}

/-- What several texts are read as is no deeper than the rule for each of them allows. -/
theorem argDepth_le_of_readEach
    (hread : ∀ {t b e b'}, readWhole nested t b = some (e, b') → e.hasRaw = false →
      e.depth < room) {ts : List Text} {es : List Expr}
    (h : readEach nested ts b = some (es, b')) (hraw : Expr.anyHasRaw es = false) :
    Expr.argDepth es ≤ room := by
  induction ts generalizing b es with
  | nil =>
    cases h
    exact Nat.zero_le _
  | cons t ts ih =>
    obtain ⟨e, b₁, es, rfl, he, hes⟩ := readEach_cons.mp h
    rw [Expr.anyHasRaw, Bool.or_eq_false_iff] at hraw
    have hhead := hread he hraw.1
    have htail := ih hes hraw.2
    rw [Expr.argDepth]
    omega

/-- Without raw leaves, brackets nest no deeper than those that are read. -/
theorem Spells.depth_le
    (hread : ∀ {t b e b'}, readWhole nested t b = some (e, b') → e.hasRaw = false →
      e.depth < room)
    (hinner : ∀ {b t e b'}, Inner b t e b' → e.hasRaw = false → e.depth < room)
    (h : Spells nested Inner level b t e b') (hraw : e.hasRaw = false) : e.depth ≤ room := by
  induction h with
  | name | number | construct => exact Nat.zero_le _
  | member _ _ _ _ _ ih => exact ih hraw
  | index _ _ _ hs ih =>
    rw [Expr.hasRaw, Bool.or_eq_false_iff] at hraw
    have hobject := ih hraw.1
    have hsubscript := hread hs hraw.2
    rw [Expr.depth]
    omega
  | call _ _ _ hargs ih =>
    rw [Expr.hasRaw, Bool.or_eq_false_iff] at hraw
    have hcallee := ih hraw.1
    have := argDepth_le_of_readEach hread hargs hraw.2
    rw [Expr.depth]
    omega
  | group he => exact hinner he hraw
  | constructWith _ _ _ _ _ hargs =>
    have := argDepth_le_of_readEach hread hargs hraw
    rw [Expr.depth, Expr.depth]
    omega
  | trailed _ ih | unsigned _ _ ih | factor _ ih | term _ ih => exact ih hraw
  | signed _ _ _ ih => exact ih hraw
  | multiply _ _ _ _ ihl ihr | add _ _ _ _ ihl ihr =>
    rw [Expr.hasRaw, Bool.or_eq_false_iff] at hraw
    have hleft := ihl hraw.1
    have hright := ihr hraw.2
    rw [Expr.depth]
    omega

/-- What is read in a room fits into it, raw leaves aside. -/
theorem Reads.depth_lt (h : Reads room b t e b') (hraw : e.hasRaw = false) : e.depth < room := by
  induction room generalizing b t e b' with
  | zero => exact h.elim
  | succ room ih =>
    refine Nat.lt_succ_of_le (Spells.depth_le ?_ ih h hraw)
    intro t b e b' hread hraw
    rcases readWhole_cases (expression_sound room) hread with ⟨rfl, -⟩ | ⟨-, u, g, -, -, hu⟩
    · cases hraw
    · exact ih hu hraw

end Depth

/-- The text of an expression without raw leaves is read as that expression within all bounds that
its depth and its size allow. -/
theorem Reads.rebound (h : Reads room b t e b') (hraw : e.hasRaw = false) (hdepth : e.depth < room')
    (c : Nat) : Reads room' (c + e.size) t e c := by
  induction room generalizing room' b t e b' c with
  | zero => exact h.elim
  | succ room ih =>
    obtain ⟨room', rfl⟩ := Nat.exists_eq_add_one_of_ne_zero (Nat.ne_zero_of_lt hdepth)
    exact Spells.rebound (rereads_of_rebound ih) ih h hraw hdepth c

/-- The arguments of a call are read alike within all bounds that suffice. -/
theorem rereads_expression (room room' : Nat) :
    Rereads (expression room) (expression room') room' :=
  rereads_of_rebound Reads.rebound

section Call

/-- The text by itself is read as the expression, which owes nothing to the bounds and may stand
within them wherever brackets may nest `room - 1` deep. -/
structure ReadsAlone (room : Nat) (t : Text) (e : Expr) : Prop where
  /-- The whole text is the expression. -/
  parsed : Expr.parse? t = some e
  /-- There is no raw leaf. -/
  no_raw : e.hasRaw = false
  /-- Its brackets do not nest too deep. -/
  depth_lt : e.depth < room

/-- What can be read by itself is read as a whole text, at the cost of its nodes. -/
theorem ReadsAlone.readWhole (h : ReadsAlone room t e) (c : Nat) :
    Grammar.readWhole (expression room) t (c + e.size) = some (e, c) := by
  obtain ⟨hxor, u, g, left, rfl, hg, hu⟩ := parse?_eq_some_iff_reads.mp h.parsed
  exact readWhole_append_of_reads (hu.rebound h.no_raw h.depth_lt c) hg hxor

/-- Texts that can be read by themselves are read in a row. -/
theorem readEach_of_readsAlone {ts : List Text} {es : List Expr}
    (h : List.Forall₂ (ReadsAlone room) ts es) (c : Nat) :
    readEach (expression room) ts (c + Expr.sizes es) = some (es, c) := by
  induction h with
  | nil => rfl
  | @cons _ e _ es he _ ih =>
    have hbudget : c + Expr.sizes (e :: es) = c + Expr.sizes es + e.size := by
      rw [Expr.sizes]
      omega
    rw [hbudget]
    exact readEach_cons.mpr ⟨e, _, es, rfl, he.readWhole _, ih⟩

/-- A name and arguments that are read by themselves are read as a call, if all their nodes, that
of the name and that of the call can be paid for. -/
theorem parse?_call {inside name : Text} {es : List Expr} (hname : SpellsName u name)
    (hg : AllBlank g) (hinside : Bracket.paren.Encloses inside)
    (hargs : List.Forall₂ (ReadsAlone maxDepth) (splitTopLevel [','] inside) es)
    (hsize : Expr.sizes es + 2 ≤ maxNodes) :
    Expr.parse? (u ++ (g ++ '(' :: (inside ++ [')']))) = some (.call (.identifier name) es) := by
  have hxor : xorSign ∉ u ++ (g ++ '(' :: (inside ++ [')'])) := by
    simp only [List.mem_append, List.mem_cons, List.not_mem_nil, or_false, not_or]
    refine ⟨fun h => ?_, fun h => absurd (hg _ h) (by decide), by decide, fun h => ?_, by decide⟩
    · rcases hname.chars _ h with hblank | htoken
      · exact absurd hblank (by decide)
      · exact absurd htoken (by decide)
    · obtain ⟨p, hp, hmem⟩ := exists_mem_splitTopLevel h (by decide) (by decide)
      have harith : List.Forall₂ (fun t e => xorSign ∉ t ∧ ReadsAlone maxDepth t e)
          (splitTopLevel [','] inside) es :=
        hargs.imp fun _ _ he => ⟨(parse?_eq_some_iff_reads.mp he.parsed).1, he⟩
      exact ((List.forall₂_and_left _ _).mp harith).1 p hp hmem
  obtain ⟨left, hleft⟩ := Nat.exists_eq_add_of_le' hsize
  have hbudget : maxNodes = left + 1 + Expr.sizes es + 1 := by omega
  refine parse?_eq_some_iff_reads.mpr
    ⟨hxor, _, [], left, (List.append_nil _).symm, allBlank_nil, ?_⟩
  rw [hbudget]
  exact Spells.toSum (.call (.name hname) hg hinside (readEach_of_readsAlone hargs (left + 1)))

end Call

end Grammar

end Gloss
