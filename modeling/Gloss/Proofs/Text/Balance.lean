import Gloss.Proofs.Text.Bracket
import Mathlib.Order.Bounds.Basic

/-!
# Brackets by counting

The depth of a kind behind a text is what counting its opening and its closing brackets gives, as
long as no beginning of the text closes more than it opens. So a bracket is closed at the first
offset up to which as many are closed as are opened. Where closing brackets that close nothing are
ignored, what is left open is counted from the best place to begin at: more than `k` brackets are
open exactly if some ending of the text opens more than `k` that it does not close.
-/

namespace Gloss

namespace Bracket

variable {b : Bracket} {c : Char} {d e k : Nat} {s t v inside rest : Text}

/-- As many brackets of the kind are closed as are opened. -/
def Balances (b : Bracket) (t : Text) : Prop := t.count b.opener = t.count b.closer

/-- Of no kind is a bracket left open by the text, closing brackets that close nothing ignored:
wherever one begins to count, no more are opened than closed. -/
def LeavesNoneOpen (t : Text) : Prop :=
  ∀ b : Bracket, ∀ s, s <:+ t → s.count b.opener ≤ s.count b.closer

/-- With `depth` brackets of the kind open before it, no beginning of the text closes more than are
open. -/
def StaysOpen (b : Bracket) (depth : Nat) (t : Text) : Prop :=
  ∀ s, s <+: t → s.count b.closer ≤ depth + s.count b.opener

section Depth

/-- A text stays open if its first character does not close it and the rest stays open behind that.
-/
theorem staysOpen_cons :
    b.StaysOpen d (c :: t) ↔ ∃ e, b.step? d c = some e ∧ b.StaysOpen e t := by
  simp only [step?_eq_some_iff]
  constructor
  · intro h
    have hfirst := h [c] (List.prefix_append [c] t)
    refine ⟨d + [c].count b.opener - [c].count b.closer, by omega, fun s hs => ?_⟩
    have hs := h (c :: s) (List.cons_prefix_cons.mpr ⟨rfl, hs⟩)
    rw [count_cons_eq_add b.opener, count_cons_eq_add b.closer] at hs
    omega
  · rintro ⟨e, hstep, h⟩ s hs
    rcases List.prefix_cons_iff.mp hs with rfl | ⟨s', rfl, hs'⟩
    · exact Nat.zero_le _
    · have hs := h s' hs'
      rw [count_cons_eq_add b.opener, count_cons_eq_add b.closer]
      omega

/-- The depth behind a text is what its brackets add up to, if it never falls below zero. -/
theorem depthAfter?_eq_some_iff : b.depthAfter? d t = some e ↔
    d + t.count b.opener = e + t.count b.closer ∧ b.StaysOpen d t := by
  induction t generalizing d with
  | nil => simp [StaysOpen]
  | cons c t ih =>
    rw [depthAfter?_cons, Option.bind_eq_some_iff, staysOpen_cons, count_cons_eq_add b.opener,
      count_cons_eq_add b.closer]
    simp only [ih]
    constructor
    · rintro ⟨d', hstep, htotal, h⟩
      have hcount := step?_eq_some_iff.mp hstep
      exact ⟨by omega, d', hstep, h⟩
    · rintro ⟨htotal, d', hstep, h⟩
      have hcount := step?_eq_some_iff.mp hstep
      exact ⟨d', hstep, by omega, h⟩

/-- What is not closed stays open. -/
theorem close?_eq_none_iff : b.close? d t = none ↔ b.StaysOpen d t := by
  induction t generalizing d with
  | nil => simp [close?, StaysOpen]
  | cons c t ih =>
    rw [close?_cons, staysOpen_cons]
    cases b.step? d c with
    | none => simp
    | some e => simp [ih]

end Depth

section Match

/-- While no more is closed than was opened behind a bracket, that bracket is open. -/
theorem count_lt_count_opener_cons (h : s.count b.closer ≤ s.count b.opener) :
    (b.opener :: s).count b.closer < (b.opener :: s).count b.opener := by
  rw [count_cons_eq_add b.opener, count_cons_eq_add b.closer, List.count_singleton_self,
    count_opener_closer]
  omega

/-- A bracket that is closed is open before its end, and balanced there. -/
theorem of_close?_eq_some (h : b.close? 0 v = some (inside, rest)) :
    b.Balances ((b.opener :: v).take (inside.length + 2)) ∧
      ∀ n ≤ inside.length, ((b.opener :: v).take (n + 1)).count b.closer <
        ((b.opener :: v).take (n + 1)).count b.opener := by
  obtain ⟨rfl, hdepth⟩ := close?_eq_some_iff.mp h
  obtain ⟨htotal, hopen⟩ := depthAfter?_eq_some_iff.mp hdepth
  constructor
  · have htake : (b.opener :: (inside ++ b.closer :: rest)).take (inside.length + 2) =
        [b.opener] ++ (inside ++ [b.closer]) := by
      rw [List.take_succ_cons, List.take_length_add_append]
      rfl
    rw [Balances, htake, List.count_append, List.count_append, List.count_append,
      List.count_append, List.count_singleton_self, count_opener_closer, List.count_singleton_self,
      count_closer_opener]
    omega
  · intro n hn
    rw [List.take_succ_cons, List.take_append_of_le_length hn]
    refine count_lt_count_opener_cons ?_
    have hbegin := hopen _ (List.take_prefix n inside)
    rwa [Nat.zero_add] at hbegin

/-- A bracket that is not closed is balanced nowhere. -/
theorem not_balances_of_close?_eq_none (h : b.close? 0 v = none) (n : Nat) :
    ¬ b.Balances ((b.opener :: v).take (n + 1)) := by
  rw [List.take_succ_cons]
  refine Nat.ne_of_gt (count_lt_count_opener_cons ?_)
  have hbegin := close?_eq_none_iff.mp h _ (List.take_prefix n v)
  rwa [Nat.zero_add] at hbegin

end Match

section Open

namespace Nesting

/-- More than `k` brackets of a kind are open behind a text exactly if one of its endings opens more
than `k` that it does not close. An ending of a text with one more character is empty, or has that
character behind an ending of the text. -/
theorem count_after_le_iff : (after {} t).count b ≤ k ↔
    ∀ s, s <:+ t → s.count b.opener ≤ s.count b.closer + k := by
  induction t using List.reverseRecOn generalizing k with
  | nil =>
    have hcount : (after {} []).count b = 0 := by cases b <;> rfl
    simp only [hcount, List.suffix_nil, forall_eq, List.count_nil, Nat.zero_le]
  | append_singleton t c ih =>
    have hendings : (∀ s, s <:+ t ++ [c] → s.count b.opener ≤ s.count b.closer + k) ↔
        ∀ s, s <:+ t →
          s.count b.opener + [c].count b.opener ≤ s.count b.closer + [c].count b.closer + k := by
      simp only [← List.count_append]
      constructor
      · exact fun h s hs => h _ ((List.suffix_append_inj_of_length_eq rfl).mpr ⟨hs, rfl⟩)
      · intro h s hs
        rcases List.suffix_concat_iff.mp hs with rfl | ⟨s', rfl, hs'⟩
        · exact Nat.zero_le _
        · exact h s' hs'
    rw [hendings, after_append, after_cons, after_nil, count_step_eq]
    by_cases ho : c = b.opener
    · rw [ho, List.count_singleton_self, count_opener_closer, Nat.sub_zero]
      cases k with
      | zero =>
        refine ⟨fun h => absurd h (Nat.not_succ_le_zero _), fun h => ?_⟩
        exact absurd (h [] List.nil_suffix) (Nat.not_succ_le_zero _)
      | succ k =>
        rw [Nat.add_le_add_iff_right, ih]
        exact forall₂_congr fun s _ => by omega
    · rw [count_singleton_of_ne ho, Nat.add_zero, Nat.sub_le_iff_le_add, ih]
      exact forall₂_congr fun s _ => by omega

end Nesting

/-- Where nothing is left open the nesting is flat. -/
theorem isFlat_after_iff : (Nesting.after {} t).isFlat = true ↔ LeavesNoneOpen t := by
  constructor
  · intro hflat b
    refine (Nesting.count_after_le_iff (k := 0)).mp (Nat.le_of_eq ?_)
    rw [Nesting.isFlat_iff.mp hflat]
    cases b <;> rfl
  · intro hnone
    refine Nesting.isFlat_of_count fun b => Nat.le_zero.mp ?_
    exact Nesting.count_after_le_iff.mpr (hnone b)

end Open

end Bracket

namespace Text

open Gloss.Bracket

variable {b : Bracket} {n : Nat} {t : Text} {start : Int}

/-- What is read from an offset on. An offset below zero counts from the end of the text, behind
which reading goes on at the start. -/
def readFrom (t : Text) : (start : Int) → Text
  | .ofNat start => t.drop start
  | .negSucc back => t.drop (t.length - (back + 1)) ++ t

/-- What is read from offset `start` up to offset `stop`, both included. -/
def readThrough (t : Text) (start stop : Int) : Text :=
  (t.readFrom start).take (stop + 1 - start).toNat

/-- A text begins with a bracket of a kind, and offset `n` is where that is closed. -/
structure ClosedAt (b : Bracket) (t : Text) (n : Nat) : Prop where
  /-- The bracket stands at the beginning. -/
  opens : t.head? = some b.opener
  /-- It is closed within the text. -/
  lt_length : n < t.length
  /-- Where it is closed, all brackets of its kind are. -/
  balances : b.Balances (t.take (n + 1))
  /-- Before that it is open. -/
  isOpen : ∀ m < n, (t.take (m + 1)).count b.closer < (t.take (m + 1)).count b.opener

/-- No opening bracket closes itself. -/
theorem ClosedAt.pos (h : ClosedAt b t n) : 0 < n := by
  refine Nat.pos_of_ne_zero fun hn => ?_
  have hbalances := h.balances
  rw [hn, List.take_one, h.opens, Option.toList_some, Balances, List.count_singleton_self,
    count_opener_closer] at hbalances
  exact absurd hbalances Nat.one_ne_zero

/-- Nothing is balanced before a bracket is closed. -/
theorem ClosedAt.le {m : Nat} (h : ClosedAt b t n) (hm : b.Balances (t.take (m + 1))) : n ≤ m :=
  Nat.le_of_not_lt fun hlt => Nat.ne_of_gt (h.isOpen m hlt) hm

/-- Where a closing bracket is found, the opening one is closed. -/
theorem closedAt_of_findClosing? (h : t.findClosing? 0 = some n) : ∃ b, ClosedAt b t n := by
  rw [findClosing?, List.drop_zero, Option.map_eq_some_iff] at h
  obtain ⟨⟨inside, rest⟩, henclosed, hn⟩ := h
  obtain rfl : n = inside.length + 1 := by
    rw [← hn]
    exact congrArg (· + 1) (Nat.zero_add _)
  cases t with
  | nil => cases henclosed
  | cons c v =>
    obtain ⟨b, hb, hclose⟩ := Option.bind_eq_some_iff.mp henclosed
    obtain rfl := eq_opener_of_ofOpener? hb
    obtain ⟨hbalances, hopen⟩ := of_close?_eq_some hclose
    refine ⟨b, rfl, ?_, hbalances, fun m hm => hopen m (Nat.le_of_lt_succ hm)⟩
    rw [eq_of_close?_eq_some hclose, List.length_cons, List.length_append, List.length_cons]
    omega

/-- If no closing bracket is found, no beginning of the text balances. -/
theorem not_balances_of_findClosing?_eq_none (h : t.findClosing? 0 = none)
    (hopens : t.head? = some b.opener) (n : Nat) : ¬ b.Balances (t.take (n + 1)) := by
  cases t with
  | nil => cases hopens
  | cons c v =>
    obtain rfl := Option.some.inj hopens
    rw [findClosing?, List.drop_zero, Option.map_eq_none_iff, enclosed?, ofOpener?_opener] at h
    exact not_balances_of_close?_eq_none h n

/-- How much text is read from a start. -/
theorem length_readFrom (h : -t.length ≤ start) :
    (t.readFrom start).length = ((t.length : Int) - start).toNat := by
  cases start with
  | ofNat start =>
    rw [readFrom, List.length_drop, Int.ofNat_eq_natCast]
    omega
  | negSucc back =>
    rw [readFrom, List.length_append, List.length_drop]
    omega

/-- Where a bracket is closed depends on what is read from it on. -/
theorem findClosingAt?_eq (h : -t.length ≤ start) : t.findClosingAt? start =
    some (((t.readFrom start).findClosing? 0).map fun n : Nat => start + (n : Int)) := by
  cases start with
  | ofNat start =>
    rw [findClosingAt?, readFrom, findClosing?, findClosing?, List.drop_zero, Option.map_map,
      Option.map_map]
    refine congrArg (fun f => some (Option.map f (enclosed? (t.drop start)))) (funext fun v => ?_)
    simp only [Function.comp_apply, Int.ofNat_eq_natCast]
    omega
  | negSucc back =>
    rw [findClosingAt?, if_pos (by omega), readFrom]
    dsimp only
    cases findClosing? (t.drop (t.length - (back + 1)) ++ t) 0 with
    | none => rfl
    | some n =>
      have hshift : (n : Int) - (back + 1) = Int.negSucc back + n := by omega
      exact congrArg (fun closing => some (some closing)) hshift

/-- Reading through an offset is reading so many characters from the start. -/
theorem readThrough_add (t : Text) (start : Int) (n : Nat) :
    t.readThrough start (start + n) = (t.readFrom start).take (n + 1) := by
  rw [readThrough, show (start + n + 1 - start).toNat = n + 1 by omega]

/-- A bracket is closed at the first offset up to which its kind is balanced. -/
theorem ClosedAt.isLeast (hstart : -t.length ≤ start) (h : ClosedAt b (t.readFrom start) n) :
    IsLeast {j : Int | start < j ∧ j < t.length ∧ b.Balances (t.readThrough start j)}
      (start + n) := by
  have hlength := length_readFrom hstart
  have hpos := h.pos
  have hlt := h.lt_length
  refine ⟨⟨by omega, by omega, (readThrough_add t start n).symm ▸ h.balances⟩, ?_⟩
  rintro j ⟨hj, -, hbalances⟩
  obtain ⟨m, rfl⟩ := Int.le.dest (Int.le_of_lt hj)
  rw [readThrough_add] at hbalances
  have := h.le hbalances
  omega

/-- An answer to the question where the bracket at an offset is closed. -/
structure IsClosing (t : Text) (start : Int) (answer : Option Int) : Prop where
  /-- An offset is given if it is the first one behind `start` up to which the kind of bracket that
  `start` opens is balanced. -/
  least : ∀ stop, answer = some stop ↔ ∃ b : Bracket, (t.readFrom start).head? = some b.opener ∧
    IsLeast {j : Int | start < j ∧ j < t.length ∧ b.Balances (t.readThrough start j)} stop
  /-- None is given if nothing is opened at `start`, or its kind is balanced nowhere behind it. -/
  missing : answer = none ↔ ∀ b : Bracket, (t.readFrom start).head? = some b.opener →
    ∀ j : Int, start < j → j < t.length → ¬ b.Balances (t.readThrough start j)
  /-- Up to the offset given, more is opened than closed all the way. -/
  isOpen : ∀ stop, answer = some stop → ∀ b : Bracket,
    (t.readFrom start).head? = some b.opener → ∀ j : Int, start ≤ j → j < stop →
      (t.readThrough start j).count b.closer < (t.readThrough start j).count b.opener

/-- Nothing is closed where nothing is found. -/
theorem isClosing_none (hclosing : (t.readFrom start).findClosing? 0 = none) :
    t.IsClosing start none := by
  have hnever (b : Bracket) (hopens : (t.readFrom start).head? = some b.opener) (j : Int)
      (hj : start < j) : ¬ b.Balances (t.readThrough start j) := by
    obtain ⟨m, rfl⟩ := Int.le.dest (Int.le_of_lt hj)
    rw [readThrough_add]
    exact not_balances_of_findClosing?_eq_none hclosing hopens m
  refine ⟨fun stop => ?_, ?_, fun _ h => nomatch h⟩
  · refine iff_of_false nofun ?_
    rintro ⟨b, hopens, hleast⟩
    exact hnever b hopens stop hleast.1.1 hleast.1.2.2
  · exact iff_of_true rfl fun b hopens j hj _ => hnever b hopens j hj

/-- Where the text read from a start is closed, there the closing index lies. -/
theorem ClosedAt.isClosing (hstart : -t.length ≤ start) (h : ClosedAt b (t.readFrom start) n) :
    t.IsClosing start (some (start + n)) := by
  have hleast := h.isLeast hstart
  have hsame {b' : Bracket} (hopens : (t.readFrom start).head? = some b'.opener) : b' = b :=
    opener_inj (Option.some.inj (hopens.symm.trans h.opens))
  refine ⟨fun stop => ?_, ?_, ?_⟩
  · constructor
    · rintro ⟨⟩
      exact ⟨b, h.opens, hleast⟩
    · rintro ⟨b', hopens, hstop⟩
      obtain rfl := hsame hopens
      rw [hleast.unique hstop]
  · refine iff_of_false nofun fun hnever => ?_
    exact hnever b h.opens _ hleast.1.1 hleast.1.2.1 hleast.1.2.2
  · rintro _ ⟨⟩ b' hopens j hj hlt
    obtain rfl := hsame hopens
    obtain ⟨m, rfl⟩ := Int.le.dest hj
    rw [readThrough_add]
    exact h.isOpen m (by omega)

/-- For each offset, counted from the start of the text or from its end, it is found where the
bracket there is closed. -/
theorem exists_isClosing (hstart : -t.length ≤ start) :
    ∃ answer, t.findClosingAt? start = some answer ∧ t.IsClosing start answer := by
  refine ⟨_, findClosingAt?_eq hstart, ?_⟩
  cases hclosing : (t.readFrom start).findClosing? 0 with
  | none => exact isClosing_none hclosing
  | some n =>
    obtain ⟨b, hclosed⟩ := closedAt_of_findClosing? hclosing
    exact hclosed.isClosing hstart

end Text

end Gloss
