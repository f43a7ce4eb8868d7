import Gloss.Proofs.Candidate
import Gloss.Proofs.Text.Line
import Gloss.Proofs.Text.Nesting

/-!
# Loop bodies

A loop is written as its keyword, its parentheses and its body. In a properly nested text the
parentheses are, and so is a body in braces. A body without braces ends at the first semicolon,
wherever that stands, so the loop is properly nested exactly if that much of it is.
-/

namespace Gloss.Loop

open Gloss.Bracket Text

variable {α : Type} {extract : CountingLoop → Option α} {header : LoopHeader}
  {body behind head masked t written : Text} {st st' : List Bracket}

/-- The parentheses of a loop and the blanks around them. -/
inductive Head (header : LoopHeader) : Text → Prop
  | mk {g h inside : Text} : AllBlank g → AllBlank h → readHeader? inside = some header →
      paren.Encloses inside → Head header (g ++ '(' :: (inside ++ ')' :: h))

/-- How the body of a loop is written: in braces, or as what stands before the first semicolon,
with that. -/
inductive Written : (body written : Text) → Prop
  | block {body : Text} : brace.Encloses body → Written body ('{' :: (body ++ ['}']))
  | statement {s : Text} : ';' ∉ s → (∀ c ∈ (s ++ [';']).head?, isBlank c = false ∧ c ≠ '{') →
      Written (s ++ [';']) (s ++ [';'])

section Shape

/-- A body is taken as it is written, behind blanks. -/
theorem exists_of_takeBody? (h : takeBody? t = some (body, behind)) :
    ∃ g written, AllBlank g ∧ Written body written ∧ t = g ++ (written ++ behind) := by
  obtain ⟨g, hg, ht⟩ := exists_allBlank_append_skipBlanks t
  rw [takeBody?] at h
  split at h
  · cases h
  · rename_i u hskip
    obtain ⟨rfl, hdepth⟩ := close?_eq_some_iff.mp h
    refine ⟨g, _, hg, .block hdepth, ?_⟩
    rw [ht, hskip, List.cons_append, List.append_assoc]
    rfl
  · rename_i u hnil hbrace
    split at h
    · rename_i statement rest hbreak
      obtain ⟨rfl, rfl⟩ := Prod.mk.inj (Option.some.inj h)
      obtain ⟨hskip, hsemicolon⟩ := breakAt_eq_some_iff.mp hbreak
      have hwritten : t.skipBlanks = statement ++ [';'] ++ rest := by
        rw [hskip, List.append_assoc]
        rfl
      refine ⟨g, _, hg, .statement hsemicolon fun c hc => ?_, ?_⟩
      · obtain ⟨u, hu⟩ := List.head?_eq_some_iff.mp hc
        rw [hu, List.cons_append] at hwritten
        refine ⟨skipBlanks_head hwritten, ?_⟩
        rintro rfl
        exact hbrace _ hwritten
      · rw [ht, hwritten]
    · cases h

/-- A recognised loop covers its keyword, its parentheses and its body. -/
theorem exists_of_recognise {prev : Option Char} {rest : Text} {loop : CountingLoop}
    {payload : Option α} (h : recognise extract prev t = some (some (loop, payload), rest)) :
    ∃ head written behind, Head loop.header head ∧ Written loop.body written ∧
      t = "for".toList ++ (head ++ written) ++ behind ∧
      loop.length = ("for".toList ++ (head ++ written)).length := by
  rw [recognise] at h
  split at h
  · cases h
  · rename_i t' hfor
    have hfor := after?_eq_some_iff.mp hfor
    obtain ⟨g, hg, ht'⟩ := exists_allBlank_append_skipBlanks t'
    split at h
    · simp at h
    · split at h
      · rename_i u hskip
        split at h
        · simp at h
        · rename_i inside after hclose
          split at h
          · rename_i header body behind hheader hbody
            obtain ⟨hloop, -⟩ := Prod.mk.inj (Option.some.inj h)
            obtain ⟨rfl, -⟩ := Prod.mk.inj (Option.some.inj hloop)
            obtain ⟨rfl, hdepth⟩ := close?_eq_some_iff.mp hclose
            obtain ⟨g', written, hg', hwritten, rfl⟩ := exists_of_takeBody? hbody
            have ht : t = "for".toList ++ (g ++ '(' :: (inside ++ ')' :: g') ++ written) ++
                behind := by
              rw [hfor, ht', hskip]
              simp [Bracket.closer]
            refine ⟨_, written, behind, .mk hg hg' hheader hdepth, hwritten, ht, ?_⟩
            have hlength := congrArg List.length ht
            rw [List.length_append] at hlength
            dsimp only
            omega
          · simp at h
      · simp at h

/-- An accepted loop covers its keyword, its parentheses and its body. -/
theorem exists_of_mem_accepted {start : Nat} {loop : CountingLoop} {value : α}
    (h : (start, loop, value) ∈ accepted extract masked) :
    ∃ head written behind, Head loop.header head ∧ Written loop.body written ∧
      slice masked start (start + loop.length) = "for".toList ++ (head ++ written) ∧
      masked.drop start = "for".toList ++ (head ++ written) ++ behind := by
  obtain ⟨⟨n, l, payload⟩, hmem, hvalue⟩ := List.mem_filterMap.mp h
  obtain ⟨v, -, he⟩ := Option.map_eq_some_iff.mp hvalue
  obtain ⟨rfl, rfl, rfl⟩ : n = start ∧ l = loop ∧ v = value := by
    simpa only [Prod.mk.injEq] using he
  obtain ⟨o, ho, hpair⟩ := List.mem_map.mp hmem
  obtain ⟨hstart, hoffer⟩ := Prod.mk.inj hpair
  obtain ⟨i, rest, hi⟩ := exists_reportedAt_of_mem_occurrences ho
  have hreported := hi.reported
  have hn : i = n := by
    have := hi.start
    omega
  rw [hoffer, hn] at hreported
  obtain ⟨head, written, behind, hhead, hwritten, ht, hlength⟩ := exists_of_recognise hreported
  refine ⟨head, written, behind, hhead, hwritten, ?_, ht⟩
  have hslice := slice_drop masked n 0 l.length
  rw [Nat.add_zero] at hslice
  rw [← hslice, ht, slice, List.drop_zero, hlength, List.take_left]

end Shape

section Nesting

/-- Blanks are nested. -/
theorem nested_of_allBlank {g : Text} (h : AllBlank g) : Nested g :=
  nested_of_forall fun c hc => isBracket_eq_false (.inl (h c hc))

/-- Where no bracket from before the parentheses is closed in the end, they are properly
nested. -/
theorem Head.nested (hhead : Head header head) (hopen : openAfter? st (head ++ t) = some st')
    (hle : st'.length ≤ st.length) : Nested head ∧ openAfter? st t = some st' := by
  cases hhead with
  | @mk g h inside hg hh _ hdepth =>
    have hopen' : openAfter? st (g ++ (paren.opener :: (inside ++ paren.closer :: (h ++ t)))) =
        some st' := by
      rw [← hopen]
      simp [Bracket.opener, Bracket.closer]
    rw [openAfter?_append, (nested_of_allBlank hg).openAfter?_eq, Option.bind_some] at hopen'
    obtain ⟨hinside, hrest⟩ := hdepth.nested hopen' hle
    rw [openAfter?_append, (nested_of_allBlank hh).openAfter?_eq, Option.bind_some] at hrest
    refine ⟨(nested_of_allBlank hg).append ?_, hrest⟩
    have henclosed := (hinside.enclosed paren).append (nested_of_allBlank hh)
    rwa [List.cons_append, List.append_assoc] at henclosed

/-- A body in braces is properly nested as well. -/
theorem Written.nested (hwritten : Written body written) (hbrace : written.head? = some '{')
    (hopen : openAfter? st (written ++ t) = some st') (hle : st'.length ≤ st.length) :
    Nested body := by
  cases hwritten with
  | block hdepth =>
    have hopen' : openAfter? st (brace.opener :: (body ++ brace.closer :: t)) = some st' := by
      rw [← hopen]
      simp [Bracket.opener, Bracket.closer]
    exact (hdepth.nested hopen' hle).1
  | statement _ hstart => exact absurd rfl (hstart '{' hbrace).2

/-- Braces around a body make no difference. -/
theorem Written.nested_iff (hwritten : Written body written) : Nested written ↔ Nested body := by
  cases hwritten with
  | block hdepth =>
    constructor
    · intro h
      have hopen : openAfter? [] (brace.opener :: (body ++ brace.closer :: [])) = some [] := h
      exact (hdepth.nested hopen (Nat.le_refl 0)).1
    · exact fun h => h.enclosed brace
  | statement => exact Iff.rfl

/-- A stretch of text is a loop as it is written, and properly nested exactly if the body is. In
braces the body always is. -/
structure NestedAsBody (loop : CountingLoop) (span : Text) : Prop where
  /-- The stretch is the keyword, the parentheses and the body. -/
  span_eq : ∃ head written, Head loop.header head ∧ Written loop.body written ∧
    span = "for".toList ++ (head ++ written) ∧ (written.head? = some '{' → Nested span)
  /-- All that is not the body is properly nested. -/
  nested_iff : Nested span ↔ Nested loop.body

/-- In a properly nested text, the loop that a search accepts is properly nested exactly if its body
is, since the brackets open before the loop are those that are closed behind it. -/
theorem nestedAsBody_of_mem_accepted {start : Nat} {loop : CountingLoop} {value : α}
    (hmasked : Nested masked) (h : (start, loop, value) ∈ accepted extract masked) :
    NestedAsBody loop (slice masked start (start + loop.length)) := by
  obtain ⟨head, written, behind, hhead, hwritten, hslice, hdrop⟩ := exists_of_mem_accepted h
  have hfor : Nested "for".toList := by decide
  have hopen : openAfter? [] (masked.take start ++ masked.drop start) = some [] := by
    rw [List.take_append_drop]
    exact hmasked
  rw [openAfter?_append, Option.bind_eq_some_iff] at hopen
  obtain ⟨st, -, hopen⟩ := hopen
  rw [hdrop, List.append_assoc, openAfter?_append, hfor.openAfter?_eq, Option.bind_some,
    List.append_assoc] at hopen
  obtain ⟨hnested, hrest⟩ := hhead.nested hopen (Nat.zero_le _)
  have hiff : Nested (slice masked start (start + loop.length)) ↔ Nested loop.body := by
    rw [hslice, nested_append_iff hfor, nested_append_iff hnested, hwritten.nested_iff]
  refine ⟨⟨head, written, hhead, hwritten, hslice, fun hbrace => hiff.mpr ?_⟩, hiff⟩
  exact hwritten.nested hbrace hrest (Nat.zero_le _)

/-- What a sum or a family of elements covers in a properly nested masked source is properly
nested exactly if the body of its loop is. A body in braces always is; one without braces ends at
its first semicolon, which may stand inside brackets. -/
theorem exists_nestedAsBody {source : Text} {f : Finding} (hsource : Nested (mask source))
    (hf : f ∈ Summation.find source (mask source) ∨ f ∈ Mapping.find source (mask source)) :
    ∃ loop, NestedAsBody loop (slice (mask source) f.start.toNat f.stop.toNat) := by
  rcases hf with hf | hf
  · obtain ⟨⟨start, loop, found⟩, hmem, rfl⟩ := List.mem_map.mp hf
    exact ⟨loop, nestedAsBody_of_mem_accepted hsource hmem⟩
  · obtain ⟨⟨start, loop, found⟩, hmem, rfl⟩ := List.mem_map.mp hf
    exact ⟨loop, nestedAsBody_of_mem_accepted hsource hmem⟩

/-- The body of this loop has no braces. -/
theorem exists_nestedAsBody_subscript :
    ∃ f ∈ Summation.find "for (int i = 0; i < n; i++) s += a[i];".toList
        (mask "for (int i = 0; i < n; i++) s += a[i];".toList),
      ∃ loop, NestedAsBody loop (slice (mask "for (int i = 0; i < n; i++) s += a[i];".toList)
        f.start.toNat f.stop.toNat) := by
  obtain ⟨f, hf⟩ := List.exists_mem_of_ne_nil _
    (show Summation.find "for (int i = 0; i < n; i++) s += a[i];".toList
      (mask "for (int i = 0; i < n; i++) s += a[i];".toList) ≠ [] by decide +kernel)
  exact ⟨f, hf, exists_nestedAsBody (by decide +kernel) (.inl hf)⟩

/-- A statement that has a block ends within it: this sum covers the brace that opens the block,
and not the one that closes it. -/
theorem not_nested_range : ¬ ∀ (source : Text) (f : Finding), Nested (mask source) →
    f ∈ Summation.find source (mask source) ∨ f ∈ Mapping.find source (mask source) →
    Nested (slice (mask source) f.start.toNat f.stop.toNat) := by
  intro h
  have hcut : ∃ f ∈ Summation.find "for (int i = 0; i < n; i++) if (c) { s += i; }".toList
      (mask "for (int i = 0; i < n; i++) if (c) { s += i; }".toList),
      ¬ Nested (slice (mask "for (int i = 0; i < n; i++) if (c) { s += i; }".toList)
        f.start.toNat f.stop.toNat) := by
    decide +kernel
  obtain ⟨f, hf, hnot⟩ := hcut
  exact hnot (h _ f (by decide +kernel) (.inl hf))

end Nesting

end Gloss.Loop
