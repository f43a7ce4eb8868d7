import Gloss.Proofs.Occurrence
import Gloss.Registry

/-!
# What detectors propose

Each built-in detector proposes ranges of the source that are not empty. Power
calls and expressions are occurrences of the whole masked text, divisions are
occurrences of one line, and a loop ends with its body, which stands behind the
keyword the loop begins with.
-/

namespace Gloss

/-- A finding covers a stretch of a text of the given length, and not an empty one. -/
def Finding.Within (length : Nat) (f : Finding) : Prop :=
  0 ≤ f.start ∧ f.start < f.stop ∧ f.stop ≤ length

@[simp] theorem LineIndex.location_offset (ix : LineIndex) (start stop : Int) :
    (ix.location start stop).offset = start := rfl

@[simp] theorem LineIndex.location_endOffset (ix : LineIndex) (start stop : Int) :
    (ix.location start stop).endOffset = stop := rfl

/-- A located range of offsets is within a text if it is not empty and ends in it. -/
theorem Finding.within_of_location {ix : LineIndex} {f : Finding} {length : Nat} (start stop : Nat)
    (hf : f.location = ix.location start stop) (hpos : start < stop) (hle : stop ≤ length) :
    f.Within length := by
  simp only [Within, Finding.start, Finding.stop, hf, LineIndex.location_offset,
    LineIndex.location_endOffset]
  omega

namespace Text

/-- A placed line ends no later than the lines together do. -/
theorem add_length_le_of_mem_placeLines {start : Nat} {broken : List (Text × Text)} {n : Nat}
    {line : Text} (h : (n, line) ∈ placeLines start broken) :
    n + line.length ≤ start + (broken.flatMap fun (line, brk) => line ++ brk).length := by
  induction broken generalizing start with
  | nil => exact absurd h List.not_mem_nil
  | cons p more ih =>
    obtain ⟨first, brk⟩ := p
    rw [List.flatMap_cons, List.length_append, List.length_append]
    rcases List.mem_cons.mp h with he | h
    · obtain ⟨rfl, rfl⟩ := Prod.mk.inj he
      omega
    · have := ih h
      omega

/-- Every line of a text lies in it. -/
theorem add_length_le_of_mem_lines {t : Text} {n : Nat} {line : Text} (h : (n, line) ∈ t.lines) :
    n + line.length ≤ t.length := by
  have := add_length_le_of_mem_placeLines h
  rwa [flatMap_brokenLines, Nat.zero_add] at this

/-- Skipping blanks makes no text longer. -/
theorem length_skipBlanks_le (t : Text) : t.skipBlanks.length ≤ t.length :=
  (List.dropWhile_suffix isBlank).length_le

end Text

/-- Brackets and what they enclose take at least one character off a text. -/
theorem Bracket.length_lt_of_close?_eq_some {b : Bracket} {depth : Nat} {t inside rest : Text}
    (h : b.close? depth t = some (inside, rest)) : rest.length < t.length := by
  rw [eq_of_close?_eq_some h, List.length_append, List.length_cons]
  omega

namespace Loop

/-- A body is not empty. -/
theorem length_lt_of_takeBody?_eq_some {t body behind : Text}
    (h : takeBody? t = some (body, behind)) : behind.length < t.length := by
  have hskip := t.length_skipBlanks_le
  unfold takeBody? at h
  split at h
  · exact absurd h (by simp)
  · rename_i u hu
    rw [hu, List.length_cons] at hskip
    have := Bracket.length_lt_of_close?_eq_some h
    omega
  · split at h
    · rename_i statement rest hbreak
      obtain ⟨-, rfl⟩ := Prod.mk.inj (Option.some.inj h)
      obtain ⟨he, -⟩ := Text.breakAt_eq_some_iff.mp hbreak
      rw [he, List.length_append, List.length_cons] at hskip
      omega
    · exact absurd h (by simp)

variable {α : Type} {extract : CountingLoop → Option α}

/-- A recognised loop covers a stretch of the text it begins: its body ends behind its parentheses,
and those stand behind the keyword. -/
theorem length_of_recognise_eq_some {prev : Option Char} {t rest : Text} {offer : Offer α}
    (h : recognise extract prev t = some (some offer, rest)) :
    0 < offer.1.length ∧ offer.1.length ≤ t.length := by
  unfold recognise at h
  split at h
  · exact absurd h (by simp)
  · rename_i t' ht
    split at h
    · exact absurd h (by simp)
    · split at h
      · rename_i u hu
        split at h
        · exact absurd h (by simp)
        · rename_i inside rest' hclose
          split at h
          · rename_i header body behind hheader hbody
            obtain ⟨hoffer, -⟩ := Prod.mk.inj (Option.some.inj h)
            obtain rfl := Option.some.inj hoffer
            have hbehind := length_lt_of_takeBody?_eq_some hbody
            have hrest := Bracket.length_lt_of_close?_eq_some hclose
            have hskip := Text.length_skipBlanks_le t'
            rw [hu, List.length_cons] at hskip
            have hfor := congrArg List.length (Text.after?_eq_some_iff.mp ht)
            simp only [List.length_append, List.length_cons, List.length_nil] at hfor
            dsimp only
            omega
          · exact absurd h (by simp)
      · exact absurd h (by simp)

/-- An accepted loop covers a stretch of the text it was found in. -/
theorem length_of_mem_accepted {masked : Text} {start : Nat} {loop : CountingLoop} {value : α}
    (h : (start, loop, value) ∈ accepted extract masked) :
    0 < loop.length ∧ start + loop.length ≤ masked.length := by
  obtain ⟨⟨n, l, payload⟩, hmem, hvalue⟩ := List.mem_filterMap.mp h
  obtain ⟨v, -, he⟩ := Option.map_eq_some_iff.mp hvalue
  obtain ⟨rfl, rfl, rfl⟩ : n = start ∧ l = loop ∧ v = value := by
    simpa only [Prod.mk.injEq] using he
  obtain ⟨o, ho, hpair⟩ := List.mem_map.mp hmem
  obtain ⟨hstart, hoffer⟩ := Prod.mk.inj hpair
  obtain ⟨i, rest, hi⟩ := Text.exists_reportedAt_of_mem_occurrences ho
  have hlength := length_of_recognise_eq_some hi.reported
  rw [hoffer, List.length_drop] at hlength
  have := hi.start
  have := hi.bound
  dsimp only at hlength
  omega

end Loop

/-- Every expression that is found lies within the text. -/
theorem Arithmetic.within_of_mem_find {limit : Nat} {source masked : Text} {f : Finding}
    (h : f ∈ find limit source masked) : f.Within masked.length := by
  obtain ⟨o, ho, rfl⟩ := List.mem_map.mp h
  obtain ⟨i, rest, hi⟩ := Text.exists_reportedAt_of_mem_search ho
  obtain ⟨hpos, hle⟩ := hi.range
  exact Finding.within_of_location _ _ rfl hpos (by omega)

/-- Every power call that is found lies within the text. -/
theorem Power.within_of_mem_find {functions : List Text} {source masked : Text} {f : Finding}
    (h : f ∈ find functions source masked) : f.Within masked.length := by
  obtain ⟨o, ho, rfl⟩ := List.mem_map.mp h
  obtain ⟨i, rest, hi⟩ := Text.exists_reportedAt_of_mem_occurrences ho
  obtain ⟨hpos, hle⟩ := hi.range
  exact Finding.within_of_location _ _ rfl hpos (by omega)

/-- Every summing loop that is found lies within the text. -/
theorem Summation.within_of_mem_find {source masked : Text} {f : Finding}
    (h : f ∈ find source masked) : f.Within masked.length := by
  obtain ⟨⟨start, loop, found⟩, hmem, rfl⟩ := List.mem_map.mp h
  obtain ⟨hpos, hle⟩ := Loop.length_of_mem_accepted hmem
  exact Finding.within_of_location start (start + loop.length) rfl (by omega) hle

/-- Every mapping loop that is found lies within the text. -/
theorem Mapping.within_of_mem_find {source masked : Text} {f : Finding}
    (h : f ∈ find source masked) : f.Within masked.length := by
  obtain ⟨⟨start, loop, found⟩, hmem, rfl⟩ := List.mem_map.mp h
  obtain ⟨hpos, hle⟩ := Loop.length_of_mem_accepted hmem
  exact Finding.within_of_location start (start + loop.length) rfl (by omega) hle

/-- A division that is found was recognised in a line, and masking leaves it as it is. -/
theorem Division.exists_of_mem_find {source masked : Text} {f : Finding}
    (h : f ∈ find source masked) :
    ∃ n line o i rest, (n, line) ∈ source.lines ∧ Text.ReportedAt recognise 0 none line o i rest ∧
      Text.slice masked (n + o.start) (n + o.stop) =
        Text.slice source (n + o.start) (n + o.stop) ∧
      f = finding (LineIndex.ofText source) ↑(n + o.start) ↑(n + o.stop) o.value.1 o.value.2 := by
  obtain ⟨⟨n, line⟩, hline, hmem⟩ := List.mem_flatMap.mp h
  obtain ⟨o, ho, hf⟩ := List.mem_filterMap.mp hmem
  obtain ⟨i, rest, hi⟩ := Text.exists_reportedAt_of_mem_occurrences (List.mem_filter.mp ho).1
  obtain ⟨hunmasked, hf⟩ := Option.ite_none_right_eq_some.mp hf
  exact ⟨n, line, o, i, rest, hline, hi, hunmasked, (Option.some.inj hf).symm⟩

/-- A division is an occurrence in one line, and the line lies in the source. -/
theorem Division.within_of_mem_find {source masked : Text} {f : Finding}
    (h : f ∈ find source masked) : f.Within source.length := by
  obtain ⟨n, line, o, i, rest, hline, hi, -, rfl⟩ := exists_of_mem_find h
  obtain ⟨hpos, hle⟩ := hi.range
  have hbound := Text.add_length_le_of_mem_lines hline
  exact Finding.within_of_location (n + o.start) (n + o.stop) rfl (by omega) (by omega)

/-- A finding that an enabled built-in detector proposes for a source. -/
def Config.Proposes (config : Config) (source : Text) (f : Finding) : Prop :=
  ∃ entry ∈ Registry.builtin.detectors, config.isEnabled entry.1 = true ∧
    f ∈ (entry.2.run config source (mask source)).findings

/-- Whatever is proposed covers a stretch of the source. -/
theorem Config.Proposes.within {config : Config} {source : Text} {f : Finding}
    (h : config.Proposes source f) : f.Within source.length := by
  obtain ⟨⟨name, d⟩, hentry, -, hf⟩ := h
  have hlength := length_mask source
  simp only [Registry.builtin, List.map_cons, List.map_nil, List.mem_cons, List.not_mem_nil,
    or_false, Prod.mk.injEq] at hentry
  rcases hentry with ⟨-, rfl⟩ | ⟨-, rfl⟩ | ⟨-, rfl⟩ | ⟨-, rfl⟩ | ⟨-, rfl⟩
  · exact Division.within_of_mem_find hf
  · exact hlength ▸ Arithmetic.within_of_mem_find hf
  · exact hlength ▸ Mapping.within_of_mem_find hf
  · exact hlength ▸ Power.within_of_mem_find hf
  · exact hlength ▸ Summation.within_of_mem_find hf

end Gloss
