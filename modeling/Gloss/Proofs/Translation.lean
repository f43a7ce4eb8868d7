import Gloss.Proofs.Scan
import Gloss.Proofs.Text.Break

/-!
# Empty lines in front

A line feed in front of a source is a line of its own, is not masked, and is to every recogniser
what the beginning of the text was. So all that was found is found again one line lower, and
neither order nor overlaps see a difference.
-/

namespace Gloss

open Text

/-- The location of the same characters with `k` line feeds in front of the text. -/
def Location.lowered (k : Nat) (l : Location) : Location :=
  { l with
    line := l.line + k
    offset := l.offset + k
    endOffset := l.endOffset + k
    endLine := l.endLine.map (· + (k : Int)) }

/-- The same finding with `k` line feeds in front of the source. -/
def Finding.lowered (k : Nat) (f : Finding) : Finding :=
  { f with location := f.location.lowered k }

namespace LineIndex

variable (t : Text) (start stop : Nat)

/-- The line starts up to an offset, with one more before all of them. -/
theorem takeWhile_lineStarts_cons_break (place : Nat) :
    (lineStarts ('\n' :: t)).takeWhile (· ≤ place + 1) =
      0 :: ((lineStarts t).takeWhile (· ≤ place)).map (· + 1) := by
  rw [lineStarts_cons_break, List.takeWhile_cons_of_pos (by simp), List.takeWhile_map]
  congr 3
  funext n
  simp

/-- Behind a line feed in front, each position is one line lower, in the same column. -/
theorem position_cons_break (n : Nat) :
    (ofText ('\n' :: t)).position (n + 1 : Nat) =
      (((ofText t).position n).1 + 1, ((ofText t).position n).2) := by
  have hplace : min ((n + 1 : Nat) : Int).toNat (t.length + 1) = min n t.length + 1 := by omega
  obtain ⟨more, hmore⟩ : ∃ more, (lineStarts t).takeWhile (· ≤ min n t.length) = 0 :: more :=
    ⟨_, List.takeWhile_cons_of_pos (by simp)⟩
  rw [position_ofText hplace, position_ofText rfl, takeWhile_lineStarts_cons_break,
    Int.toNat_natCast, hmore]
  simp only [List.map_cons, List.getLastD_cons, List.length_cons, List.length_map,
    List.getLastD_map, Nat.add_sub_add_right]

/-- Behind a line feed in front, each stretch has its location lowered by one. -/
theorem location_cons_break :
    (ofText ('\n' :: t)).location (start + 1 : Nat) (stop + 1 : Nat) =
      ((ofText t).location start stop).lowered 1 := by
  rw [location, position_cons_break, position_cons_break]
  rfl

end LineIndex

theorem mask_cons_break (t : Text) : mask ('\n' :: t) = '\n' :: mask t := rfl

/-- What a detector finds is found one line lower behind a line feed. -/
def Detector.Descends (d : Detector) : Prop :=
  ∀ (config : Config) (source masked : Text),
    (d.run config ('\n' :: source) ('\n' :: masked)).findings =
      (d.run config source masked).findings.map (Finding.lowered 1)

/-- An expression may begin behind a line feed as at the beginning of the text, and not at it. -/
theorem Arithmetic.beginsBehindBreak : BeginsBehindBreak recognise := ⟨fun _ _ => rfl, fun _ => rfl⟩

/-- A power call may begin behind a line feed as at the beginning of the text, and not at it. -/
theorem Power.beginsBehindBreak (functions : List Text) :
    BeginsBehindBreak (recognise functions) := ⟨fun _ _ => rfl, fun _ => rfl⟩

/-- A loop may begin behind a line feed as at the beginning of the text, and not at it. -/
theorem Loop.beginsBehindBreak {α : Type} (extract : CountingLoop → Option α) :
    BeginsBehindBreak (recognise extract) := ⟨fun _ _ => rfl, fun _ => rfl⟩

/-- Expressions are found one line lower behind a line feed. -/
theorem Arithmetic.descends : detector.Descends := by
  intro config source masked
  change find config.maxExpressions.toNat _ _ = (find config.maxExpressions.toNat _ _).map _
  rw [find, find, firstOccurrences_cons_break beginsBehindBreak, List.map_map, List.map_map]
  refine List.map_congr_left fun o _ => ?_
  simp only [Function.comp_apply, finding, Occurrence.later, LineIndex.location_cons_break,
    slice_cons, Finding.lowered]

/-- Power calls are found one line lower behind a line feed. -/
theorem Power.descends : detector.Descends := by
  intro config source masked
  change find config.powerFunctions _ _ = (find config.powerFunctions _ _).map _
  rw [find, find, occurrences_cons_break (beginsBehindBreak _), List.map_map, List.map_map]
  refine List.map_congr_left fun o _ => ?_
  simp only [Function.comp_apply, finding, Occurrence.later, LineIndex.location_cons_break,
    Nat.add_right_comm o.start 1, slice_cons, Finding.lowered]

/-- Accepted loops do not change when they move. -/
theorem Loop.accepted_cons_break {α : Type} (extract : CountingLoop → Option α) (masked : Text) :
    accepted extract ('\n' :: masked) =
      (accepted extract masked).map fun (start, found) => (start + 1, found) := by
  rw [accepted, accepted, offered, offered, occurrences_cons_break (beginsBehindBreak extract),
    List.map_map, List.filterMap_map, List.filterMap_map, List.map_filterMap]
  refine List.filterMap_congr fun o _ => ?_
  simp only [Function.comp_apply, Occurrence.later, Option.map_map]
  rfl

/-- The loops that are accepted behind a line feed are those accepted without it, and so are the
findings made of them if these are made one line lower. -/
theorem Loop.map_accepted_cons_break {α : Type} {extract : CountingLoop → Option α}
    {place place' : Nat → CountingLoop → α → Finding}
    (h : ∀ start loop value, place' (start + 1) loop value = (place start loop value).lowered 1)
    (masked : Text) :
    ((accepted extract ('\n' :: masked)).map fun (start, loop, value) => place' start loop value) =
      ((accepted extract masked).map fun (start, loop, value) => place start loop value).map
        (Finding.lowered 1) := by
  rw [accepted_cons_break, List.map_map, List.map_map]
  exact List.map_congr_left fun (start, loop, value) _ => h start loop value

/-- Summing loops are found one line lower behind a line feed. -/
theorem Summation.descends : detector.Descends := by
  intro config source masked
  refine Loop.map_accepted_cons_break (fun start loop found => ?_) masked
  simp only [finding, Nat.add_right_comm start 1, LineIndex.location_cons_break, Finding.lowered]

/-- Mapping loops are found one line lower behind a line feed. -/
theorem Mapping.descends : detector.Descends := by
  intro config source masked
  refine Loop.map_accepted_cons_break (fun start loop found => ?_) masked
  simp only [finding, Nat.add_right_comm start 1, LineIndex.location_cons_break, Finding.lowered]

/-- Divisions are found one line lower behind a line feed: each line has its own exclusions. -/
theorem Division.descends : detector.Descends := by
  intro config source masked
  change find _ _ = (find _ _).map _
  have hfirst : inLine [] = [] := rfl
  rw [find, find, lines_cons_break, List.flatMap_cons]
  dsimp only
  rw [hfirst, List.filterMap_nil, List.nil_append, List.flatMap_map, List.map_flatMap]
  refine List.flatMap_congr fun (lineStart, line) _ => ?_
  rw [List.map_filterMap]
  refine List.filterMap_congr fun o _ => ?_
  simp only [Nat.add_right_comm lineStart 1, slice_cons, finding, LineIndex.location_cons_break]
  split <;> rfl

namespace Finding

variable (k : Nat)

theorem lowered_zero : lowered 0 = id := by
  funext f
  simp [lowered, Location.lowered]

/-- Line feeds may be put in front one by one. -/
theorem lowered_succ : lowered (k + 1) = lowered 1 ∘ lowered k := by
  funext f
  have hadd (n : Int) : n + (k + 1 : Nat) = n + k + (1 : Nat) := by omega
  simp only [lowered, Location.lowered, Function.comp_apply, Option.map_map, hadd]
  rfl

/-- Lowering both findings leaves their order. -/
theorem precedes_lowered (a b : Finding) : (a.lowered k).precedes (b.lowered k) = a.precedes b := by
  rw [Bool.eq_iff_iff, precedes_iff, precedes_iff]
  simp only [lowered, Location.lowered, start, stop]
  omega

/-- Lowering both findings leaves whether they overlap. -/
theorem overlaps_lowered (a b : Finding) : (a.lowered k).overlaps (b.lowered k) = a.overlaps b := by
  rw [Bool.eq_iff_iff, overlaps_iff, overlaps_iff]
  simp only [lowered, Location.lowered, start, stop]
  omega

end Finding

/-- Findings are arranged alike wherever they are. -/
theorem Config.arrange_map_lowered (config : Config) (k : Nat) (fs : List Finding) :
    config.arrange (fs.map (Finding.lowered k)) =
      (config.arrange fs).map (Finding.lowered k) := by
  unfold arrange
  split
  · exact Finding.resolve_map (Finding.precedes_lowered k) (Finding.overlaps_lowered k) fs
  · exact sortStable_map (Finding.precedes_lowered k) fs

namespace Registry

variable {r : Registry} (config : Config) (source : Text)

/-- A detector of a registry whose detectors all descend finds one line lower what it finds. -/
theorem ask_cons_break (h : ∀ entry ∈ r.detectors, entry.2.Descends) (masked name : Text) :
    (r.ask config ('\n' :: source) ('\n' :: masked) name).map Report.findings =
      (r.ask config source masked name).map fun report =>
        report.findings.map (Finding.lowered 1) := by
  rw [ask, ask]
  cases hget : r.get? name with
  | none => rfl
  | some d =>
    obtain ⟨before, after, hmem, -⟩ := List.lookup_eq_some_iff.mp hget
    have hd : d.Descends := h (name, d) (by simp [hmem])
    dsimp only
    split
    · exact congrArg Except.ok (hd config source masked)
    · rfl

/-- Behind a line feed, detectors that find the same a line lower answer the same a line lower. -/
theorem answer_cons_break (h : ∀ entry ∈ r.detectors, entry.2.Descends) :
    r.answer config ('\n' :: source) =
      (r.answer config source).map (List.map (Finding.lowered 1)) := by
  obtain ⟨hfailure, hcandidates⟩ := runEach_map (Finding.lowered 1)
    fun name (_ : name ∈ config.enabledDetectors r.names) =>
      ask_cons_break config source h (mask source) name
  rw [answer, answer, run, run, mask_cons_break, hfailure, hcandidates,
    Config.arrange_map_lowered]
  split <;> rfl

/-- With any number of line feeds in front, the answer is the same, so many lines lower. -/
theorem answer_replicate_append (h : ∀ entry ∈ r.detectors, entry.2.Descends) (k : Nat) :
    r.answer config (List.replicate k '\n' ++ source) =
      (r.answer config source).map (List.map (Finding.lowered k)) := by
  induction k with
  | zero =>
    rw [List.replicate_zero, List.nil_append, Finding.lowered_zero, List.map_id_fun]
    cases r.answer config source <;> rfl
  | succ k ih =>
    rw [List.replicate_succ, List.cons_append, answer_cons_break _ _ h, ih, Finding.lowered_succ k]
    cases r.answer config source with
    | error failure => rfl
    | ok found => exact congrArg Except.ok List.map_map

/-- The five built-in detectors descend. -/
theorem descends_of_mem_builtin : ∀ entry ∈ builtin.detectors, entry.2.Descends := by
  simp only [builtin, List.map_cons, List.map_nil, List.forall_mem_cons, List.not_mem_nil,
    false_implies, implies_true, and_true]
  exact ⟨Division.descends, Arithmetic.descends, Mapping.descends, Power.descends,
    Summation.descends⟩

end Registry

/-- Line feeds in front of a source move what a scan by the built-in detectors returns: with `k`
of them, offsets and line numbers go up by `k`, and all else stays, columns, renderings and texts
included. The scan succeeds as it did, that is, unless powers are wanted but cannot be searched
for. -/
theorem Session.scan_replicate_append {s : Session} {q : ScanRequest} {config : Config}
    (hregistry : s.registry = Registry.builtin) (hconfig : q.config.getD s.config = config)
    (hcache : q.usesCache = false) (k : Nat) :
    ((∃ found, (s.scan q).1 = .ok found) ↔
      (config.isEnabled "power".toList = true → config.allowsPower = true)) ∧
    (s.scan { q with source := List.replicate k '\n' ++ q.source }).1 =
      (s.scan q).1.map (List.map (Finding.lowered k)) := by
  have hq := s.scan_without_cache q hcache
  have hlow := s.scan_without_cache { q with source := List.replicate k '\n' ++ q.source } hcache
  rw [hregistry, hconfig] at hq hlow
  rw [hq, hlow]
  exact ⟨Config.exists_answer_builtin_eq_ok_iff,
    Registry.answer_replicate_append config q.source Registry.descends_of_mem_builtin k⟩

/-- A sum and a power on the second line, which is found again on the fifth. -/
theorem Session.scan_replicate_append_three :
    let source := "// a/b\r\nfor(i=0; i<n; i++) s += i; y = Math.pow(x, 2);".toList
    let found (source : Text) := (({} : Session).scan { source }).1
    (∃ fs, found source = .ok fs ∧
        fs.map (·.detail.kind) = ["summation".toList, "power".toList]) ∧
      found ("\n\n\n".toList ++ source) = (found source).map (List.map (Finding.lowered 3)) := by
  intro source found
  obtain ⟨hsucceeds, hlow⟩ := scan_replicate_append (s := {}) (q := { source }) rfl
    (show _ = ({} : Config) from rfl) rfl 3
  obtain ⟨fs, hfs⟩ : ∃ fs, found source = .ok fs := hsucceeds.mpr fun _ => by decide
  have hkinds : (found source).map (List.map (·.detail.kind)) =
      .ok ["summation".toList, "power".toList] := by decide +kernel
  rw [hfs] at hkinds
  exact ⟨⟨fs, hfs, Except.ok.inj hkinds⟩, hlow⟩

end Gloss
