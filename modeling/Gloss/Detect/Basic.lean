import Gloss.Config
import Gloss.Finding
import Gloss.Log
import Gloss.Text.Occurrence

/-!
# Detectors

A detector looks for one idiom. It is given the configuration, the source and the masked
source; it recognises in the masked text and quotes from the source. Detectors know nothing of
each other. Besides the built-in ones there may be others, of which this module has one kind:
a detector of a fixed word.
-/

namespace Gloss

/-- What a detector found, and what it logged meanwhile. -/
structure Report where
  /-- The findings, in order of their starts. -/
  findings : List Finding
  /-- The log records. -/
  log : List LogRecord := []
  deriving DecidableEq, Repr

/-- A search for one idiom. -/
structure Detector where
  /-- The name of the detector. -/
  name : Text
  /-- Whether the search can be made under a configuration. -/
  accepts : Config → Bool := fun _ => true
  /-- The search. -/
  run : Config → (source masked : Text) → Report

namespace Detector

/-- The offsets at which a word stands, without overlaps, in a text that starts at offset `pos`
and whose first `passed` characters belong to what came before. An empty word stands before
every character and at the end. -/
def wordStarts (word : Text) : (passed pos : Nat) → Text → List Nat
  | 0, pos, [] => if word = [] then [pos] else []
  | _ + 1, _, [] => []
  | passed + 1, pos, _ :: t => wordStarts word passed (pos + 1) t
  | 0, pos, c :: t =>
    if (Text.after? word (c :: t)).isSome then
      pos :: wordStarts word (word.length - 1) (pos + 1) t
    else wordStarts word 0 (pos + 1) t

/-- A detector that reports every occurrence of a word with fixed renderings. -/
def ofWord (name word typeset inlineText : Text) : Detector where
  name := name
  run _ source masked :=
    let ix := LineIndex.ofText source
    { findings := (wordStarts word 0 0 masked).map fun (start : Nat) =>
        { location := ix.location start (start + word.length)
          typeset, inlineText
          detail := .expression word } }

end Detector

end Gloss
