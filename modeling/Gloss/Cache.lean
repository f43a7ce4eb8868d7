import Gloss.Text.Basic

/-!
# Cache

Results are kept per document and configuration, for one revision of each document: storing a
result for another revision drops all that was kept for the document before. A revision may be
of any type: a cache does nothing with it but compare it with another one. The revisions that
hosts count or name are one such type; a number is never the same revision as a label.
-/

namespace Gloss

/-- A state of a document, as hosts number or name it. The cache itself takes revisions of any
type; sessions, which also spell them in their log, take these. -/
inductive Revision where
  /-- A counted revision. -/
  | number (n : Int)
  /-- A named revision, such as a digest of the content. -/
  | label (name : Text)
  deriving DecidableEq, Repr

/-- A revision as text. -/
def Revision.toText : Revision → Text
  | number n => Text.ofInt n
  | label name => name

/-- What is kept for one document, with revisions in `ρ` and results in `α`. -/
structure Cache.Entry (ρ α : Type) where
  /-- The document. -/
  document : Text
  /-- The one revision that is kept. -/
  revision : ρ
  /-- A result per configuration key. -/
  results : List (Text × α)
  deriving Repr

/-- Kept results, with at most one entry per document. -/
structure Cache (ρ α : Type) where
  /-- The entries, by document. -/
  entries : List (Cache.Entry ρ α) := []
  deriving Repr

namespace Cache

variable {ρ α : Type} [DecidableEq ρ]

/-- Sets the result under a key, in place of an earlier one. -/
def setResult (key : Text) (value : α) : List (Text × α) → List (Text × α)
  | [] => [(key, value)]
  | (k, v) :: rest => if k = key then (k, value) :: rest else (k, v) :: setResult key value rest

/-- The entry of a document. -/
def stored? (c : Cache ρ α) (document : Text) : Option (Entry ρ α) :=
  c.entries.find? fun e => e.document = document

/-- The result kept for a document, revision and configuration key. -/
def get? (c : Cache ρ α) (document : Text) (revision : ρ) (key : Text) : Option α := do
  let e ← c.stored? document
  if e.revision = revision then
    let (_, value) ← e.results.find? fun (k, _) => k = key
    return value
  else none

/-- An entry after a result is stored in it; one of another revision starts anew. -/
def Entry.put (e : Entry ρ α) (revision : ρ) (key : Text) (value : α) : Entry ρ α :=
  if e.revision = revision then { e with results := setResult key value e.results }
  else { e with revision, results := [(key, value)] }

/-- Stores a result among entries. -/
def putEntry (document : Text) (revision : ρ) (key : Text) (value : α) :
    List (Entry ρ α) → List (Entry ρ α)
  | [] => [⟨document, revision, [(key, value)]⟩]
  | e :: es =>
    if e.document = document then e.put revision key value :: es
    else e :: putEntry document revision key value es

/-- Stores a result. -/
def put (c : Cache ρ α) (document : Text) (revision : ρ) (key : Text) (value : α) :
    Cache ρ α :=
  ⟨putEntry document revision key value c.entries⟩

/-- Drops all that is kept for a document. -/
def invalidate (c : Cache ρ α) (document : Text) : Cache ρ α :=
  ⟨c.entries.filter fun e => e.document ≠ document⟩

/-- The number of results kept. -/
def size (c : Cache ρ α) : Nat := c.entries.foldl (fun n e => n + e.results.length) 0

/-- A result that was stored under a key is found under it. -/
theorem find?_setResult (key : Text) (value : α) (rs : List (Text × α)) :
    (setResult key value rs).find? (fun (k, _) => k = key) = some (key, value) := by
  induction rs with
  | nil => simp [setResult]
  | cons r rs ih => by_cases h : r.1 = key <;> simp [setResult, h, ih]

/-- What was stored last for a document, revision and key is what is kept for them. -/
theorem get?_put (c : Cache ρ α) (document : Text) (revision : ρ) (key : Text) (value : α) :
    (c.put document revision key value).get? document revision key = some value := by
  obtain ⟨es⟩ := c
  induction es with
  | nil => simp [put, putEntry, get?, stored?]
  | cons e es ih =>
    by_cases h : e.document = document
    · by_cases hr : e.revision = revision <;>
        simp [put, putEntry, get?, stored?, Entry.put, h, hr, find?_setResult]
    · simpa [put, putEntry, get?, stored?, h] using ih

/-- Nothing is kept for a document that was invalidated. -/
theorem get?_invalidate (c : Cache ρ α) (document : Text) (revision : ρ) (key : Text) :
    (c.invalidate document).get? document revision key = none := by
  have none_left : (c.invalidate document).stored? document = none := by
    simp [stored?, invalidate]
  simp [get?, none_left]

end Cache

end Gloss
