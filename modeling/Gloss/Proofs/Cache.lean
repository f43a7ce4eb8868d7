import Gloss.Cache

/-!
# What a cache keeps

A store is seen under its own document, revision and key; under another revision of that
document nothing is seen afterwards, and everywhere else what was seen before. So whatever is
found in a cache was stored in it.
-/

namespace Gloss.Cache

variable {ρ α : Type} [DecidableEq ρ] {c : Cache ρ α} {document document' : Text}
  {revision revision' : ρ} {key key' : Text} {value value' : α}

/-- A result that is set leaves those under other keys. -/
theorem find?_setResult_of_ne (h : key' ≠ key) (rs : List (Text × α)) :
    (setResult key value rs).find? (fun (k, _) => k = key') =
      rs.find? (fun (k, _) => k = key') := by
  induction rs with
  | nil => simp [setResult, Ne.symm h]
  | cons r rs ih =>
    obtain ⟨k, v⟩ := r
    by_cases hk : k = key
    · simp [setResult, hk, Ne.symm h]
    · by_cases hk' : k = key' <;> simp [setResult, hk, hk', h, ih]

@[simp] theorem document_put (e : Entry ρ α) :
    (e.put revision key value).document = e.document := by
  unfold Entry.put
  split <;> rfl

/-- The entry of a document after a store: the old one with the result put in it, or a new one. -/
theorem stored?_put (c : Cache ρ α) (document : Text) (revision : ρ) (key : Text)
    (value : α) : (c.put document revision key value).stored? document =
      some (((c.stored? document).map fun e => e.put revision key value).getD
        ⟨document, revision, [(key, value)]⟩) := by
  obtain ⟨es⟩ := c
  simp only [stored?, put]
  induction es with
  | nil => simp [putEntry]
  | cons e es ih =>
    by_cases h : e.document = document
    · simp [putEntry, h]
    · simpa [putEntry, h] using ih

/-- A store leaves the entries of other documents. -/
theorem stored?_put_of_ne (h : document' ≠ document) (c : Cache ρ α) :
    (c.put document revision key value).stored? document' = c.stored? document' := by
  obtain ⟨es⟩ := c
  simp only [stored?, put]
  induction es with
  | nil => simp [putEntry, Ne.symm h]
  | cons e es ih =>
    by_cases he : e.document = document
    · simp [putEntry, he, Ne.symm h]
    · by_cases he' : e.document = document' <;> simp [putEntry, he, he', h, ih]

/-- What is kept is found in the entry of the document, if that is of the revision. -/
theorem get?_eq_bind (c : Cache ρ α) (document : Text) (revision : ρ) (key : Text) :
    c.get? document revision key = (c.stored? document).bind fun e =>
      if e.revision = revision then (e.results.find? fun (k, _) => k = key).map Prod.snd
      else none := by
  unfold get?
  cases c.stored? document with
  | none => rfl
  | some e =>
    simp only [Option.bind_eq_bind, Option.bind_some]
    split
    · cases e.results.find? fun (k, _) => k = key <;> rfl
    · rfl

/-- A store for one document is not seen in another. -/
theorem get?_put_of_document_ne (h : document' ≠ document) (c : Cache ρ α) :
    (c.put document revision key value).get? document' revision' key' =
      c.get? document' revision' key' := by
  rw [get?_eq_bind, stored?_put_of_ne h, ← get?_eq_bind]

/-- After a store for one revision nothing is kept for another. -/
theorem get?_put_of_revision_ne (h : revision' ≠ revision) (c : Cache ρ α) :
    (c.put document revision key value).get? document revision' key' = none := by
  rw [get?_eq_bind, stored?_put, Option.bind_some, if_neg]
  cases c.stored? document with
  | none => exact Ne.symm h
  | some e =>
    rw [Option.map_some, Option.getD_some, Entry.put]
    split
    · rename_i he
      exact fun he' => h (he'.symm.trans he)
    · exact Ne.symm h

/-- A store under one key leaves what is kept under another for the same revision. -/
theorem get?_put_of_key_ne (h : key' ≠ key) (c : Cache ρ α) :
    (c.put document revision key value).get? document revision key' =
      c.get? document revision key' := by
  rw [get?_eq_bind, get?_eq_bind, stored?_put, Option.bind_some]
  cases c.stored? document with
  | none => simp [Ne.symm h]
  | some e =>
    rw [Option.map_some, Option.getD_some, Option.bind_some, Entry.put]
    by_cases he : e.revision = revision
    · rw [if_pos he, if_pos he, if_pos he, find?_setResult_of_ne h]
    · simp [he, Ne.symm h]

/-- What is found after a store is what was stored, under its document, revision and key, or it
was found before. -/
theorem eq_or_get?_of_get?_put
    (hget : (c.put document revision key value).get? document' revision' key' = some value') :
    (document' = document ∧ revision' = revision ∧ key' = key ∧ value' = value) ∨
      c.get? document' revision' key' = some value' := by
  by_cases hdocument : document' = document
  · subst hdocument
    by_cases hrevision : revision' = revision
    · subst hrevision
      by_cases hkey : key' = key
      · subst hkey
        rw [get?_put, Option.some.injEq] at hget
        exact Or.inl ⟨rfl, rfl, rfl, hget.symm⟩
      · exact Or.inr (by rwa [get?_put_of_key_ne hkey] at hget)
    · rw [get?_put_of_revision_ne hrevision] at hget
      cases hget
  · rw [get?_put_of_document_ne hdocument] at hget
    exact Or.inr hget

/-- Invalidation of one document leaves what is kept for another. -/
theorem get?_invalidate_of_ne (h : document' ≠ document) (c : Cache ρ α) :
    (c.invalidate document).get? document' revision key = c.get? document' revision key := by
  have hstored : (c.invalidate document).stored? document' = c.stored? document' := by
    simp only [stored?, invalidate, List.find?_filter]
    congr 1
    funext e
    by_cases he : e.document = document'
    · simp [he, h]
    · simp [he]
  rw [get?_eq_bind, hstored, ← get?_eq_bind]

/-- What is found after an invalidation was found before. -/
theorem get?_of_get?_invalidate
    (hget : (c.invalidate document).get? document' revision key = some value) :
    c.get? document' revision key = some value := by
  by_cases h : document' = document
  · rw [h, get?_invalidate] at hget
    cases hget
  · rwa [get?_invalidate_of_ne h] at hget

theorem get?_empty : ({} : Cache ρ α).get? document revision key = none := rfl

end Gloss.Cache
