import Gloss.Proofs.Cache
import Mathlib.Data.Set.Card

/-!
# The history of a cache

A cache is what its history of stores, invalidations and clearings made of it. A result can be
read exactly if it was stored and no later operation ended it, so a document that returns to an
earlier revision does not get back what was dropped with that revision. What can be read for a
document depends on the operations that concern it alone, and the size of a cache is the number
of documents and keys under which something can be read.
-/

namespace Gloss.Cache

variable {ρ α : Type} {c : Cache ρ α} {document : Text} {revision : ρ} {key : Text} {value : α}

/-- What may be done to a cache. -/
inductive Operation (ρ α : Type) where
  /-- A result is stored. -/
  | put (document : Text) (revision : ρ) (key : Text) (value : α)
  /-- What is kept for a document is dropped. -/
  | invalidate (document : Text)
  /-- The cache is emptied. -/
  | clear
  deriving DecidableEq, Repr

namespace Operation

/-- Whether an operation bears on a document. -/
def concerns (document : Text) : Operation ρ α → Bool
  | put d _ _ _ | invalidate d => d = document
  | clear => true

/-- Whether an operation takes away what was stored before it for a document and revision under
a key: it brings another revision of the document or another result under the same key, or it
drops what is kept for the document. -/
def ends [DecidableEq ρ] (document : Text) (revision : ρ) (key : Text) : Operation ρ α → Bool
  | put d r k _ => d = document && (r ≠ revision || k = key)
  | invalidate d => d = document
  | clear => true

end Operation

/-- A cache after an operation. -/
def perform [DecidableEq ρ] (c : Cache ρ α) : Operation ρ α → Cache ρ α
  | .put document revision key value => c.put document revision key value
  | .invalidate document => c.invalidate document
  | .clear => {}

/-- A cache after several operations. -/
def performAll [DecidableEq ρ] (c : Cache ρ α) (history : List (Operation ρ α)) : Cache ρ α :=
  history.foldl perform c

variable {op : Operation ρ α} {history : List (Operation ρ α)}

section Reading

variable [DecidableEq ρ]

/-- A history is performed from its first operation on. -/
theorem performAll_cons : c.performAll (op :: history) = (c.perform op).performAll history := rfl

/-- What can be read after an operation was stored by it, or it could be read before and was not
ended. -/
theorem get?_perform_eq_some_iff : (c.perform op).get? document revision key = some value ↔
    op = .put document revision key value ∨
      c.get? document revision key = some value ∧ op.ends document revision key = false := by
  cases op with
  | put d r k v =>
    simp only [perform, Operation.put.injEq, Operation.ends]
    by_cases hd : d = document
    · subst hd
      by_cases hr : r = revision
      · subst hr
        by_cases hk : k = key
        · subst hk
          simp [get?_put]
        · simp [get?_put_of_key_ne (Ne.symm hk), hk]
      · simp [get?_put_of_revision_ne (Ne.symm hr), hr]
    · simp [get?_put_of_document_ne (Ne.symm hd), hd]
  | invalidate d =>
    simp only [perform, reduceCtorEq, false_or, Operation.ends]
    by_cases hd : d = document
    · subst hd
      simp [get?_invalidate]
    · simp [get?_invalidate_of_ne (Ne.symm hd), hd]
  | clear => simp [perform, get?_empty, Operation.ends]

/-- What can be read after several operations was stored by one of them, or it could be read
before all of them, and was not ended since. -/
theorem get?_performAll_eq_some_iff :
    (c.performAll history).get? document revision key = some value ↔
      (∃ before later, history = before ++ .put document revision key value :: later ∧
        ∀ op ∈ later, op.ends document revision key = false) ∨
      c.get? document revision key = some value ∧
        ∀ op ∈ history, op.ends document revision key = false := by
  induction history generalizing c with
  | nil => simp [performAll]
  | cons op history ih =>
    rw [performAll_cons, ih, get?_perform_eq_some_iff, List.forall_mem_cons]
    constructor
    · rintro (⟨before, later, rfl, h⟩ | ⟨rfl | ⟨hc, hop⟩, h⟩)
      · exact .inl ⟨op :: before, later, rfl, h⟩
      · exact .inl ⟨[], history, rfl, h⟩
      · exact .inr ⟨hc, hop, h⟩
    · rintro (⟨before, later, heq, h⟩ | ⟨hc, hop, h⟩)
      · cases before with
        | nil =>
          obtain ⟨rfl, rfl⟩ := List.cons.inj heq
          exact .inr ⟨.inl rfl, h⟩
        | cons first before =>
          obtain ⟨rfl, rfl⟩ := List.cons.inj heq
          exact .inl ⟨before, later, rfl, h⟩
      · exact .inr ⟨.inr ⟨hc, hop⟩, h⟩

/-- A document has one readable revision at most. -/
theorem revision_eq_of_get? {revision' : ρ} {key' : Text} {value' : α}
    (h : c.get? document revision key = some value)
    (h' : c.get? document revision' key' = some value') : revision = revision' := by
  rw [get?_eq_bind, Option.bind_eq_some_iff] at h h'
  obtain ⟨e, hstored, hread⟩ := h
  obtain ⟨e', hstored', hread'⟩ := h'
  obtain rfl := Option.some.inj (hstored.symm.trans hstored')
  split at hread
  · rename_i hrevision
    split at hread'
    · rename_i hrevision'
      exact hrevision.symm.trans hrevision'
    · cases hread'
  · cases hread

/-- An operation that ends something for a document, or stores it there, concerns the document. -/
theorem Operation.concerns_of_ends (h : op.ends document revision key = true) :
    op.concerns document = true := by
  cases op with
  | put d r k v =>
    rw [ends, Bool.and_eq_true] at h
    exact h.1
  | invalidate d => exact h
  | clear => rfl

/-- What can be read for a document after some operations is what can be read after those of
them that concern the document: the induction on the history is for two caches that agree on
the document. -/
theorem get?_performAll_filter_concerns (history : List (Operation ρ α)) (c : Cache ρ α) :
    (c.performAll (history.filter (·.concerns document))).get? document revision key =
      (c.performAll history).get? document revision key := by
  suffices hagree : ∀ c' : Cache ρ α,
      (∀ value, c'.get? document revision key = some value ↔
        c.get? document revision key = some value) →
      ∀ value, (c'.performAll (history.filter (·.concerns document))).get? document revision key =
        some value ↔ (c.performAll history).get? document revision key = some value from
    Option.ext (hagree c fun _ => Iff.rfl)
  induction history generalizing c with
  | nil => exact fun c' h => h
  | cons op history ih =>
    intro c' h
    rw [performAll_cons]
    cases hop : op.concerns document with
    | true =>
      rw [List.filter_cons_of_pos hop, performAll_cons]
      refine ih _ _ fun value => ?_
      rw [get?_perform_eq_some_iff, get?_perform_eq_some_iff, h]
    | false =>
      rw [List.filter_cons_of_neg (by simp [hop])]
      refine ih _ _ fun value => ?_
      rw [get?_perform_eq_some_iff, h]
      have hends : op.ends document revision key = false := by
        rw [Bool.eq_false_iff]
        exact fun h => absurd (Operation.concerns_of_ends h) (by simp [hop])
      have hput : op ≠ .put document revision key value := by
        rintro rfl
        simp [Operation.concerns] at hop
      simp [hput, hends]

end Reading

/-- What is kept is told apart by document and key: there is one entry per document, and in each
entry one result per key. -/
structure Distinct (c : Cache ρ α) : Prop where
  /-- No two entries are of one document. -/
  documents : (c.entries.map Entry.document).Nodup
  /-- No two results of an entry have one key. -/
  keys : ∀ e ∈ c.entries, (e.results.map Prod.fst).Nodup

section Distinct

/-- An empty cache has nothing that could coincide. -/
theorem distinct_empty : ({} : Cache ρ α).Distinct :=
  ⟨List.nodup_nil, fun _ h => absurd h List.not_mem_nil⟩

/-- What is left after an invalidation is told apart as before. -/
theorem Distinct.invalidate (h : c.Distinct) : (c.invalidate document).Distinct where
  documents := h.documents.sublist (List.filter_sublist.map _)
  keys e he := h.keys e (List.mem_filter.mp he).1

/-- The entry of a document is the only one of that document. -/
theorem Distinct.stored?_eq_some_iff (h : c.Distinct) {e : Entry ρ α} :
    c.stored? document = some e ↔ e ∈ c.entries ∧ e.document = document := by
  rw [stored?]
  constructor
  · intro he
    exact ⟨List.mem_of_find?_eq_some he, by simpa using List.find?_some he⟩
  · rintro ⟨he, rfl⟩
    cases hfound : c.entries.find? fun e' => e'.document = e.document with
    | none => simpa using List.find?_eq_none.mp hfound e he
    | some e' =>
      have hsame : e'.document = e.document := by simpa using List.find?_some hfound
      rw [List.inj_on_of_nodup_map h.documents (List.mem_of_find?_eq_some hfound) he hsame]

/-- The documents and keys of all results that are kept. -/
def pairs (c : Cache ρ α) : List (Text × Text) :=
  c.entries.flatMap fun e => (e.results.map Prod.fst).map (Prod.mk e.document)

/-- There is one such pair for each result that is kept. -/
theorem length_pairs (c : Cache ρ α) : c.pairs.length = c.size := by
  have hsum (n : Nat) :
      c.entries.foldl (fun n e => n + e.results.length) n = n + c.pairs.length := by
    rw [pairs]
    induction c.entries generalizing n with
    | nil => rfl
    | cons e es ih =>
      rw [List.foldl_cons, ih, List.flatMap_cons, List.length_append, List.length_map,
        List.length_map, Nat.add_assoc]
  rw [size, hsum, Nat.zero_add]

/-- No two results are kept for one document under one key. -/
theorem Distinct.nodup_pairs (h : c.Distinct) : c.pairs.Nodup := by
  rw [pairs, List.nodup_flatMap]
  constructor
  · exact fun e he => (h.keys e he).map (Prod.mk_right_injective _)
  · refine (List.pairwise_map.mp h.documents).imp fun hne => ?_
    intro p hp hp'
    obtain ⟨_, -, rfl⟩ := List.mem_map.mp hp
    obtain ⟨_, -, heq⟩ := List.mem_map.mp hp'
    exact hne (congrArg Prod.fst heq).symm

variable [DecidableEq ρ]

/-- A result that is set keeps the keys, or adds its own behind them. -/
theorem map_fst_setResult (key : Text) (value : α) (rs : List (Text × α)) :
    (setResult key value rs).map Prod.fst =
      if key ∈ rs.map Prod.fst then rs.map Prod.fst else rs.map Prod.fst ++ [key] := by
  induction rs with
  | nil => simp [setResult]
  | cons r rs ih =>
    by_cases hr : r.1 = key
    · simp [setResult, hr]
    · rw [setResult, if_neg hr, List.map_cons, ih, List.map_cons]
      simp only [List.mem_cons, Ne.symm hr, false_or, List.cons_append]
      split <;> rfl

/-- A store keeps the documents, or adds its own behind them. -/
theorem map_document_putEntry (document : Text) (revision : ρ) (key : Text) (value : α)
    (es : List (Entry ρ α)) : (putEntry document revision key value es).map Entry.document =
      if document ∈ es.map Entry.document then es.map Entry.document
      else es.map Entry.document ++ [document] := by
  induction es with
  | nil => simp [putEntry]
  | cons e es ih =>
    by_cases he : e.document = document
    · simp [putEntry, he]
    · rw [putEntry, if_neg he, List.map_cons, ih, List.map_cons]
      simp only [List.mem_cons, Ne.symm he, false_or, List.cons_append]
      split <;> rfl

/-- A name is added to a list of distinct names only if it is not there yet. -/
theorem nodup_append_of_not_mem {names : List Text} (h : names.Nodup) (name : Text) :
    (if name ∈ names then names else names ++ [name]).Nodup := by
  split
  · exact h
  · rename_i hname
    exact h.append (List.nodup_singleton name) (List.disjoint_singleton.mpr hname)

/-- An entry after a store was there before, is new, or had the result put in it. -/
theorem mem_putEntry {e : Entry ρ α} {es : List (Entry ρ α)}
    (h : e ∈ putEntry document revision key value es) :
    e ∈ es ∨ e = ⟨document, revision, [(key, value)]⟩ ∨
      ∃ e' ∈ es, e = e'.put revision key value := by
  induction es with
  | nil => exact .inr (.inl (List.mem_singleton.mp h))
  | cons first es ih =>
    rw [putEntry] at h
    split at h
    · rcases List.mem_cons.mp h with rfl | h
      · exact .inr (.inr ⟨first, List.mem_cons_self, rfl⟩)
      · exact .inl (List.mem_cons_of_mem _ h)
    · rcases List.mem_cons.mp h with rfl | h
      · exact .inl List.mem_cons_self
      · rcases ih h with h | h | ⟨e', he', h⟩
        · exact .inl (List.mem_cons_of_mem _ h)
        · exact .inr (.inl h)
        · exact .inr (.inr ⟨e', List.mem_cons_of_mem _ he', h⟩)

/-- A store in an entry keeps its keys apart. -/
theorem nodup_keys_put {e : Entry ρ α} (h : (e.results.map Prod.fst).Nodup) :
    ((e.put revision key value).results.map Prod.fst).Nodup := by
  unfold Entry.put
  split
  · rw [map_fst_setResult]
    exact nodup_append_of_not_mem h key
  · exact List.nodup_singleton key

/-- A store keeps what is kept apart. -/
theorem Distinct.put (h : c.Distinct) : (c.put document revision key value).Distinct where
  documents := by
    rw [Cache.put, map_document_putEntry]
    exact nodup_append_of_not_mem h.documents document
  keys e he := by
    rcases mem_putEntry he with he | rfl | ⟨e', he', rfl⟩
    · exact h.keys e he
    · exact List.nodup_singleton key
    · exact nodup_keys_put (h.keys e' he')

/-- Each operation keeps what is kept apart. -/
theorem Distinct.perform (h : c.Distinct) (op : Operation ρ α) : (c.perform op).Distinct := by
  cases op with
  | put => exact h.put
  | invalidate => exact h.invalidate
  | clear => exact distinct_empty

/-- Any history keeps what is kept apart. -/
theorem Distinct.performAll (h : c.Distinct) (history : List (Operation ρ α)) :
    (c.performAll history).Distinct := by
  induction history generalizing c with
  | nil => exact h
  | cons op history ih => exact ih (h.perform op)

/-- A result is kept for a document under a key if it can be read for some revision. -/
theorem Distinct.mem_pairs_iff (h : c.Distinct) : (document, key) ∈ c.pairs ↔
    ∃ revision value, c.get? document revision key = some value := by
  simp only [pairs, List.mem_flatMap, List.mem_map, Prod.mk.injEq, get?_eq_bind,
    Option.bind_eq_some_iff, h.stored?_eq_some_iff]
  constructor
  · rintro ⟨e, he, _, ⟨r, hr, rfl⟩, rfl, rfl⟩
    have hsome : (e.results.find? (·.1 = r.1)).isSome = true :=
      List.find?_isSome.mpr ⟨r, hr, by simp⟩
    obtain ⟨found, hfound⟩ := Option.isSome_iff_exists.mp hsome
    refine ⟨e.revision, found.2, e, ⟨he, rfl⟩, ?_⟩
    rw [if_pos rfl]
    exact congrArg (Option.map Prod.snd) hfound
  · rintro ⟨revision, value, e, ⟨he, rfl⟩, hread⟩
    split at hread
    · obtain ⟨found, hfound, -⟩ := Option.map_eq_some_iff.mp hread
      have hkey : found.1 = key := by simpa using List.find?_some hfound
      exact ⟨e, he, key, ⟨found, List.mem_of_find?_eq_some hfound, hkey⟩, rfl, rfl⟩
    · cases hread

/-- The size of a cache is the number of documents and keys under which something is readable. -/
theorem Distinct.size_eq (h : c.Distinct) : c.size =
    {p : Text × Text | ∃ revision value, c.get? p.1 revision p.2 = some value}.ncard := by
  have hset : {p : Text × Text | ∃ revision value, c.get? p.1 revision p.2 = some value} =
      (c.pairs.toFinset : Set (Text × Text)) := by
    ext p
    rw [List.coe_toFinset]
    exact h.mem_pairs_iff.symm
  rw [hset, Set.ncard_coe_finset, List.toFinset_card_of_nodup h.nodup_pairs, length_pairs]

end Distinct

variable [DecidableEq ρ]

/-- A cache is what its history says. A result can be read exactly if it was stored and neither
another revision of the document, nor another result for the same revision and key, nor an
invalidation of the document, nor a clearing came later. No document has two readable revisions,
operations on other documents do not matter to it, and the size counts what is readable. -/
theorem get?_history (history : List (Operation ρ α)) :
    let c := ({} : Cache ρ α).performAll history
    (∀ document revision key value, c.get? document revision key = some value ↔
      ∃ before later, history = before ++ .put document revision key value :: later ∧
        ∀ op ∈ later, op.ends document revision key = false) ∧
    (∀ document revision revision' key key',
      (c.get? document revision key).isSome = true →
      (c.get? document revision' key').isSome = true → revision = revision') ∧
    (∀ document revision key, c.get? document revision key =
      (({} : Cache ρ α).performAll (history.filter (·.concerns document))).get? document revision
        key) ∧
    c.size = {p : Text × Text | ∃ revision, (c.get? p.1 revision p.2).isSome = true}.ncard := by
  intro c
  refine ⟨fun document revision key value => ?_,
    fun document revision revision' key key' h h' => ?_,
    fun document revision key => (get?_performAll_filter_concerns history {}).symm, ?_⟩
  · rw [get?_performAll_eq_some_iff, get?_empty]
    simp
  · obtain ⟨value, h⟩ := Option.isSome_iff_exists.mp h
    obtain ⟨value', h'⟩ := Option.isSome_iff_exists.mp h'
    exact revision_eq_of_get? h h'
  · simp only [Option.isSome_iff_exists]
    exact (distinct_empty.performAll history).size_eq

/-- A return to an earlier revision does not bring back what was dropped with it. -/
example (a b d : α) : (({} : Cache Revision α).performAll [.put ['A'] (.number 1) ['k'] a,
    .put ['A'] (.number 2) ['k'] b, .put ['A'] (.number 1) ['l'] d]).get? ['A'] (.number 1) ['k'] =
      none := rfl

end Gloss.Cache
