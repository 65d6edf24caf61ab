import DocQuery.Proofs.Store.Document

/-!
# The documents of a collection

A collection comes from the empty one by inserting documents (`Collection.Built`). Each document it
holds is therefore one that was stored: it has the form `Collection.stored` gives it.

Documents with ids of their own are all held, in the order given (`ofDocuments_eq`), and go out as
they came in (`unstored_storedOf`).
-/

set_option autoImplicit false

namespace DocQuery
namespace Collection

/-- The collections there are: the empty ones, and what inserting makes of them. -/
inductive Built : Collection → Prop where
  | empty (pushdown : Bool) : Built (empty pushdown)
  | insert {c c' : Collection} {document : Json} (built : Built c)
      (inserted : c.insert document = .ok c') : Built c'

theorem Built.foldlM {documents : List Json} {c c' : Collection} (built : c.Built)
    (h : documents.foldlM Collection.insert c = .ok c') : c'.Built := by
  induction documents generalizing c with
  | nil =>
    cases h
    exact built
  | cons d ds ih =>
    obtain ⟨next, hd, h⟩ := exists_of_bind_eq_ok h
    exact ih (.insert built hd) h

/-- A collection of given documents is one of them. -/
theorem Built.of_ofDocuments {pushdown : Bool} {documents : List Json} {c : Collection}
    (h : ofDocuments pushdown documents = .ok c) : c.Built :=
  .foldlM (.empty pushdown) h

theorem mem_place {document id d : Json} {ds : List Json} (h : d ∈ place document id ds) :
    d = document ∨ d ∈ ds := by
  induction ds with
  | nil => exact .inl (List.mem_singleton.mp h)
  | cons e ds ih =>
    rw [place] at h
    split at h
    · rcases List.mem_cons.mp h with rfl | h
      · exact .inl rfl
      · exact .inr (List.mem_cons_of_mem e h)
    · rcases List.mem_cons.mp h with rfl | h
      · exact .inr List.mem_cons_self
      · exact (ih h).imp_right (List.mem_cons_of_mem e)

/-- Inserting adds the document as it is stored, and nothing else. -/
theorem mem_insert {c c' : Collection} {document d : Json} (h : c.insert document = .ok c')
    (hd : d ∈ c'.documents) : (∃ fields, document = .obj fields ∧ d = stored fields) ∨
      d ∈ c.documents := by
  cases document with
  | obj fields =>
    rw [insert] at h
    cases h
    dsimp only at hd
    split at hd
    · rcases List.mem_append.mp hd with hd | hd
      · exact .inr hd
      · exact .inl ⟨fields, rfl, List.mem_singleton.mp hd⟩
    · rcases List.mem_append.mp hd with hd | hd
      · exact .inr hd
      · exact .inl ⟨fields, rfl, List.mem_singleton.mp hd⟩
    · exact (mem_place hd).imp_left fun hd => ⟨fields, rfl, hd⟩
  | _ => cases h

theorem Built.stored {c : Collection} (built : c.Built) {document : Json}
    (held : document ∈ c.documents) : ∃ fields, document = stored fields := by
  induction built with
  | empty pushdown => cases held
  | insert built inserted ih =>
    rcases mem_insert inserted held with ⟨fields, -, rfl⟩ | held
    · exact ⟨fields, rfl⟩
    · exact ih held

/-! ## Documents with ids of their own -/

/-- A document that can be stored: an object that does not use the store's own field. -/
structure IsDocument (document : Json) : Prop where
  isObject : ∃ fields, document = .obj fields
  noReferences : document.get? Clause.referencesField = none

instance decidableIsDocument : (document : Json) → Decidable (IsDocument document)
  | .obj fields =>
    decidable_of_iff ((Json.obj fields).get? Clause.referencesField).isNone
      ⟨fun h => ⟨⟨fields, rfl⟩, Option.isNone_iff_eq_none.mp h⟩,
        fun h => Option.isNone_iff_eq_none.mpr h.noReferences⟩
  | .null | .bool _ | .int _ | .float _ | .str _ | .arr _ => isFalse fun ⟨⟨_, h⟩, _⟩ => by cases h

/-- Whether two documents have one id. A missing id and null are no ids. -/
def sameId (a b : Json) : Bool :=
  match a.get? "_id", b.get? "_id" with
  | some i, some j => !j.isNull && i.same j
  | _, _ => false

/-- No two documents of a list have one id. -/
def DistinctIds (documents : List Json) : Prop := documents.Pairwise fun a b => sameId a b = false

instance decidableDistinctIds (documents : List Json) : Decidable (DistinctIds documents) :=
  inferInstanceAs (Decidable (documents.Pairwise _))

/-- A document as a collection holds it. -/
def storedOf : Json → Json
  | .obj fields => stored fields
  | j => j

theorem mem_of_get?_eq_none {fields : Fields Json} {name : String} (h : fields.get? name = none) :
    ∀ f ∈ fields, f.1 ≠ name := by
  induction fields with
  | nil => exact fun f hf => absurd hf List.not_mem_nil
  | cons g fields ih =>
    obtain ⟨k, v⟩ := g
    rw [Fields.get?] at h
    split at h
    · cases h
    · next hk =>
      intro f hf
      rcases List.mem_cons.mp hf with rfl | hf
      · exact hk
      · exact ih h f hf

theorem unstored_storedOf {document : Json} (h : IsDocument document) :
    (unstored (storedOf document)).1 = document := by
  obtain ⟨⟨fields, rfl⟩, hnone⟩ := h
  rw [storedOf, unstored_stored]
  have hself : Fields.erase fields Clause.referencesField = fields := by
    rw [Fields.erase, List.filter_eq_self]
    intro f hf
    simpa using mem_of_get?_eq_none hnone f hf
  rw [hself]

theorem get?_storedOf_id {document : Json} (h : IsDocument document) :
    (storedOf document).get? "_id" = document.get? "_id" := by
  have hunstored := unstored_storedOf h
  obtain ⟨⟨fields, rfl⟩, -⟩ := h
  rw [storedOf, get?_stored_of_ne fields (by decide), ← storedOf, hunstored]

theorem place_eq_append {document id : Json} {ds : List Json}
    (h : ∀ d ∈ ds, hasId id d = false) : place document id ds = ds ++ [document] := by
  induction ds with
  | nil => rfl
  | cons d ds ih =>
    rw [place, h d List.mem_cons_self, if_neg (by simp),
      ih fun e he => h e (List.mem_cons_of_mem d he)]
    rfl

/-- A document with an id of its own is put at the end. -/
theorem insert_eq {c : Collection} {held : List Json} {document : Json}
    (hc : c.documents = held.map storedOf) (hheld : ∀ d ∈ held, IsDocument d)
    (hdocument : IsDocument document) (hids : ∀ d ∈ held, sameId d document = false) :
    c.insert document = .ok ⟨c.pushdown, (held ++ [document]).map storedOf⟩ := by
  have hid := get?_storedOf_id hdocument
  have hfields := hdocument.isObject
  obtain ⟨fields, rfl⟩ := hfields
  rw [insert]
  change (stored fields).get? "_id" = _ at hid
  rw [hid, List.map_append, ← hc]
  cases hdoc : (Json.obj fields).get? "_id" with
  | none => rfl
  | some id =>
    have hplace : id.isNull = false → place (stored fields) id c.documents =
        c.documents ++ [stored fields] := by
      intro hnull
      refine place_eq_append fun d hd => ?_
      rw [hc] at hd
      obtain ⟨e, he, rfl⟩ := List.mem_map.mp hd
      have hsame := hids e he
      rw [sameId, hdoc] at hsame
      rw [hasId, get?_storedOf_id (hheld e he)]
      cases hother : e.get? "_id" with
      | none => rfl
      | some other =>
        rw [hother] at hsame
        simpa [hnull] using hsame
    cases id with
    | null => rfl
    | _ => exact congrArg (fun ds => Except.ok (Collection.mk c.pushdown ds)) (hplace rfl)

theorem foldlM_insert {c : Collection} {held documents : List Json}
    (hc : c.documents = held.map storedOf) (hall : ∀ d ∈ held ++ documents, IsDocument d)
    (hids : DistinctIds (held ++ documents)) :
    documents.foldlM insert c = .ok ⟨c.pushdown, (held ++ documents).map storedOf⟩ := by
  induction documents generalizing c held with
  | nil =>
    obtain ⟨pushdown, ds⟩ := c
    change ds = _ at hc
    subst hc
    rw [List.append_nil]
    rfl
  | cons d documents ih =>
    have hpair := (List.pairwise_append.mp hids).2.2
    have hinsert := insert_eq hc (fun e he => hall e (by simp [he])) (hall d (by simp))
      fun e he => hpair e he d List.mem_cons_self
    rw [List.foldlM_cons, hinsert]
    have happend : held ++ d :: documents = held ++ [d] ++ documents := by simp
    rw [happend] at hall hids ⊢
    exact @ih ⟨c.pushdown, (held ++ [d]).map storedOf⟩ _ rfl hall hids

/-- A collection of documents with ids of their own holds all of them, in their order. -/
theorem ofDocuments_eq {documents : List Json} (hall : ∀ d ∈ documents, IsDocument d)
    (hids : DistinctIds documents) (pushdown : Bool) :
    ofDocuments pushdown documents = .ok ⟨pushdown, documents.map storedOf⟩ :=
  @foldlM_insert (empty pushdown) [] documents rfl hall hids

end Collection
end DocQuery
