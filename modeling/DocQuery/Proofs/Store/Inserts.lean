import DocQuery.Proofs.Store.References
import Mathlib.Data.List.Induction

/-!
# Histories of inserts

Documents are offered to a collection one after the other (`Collection.offered`). What it holds in
the end is told from the documents alone: each one that is accepted takes the place of the one with
its id, or comes last (`put`, `arranged`). That is a matter of ids, which are compared as JSON, and
it needs that to be an equivalence.

`Reflects` is the invariant: what is held, what is derived from it and what the lookups give.
`reflects_history` says that every history keeps it.
-/

set_option autoImplicit false

namespace DocQuery

/-! ## Equality of JSON -/

theorem Double.equal_comm (a b : Double) : b.equal a = a.equal b := by
  rw [equal, compare?_swap a b, equal]
  rcases a.compare? b with _ | _ | _ | _ <;> rfl

theorem Double.equal_trans {a b c : Double} (hab : a.equal b = true) (hbc : b.equal c = true) :
    a.equal c = true := by
  simp only [equal, compare?, beq_iff_eq] at hab hbc ⊢
  split at hab
  · cases hab
  · split at hbc
    · cases hbc
    · next hnan hnan' =>
      simp only [Option.some.injEq, Std.compare_eq_iff_eq] at hab hbc
      simp only [Bool.or_eq_true, not_or] at hnan hnan'
      rw [if_neg (by simp [hnan.1, hnan'.2]), hab, hbc, Std.compare_self]

namespace Json

mutual

theorem same_comm : ∀ a b : Json, b.same a = a.same b
  | arr a, b => by
    cases b with
    | arr b => exact sameItems_comm a b
    | _ => rfl
  | obj a, b => by
    cases b with
    | obj b => exact sameFields_comm a b
    | _ => rfl
  | null, b => by cases b <;> rfl
  | bool x, b => by
    cases b with
    | bool y => exact Bool.beq_comm
    | _ => rfl
  | int n, b => by
    cases b with
    | int m => exact Bool.beq_comm
    | _ => rfl
  | float d, b => by
    cases b with
    | float e => exact Double.equal_comm d e
    | _ => rfl
  | str s, b => by
    cases b with
    | str t => exact Bool.beq_comm
    | _ => rfl

theorem sameItems_comm : ∀ as bs : List Json, sameItems bs as = sameItems as bs
  | [], bs => by cases bs <;> rfl
  | a :: as, [] => rfl
  | a :: as, b :: bs => by rw [sameItems, same_comm a b, sameItems_comm as bs, sameItems]

theorem sameFields_comm : ∀ fs gs : List (String × Json), sameFields gs fs = sameFields fs gs
  | [], gs => by cases gs <;> rfl
  | f :: fs, [] => rfl
  | (k, a) :: fs, (l, b) :: gs => by
    rw [sameFields, same_comm a b, sameFields_comm fs gs, sameFields, Bool.beq_comm]

end

mutual

theorem same_trans : ∀ {a b c : Json}, a.same b = true → b.same c = true → a.same c = true
  | arr as, arr bs, arr cs, hab, hbc => @sameItems_trans as bs cs hab hbc
  | obj fs, obj gs, obj hs, hab, hbc => @sameFields_trans fs gs hs hab hbc
  | null, null, null, _, _ => rfl
  | bool x, bool y, bool z, hab, hbc => by
    simp only [same, beq_iff_eq] at hab hbc ⊢
    exact hab.trans hbc
  | int n, int m, int k, hab, hbc => by
    simp only [same, beq_iff_eq] at hab hbc ⊢
    exact hab.trans hbc
  | float d, float e, float f, hab, hbc => Double.equal_trans (b := e) hab hbc
  | str s, str t, str u, hab, hbc => by
    simp only [same, beq_iff_eq] at hab hbc ⊢
    exact hab.trans hbc

theorem sameItems_trans : ∀ {as bs cs : List Json}, sameItems as bs = true →
    sameItems bs cs = true → sameItems as cs = true
  | [], [], [], _, _ => rfl
  | a :: as, b :: bs, c :: cs, hab, hbc => by
    simp only [sameItems, Bool.and_eq_true] at hab hbc ⊢
    exact ⟨same_trans hab.1 hbc.1, sameItems_trans hab.2 hbc.2⟩

theorem sameFields_trans : ∀ {fs gs hs : List (String × Json)}, sameFields fs gs = true →
    sameFields gs hs = true → sameFields fs hs = true
  | [], [], [], _, _ => rfl
  | (k, a) :: fs, (l, b) :: gs, (m, c) :: hs, hab, hbc => by
    simp only [sameFields, Bool.and_eq_true, beq_iff_eq] at hab hbc ⊢
    exact ⟨⟨hab.1.1.trans hbc.1.1, same_trans hab.1.2 hbc.1.2⟩,
      sameFields_trans hab.2 hbc.2⟩

end

end Json

namespace Collection

open Clause (referencesField)

variable {c : Collection} {held : List Json} {document d e : Json} {s : String}

/-! ## One id -/

theorem sameId_comm (d e : Json) : sameId e d = sameId d e := by
  unfold sameId
  cases hd : d.get? "_id" with
  | none => cases e.get? "_id" <;> rfl
  | some i =>
    cases e.get? "_id" with
    | none => rfl
    | some j =>
      dsimp only
      rw [Json.same_comm i j]
      -- null is equal to nothing but itself
      cases i <;> cases j <;> rfl

theorem exists_id_of_sameId (h : sameId d e = true) : ∃ i j, d.get? "_id" = some i ∧
    e.get? "_id" = some j ∧ j.isNull = false ∧ i.same j = true := by
  unfold sameId at h
  split at h
  · next i j hi hj =>
    simp only [Bool.and_eq_true, Bool.not_eq_true'] at h
    exact ⟨i, j, hi, hj, h.1, h.2⟩
  · cases h

theorem sameId_trans {f : Json} (hde : sameId d e = true) (hef : sameId e f = true) :
    sameId d f = true := by
  obtain ⟨i, j, hi, hj, -, hij⟩ := exists_id_of_sameId hde
  obtain ⟨j', k, hj', hk, hnull, hjk⟩ := exists_id_of_sameId hef
  cases hj.symm.trans hj'
  rw [sameId, hi, hk]
  dsimp only
  rw [hnull, Json.same_trans hij hjk]
  rfl

/-- A document with the id of another shares it with no document that has a different one. -/
theorem sameId_eq_false {f : Json} (hde : sameId d e = true) (hdf : sameId d f = false) :
    sameId e f = false := by
  rw [← Bool.not_eq_true] at hdf ⊢
  exact fun hef => hdf (sameId_trans hde hef)

/-- Where ids are texts, one id is one text. -/
theorem stringId?_eq_of_sameId (h : sameId d e = true) : stringId? d = stringId? e := by
  obtain ⟨i, j, hi, hj, -, hij⟩ := exists_id_of_sameId h
  rw [stringId?, stringId?, hi, hj]
  cases i <;> cases j <;> first | rfl | cases hij | exact congrArg some (beq_iff_eq.mp hij)

theorem get?_of_stringId? (h : stringId? d = some s) : d.get? "_id" = some (.str s) := by
  obtain ⟨id, hid, hstr⟩ := Option.bind_eq_some_iff.mp h
  cases id with
  | str t =>
    cases hstr
    exact hid
  | _ => cases hstr

theorem sameId_of_stringId? (hd : stringId? d = some s) (he : stringId? e = some s) :
    sameId d e = true :=
  sameId_of_text (get?_of_stringId? hd) (get?_of_stringId? he)

/-! ## Histories -/

/-- A document as a collection takes it: an object, without the store's own field. -/
def given? : Json → Option Json
  | .obj fields => some (.obj (Fields.erase fields referencesField))
  | _ => none

/-- The documents of a history that are accepted. -/
def acceptedOf (history : List Json) : List Json := history.filterMap given?

/-- A document among others: in the place of the one with its id, or at the end. -/
def put (held : List Json) (document : Json) : List Json :=
  if held.any (sameId · document) then
    held.map fun d => if sameId d document then document else d
  else held ++ [document]

/-- Documents put one after the other. -/
def arranged (documents : List Json) : List Json := documents.foldl put []

/-- What a collection is after a document was offered to it, accepted or not. -/
def offered (c : Collection) (document : Json) : Collection :=
  match c.insert document with
  | .ok c' => c'
  | .error _ => c

/-- What a history of inserts leaves of an empty collection. -/
def ofHistory (pushdown : Bool) (history : List Json) : Collection :=
  history.foldl offered (empty pushdown)

theorem isDocument_of_given? (h : given? document = some d) : IsDocument d := by
  cases document with
  | obj fields =>
    cases h
    refine ⟨⟨_, rfl⟩, ?_⟩
    show Fields.get? (Fields.erase fields referencesField) referencesField = none
    rw [Fields.get?_erase, if_pos rfl]
  | _ => cases h

/-- A document without the store's own field. -/
def bare (document : Json) : Json := (given? document).getD document

theorem isDocument_bare (fields : Fields Json) : IsDocument (bare (.obj fields)) :=
  isDocument_of_given? (show given? (.obj fields) = some _ from rfl)

theorem get?_bare {name : String} (h : name ≠ referencesField) (document : Json) :
    (bare document).get? name = document.get? name := by
  cases document with
  | obj fields =>
    show Fields.get? (Fields.erase fields referencesField) name = _
    rw [Fields.get?_erase, if_neg (Ne.symm h)]
    rfl
  | _ => rfl

theorem stringId?_bare (document : Json) : stringId? (bare document) = stringId? document := by
  rw [stringId?, get?_bare (by decide), ← stringId?]

/-- Ids that are different texts are different. -/
theorem distinctIds_of_nodup {documents : List Json} (h : (documents.map stringId?).Nodup) :
    DistinctIds documents := by
  refine (List.pairwise_map.mp h).imp fun {a b} hne => ?_
  rw [← Bool.not_eq_true]
  exact fun hsame => hne (stringId?_eq_of_sameId hsame)

theorem put_cons_of_sameId (hdistinct : DistinctIds (e :: held)) (h : sameId e d = true) :
    put (e :: held) d = d :: held := by
  have hrest : ∀ f ∈ held, sameId f d = false := fun f hf => by
    rw [sameId_comm]
    exact sameId_eq_false h ((List.pairwise_cons.mp hdistinct).1 f hf)
  have hmap : held.map (fun f => if sameId f d then d else f) = held.map id :=
    List.map_congr_left fun f hf => by rw [hrest f hf]; rfl
  rw [put, List.any_cons, h, if_pos (Bool.true_or _), List.map_cons, h, hmap, List.map_id]
  rfl

theorem put_cons_of_not (h : sameId e d = false) : put (e :: held) d = e :: put held d := by
  unfold put
  rw [List.any_cons, h, Bool.false_or, List.map_cons, h]
  split <;> rfl

theorem mem_put {f : Json} (h : f ∈ put held d) : f = d ∨ f ∈ held := by
  unfold put at h
  split at h
  · obtain ⟨g, hg, rfl⟩ := List.mem_map.mp h
    split
    · exact .inl rfl
    · exact .inr hg
  · exact (List.mem_append.mp h).symm.imp_left List.mem_singleton.mp

theorem DistinctIds.put (hdistinct : DistinctIds held) (d : Json) :
    DistinctIds (Collection.put held d) := by
  induction held with
  | nil => exact List.pairwise_singleton _ _
  | cons e held ih =>
    obtain ⟨he, hheld⟩ := List.pairwise_cons.mp hdistinct
    cases h : sameId e d with
    | true =>
      rw [put_cons_of_sameId hdistinct h]
      exact List.pairwise_cons.mpr ⟨fun f hf => sameId_eq_false h (he f hf), hheld⟩
    | false =>
      rw [put_cons_of_not h]
      refine List.pairwise_cons.mpr ⟨fun f hf => ?_, ih hheld⟩
      rcases mem_put hf with rfl | hf
      · exact h
      · exact he f hf

/-- A document without an id replaces none. -/
theorem put_eq_append (h : ∀ e ∈ held, sameId e d = false) : put held d = held ++ [d] := by
  rw [put, if_neg]
  rw [List.any_eq_true]
  rintro ⟨e, he, hsame⟩
  rw [h e he] at hsame
  cases hsame

/-- A lookup by a text finds the document put last under it. -/
theorem find?_put (hdistinct : DistinctIds held) (d : Json) (s : String) :
    (put held d).find? (stringId? · == some s) =
      if stringId? d == some s then some d else held.find? (stringId? · == some s) := by
  induction held with
  | nil =>
    show List.find? _ [d] = _
    rw [List.find?_singleton]
    rfl
  | cons e held ih =>
    cases h : sameId e d with
    | true =>
      rw [put_cons_of_sameId hdistinct h, List.find?_cons, List.find?_cons,
        stringId?_eq_of_sameId h]
      cases stringId? d == some s <;> rfl
    | false =>
      rw [put_cons_of_not h, List.find?_cons, List.find?_cons,
        ih (List.pairwise_cons.mp hdistinct).2]
      cases hd : stringId? d == some s with
      | false => cases stringId? e == some s <;> rfl
      | true =>
        -- the document in front has another text for its id
        have he : (stringId? e == some s) = false := by
          rw [← Bool.not_eq_true]
          intro he
          rw [sameId_of_stringId? (beq_iff_eq.mp he) (beq_iff_eq.mp hd)] at h
          cases h
        rw [he]

/-! ## What a history arranges -/

theorem arranged_append (documents : List Json) (d : Json) :
    arranged (documents ++ [d]) = put (arranged documents) d := by
  rw [arranged, List.foldl_append]
  rfl

theorem mem_arranged {documents : List Json} (h : d ∈ arranged documents) : d ∈ documents := by
  induction documents using List.reverseRecOn with
  | nil => exact h
  | append_singleton documents e ih =>
    rw [arranged_append] at h
    rcases mem_put h with rfl | h
    · exact List.mem_concat_self
    · exact List.mem_append_left _ (ih h)

theorem distinctIds_arranged (documents : List Json) : DistinctIds (arranged documents) := by
  induction documents using List.reverseRecOn with
  | nil => exact List.Pairwise.nil
  | append_singleton documents d ih =>
    rw [arranged_append]
    exact ih.put d

theorem find?_arranged (documents : List Json) (s : String) :
    (arranged documents).find? (stringId? · == some s) =
      (documents.filter (stringId? · == some s)).getLast? := by
  induction documents using List.reverseRecOn with
  | nil => rfl
  | append_singleton documents d ih =>
    rw [arranged_append, find?_put (distinctIds_arranged documents), ih, List.filter_append]
    simp only [List.filter_cons, List.filter_nil]
    split
    · exact List.getLast?_concat.symm
    · rw [List.append_nil]

theorem isDocument_of_mem_arranged {history : List Json}
    (h : d ∈ arranged (acceptedOf history)) : IsDocument d := by
  obtain ⟨document, -, hgiven⟩ := List.mem_filterMap.mp (mem_arranged h)
  exact isDocument_of_given? hgiven

/-! ## What a collection holds -/

theorem storedOf_given (fields : Fields Json) :
    storedOf (.obj (Fields.erase fields referencesField)) = stored fields := by
  rw [storedOf, stored, stored, Fields.erase_erase]

theorem storedOf_bare (document : Json) : storedOf (bare document) = storedOf document := by
  cases document with
  | obj fields => exact storedOf_given fields
  | _ => rfl

theorem bare_eq_self (h : IsDocument d) : bare d = d := by
  obtain ⟨fields, rfl⟩ := h.isObject
  have hunstored := unstored_storedOf h
  rwa [storedOf, unstored_stored] at hunstored

/-- What is in the store's own field of a document makes no difference to the store. -/
theorem insert_bare (c : Collection) (document : Json) :
    c.insert (bare document) = c.insert document := by
  cases document with
  | obj fields =>
    have hstored := storedOf_given fields
    show insert c (.obj (Fields.erase fields referencesField)) = insert c (.obj fields)
    rw [insert, insert]
    change stored (Fields.erase fields referencesField) = _ at hstored
    rw [hstored]
  | _ => rfl

/-- Objects with ids of their own are held in their order. -/
theorem ofDocuments_objects {documents : List Json}
    (hobjects : ∀ d ∈ documents, ∃ fields, d = .obj fields) (hdistinct : DistinctIds documents)
    (pushdown : Bool) :
    ofDocuments pushdown documents = .ok ⟨pushdown, documents.map storedOf⟩ := by
  have hbare : ofDocuments pushdown (documents.map bare) = ofDocuments pushdown documents := by
    rw [ofDocuments, ofDocuments, List.foldlM_map]
    exact congrArg (fun f => documents.foldlM f _) (funext fun c => funext fun d => insert_bare c d)
  have hdocuments : ∀ d ∈ documents.map bare, IsDocument d := by
    intro d hd
    obtain ⟨e, he, rfl⟩ := List.mem_map.mp hd
    obtain ⟨fields, rfl⟩ := hobjects e he
    exact isDocument_bare fields
  have hids : DistinctIds (documents.map bare) := by
    refine List.pairwise_map.mpr (hdistinct.imp fun {a b} h => ?_)
    rwa [sameId, get?_bare (by decide), get?_bare (by decide)]
  rw [← hbare, ofDocuments_eq hdocuments hids, List.map_map]
  exact congrArg (fun ds => Except.ok (Collection.mk pushdown ds))
    (List.map_congr_left fun d _ => storedOf_bare d)

theorem sameId_storedOf (hd : IsDocument d) (he : IsDocument e) :
    sameId (storedOf d) (storedOf e) = sameId d e := by
  rw [sameId, sameId, get?_storedOf_id hd, get?_storedOf_id he]

theorem stringId?_storedOf (h : IsDocument d) : stringId? (storedOf d) = stringId? d := by
  rw [stringId?, stringId?, get?_storedOf_id h]

/-- A document goes into the list of documents as `put` says. -/
theorem place_storedOf {id : Json} (hheld : ∀ e ∈ held, IsDocument e)
    (hdistinct : DistinctIds held) (hid : d.get? "_id" = some id) (hnull : id.isNull = false) :
    place (storedOf d) id (held.map storedOf) = (put held d).map storedOf := by
  induction held with
  | nil => rfl
  | cons e held ih =>
    have hhas : hasId id (storedOf e) = sameId e d := by
      rw [hasId, get?_storedOf_id (hheld e List.mem_cons_self), sameId, hid]
      cases e.get? "_id" with
      | none => rfl
      | some other =>
        dsimp only
        rw [hnull]
        rfl
    rw [List.map_cons, place, hhas]
    cases h : sameId e d with
    | true => rw [put_cons_of_sameId hdistinct h, List.map_cons, if_pos rfl]
    | false =>
      rw [put_cons_of_not h, List.map_cons, if_neg Bool.false_ne_true,
        ih (fun f hf => hheld f (List.mem_cons_of_mem e hf)) (List.pairwise_cons.mp hdistinct).2]

theorem sameId_eq_false_of_no_id (h : ∀ id, d.get? "_id" = some id → id.isNull = true)
    (e : Json) : sameId e d = false := by
  rw [← Bool.not_eq_true]
  intro hsame
  obtain ⟨-, id, -, hid, hnull, -⟩ := exists_id_of_sameId hsame
  rw [h id hid] at hnull
  cases hnull

/-- **What one insert does**: the document goes to its place, with its own references. -/
theorem insert_given (hc : c.documents = held.map storedOf) (hheld : ∀ e ∈ held, IsDocument e)
    (hdistinct : DistinctIds held) (h : given? document = some d) :
    c.insert document = .ok ⟨c.pushdown, (put held d).map storedOf⟩ := by
  have hd := isDocument_of_given? h
  have hid := get?_storedOf_id hd
  have hlast : (∀ id, d.get? "_id" = some id → id.isNull = true) →
      c.documents ++ [storedOf d] = (put held d).map storedOf := by
    intro hno
    rw [put_eq_append fun e _ => sameId_eq_false_of_no_id hno e, List.map_append, hc]
    rfl
  have hplace (id : Json) (hsome : d.get? "_id" = some id) (hnull : id.isNull = false) :
      place (storedOf d) id c.documents = (put held d).map storedOf := by
    rw [hc, place_storedOf hheld hdistinct hsome hnull]
  cases document with
  | obj fields =>
    cases h
    rw [storedOf_given] at hid hlast hplace
    rw [insert, hid]
    refine congrArg (fun ds => Except.ok (Collection.mk c.pushdown ds)) ?_
    cases hget : (Json.obj (Fields.erase fields referencesField)).get? "_id" with
    | none => exact hlast fun id hsome => by rw [hget] at hsome; cases hsome
    | some id =>
      cases id with
      | null =>
        refine hlast fun id hsome => ?_
        rw [hget] at hsome
        cases hsome
        rfl
      | _ => exact hplace _ hget rfl
  | _ => cases h

/-- **What a history leaves**: its documents as they are arranged, each as it is stored. -/
theorem documents_ofHistory (pushdown : Bool) (history : List Json) :
    (ofHistory pushdown history).documents = (arranged (acceptedOf history)).map storedOf := by
  induction history using List.reverseRecOn with
  | nil => rfl
  | append_singleton history document ih =>
    have hstep : ofHistory pushdown (history ++ [document]) =
        (ofHistory pushdown history).offered document := by
      rw [ofHistory, List.foldl_append]
      rfl
    rw [hstep, acceptedOf, List.filterMap_append]
    cases hgiven : given? document with
    | none =>
      have hinsert : ∃ e, (ofHistory pushdown history).insert document = .error e := by
        cases document with
        | obj fields => cases hgiven
        | _ => exact ⟨_, rfl⟩
      obtain ⟨e, he⟩ := hinsert
      rw [offered, he, List.filterMap_cons_none hgiven, List.filterMap_nil, List.append_nil]
      exact ih
    | some d =>
      rw [offered, insert_given ih
        (fun e he => isDocument_of_mem_arranged he) (distinctIds_arranged _)
        hgiven,
        List.filterMap_cons_some hgiven, List.filterMap_nil, arranged_append]
      rfl

/-! ## What it gives -/

theorem unstored_references (h : IsDocument d) : (unstored (storedOf d)).2 =
    if ((Value.ofJson d).getD "_id").isTruthy then findReferences (.ofJson d) else [] := by
  split
  · next htruthy => exact references_storedOf h htruthy
  · next hfalsy =>
    have hunstored := unstored_storedOf h
    obtain ⟨fields, rfl⟩ := h.isObject
    have hrefs := get?_stored_references fields
    change (unstored (stored fields)).1 = _ at hunstored
    rw [hunstored, if_neg hfalsy] at hrefs
    show (unstored (stored fields)).2 = []
    cases hstored : stored fields with
    | obj held =>
      rw [hstored] at hrefs
      change Fields.get? held referencesField = none at hrefs
      show ((Fields.get? held referencesField).bind Reference.listOfJson?).getD [] = []
      rw [hrefs]
      rfl
    | _ => rfl

/-- Documents that share no id have each an entry of their own. -/
theorem get?_referencesOf {documents : List Json} (hdistinct : DistinctIds documents) (s : String) :
    Fields.get? (referencesOf documents) s =
      (documents.find? (stringId? · == some s)).map fun d => (unstored d).2 := by
  induction documents using List.reverseRecOn with
  | nil => rfl
  | append_singleton documents d ih =>
    obtain ⟨hinit, -, hlast⟩ := List.pairwise_append.mp hdistinct
    have hsplit : referencesOf (documents ++ [d]) =
        (stringId? d).elim (referencesOf documents)
          fun t => (referencesOf documents).insert t (unstored d).2 := by
      rw [referencesOf, List.filterMap_append, Fields.ofList, Fields.merge, List.foldl_append]
      cases hid : stringId? d with
      | none => rw [List.filterMap_cons_none (by rw [hid]; rfl)]; rfl
      | some t => rw [List.filterMap_cons_some (by rw [hid]; rfl)]; rfl
    rw [hsplit, List.find?_append, List.find?_singleton]
    cases hid : stringId? d with
    | none =>
      rw [if_neg (by simp), Option.or_none]
      exact ih hinit
    | some t =>
      rw [Option.elim_some, Fields.get?_insert, ih hinit]
      by_cases hts : t = s
      · subst hts
        -- no document before has this id
        have hbefore : documents.find? (stringId? · == some t) = none := by
          rw [List.find?_eq_none]
          intro e he hide
          have hsame := hlast e he d List.mem_cons_self
          rw [sameId_of_stringId? (beq_iff_eq.mp hide) hid] at hsame
          cases hsame
        rw [hbefore, if_pos rfl, if_pos (beq_self_eq_true _)]
        rfl
      · rw [if_neg hts, if_neg (by simpa using hts), Option.or_none]

theorem map_unstored_storedOf (hheld : ∀ d ∈ held, IsDocument d) :
    (held.map storedOf).map (fun d => (unstored d).1) = held := by
  rw [List.map_map]
  exact (List.map_congr_left fun d hd => unstored_storedOf (hheld d hd)).trans (List.map_id held)

theorem distinctIds_storedOf (hheld : ∀ d ∈ held, IsDocument d) (hdistinct : DistinctIds held) :
    DistinctIds (held.map storedOf) := by
  rw [DistinctIds, List.pairwise_map]
  exact hdistinct.imp_of_mem fun hd he h => by rwa [sameId_storedOf (hheld _ hd) (hheld _ he)]

theorem find?_storedOf (hheld : ∀ d ∈ held, IsDocument d) (s : String) :
    (held.map storedOf).find? (stringId? · == some s) =
      (held.find? (stringId? · == some s)).map storedOf := by
  induction held with
  | nil => rfl
  | cons d held ih =>
    rw [List.map_cons, List.find?_cons, List.find?_cons,
      stringId?_storedOf (hheld d List.mem_cons_self),
      ih fun e he => hheld e (List.mem_cons_of_mem d he)]
    cases stringId? d == some s <;> rfl

theorem isTruthy_of_stringId? (h : stringId? d = some s) :
    ((Value.ofJson d).getD "_id").isTruthy = true ↔ s ≠ "" := by
  rw [Value.getD, Value.get?_ofJson, get?_of_stringId? h]
  show (!s.isEmpty) = true ↔ _
  simp

/-- Everything a collection holds is what the empty specification gives. -/
theorem fetch_everything (hdocuments : ∀ d ∈ held, IsDocument d) (pushdown : Bool) :
    (⟨pushdown, held.map storedOf⟩ : Collection).fetch .everything =
      .ok (respond (held.map storedOf) 0) := by
  have haccepted : held.filter (fun d => Pushdown.accepted (.const true) (storedOf d)) = held :=
    List.filter_eq_self.mpr fun d _ => rfl
  have hsorted := @Pushdown.sortDocuments_eq_sortedDocuments [] held hdocuments
    (fun _ h => absurd h List.not_mem_nil) rfl
  rw [Pushdown.sortedDocuments_nil] at hsorted
  have hanswer := @Pushdown.answer_eq ⟨(Clause.const true).selector?, true, [], true, 0, none⟩
    (.const true) held rfl (fun d _ => rfl) pushdown
  refine hanswer.trans ?_
  rw [haccepted]
  split
  · exact congrArg (fun ds => Except.ok (respond ds 0)) hsorted
  · rfl

theorem get?_referencesOf_storedOf (hheld : ∀ d ∈ held, IsDocument d)
    (hdistinct : DistinctIds held) (s : String) : Fields.get? (referencesOf (held.map storedOf)) s =
      (held.find? (stringId? · == some s)).map
        fun d => if s = "" then [] else findReferences (.ofJson d) := by
  rw [get?_referencesOf (distinctIds_storedOf hheld hdistinct), find?_storedOf hheld,
    Option.map_map]
  cases hfound : held.find? (stringId? · == some s) with
  | none => rfl
  | some d =>
    have hid := beq_iff_eq.mp (List.find?_some (p := fun d => stringId? d == some s) hfound)
    have htruthy := isTruthy_of_stringId? hid
    refine congrArg some ?_
    show (unstored (storedOf d)).2 = if s = "" then [] else findReferences (.ofJson d)
    rw [unstored_references (hheld d (List.mem_of_find?_eq_some hfound))]
    by_cases hs : s = ""
    · rw [if_pos hs, if_neg (by simpa [hs] using htruthy)]
    · rw [if_neg hs, if_pos (htruthy.mpr hs)]

/-! ## The invariant -/

/-- **What a collection is after a history of inserts**, told from the documents that came. -/
structure Reflects (c : Collection) (history : List Json) : Prop where
  /-- What is no object is refused, and that changes nothing. -/
  refused : ∀ document, given? document = none →
    (∃ e, c.insert document = .error e) ∧ c.offered document = c
  /-- An object is accepted. -/
  taken : ∀ document d, given? document = some d → c.insert document = .ok (c.offered document)
  held : c.documents.map (fun d => (unstored d).1) = arranged (acceptedOf history)
  distinct : DistinctIds c.documents
  /-- The references are there for a truthy id, and they are those of the document. -/
  references : ∀ d ∈ c.documents, d.get? referencesField =
    if ((Value.ofJson (unstored d).1).getD "_id").isTruthy then
      some (Reference.listToJson (findReferences (.ofJson (unstored d).1)))
    else none
  lookup : ∀ s, c.getById? s = ((acceptedOf history).filter (stringId? · == some s)).getLast?
  everything : ∃ refs, c.fetch .everything = .ok ⟨arranged (acceptedOf history), 0, some refs⟩ ∧
    ∀ s, refs.get? s = ((arranged (acceptedOf history)).find? (stringId? · == some s)).map
      fun d => if s = "" then [] else findReferences (.ofJson d)

/-- **Every history of inserts keeps the invariant.** -/
theorem reflects_history (pushdown : Bool) (history : List Json) :
    (ofHistory pushdown history).Reflects history := by
  have hgiven : ∀ d ∈ arranged (acceptedOf history), IsDocument d :=
    fun _ => isDocument_of_mem_arranged
  have hdistinct := distinctIds_arranged (acceptedOf history)
  have hheld := documents_ofHistory pushdown history
  have hc : ofHistory pushdown history =
      ⟨(ofHistory pushdown history).pushdown, (arranged (acceptedOf history)).map storedOf⟩ :=
    congrArg (Collection.mk _) hheld
  constructor
  case refused =>
    intro document hnone
    cases document with
    | obj fields => cases hnone
    | _ => exact ⟨⟨_, rfl⟩, rfl⟩
  case taken =>
    intro document d hsome
    cases document with
    | obj fields => rfl
    | _ => cases hsome
  case held => rw [hheld, map_unstored_storedOf hgiven]
  case distinct =>
    rw [hheld]
    exact distinctIds_storedOf hgiven hdistinct
  case references =>
    intro d hd
    rw [hheld] at hd
    obtain ⟨e, he, rfl⟩ := List.mem_map.mp hd
    obtain ⟨fields, rfl⟩ := (hgiven e he).isObject
    exact get?_stored_references fields
  case lookup =>
    intro s
    rw [getById?, hheld, find?_storedOf hgiven, ← find?_arranged, Option.map_map]
    cases hfound : (arranged (acceptedOf history)).find? (stringId? · == some s) with
    | none => rfl
    | some d =>
      exact congrArg some (unstored_storedOf (hgiven d (List.mem_of_find?_eq_some hfound)))
  case everything =>
    refine ⟨referencesOf ((arranged (acceptedOf history)).map storedOf), ?_,
      get?_referencesOf_storedOf hgiven hdistinct⟩
    rw [hc, fetch_everything hgiven, respond, map_unstored_storedOf hgiven]

end Collection
end DocQuery
