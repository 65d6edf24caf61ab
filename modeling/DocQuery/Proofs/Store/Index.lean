import DocQuery.Proofs.Store.Inserts
import Mathlib.Data.List.Basic

/-!
# The index of references

The references stored beside a document are an index that `references()` and lookups of referring
documents go by. **The index agrees with a scan of the documents** (`referencing_ofHistory`): after
any history of inserts, whoever goes by it finds what is found by listing the references of every
document anew.

There are two ways in. A lookup asks for an id, and perhaps for references that are not weak; a
filter asks for any of the strings among its arguments.
-/

set_option autoImplicit false

namespace DocQuery

namespace Clause

variable {values : List Value} {s : String}

/-! ## What is asked of a reference -/

theorem lookup_weak (r : Reference) : Selector.lookup r.toJson "weak" = some (.bool r.weak) := by
  have hsplit : (Path.parse "weak").segments = ["weak"] := by decide +kernel
  rw [Selector.lookup, hsplit]
  obtain ⟨id, weak, path⟩ := r
  cases path <;> rfl

theorem matchesElement_strong (id : String) (r : Reference) :
    Selector.matchesElement (.obj [("id", .str id), ("weak", .bool false)]) r.toJson =
      .ok (r.id == id && !r.weak) := by
  have hop : Selector.isOperatorDocument (.obj [("id", .str id), ("weak", .bool false)]) =
      false := by
    simp [Selector.isOperatorDocument]
  have hid : Selector.meets (.str id) (some (.str r.id)) = .ok (r.id == id) := by
    rw [Selector.meets_value (by simp), selector_holds_eq]
    rfl
  have hweak : Selector.meets (.bool false) (some (.bool r.weak)) = .ok (!r.weak) := by
    rw [Selector.meets_value (by simp), selector_holds_eq]
    cases r.weak <;> rfl
  unfold Selector.matchesElement
  rw [hop]
  show Selector.acceptsClauses _ r.toJson = _
  rw [Selector.acceptsClauses_field (by decide), Selector.acceptsClauses_field (by decide),
    lookup_id, lookup_weak, hid, hweak]
  cases r.id == id <;> cases r.weak <;> rfl

/-- The strings among the arguments of `references()`, and among the elements of those that are
arrays. -/
def Names (values : List Value) (s : String) : Prop :=
  .string s ∈ values ∨ ∃ items, .array items ∈ values ∧ .string s ∈ items

theorem mem_idsOf {v : Value} : s ∈ idsOf v ↔
    v = .string s ∨ ∃ items, v = .array items ∧ .string s ∈ items := by
  cases v with
  | string t =>
    show s ∈ [t] ↔ _
    simp [eq_comm]
  | array items =>
    show s ∈ items.filterMap Value.asString? ↔ _
    have hstring : ∀ w : Value, w.asString? = some s ↔ w = .string s := by
      intro w
      cases w <;> simp [Value.asString?]
    simp [hstring]
  | _ =>
    show s ∈ [] ↔ _
    simp

theorem mem_flatMap_idsOf : s ∈ values.flatMap idsOf ↔ Names values s := by
  rw [List.mem_flatMap, Names]
  constructor
  · rintro ⟨v, hv, hs⟩
    rcases mem_idsOf.mp hs with rfl | ⟨items, rfl, hitem⟩
    · exact .inl hv
    · exact .inr ⟨items, hv, hitem⟩
  · rintro (hv | ⟨items, hv, hitem⟩)
    · exact ⟨_, hv, mem_idsOf.mpr (.inl rfl)⟩
    · exact ⟨_, hv, mem_idsOf.mpr (.inr ⟨items, rfl, hitem⟩)⟩

/-- **The selector of `references()`** accepts a stored document that has a truthy id and refers to
one of the strings. -/
theorem judge_references_stored {arguments : List Operation}
    (hvalues : Operation.literals? arguments = some values) (fields : Fields Json) :
    ∃ accepted, (references arguments).judge (Collection.stored fields) = .ok accepted ∧
      (accepted = true ↔
        ((Value.ofJson (Collection.unstored (Collection.stored fields)).1).getD "_id").isTruthy =
          true ∧
        ∃ r ∈ findReferences (Value.ofJson (Collection.unstored (Collection.stored fields)).1),
          Names values r.id) := by
  unfold references
  rw [hvalues]
  dsimp only
  split
  · next hnone =>
    -- no argument is a string: no document is accepted, and none refers to one of them
    refine ⟨false, rfl, iff_of_false Bool.false_ne_true ?_⟩
    rintro ⟨-, r, -, hname⟩
    have hmem := mem_flatMap_idsOf.mpr hname
    rw [hnone] at hmem
    cases hmem
  · rw [judge_exactly, Selector.accepts_or, acceptsAny_refersTo]
    refine ⟨_, rfl, ?_⟩
    rw [List.any_eq_true]
    constructor
    · rintro ⟨id, hid, hboth⟩
      obtain ⟨htruthy, hany⟩ := Bool.and_eq_true_iff.mp hboth
      obtain ⟨r, hr, heq⟩ := List.any_eq_true.mp hany
      obtain rfl := beq_iff_eq.mp heq
      exact ⟨htruthy, r, hr, mem_flatMap_idsOf.mp hid⟩
    · rintro ⟨htruthy, r, hr, hname⟩
      refine ⟨r.id, mem_flatMap_idsOf.mpr hname, ?_⟩
      rw [htruthy, Bool.true_and]
      exact List.any_eq_true.mpr ⟨r, hr, beq_self_eq_true _⟩

end Clause

namespace Collection

open Clause (referencesField)

variable {c : Collection} {documents : List Json} {id : String} {weak : Bool}

/-! ## Lookups of referring documents -/

/-- A reference to an id; weak ones may be left out. -/
def pointsTo (id : String) (weak : Bool) (r : Reference) : Bool := r.id == id && (weak || !r.weak)

/-- The ids of the documents that refer to an id, by a scan of the documents. Only a text that is
not empty is the id of a document that refers to something. -/
def referrers (id : String) (weak : Bool) (documents : List Json) : List String :=
  ((documents.filter fun d => (findReferences (.ofJson d)).any (pointsTo id weak)).filterMap
    stringId?).filter (· ≠ "")

/-- What a lookup asks of a reference. -/
theorem accepts_pointsTo (id : String) (weak : Bool) (fields : Fields Json) :
    Selector.accepts (Clause.on referencesField (Clause.on "$elemMatch"
        (.obj (("id", .str id) :: if weak then [] else [("weak", .bool false)])))) (stored fields) =
      .ok (((Value.ofJson (unstored (stored fields)).1).getD "_id").isTruthy &&
        (findReferences (Value.ofJson (unstored (stored fields)).1)).any (pointsTo id weak)) := by
  refine Clause.accepts_anyReference (fun r => ?_) fields
  cases weak with
  | true =>
    rw [pointsTo, Bool.true_or, Bool.and_true]
    exact Clause.matchesElement_id id r
  | false => exact Clause.matchesElement_strong id r

/-- Nothing is left out of texts that are distinct already. -/
theorem distinct_eq_append {seen ss : List String} (h : (seen ++ ss).Nodup) :
    distinct seen ss = seen ++ ss := by
  induction ss generalizing seen with
  | nil => rw [distinct, List.append_nil]
  | cons s ss ih =>
    have hsplit : seen ++ s :: ss = seen ++ [s] ++ ss := by simp
    have hnew : seen.contains s = false := by
      rw [List.nodup_append] at h
      rw [← Bool.not_eq_true, List.contains_iff_mem]
      exact fun hs => h.2.2 s hs s List.mem_cons_self rfl
    rw [hsplit] at h ⊢
    rw [distinct, hnew, if_neg Bool.false_ne_true, ih h]

/-- Documents that share no id have different texts for ids. -/
theorem nodup_stringIds (hdistinct : DistinctIds documents) :
    (documents.filterMap stringId?).Nodup := by
  refine List.Pairwise.filterMap stringId? (fun d e hde s hs t ht => ?_) hdistinct
  rintro rfl
  rw [sameId_of_stringId? hs ht] at hde
  cases hde

/-- A document whose id is a text has a truthy id if the text is not empty. -/
theorem filterMap_truthy (p : Json → Bool) (documents : List Json) :
    (documents.filter fun d => ((Value.ofJson d).getD "_id").isTruthy && p d).filterMap stringId? =
      ((documents.filter p).filterMap stringId?).filter (· ≠ "") := by
  induction documents with
  | nil => rfl
  | cons d documents ih =>
    cases hp : p d with
    | false =>
      rw [List.filter_cons_of_neg (by simp [hp]), List.filter_cons_of_neg (by simp [hp]), ih]
    | true =>
      rw [List.filter_cons_of_pos hp]
      cases hid : stringId? d with
      | none =>
        rw [List.filterMap_cons_none hid, ← ih, List.filter_cons]
        split
        · rw [List.filterMap_cons_none hid]
        · rfl
      | some s =>
        rw [List.filterMap_cons_some hid]
        have htruthy := isTruthy_of_stringId? hid
        by_cases hs : s = ""
        · rw [List.filter_cons_of_neg (by simp [show _ = false by simpa [hs] using htruthy]),
            List.filter_cons_of_neg (by simp [hs]), ih]
        · rw [List.filter_cons_of_pos (by simp [hp, htruthy.mpr hs]), List.filterMap_cons_some hid,
            List.filter_cons_of_pos (by simp [hs]), ih]

theorem referencing_eq (hc : c.documents = documents.map storedOf)
    (hdocuments : ∀ d ∈ documents, IsDocument d) (hdistinct : DistinctIds documents) (id : String)
    (weak : Bool) : c.referencing id weak = .ok (referrers id weak documents) := by
  have hselect : select (Clause.on referencesField (Clause.on "$elemMatch"
      (.obj (("id", .str id) :: if weak then [] else [("weak", .bool false)])))) c.documents =
        .ok (c.documents.filter fun d => ((Value.ofJson (unstored d).1).getD "_id").isTruthy &&
          (findReferences (Value.ofJson (unstored d).1)).any (pointsTo id weak)) := by
    refine Pushdown.select_eq fun d hd => ?_
    rw [hc] at hd
    obtain ⟨e, he, rfl⟩ := List.mem_map.mp hd
    obtain ⟨fields, rfl⟩ := (hdocuments e he).isObject
    exact accepts_pointsTo id weak fields
  have hfound : (c.documents.filter fun d => ((Value.ofJson (unstored d).1).getD "_id").isTruthy &&
        (findReferences (Value.ofJson (unstored d).1)).any (pointsTo id weak)).filterMap stringId? =
      referrers id weak documents := by
    rw [referrers, ← filterMap_truthy, hc, List.filter_map, List.filterMap_map]
    have hfilter := List.filter_congr fun d (hd : d ∈ documents) => congrArg (fun e =>
      ((Value.ofJson e).getD "_id").isTruthy && (findReferences (.ofJson e)).any (pointsTo id weak))
      (unstored_storedOf (hdocuments d hd))
    refine (congrArg (List.filterMap (stringId? ∘ storedOf)) hfilter).trans ?_
    exact List.filterMap_congr fun d hd =>
      stringId?_storedOf (hdocuments d (List.mem_filter.mp hd).1)
  have hnodup : (referrers id weak documents).Nodup :=
    (nodup_stringIds (hdistinct.filter _)).filter _
  rw [referencing, hselect]
  show Except.ok (distinct [] (List.filterMap stringId? _)) = _
  rw [hfound, distinct_eq_append (by simpa using hnodup), List.nil_append]

/-- **The index agrees with a scan of the documents**, after every history of inserts. -/
theorem referencing_ofHistory (pushdown : Bool) (history : List Json) :
    (∀ id weak, (ofHistory pushdown history).referencing id weak =
        .ok (referrers id weak (arranged (acceptedOf history))) ∧
      (referrers id weak (arranged (acceptedOf history))).Nodup) ∧
    ∀ arguments values, Operation.literals? arguments = some values →
      ∃ clause, Clause.ofFilter (.call .references arguments) = .ok clause ∧
        ∀ d ∈ (ofHistory pushdown history).documents, ∃ accepted,
          clause.judge d = .ok accepted ∧ (accepted = true ↔
            ((Value.ofJson (unstored d).1).getD "_id").isTruthy = true ∧
            ∃ r ∈ findReferences (Value.ofJson (unstored d).1), Clause.Names values r.id) := by
  have hgiven : ∀ d ∈ arranged (acceptedOf history), IsDocument d :=
    fun _ => isDocument_of_mem_arranged
  have hdistinct := distinctIds_arranged (acceptedOf history)
  have hheld := documents_ofHistory pushdown history
  refine ⟨fun id weak => ⟨referencing_eq hheld hgiven hdistinct id weak,
    (nodup_stringIds (hdistinct.filter _)).filter _⟩, ?_⟩
  intro arguments values hvalues
  refine ⟨Clause.references arguments, rfl, fun d hd => ?_⟩
  rw [hheld] at hd
  obtain ⟨e, he, rfl⟩ := List.mem_map.mp hd
  obtain ⟨fields, rfl⟩ := (hgiven e he).isObject
  exact Clause.judge_references_stored hvalues fields

/-- The lookup and the filter at a document that refers and one that does not. -/
theorem referencing_ofHistory_referring :
    let history := [Json.obj [("_id", .str "a"), ("r", .obj [("_ref", .str "x")])],
      .obj [("_id", .str "b")]]
    (ofHistory true history).referencing "x" false = .ok ["a"] ∧
      Operation.literals? [.literal (.string "x")] = some [.string "x"] ∧
      ∃ clause, Clause.ofFilter (.call .references [.literal (.string "x")]) = .ok clause ∧
        ∀ d ∈ (ofHistory true history).documents, ∃ accepted,
          clause.judge d = .ok accepted ∧ (accepted = true ↔
            ((Value.ofJson (unstored d).1).getD "_id").isTruthy = true ∧
            ∃ r ∈ findReferences (Value.ofJson (unstored d).1), Clause.Names [.string "x"] r.id) :=
  ⟨((referencing_ofHistory true _).1 "x" false).1.trans (congrArg Except.ok (by decide +kernel)),
    rfl, (referencing_ofHistory true _).2 _ _ rfl⟩

end Collection
end DocQuery
