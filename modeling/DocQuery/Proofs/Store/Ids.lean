import DocQuery.Proofs.Store.Answer
import DocQuery.Proofs.Value.References

/-!
# Documents by their ids

A reference is followed by asking for documents with certain ids: for one id, for one of several, or
for none at all (`Finds`). **A collection answers with just the documents that have one of them**,
in their order (`Finds.fetch`).
-/

set_option autoImplicit false

namespace DocQuery

namespace Pushdown

open Local Engine Clause Collection

/-- A filter that finds the documents with one of some ids, and a store that reads it finds no
others. -/
structure Finds (filter : Operation) (ids : List Value) : Prop where
  isLocal : filter.isLocal = true
  plain : filter.isPlainFilter = true
  /-- It has a value at every document. -/
  eval : ∀ v, ∃ w, Local.eval filter v = .ok w ∧
    w.same (.bool true) = ids.any fun id => Value.hasLooseId id v
  translated : ∃ clause, ofFilter filter = .ok clause ∧ clause.isExact = true

theorem isJson_of_isText {v : Value} (h : v.isText = true) : v.isJson = true := by
  obtain ⟨s, rfl, -⟩ := Value.exists_of_isText h
  rfl

theorem allJson_of_isText {ids : List Value} (h : ∀ id ∈ ids, id.isText = true) :
    Value.allJson ids = true :=
  Value.allJson_of_forall fun id hid => isJson_of_isText (h id hid)

theorem operand_id : Operand.ofOperation (.attr "_id") = .field "_id" := rfl

theorem finds_nothing : Finds (.literal (.bool false)) [] where
  isLocal := rfl
  plain := rfl
  eval _ := ⟨_, rfl, rfl⟩
  translated := ⟨_, rfl, rfl⟩

theorem finds_one {id : Value} (h : id.isText = true) :
    Finds (.binary .eq (.attr "_id") (.literal id)) [id] where
  isLocal := rfl
  plain := by
    have hliteral : (Operation.literal id).isPlainOperand = true := isJson_of_isText h
    exact Bool.and_eq_true_iff.mpr ⟨by decide, hliteral⟩
  eval v := ⟨_, rfl, (Operator.same_truth_equals _ _).trans (Bool.or_false _).symm⟩
  translated := ⟨_, rfl, isExact_compare_literal operand_id id⟩

theorem finds_member {ids : List Value} (h : ∀ id ∈ ids, id.isText = true) :
    Finds (.binary .member (.attr "_id") (.literal (.array ids))) ids where
  isLocal := rfl
  plain := Bool.and_eq_true_iff.mpr ⟨by decide, allJson_of_isText h⟩
  eval v := by
    have heval : Local.eval (.binary .member (.attr "_id") (.literal (.array ids))) v =
        Operator.membership (v.getD "_id") (.array ids) := rfl
    rw [heval, Operator.membership]
    cases hnull : (v.getD "_id").isNull with
    | true =>
      refine ⟨.null, rfl, ?_⟩
      have hid : v.getD "_id" = .null := by
        cases hid : v.getD "_id" with
        | null => rfl
        | _ =>
          rw [hid] at hnull
          cases hnull
      simp [Value.hasLooseId, hid, Value.same]
    | false =>
      refine ⟨.bool (ids.any (v.getD "_id").looseEq), ?_, beq_true _⟩
      have harray : (Value.array ids).isNull = false := rfl
      rw [harray]
      show (Operator.inItems _ ids).map Value.bool = _
      rw [Operator.inItems_eq_any (Value.ne_path_of_allJson (allJson_of_isText h))]
      rfl
  translated := ⟨_, rfl, isExact_member_literal operand_id ids⟩

/-- The filter that an equality of ids is widened to. -/
theorem finds_widenEq {ids : List Value} (h : ∀ id ∈ ids, id.isText = true) :
    Finds (Join.widenEq (.attr "_id") ids) ids := by
  cases ids with
  | nil => exact finds_nothing
  | cons id rest =>
    cases rest with
    | nil => exact finds_one (h id List.mem_cons_self)
    | cons other rest => exact finds_member h

/-- The selector of an equality with values accepts nothing else. -/
theorem isExact_widenEq {o : Operation} {field : String} (ho : Operand.ofOperation o = .field field)
    {values : List Value} {clause : Clause} (h : ofFilter (Join.widenEq o values) = .ok clause) :
    clause.isExact = true := by
  unfold Join.widenEq at h
  split at h
  · cases h
    rfl
  · cases h
    exact isExact_compare_literal ho _
  · cases h
    exact isExact_member_literal ho _

variable {documents : List Json} {filter : Operation} {ids : List Value}

/-- A store reads such a filter as it is. -/
theorem Finds.accepted_eq (h : Finds filter ids) {clause : Clause}
    (htranslated : ofFilter filter = .ok clause) {d : Json} (hd : IsDocument d) :
    accepted clause (storedOf d) = ids.any fun id => Value.hasLooseId id (.ofJson d) := by
  obtain ⟨clause', hclause, hexact⟩ := h.translated
  cases htranslated.symm.trans hclause
  obtain ⟨w, hw, hsame⟩ := h.eval (.ofJson d)
  rw [← hsame]
  exact accepted_eq_same (describes_eval hd h.isLocal h.plain hclause hw) hexact

/-- A collection that is asked for documents by their ids gives these. -/
theorem Finds.fetch (h : Finds filter ids) (hdocuments : ∀ d ∈ documents, IsDocument d)
    (pushdown : Bool) :
    (⟨pushdown, documents.map storedOf⟩ : Collection).fetch (.filtered filter) =
      .ok (respond ((documents.filter fun d =>
        ids.any fun id => Value.hasLooseId id (.ofJson d)).map storedOf) 0) := by
  obtain ⟨clause, hclause, -⟩ := h.translated
  rw [fetch_filtered hdocuments h.plain hclause pushdown,
    List.filter_congr fun d hd => h.accepted_eq hclause (hdocuments d hd)]

end Pushdown
end DocQuery
