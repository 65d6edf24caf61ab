import DocQuery.Proofs.Store.Selector
import DocQuery.Proofs.Text.Dotted
import DocQuery.Proofs.Value.Json
import DocQuery.Scope
import DocQuery.Store.Collection

/-!
# Stored documents

A collection keeps a document without the references it came with and with the ones found in it
(`Collection.stored`). What leaves the store is the document again (`unstored_stored`), and a field
is read from either with the same result unless it is the one that holds the references.

The store reads a field by its dotted name, the engine walks an accessor. `ofJson?_lookup_stored`
and `value_resolve` say that both follow the names of the field, one through JSON and one through
values.
-/

set_option autoImplicit false

namespace DocQuery

namespace Fields

variable {α : Type}

theorem erase_insert (fs : Fields α) (name : String) (value : α) :
    (fs.insert name value).erase name = fs.erase name := by
  induction fs with
  | nil => simp [insert, erase]
  | cons f fs ih =>
    obtain ⟨k, v⟩ := f
    unfold erase at ih ⊢
    rw [insert]
    split
    · simp
    · split
      · next hk => simp [hk]
      · rw [List.filter_cons, List.filter_cons, ih]

theorem erase_erase (fs : Fields α) (name : String) :
    (fs.erase name).erase name = fs.erase name := by
  simp [erase]

end Fields

namespace Collection

open Clause (referencesField)

variable (fields : Fields Json)

/-- The document that a stored one was made from. -/
theorem unstored_stored : (unstored (stored fields)).1 = .obj (fields.erase referencesField) := by
  unfold stored
  dsimp only
  split
  · show Json.obj (Fields.erase (Fields.insert _ _ _) _) = _
    rw [Fields.erase_insert, Fields.erase_erase]
  · show Json.obj (Fields.erase _ _) = _
    rw [Fields.erase_erase]

theorem get?_stored_of_ne {name : String} (h : name ≠ referencesField) :
    (stored fields).get? name = (unstored (stored fields)).1.get? name := by
  rw [unstored_stored]
  unfold stored
  dsimp only
  split
  · show Fields.get? (Fields.insert _ _ _) name = Fields.get? _ name
    rw [Fields.get?_insert, if_neg (Ne.symm h)]
  · rfl

/-- References are stored for a document with a truthy `_id`, and they are those found in it. -/
theorem get?_stored_references :
    (stored fields).get? referencesField =
      if ((Value.ofJson (unstored (stored fields)).1).getD "_id").isTruthy then
        some (Reference.listToJson (findReferences (Value.ofJson (unstored (stored fields)).1)))
      else none := by
  rw [unstored_stored]
  unfold stored
  dsimp only
  split
  · show Fields.get? (Fields.insert _ _ _) _ = _
    rw [Fields.get?_insert, if_pos rfl]
  · show Fields.get? _ _ = _
    rw [Fields.get?_erase, if_pos rfl]

end Collection

/-! ## Fields by their names -/

namespace Value

/-- The value at the end of a list of attribute names. -/
def follow (v : Value) (names : List String) : Value := names.foldl getD v

theorem follow_null (names : List String) : null.follow names = null := by
  induction names with
  | nil => rfl
  | cons name names ih => exact ih

theorem ofJson?_foldlM (names : List String) (j : Json) :
    ofJson? (names.foldlM (fun j name => j.get? name) j) = (ofJson j).follow names := by
  induction names generalizing j with
  | nil => rfl
  | cons name names ih =>
    have hget : (ofJson j).getD name = ofJson? (j.get? name) := by
      exact getD_ofJson? (some j) name
    rw [List.foldlM_cons, follow, List.foldl_cons, hget]
    cases j.get? name with
    | none => exact (follow_null names).symm
    | some k => exact ih k

end Value

namespace Operation

/-- Names that survive being joined with dots and split again, and are not those of the references
that the store keeps for itself. -/
def isFieldPath (names : List String) : Bool :=
  names.all Path.isSegment && names != [Clause.referencesField]

/-- Names that survive being joined with dots and split again, and read nothing that the store keeps
for itself. -/
def isPlainPath (names : List String) : Bool :=
  names.all Path.isSegment && names.head? != some Clause.referencesField &&
    !Selector.reserved.contains (String.intercalate "." names)

theorem isFieldPath_of_isPlainPath {names : List String} (h : isPlainPath names = true) :
    isFieldPath names = true := by
  simp only [isPlainPath, Bool.and_eq_true] at h
  obtain ⟨⟨hall, hhead⟩, -⟩ := h
  refine Bool.and_eq_true_iff.mpr ⟨hall, ?_⟩
  rw [bne_iff_ne]
  rintro rfl
  simp at hhead

theorem fieldName?_accessor {path : List PathStep} {field : String}
    (h : (accessor path).fieldName? = some field) :
    ∃ names, attributeNames? path = some names ∧ names ≠ [] ∧
      field = String.intercalate "." names := by
  cases path with
  | nil => simp [fieldName?] at h
  | cons step steps =>
    simp only [fieldName?, Option.map_eq_some_iff] at h
    obtain ⟨names, hnames, rfl⟩ := h
    refine ⟨names, hnames, ?_, rfl⟩
    rintro rfl
    cases step with
    | parent => simp [attributeNames?] at hnames
    | attr name => simp [attributeNames?] at hnames

end Operation

theorem Selector.lookup_intercalate {names : List String} (hne : names ≠ [])
    (h : names.all Path.isSegment = true) (document : Json) :
    lookup document (String.intercalate "." names) =
      names.foldlM (fun j name => j.get? name) document := by
  rw [lookup, Path.segments_parse_intercalate hne h]

/-- The references of a stored document are a list, in which there are no fields. -/
theorem Collection.bind_get?_references (fields : Fields Json) (name : String) :
    ((stored fields).get? Clause.referencesField).bind (·.get? name) = none := by
  rw [get?_stored_references]
  split <;> rfl

/-- The store finds in a stored document what the names lead to in the document itself. -/
theorem Collection.ofJson?_lookup_stored {names : List String} (hne : names ≠ [])
    (h : Operation.isFieldPath names = true) (fields : Fields Json) :
    Value.ofJson? (Selector.lookup (stored fields) (String.intercalate "." names)) =
      (Value.ofJson (unstored (stored fields)).1).follow names := by
  obtain ⟨hall, hself⟩ := Bool.and_eq_true_iff.mp h
  rw [Selector.lookup_intercalate hne hall, ← Value.ofJson?_foldlM]
  cases names with
  | nil => exact absurd rfl hne
  | cons name names =>
    by_cases hname : name = Clause.referencesField
    · subst hname
      have hnone : (unstored (stored fields)).1.get? Clause.referencesField = none := by
        rw [unstored_stored]
        show Fields.get? (Fields.erase _ _) _ = none
        rw [Fields.get?_erase, if_pos rfl]
      cases names with
      | nil => simp at hself
      | cons other names =>
        have hlist := bind_get?_references fields other
        rw [List.foldlM_cons, List.foldlM_cons, hnone]
        cases hrefs : (stored fields).get? Clause.referencesField with
        | none => rfl
        | some references =>
          rw [hrefs] at hlist
          change references.get? other = none at hlist
          show Value.ofJson? ((references.get? other).bind _) = Value.ofJson? none
          rw [hlist]
          rfl
    · rw [List.foldlM_cons, List.foldlM_cons, get?_stored_of_ne fields hname]

theorem Scope.value_resolve {path : List PathStep} {names : List String}
    (h : Operation.attributeNames? path = some names) (s : Scope) :
    (s.resolve path).value = s.value.follow names := by
  induction path generalizing s names with
  | nil =>
    simp only [Operation.attributeNames?, Option.some.injEq] at h
    subst h
    rfl
  | cons step steps ih =>
    cases step with
    | parent => simp [Operation.attributeNames?] at h
    | attr name =>
      simp only [Operation.attributeNames?, Option.map_eq_some_iff] at h
      obtain ⟨names, hnames, rfl⟩ := h
      have hattr : (s.attr name).value = s.value.getD name := rfl
      rw [resolve]
      split
      · next hnull =>
        rw [hattr] at hnull
        rw [hattr, Value.follow, List.foldl_cons, Value.eq_null_of_isNull hnull]
        exact (Value.follow_null names).symm
      · exact ih hnames (s.attr name)

end DocQuery
