import DocQuery.Fetch.Join
import DocQuery.Proofs.Store.Document
import DocQuery.Proofs.Value.Comparison

/-!
# References

A reference is the `_ref` of an object; it refers to the first document whose `_id` loosely equals
it (`firstWithId`). Here is what following references along a path is to give, as functions of
values: `refAt` is the reference at the end of a path, `refsAt` lists those of the elements there.

References are expected to be strings that are not empty (`hasTextRefs`), so **what a path leads to
has such a reference or none** (`refAt_text`, `refsAt_text`).
-/

set_option autoImplicit false

namespace DocQuery

namespace Value

/-- A string that is not empty. -/
def isText : Value → Bool
  | string s => !s.isEmpty
  | _ => false

mutual

/-- Whether every `_ref` in a value is a string that is not empty. -/
def hasTextRefs : Value → Bool
  | array items => allHaveTextRefs items
  | object fields => fieldsHaveTextRefs fields
  | _ => true

def allHaveTextRefs : List Value → Bool
  | [] => true
  | v :: vs => hasTextRefs v && allHaveTextRefs vs

def fieldsHaveTextRefs : List (String × Value) → Bool
  | [] => true
  | (name, v) :: fs => (name != "_ref" || isText v) && hasTextRefs v && fieldsHaveTextRefs fs

end

/-- Whether a document has an id that loosely equals a value. -/
def hasLooseId (id document : Value) : Bool := (document.getD "_id").looseEq id

/-- The first document with an id, null when there is none. -/
def firstWithId (documents : List Value) (id : Value) : Value :=
  (documents.find? (hasLooseId id)).getD null

/-- The reference at the end of a path. -/
def refAt (path : List String) (v : Value) : Value := (v.follow path).getD "_ref"

/-- The references of the elements at the end of a path; what is no array is one element. -/
def refsAt (path : List String) (v : Value) : List Value :=
  (Join.spread (v.follow path)).map (·.getD "_ref")

/-! ## References that are texts -/

theorem hasTextRefs_of_mem {v : Value} {vs : List Value} (h : allHaveTextRefs vs = true)
    (hv : v ∈ vs) : v.hasTextRefs = true := by
  induction vs with
  | nil => cases hv
  | cons w vs ih =>
    simp only [allHaveTextRefs, Bool.and_eq_true] at h
    rcases List.mem_cons.mp hv with rfl | hv
    · exact h.1
    · exact ih h.2 hv

theorem hasTextRefs_get? {name : String} {v : Value} : ∀ {fields : List (String × Value)},
    fieldsHaveTextRefs fields = true → Fields.get? fields name = some v →
      v.hasTextRefs = true ∧ (name = "_ref" → v.isText = true)
  | (key, w) :: fields, h, hv => by
    simp only [fieldsHaveTextRefs, Bool.and_eq_true] at h
    rw [Fields.get?] at hv
    split at hv
    · next hkey =>
      cases hv
      refine ⟨h.1.2, fun hname => ?_⟩
      simpa [hkey, hname] using h.1.1
    · exact hasTextRefs_get? h.2 hv

theorem hasTextRefs_getD {v : Value} (h : v.hasTextRefs = true) (name : String) :
    (v.getD name).hasTextRefs = true := by
  cases v with
  | object fields =>
    show ((Fields.get? fields name).getD null).hasTextRefs = true
    cases hget : Fields.get? fields name with
    | none => rfl
    | some w => exact (hasTextRefs_get? h hget).1
  | _ => rfl

theorem hasTextRefs_follow {v : Value} (h : v.hasTextRefs = true) (path : List String) :
    (v.follow path).hasTextRefs = true := by
  induction path generalizing v with
  | nil => exact h
  | cons name path ih => exact ih (hasTextRefs_getD h name)

theorem getD_ref {v : Value} (h : v.hasTextRefs = true) :
    v.getD "_ref" = null ∨ (v.getD "_ref").isText = true := by
  cases v with
  | object fields =>
    show (Fields.get? fields "_ref").getD null = null ∨ _
    cases hget : Fields.get? fields "_ref" with
    | none => exact .inl rfl
    | some w =>
      refine .inr ?_
      show ((Fields.get? fields "_ref").getD null).isText = true
      rw [hget]
      exact (hasTextRefs_get? h hget).2 rfl
  | _ => exact .inl rfl

theorem hasTextRefs_of_mem_spread {v w : Value} (h : v.hasTextRefs = true)
    (hw : w ∈ Join.spread v) : w.hasTextRefs = true := by
  cases v with
  | array items => exact hasTextRefs_of_mem h hw
  | _ =>
    rw [List.mem_singleton.mp hw]
    exact h

theorem refAt_text {v : Value} (h : v.hasTextRefs = true) (path : List String) :
    v.refAt path = null ∨ (v.refAt path).isText = true :=
  getD_ref (hasTextRefs_follow h path)

theorem refsAt_text {v : Value} (h : v.hasTextRefs = true) (path : List String) :
    ∀ ref ∈ v.refsAt path, ref = null ∨ ref.isText = true :=
  List.forall_mem_map.mpr fun _ hw =>
    getD_ref (hasTextRefs_of_mem_spread (hasTextRefs_follow h path) hw)

theorem exists_of_isText {v : Value} (h : v.isText = true) : ∃ s, v = string s ∧ s ≠ "" := by
  cases v with
  | string s =>
    refine ⟨s, rfl, ?_⟩
    rintro rfl
    cases h
  | _ => cases h

theorem isTruthy_of_isText {v : Value} (h : v.isText = true) : v.isTruthy = true := by
  obtain ⟨s, rfl, -⟩ := exists_of_isText h
  exact h

/-- Among texts there is only one kind of equality. -/
theorem eq_of_same_text {v w : Value} (hw : w.isText = true) (h : v.same w = true) : v = w := by
  obtain ⟨s, rfl, -⟩ := exists_of_isText hw
  cases v with
  | string t => exact congrArg string (by simpa [same] using h)
  | _ => simp [same] at h

@[simp] theorem hasLooseId_null (document : Value) : hasLooseId null document = false :=
  looseEq_null _

@[simp] theorem firstWithId_null (documents : List Value) : firstWithId documents null = null := by
  have hnone : documents.find? (hasLooseId null) = none := by simp
  rw [firstWithId, hnone]
  rfl

theorem hasTextRefs_firstWithId {documents : List Value}
    (h : ∀ d ∈ documents, d.hasTextRefs = true) (id : Value) :
    (firstWithId documents id).hasTextRefs = true := by
  unfold firstWithId
  cases hfind : documents.find? (hasLooseId id) with
  | none => rfl
  | some d => exact h d (List.mem_of_find?_eq_some hfind)

theorem firstWithId_eq {documents found : List Value} {id : Value}
    (h : found.filter (hasLooseId id) = documents.filter (hasLooseId id)) :
    firstWithId found id = firstWithId documents id := by
  unfold firstWithId
  rw [← List.head?_filter, ← List.head?_filter, h]

end Value

end DocQuery
