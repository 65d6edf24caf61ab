import DocQuery.Proofs.Value.Json

/-!
# The parts of a value

A value is a tree. The elements of an array stand behind their positions and the fields of an object
behind their names (`Branch`); a place is the list of branches that leads from the value to a part
of it. `Value.parts` lists what stands one branch away, in order.

Objects have their fields in order and no name twice. In a value where that holds throughout
(`IsOrdered`) **a branch leads to the part that is listed with it** (`mem_parts`), and the branches
are listed in order (`parts_inOrder`). Being ordered is said by the parts, so an induction on it is
an induction on the tree. What is read from JSON is ordered (`isOrdered_ofJson`).
-/

set_option autoImplicit false

namespace DocQuery

/-! ## Branches -/

/-- One step into a value. -/
inductive Branch where
  | field (name : String)
  | element (position : Nat)
deriving DecidableEq

/-- The order of the branches of one value: fields by name, elements by position. -/
inductive Branch.Before : Branch → Branch → Prop
  | field {a b : String} (h : a < b) : Before (.field a) (.field b)
  | element {i j : Nat} (h : i < j) : Before (.element i) (.element j)

namespace Value

/-- What stands behind the branches of a value, in order. -/
def parts : Value → List (Branch × Value)
  | array items => items.zipIdx.map fun item => (.element item.2, item.1)
  | object fields => fields.map fun f => (.field f.1, f.2)
  | _ => []

/-- The part of a value behind a branch. -/
def part? : Value → Branch → Option Value
  | array items, .element position => items[position]?
  | object fields, .field name => Fields.get? fields name
  | _, _ => none

/-- The part of a value at a place. -/
def at? (v : Value) (place : List Branch) : Option Value := place.foldlM part? v

@[simp] theorem at?_nil (v : Value) : v.at? [] = some v := rfl

@[simp] theorem at?_cons (v : Value) (branch : Branch) (place : List Branch) :
    v.at? (branch :: place) = (v.part? branch).bind (·.at? place) := rfl

/-! ## Order -/

/-- Every object in the value has its fields in order, no name twice. -/
inductive IsOrdered : Value → Prop
  | mk {v : Value} (sorted : ∀ fields, v = object fields → Fields.Sorted fields)
      (ordered : ∀ c ∈ v.parts, IsOrdered c.2) : IsOrdered v

theorem IsOrdered.sorted {fields : Fields Value} (h : (object fields).IsOrdered) :
    fields.Sorted := by
  cases h with
  | mk hsorted _ => exact hsorted fields rfl

theorem mem_parts {v w : Value} {branch : Branch} (h : v.IsOrdered) :
    (branch, w) ∈ v.parts ↔ v.part? branch = some w := by
  cases v with
  | array items =>
    cases branch with
    | field name => simp [parts, part?]
    | element position =>
      simp only [parts, part?, List.mem_map, Prod.mk.injEq, Branch.element.injEq]
      constructor
      · rintro ⟨item, hitem, rfl, rfl⟩
        exact List.mem_zipIdx_iff_getElem?.mp hitem
      · intro hget
        exact ⟨(w, position), List.mem_zipIdx_iff_getElem?.mpr hget, rfl, rfl⟩
  | object fields =>
    cases branch with
    | element position => simp [parts, part?]
    | field name =>
      simp only [parts, part?, List.mem_map, Prod.mk.injEq, Branch.field.injEq]
      constructor
      · rintro ⟨f, hf, rfl, rfl⟩
        exact h.sorted.get?_of_mem hf
      · intro hget
        exact ⟨(name, w), Fields.mem_of_get? hget, rfl, rfl⟩
  | _ => simp [parts, part?]

theorem parts_inOrder {v : Value} (h : v.IsOrdered) :
    v.parts.Pairwise fun c d => c.1.Before d.1 := by
  cases v with
  | array items =>
    have hpositions : items.zipIdx.Pairwise fun a b => a.2 < b.2 := by
      rw [← List.pairwise_map, List.zipIdx_map_snd]
      exact List.pairwise_lt_range'
    exact List.pairwise_map.mpr (hpositions.imp .element)
  | object fields => exact List.pairwise_map.mpr (h.sorted.imp .field)
  | _ => exact .nil

/-! ## Values read from JSON -/

theorem exists_of_mem_ofFields {fs : List (String × Json)} {f : String × Value}
    (h : f ∈ ofFields fs) : ∃ j, (f.1, j) ∈ fs ∧ f.2 = ofJson j := by
  induction fs with
  | nil => cases h
  | cons g fs ih =>
    rcases List.mem_cons.mp h with rfl | h
    · exact ⟨g.2, List.mem_cons_self, rfl⟩
    · obtain ⟨j, hj, hf⟩ := ih h
      exact ⟨j, List.mem_cons_of_mem _ hj, hf⟩

theorem sorted_ofFields {fs : Fields Json} (h : fs.Sorted) : Fields.Sorted (ofFields fs) := by
  induction fs with
  | nil => exact .nil
  | cons g fs ih =>
    obtain ⟨hg, hfs⟩ := List.pairwise_cons.mp h
    refine List.pairwise_cons.mpr ⟨fun f hf => ?_, ih hfs⟩
    obtain ⟨j, hj, -⟩ := exists_of_mem_ofFields hf
    exact hg (f.1, j) hj

theorem isOrdered_of_parts_nil {v : Value} (h : v.parts = []) (hne : ∀ fields, v ≠ object fields) :
    v.IsOrdered :=
  .mk (fun fields hv => absurd hv (hne fields)) (by simp [h])

mutual

theorem isOrdered_ofJson : ∀ j : Json, (ofJson j.normalize).IsOrdered
  | .arr items => by
    refine .mk (fun _ h => nomatch h) fun c hc => ?_
    obtain ⟨item, hitem, rfl⟩ := List.mem_map.mp hc
    exact isOrdered_ofItems items _ (List.fst_mem_of_mem_zipIdx hitem)
  | .obj fields => by
    refine .mk (fun fs h => ?_) fun c hc => ?_
    · cases h
      exact sorted_ofFields (Fields.sorted_ofList _)
    · obtain ⟨f, hf, rfl⟩ := List.mem_map.mp hc
      obtain ⟨j, hj, heq⟩ := exists_of_mem_ofFields hf
      rw [heq]
      exact isOrdered_fields fields _ ((Fields.mem_merge hj).resolve_right (nomatch ·))
  | .int n => by
    rw [Json.normalize, ofJson]
    · split <;> exact isOrdered_of_parts_nil rfl (fun _ h => nomatch h)
    all_goals exact fun _ h => nomatch h
  | .null | .bool _ | .float _ | .str _ => isOrdered_of_parts_nil rfl (fun _ h => nomatch h)

theorem isOrdered_ofItems : ∀ items : List Json, ∀ v ∈ ofItems (Json.normalizeItems items),
    v.IsOrdered
  | j :: js, v, hv => by
    rcases List.mem_cons.mp hv with rfl | hv
    · exact isOrdered_ofJson j
    · exact isOrdered_ofItems js v hv

theorem isOrdered_fields : ∀ fields : List (String × Json), ∀ f ∈ Json.normalizeFields fields,
    (ofJson f.2).IsOrdered
  | (name, j) :: fs, f, hf => by
    rcases List.mem_cons.mp hf with rfl | hf
    · exact isOrdered_ofJson j
    · exact isOrdered_fields fs f hf

end

end Value
end DocQuery
