import DocQuery.Proofs.Value.Parts

/-!
# Two encoders of a value

A value is written as text directly (`Value.render`), and by way of its JSON (`Value.toJson`). Results
take the first way; selectors and cached ids take the second. They agree on every value
(`render_toJson`), the paths and the doubles that are no numbers included: there both write what JSON
has in their place.

Reading JSON as a value loses nothing but integers beyond 64 bits (`toJson_ofJson`), and writing a
value as JSON loses nothing but paths and doubles that are no numbers (`ofJson_toJson`). Both encoders
go through the fields of an object in the order of the names. JSON puts them there again when it is
normalized, which has nothing left to do (`normalize_toJson`).
-/

set_option autoImplicit false

namespace DocQuery

namespace Json

mutual

/-- Whether the numbers in a JSON value are integers of 64 bits and finite doubles. -/
def numbersFit : Json → Bool
  | int n => fitsInt64 n
  | float d => d.isFinite
  | arr items => itemsFit items
  | obj fields => fieldsFit fields
  | null | bool _ | str _ => true

def itemsFit : List Json → Bool
  | [] => true
  | j :: js => numbersFit j && itemsFit js

def fieldsFit : List (String × Json) → Bool
  | [] => true
  | (_, j) :: fs => numbersFit j && fieldsFit fs

end

theorem normalizeItems_eq_map (js : List Json) : normalizeItems js = js.map normalize := by
  induction js with
  | nil => rfl
  | cons j js ih => rw [normalizeItems, ih, List.map_cons]

theorem normalizeFields_eq_map (fs : List (String × Json)) :
    normalizeFields fs = fs.map fun f => (f.1, f.2.normalize) := by
  induction fs with
  | nil => rfl
  | cons f fs ih => rw [normalizeFields, ih, List.map_cons]

end Json

namespace Value

/-! ## Text -/

theorem renderItems_toItems {vs : List Value} (h : ∀ v ∈ vs, v.toJson.render = v.render) :
    Json.renderItems (toItems vs) = renderItems vs := by
  induction vs with
  | nil => rfl
  | cons v vs ih =>
    rw [toItems, Json.renderItems, renderItems, h v List.mem_cons_self,
      ih fun w hw => h w (List.mem_cons_of_mem v hw)]

theorem renderFields_toFields {fs : List (String × Value)}
    (h : ∀ f ∈ fs, f.2.toJson.render = f.2.render) :
    Json.renderFields (toFields fs) = renderFields fs := by
  induction fs with
  | nil => rfl
  | cons f fs ih =>
    rw [toFields, Json.renderFields, renderFields, h f List.mem_cons_self,
      ih fun g hg => h g (List.mem_cons_of_mem f hg)]

theorem render_toJson : ∀ v : Value, v.toJson.render = v.render
  | float d => by
    rw [toJson, render, Json.doubleText]
    split
    · next hfinite => rw [Json.render, Json.doubleText, if_pos hfinite]
    · rfl
  | array items => congrArg Json.arrayText (renderItems_toItems fun v _ => render_toJson v)
  | object fields => congrArg Json.objectText (renderFields_toFields fun f _ => render_toJson f.2)
  | null | bool _ | int _ | string _ | path _ => rfl
termination_by v => sizeOf v
decreasing_by
  · next hv =>
    have hitem : sizeOf v < sizeOf items := List.sizeOf_lt_of_mem hv
    rw [array.sizeOf_spec]
    omega
  · next hf =>
    have hfield : sizeOf f < sizeOf fields := List.sizeOf_lt_of_mem hf
    obtain ⟨name, v⟩ := f
    rw [Prod.mk.sizeOf_spec] at hfield
    show sizeOf v < sizeOf (object fields)
    rw [object.sizeOf_spec]
    omega

/-! ## There and back -/

mutual

theorem toJson_ofJson : ∀ {j : Json}, j.numbersFit = true → (ofJson j).toJson = j
  | .null, _ | .bool _, _ | .str _, _ => rfl
  | .int n, h => by
    have hn : fitsInt64 n = true := h
    rw [ofJson, if_pos hn, toJson]
  | .float d, h => by
    have hd : d.isFinite = true := h
    rw [ofJson, toJson, if_pos hd]
  | .arr items, h => congrArg Json.arr (toItems_ofItems h)
  | .obj fields, h => congrArg Json.obj (toFields_ofFields h)

theorem toItems_ofItems : ∀ {js : List Json}, Json.itemsFit js = true → toItems (ofItems js) = js
  | [], _ => rfl
  | j :: js, h => by
    simp only [Json.itemsFit, Bool.and_eq_true] at h
    rw [ofItems, toItems, toJson_ofJson h.1, toItems_ofItems h.2]

theorem toFields_ofFields : ∀ {fs : List (String × Json)}, Json.fieldsFit fs = true →
    toFields (ofFields fs) = fs
  | [], _ => rfl
  | (name, j) :: fs, h => by
    simp only [Json.fieldsFit, Bool.and_eq_true] at h
    rw [ofFields, toFields, toJson_ofJson h.1, toFields_ofFields h.2]

end

/-! ## The order of names -/

/-- A value in order becomes JSON in order. -/
theorem normalize_toJson {v : Value} (h : v.IsOrdered) : v.toJson.normalize = v.toJson := by
  induction h with
  | @mk v hsorted _ ih =>
    cases v with
    | array items =>
      rw [toJson, Json.normalize, toItems_eq_map, Json.normalizeItems_eq_map, List.map_map]
      refine congrArg Json.arr (List.map_congr_left fun item hitem => ?_)
      obtain ⟨i, hi⟩ := List.mem_iff_getElem?.mp hitem
      have hpart : (Branch.element i, item) ∈ (array items).parts :=
        List.mem_map.mpr ⟨(item, i), List.mem_zipIdx_iff_getElem?.mpr hi, rfl⟩
      exact ih _ hpart
    | object fields =>
      rw [toJson, Json.normalize, toFields_eq_map, Json.normalizeFields_eq_map, List.map_map]
      have hnormal : fields.map ((fun f => (f.1, f.2.normalize)) ∘ fun f => (f.1, f.2.toJson)) =
          fields.map fun f => (f.1, f.2.toJson) :=
        List.map_congr_left fun f hf =>
          congrArg (f.1, ·) (ih (.field f.1, f.2) (List.mem_map.mpr ⟨f, hf, rfl⟩))
      have horder : Fields.Sorted (fields.map fun f => (f.1, f.2.toJson)) :=
        List.pairwise_map.mpr (hsorted fields rfl)
      rw [hnormal, horder.ofList_eq]
    | float d =>
      rw [toJson]
      split <;> rfl
    | _ => rfl

/-! ## Agreement -/

/-- **Both encoders write one text, in one order of names, and JSON and values survive each other**
where the numbers fit and where there is no path. -/
theorem encoders_agree :
    (∀ v : Value, v.render = v.toJson.render ∧ (v.IsOrdered → v.toJson.normalize = v.toJson)) ∧
      (∀ j : Json, j.numbersFit = true → (ofJson j).toJson = j) ∧
      ∀ v : Value, v.isJson = true → ofJson v.toJson = v :=
  ⟨fun v => ⟨(render_toJson v).symm, normalize_toJson⟩, fun _ => toJson_ofJson,
    fun _ => ofJson_toJson⟩

/-- An object in an array with the integer one, the double one and the negative zero in it. -/
theorem encoders_agree_numbers :
    let j : Json := .arr [.obj [("d", .float ⟨0x3FF0000000000000⟩), ("i", .int 1),
      ("z", .float ⟨0x8000000000000000⟩)], .null]
    j.numbersFit = true ∧ (ofJson j).toJson = j ∧ (ofJson j).isJson = true ∧
      ofJson (ofJson j).toJson = ofJson j ∧ (ofJson j.normalize).IsOrdered ∧
      (ofJson j.normalize).toJson.normalize = (ofJson j.normalize).toJson := by
  intro j
  have hfit : j.numbersFit = true := by decide
  have hjson : (ofJson j).isJson = true := by decide
  have hordered : (ofJson j.normalize).IsOrdered := isOrdered_ofJson j
  obtain ⟨hencode, hback, hforth⟩ := encoders_agree
  exact ⟨hfit, hback j hfit, hjson, hforth _ hjson, hordered, (hencode _).2 hordered⟩

/-- Infinity has no text of its own, and a path has the text of a string. -/
example : (array [float ⟨0x7FF0000000000000⟩, path ⟨["a", "b"]⟩]).render = "[null,\"a.b\"]" := by
  decide +kernel

end Value
end DocQuery
