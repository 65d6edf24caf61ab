import DocQuery.Value.Json

/-!
# Values that JSON can write

A literal goes to the store as JSON and is read back there before it is compared. `ofJson_toJson`
says for which values nothing is lost on the way: those with finite doubles, integers of 64 bits and
no paths (`isJson`). In the other direction reading commutes with looking fields up.
-/

set_option autoImplicit false

namespace DocQuery
namespace Value

theorem eq_null_of_isNull {v : Value} (h : v.isNull = true) : v = .null := by
  cases v with
  | null => rfl
  | _ => cases h

mutual

/-- Whether JSON can write the value: finite doubles, integers of 64 bits, and no paths. -/
def isJson : Value → Bool
  | null | bool _ | string _ => true
  | float d => d.isFinite
  | int n => fitsInt64 n
  | array items => allJson items
  | object fields => fieldsJson fields
  | path _ => false

def allJson : List Value → Bool
  | [] => true
  | v :: vs => isJson v && allJson vs

def fieldsJson : List (String × Value) → Bool
  | [] => true
  | (_, v) :: fs => isJson v && fieldsJson fs

end

/-! ## There and back -/

mutual

theorem ofJson_toJson : ∀ {v : Value}, v.isJson = true → ofJson v.toJson = v
  | null, _ | bool _, _ | string _, _ => rfl
  | float d, h => by
    have hd : d.isFinite = true := h
    rw [toJson, if_pos hd, ofJson]
  | int n, h => by
    have hn : fitsInt64 n = true := h
    rw [toJson, ofJson, if_pos hn]
  | array items, h => congrArg array (ofItems_toItems h)
  | object fields, h => congrArg object (ofFields_toFields h)
  | path _, h => by simp [isJson] at h

theorem ofItems_toItems : ∀ {vs : List Value}, allJson vs = true → ofItems (toItems vs) = vs
  | [], _ => rfl
  | v :: vs, h => by
    simp only [allJson, Bool.and_eq_true] at h
    rw [toItems, ofItems, ofJson_toJson h.1, ofItems_toItems h.2]

theorem ofFields_toFields : ∀ {fs : List (String × Value)}, fieldsJson fs = true →
    ofFields (toFields fs) = fs
  | [], _ => rfl
  | (name, v) :: fs, h => by
    simp only [fieldsJson, Bool.and_eq_true] at h
    rw [toFields, ofFields, ofJson_toJson h.1, ofFields_toFields h.2]

end

theorem eq_of_toJson {v w : Value} (hv : v.isJson = true) (hw : w.isJson = true)
    (h : v.toJson = w.toJson) : v = w := by
  rw [← ofJson_toJson hv, h, ofJson_toJson hw]

theorem ofItems_eq_map (js : List Json) : ofItems js = js.map ofJson := by
  induction js with
  | nil => rfl
  | cons j js ih => rw [ofItems, ih, List.map_cons]

theorem toItems_eq_map (vs : List Value) : toItems vs = vs.map toJson := by
  induction vs with
  | nil => rfl
  | cons v vs ih => rw [toItems, ih, List.map_cons]

theorem toFields_eq_map (fs : List (String × Value)) :
    toFields fs = fs.map fun f => (f.1, f.2.toJson) := by
  induction fs with
  | nil => rfl
  | cons f fs ih => rw [toFields, ih, List.map_cons]

/-- A list that JSON can write has items that it can write. -/
theorem isJson_of_mem {v : Value} {vs : List Value} (h : allJson vs = true) (hv : v ∈ vs) :
    v.isJson = true := by
  induction vs with
  | nil => cases hv
  | cons w vs ih =>
    simp only [allJson, Bool.and_eq_true] at h
    rcases List.mem_cons.mp hv with rfl | hv
    · exact h.1
    · exact ih h.2 hv

theorem allJson_of_forall {vs : List Value} (h : ∀ v ∈ vs, v.isJson = true) : allJson vs = true := by
  induction vs with
  | nil => rfl
  | cons v vs ih =>
    exact Bool.and_eq_true_iff.mpr ⟨h v List.mem_cons_self,
      ih fun w hw => h w (List.mem_cons_of_mem v hw)⟩

/-! ## Fields of what was read -/

theorem get?_ofFields (fs : List (String × Json)) (name : String) :
    Fields.get? (ofFields fs) name = (Fields.get? fs name).map ofJson := by
  induction fs with
  | nil => rfl
  | cons f fs ih =>
    obtain ⟨k, j⟩ := f
    rw [ofFields, Fields.get?, Fields.get?]
    split
    · rfl
    · exact ih

theorem get?_ofJson (j : Json) (name : String) :
    (ofJson j).get? name = (j.get? name).map ofJson := by
  cases j with
  | obj fields => exact get?_ofFields fields name
  | int n =>
    rw [ofJson]
    split <;> rfl
  | _ => rfl

theorem getD_ofJson? (j : Option Json) (name : String) :
    (ofJson? j).getD name = ofJson? (j.bind (·.get? name)) := by
  cases j with
  | none => rfl
  | some j =>
    show ((ofJson j).get? name).getD null = _
    rw [get?_ofJson]
    rfl

/-- What is read from JSON is no path, and neither is a part of it. -/
theorem ofJson_ne_path (j : Json) (p : Path) : ofJson j ≠ path p := by
  cases j with
  | int n =>
    rw [ofJson]
    split <;> simp
  | _ => simp [ofJson]

end Value
end DocQuery
