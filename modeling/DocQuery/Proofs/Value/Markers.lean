import DocQuery.Proofs.Value.Parts
import DocQuery.Reference
import Mathlib.Data.List.Forall2
import Mathlib.Tactic.Choose

/-!
# The markers of a document

A marker is an object with a non-empty string as its `_ref` (`Value.Refers`). `findReferences` scans
a document for the markers that stand in no other one. The scan keeps the way it has come; that is
the same as scanning every part on its own and putting a step in front of what is found there
(`findReferences_parts`), so what it finds is known by induction on the parts of a value.

**It finds every such marker once, depth first, with the marker's id, whether it is weak, and a path
that leads to it** (`findReferences_markers`). A path may not tell two elements with one `_key`
apart, so a marker is known by its place, which does.
-/

set_option autoImplicit false

namespace DocQuery

/-! ## Scanning part by part -/

namespace Reference

/-- A reference found in a part, as it is found from further out. -/
def behind (path : List ReferenceStep) (r : Reference) : Reference := { r with path := path ++ r.path }

/-- An object is a marker, or it is scanned field by field. -/
theorem collect_object (path : List ReferenceStep) (fields : Fields Value) :
    collect path (.object fields) = (target? (.object fields)).elim (collectFields path fields)
      fun id => [⟨id, isWeak (.object fields), path⟩] := by
  rw [collect]
  cases target? (.object fields) with
  | none => rfl
  | some id => rfl

mutual

/-- The way to a value only stands in front of the paths of what is found in it. -/
theorem collect_append (path path' : List ReferenceStep) : ∀ v : Value,
    collect (path ++ path') v = (collect path' v).map (behind path)
  | .array items => collectItems_append path path' 0 items
  | .object fields => by
    rw [collect_object, collect_object]
    cases target? (.object fields) with
    | some id => rfl
    | none => exact collectFields_append path path' fields
  | .null | .bool _ | .float _ | .int _ | .string _ | .path _ => rfl

theorem collectItems_append (path path' : List ReferenceStep) : ∀ (position : Nat)
    (items : List Value),
    collectItems (path ++ path') position items =
      (collectItems path' position items).map (behind path)
  | _, [] => rfl
  | position, v :: vs => by
    rw [collectItems, collectItems, List.map_append, List.append_assoc, collect_append,
      collectItems_append]

theorem collectFields_append (path path' : List ReferenceStep) : ∀ fields : List (String × Value),
    collectFields (path ++ path') fields = (collectFields path' fields).map (behind path)
  | [] => rfl
  | (name, v) :: fs => by
    rw [collectFields, collectFields, List.map_append, List.append_assoc, collect_append,
      collectFields_append]

end

theorem collectItems_eq (position : Nat) (items : List Value) :
    collectItems [] position items = (items.zipIdx position).flatMap fun item =>
      (findReferences item.1).map (behind [elementStep item.1 item.2]) := by
  induction items generalizing position with
  | nil => rfl
  | cons v vs ih =>
    rw [collectItems, List.zipIdx_cons, List.flatMap_cons, ih, List.nil_append,
      ← List.append_nil [elementStep v position], collect_append]
    rfl

theorem collectFields_eq (fields : List (String × Value)) :
    collectFields [] fields = fields.flatMap fun f =>
      (findReferences f.2).map (behind [.field f.1]) := by
  induction fields with
  | nil => rfl
  | cons f fs ih =>
    obtain ⟨name, v⟩ := f
    rw [collectFields, List.flatMap_cons, ih, List.nil_append,
      ← List.append_nil [ReferenceStep.field name], collect_append]
    rfl

end Reference

/-- The step of a path that goes down a branch. -/
def Branch.step : Branch → Value → ReferenceStep
  | .field name, _ => .field name
  | .element position, item => Reference.elementStep item position

/-- Nothing else is found in a marker. -/
theorem findReferences_of_target? {v : Value} {id : String} (h : Reference.target? v = some id) :
    findReferences v = [⟨id, Reference.isWeak v, []⟩] := by
  cases v with
  | object fields =>
    show Reference.collect [] (.object fields) = _
    rw [Reference.collect_object, h]
    rfl
  | _ => cases h

/-- What is found in any other value is what is found in its parts, behind the steps to them. -/
theorem findReferences_parts {v : Value} (h : Reference.target? v = none) :
    findReferences v = v.parts.flatMap fun c =>
      (findReferences c.2).map (Reference.behind [c.1.step c.2]) := by
  cases v with
  | array items =>
    show Reference.collectItems [] 0 items = (items.zipIdx.map _).flatMap _
    rw [List.flatMap_map]
    exact Reference.collectItems_eq 0 items
  | object fields =>
    show Reference.collect [] (.object fields) = (fields.map _).flatMap _
    rw [Reference.collect_object, h, List.flatMap_map]
    exact Reference.collectFields_eq fields
  | _ => rfl

namespace Value

/-! ## What a marker is -/

/-- Whether a value refers to an id: an object with the id as its `_ref`, which is not empty. -/
def Refers (v : Value) (id : String) : Prop := v.get? "_ref" = some (string id) ∧ id ≠ ""

theorem target?_eq_some {v : Value} {id : String} :
    Reference.target? v = some id ↔ v.Refers id := by
  unfold Reference.target? Refers
  cases v.get? "_ref" with
  | none => simp
  | some w =>
    cases w with
    | string s =>
      show (if s.isEmpty = true then none else some s) = some id ↔ _
      rw [Option.some_inj, string.injEq]
      split
      · next hempty =>
        refine iff_of_false (nomatch ·) ?_
        rintro ⟨rfl, hid⟩
        exact hid (String.isEmpty_iff.mp hempty)
      · next hs =>
        rw [Option.some_inj]
        refine ⟨?_, And.left⟩
        rintro rfl
        exact ⟨rfl, fun hempty => hs (String.isEmpty_iff.mpr hempty)⟩
    | _ => simp [asString?]

theorem isWeak_iff {v : Value} :
    Reference.isWeak v = true ↔ v.get? "_weak" = some (bool true) := by
  unfold Reference.isWeak
  cases v.get? "_weak" with
  | none => simp
  | some w => cases w <;> simp [asBool?]

/-- Whether a marker stands at a place, and none around it. -/
structure HasMarker (v : Value) (place : List Branch) : Prop where
  marker : ∃ m id, v.at? place = some m ∧ m.Refers id
  outermost : ∀ outer m id, outer <+: place → outer ≠ place → v.at? outer = some m →
    ¬m.Refers id

theorem hasMarker_of_refers {v : Value} {id : String} (h : v.Refers id) {place : List Branch} :
    v.HasMarker place ↔ place = [] := by
  constructor
  · intro hplace
    by_contra hne
    exact hplace.outermost [] v id List.nil_prefix (Ne.symm hne) (at?_nil v) h
  · rintro rfl
    refine ⟨⟨v, id, rfl, h⟩, fun outer _ _ hprefix hne => ?_⟩
    exact absurd (List.prefix_nil.mp hprefix) hne

theorem not_hasMarker_nil {v : Value} (h : ∀ id, ¬v.Refers id) : ¬v.HasMarker [] := by
  intro hplace
  obtain ⟨m, id, hm, hid⟩ := hplace.marker
  cases hm
  exact h id hid

theorem hasMarker_cons {v : Value} (h : ∀ id, ¬v.Refers id) {branch : Branch}
    {place : List Branch} :
    v.HasMarker (branch :: place) ↔ ∃ w, v.part? branch = some w ∧ w.HasMarker place := by
  constructor
  · rintro ⟨⟨m, id, hm, hid⟩, houter⟩
    obtain ⟨w, hw, hm⟩ := Option.bind_eq_some_iff.mp hm
    refine ⟨w, hw, ⟨m, id, hm, hid⟩, fun outer m' id' hprefix hne hm' => ?_⟩
    refine houter (branch :: outer) m' id' (by simpa using hprefix) (by simpa using hne) ?_
    rw [at?_cons, hw]
    exact hm'
  · rintro ⟨w, hw, ⟨m, id, hm, hid⟩, houter⟩
    refine ⟨⟨m, id, by rw [at?_cons, hw]; exact hm, hid⟩, fun outer m' id' hprefix hne hm' => ?_⟩
    cases outer with
    | nil =>
      cases hm'
      exact h id'
    | cons branch' outer =>
      obtain ⟨rfl, hrest⟩ := List.cons_prefix_cons.mp hprefix
      rw [at?_cons, hw] at hm'
      exact houter outer m' id' hrest (by simpa using hne) hm'

end Value

/-! ## What a path says -/

/-- Whether a step of a path names a branch, given the part behind it. An element that carries a
`_key` is named by it, any other element by its position. -/
inductive ReferenceStep.Names : ReferenceStep → Branch → Value → Prop
  | field {name : String} {part : Value} : Names (.field name) (.field name) part
  | keyed {key : String} {position : Nat} {part : Value}
      (h : part.get? "_key" = some (.string key)) (hne : key ≠ "") :
      Names (.keyed key) (.element position) part
  | index {position : Nat} {part : Value}
      (h : ∀ key, part.get? "_key" = some (.string key) → key = "") :
      Names (.index position) (.element position) part

theorem Branch.names_step (branch : Branch) (part : Value) :
    (branch.step part).Names branch part := by
  cases branch with
  | field name => exact .field
  | element position =>
    show (Reference.elementStep part position).Names _ _
    unfold Reference.elementStep
    cases hkey : part.get? "_key" with
    | none => exact .index fun key h => by simp [hkey] at h
    | some w =>
      cases w with
      | string key =>
        show (if key.isEmpty = true then ReferenceStep.index position
          else .keyed key).Names _ _
        split
        · next hempty =>
          refine .index fun key' h => ?_
          rw [hkey, Option.some_inj, Value.string.injEq] at h
          exact h ▸ String.isEmpty_iff.mp hempty
        · next hne => exact .keyed hkey fun hempty => hne (String.isEmpty_iff.mpr hempty)
      | _ => exact .index fun key h => by simp [hkey] at h

namespace Value

/-- Whether a path leads along a place from the first value to the second. -/
inductive Leads : Value → List ReferenceStep → List Branch → Value → Prop
  | here {v : Value} : Leads v [] [] v
  | down {v part w : Value} {step : ReferenceStep} {branch : Branch} {path : List ReferenceStep}
      {place : List Branch} (hpart : v.part? branch = some part) (hstep : step.Names branch part)
      (hrest : Leads part path place w) : Leads v (step :: path) (branch :: place) w

/-- Whether a reference describes the marker at a place: it has the marker's id, it is weak if the
marker's `_weak` is `true`, and its path leads to the marker. -/
def Describes (v : Value) (place : List Branch) (r : Reference) : Prop :=
  ∃ marker, v.Leads r.path place marker ∧ marker.Refers r.id ∧
    (r.weak = true ↔ marker.get? "_weak" = some (bool true))

theorem Describes.behind {v w : Value} {branch : Branch} {place : List Branch} {r : Reference}
    (h : w.Describes place r) (hpart : v.part? branch = some w) :
    v.Describes (branch :: place) (r.behind [branch.step w]) := by
  obtain ⟨marker, hleads, hid, hweak⟩ := h
  exact ⟨marker, .down hpart (branch.names_step w) hleads, hid, hweak⟩

/-! ## The list of markers -/

/-- Whether the references found in a value describe the markers at these places, which are all
that stand in no other marker, each once and depth first. -/
structure ListsMarkers (v : Value) (places : List (List Branch)) : Prop where
  depthFirst : places.Pairwise (List.Lex Branch.Before)
  mem_iff : ∀ place, place ∈ places ↔ v.HasMarker place
  described : List.Forall₂ v.Describes places (findReferences v)

/-- No place comes before itself. -/
theorem not_lex_self (place : List Branch) : ¬List.Lex Branch.Before place place := by
  induction place with
  | nil => exact fun h => nomatch h
  | cons branch place ih =>
    intro h
    cases h with
    | cons hrest => exact ih hrest
    | rel hbefore =>
      cases hbefore with
      | field hlt => exact String.lt_irrefl _ hlt
      | element hlt => exact Nat.lt_irrefl _ hlt

theorem ListsMarkers.nodup {v : Value} {places : List (List Branch)} (h : v.ListsMarkers places) :
    places.Nodup := by
  refine h.depthFirst.imp ?_
  rintro place _ hlex rfl
  exact not_lex_self place hlex

theorem listsMarkers_self {v : Value} {id : String} (h : v.Refers id) : v.ListsMarkers [[]] := by
  refine ⟨List.pairwise_singleton _ _, fun place => ?_, ?_⟩
  · rw [hasMarker_of_refers h, List.mem_singleton]
  · rw [findReferences_of_target? (target?_eq_some.mpr h)]
    exact .cons ⟨v, .here, h, isWeak_iff⟩ .nil

theorem forall₂_flatMap {α β γ : Type} {R : β → γ → Prop} {xs : List α} {f : α → List β}
    {g : α → List γ} (h : ∀ x ∈ xs, List.Forall₂ R (f x) (g x)) :
    List.Forall₂ R (xs.flatMap f) (xs.flatMap g) := by
  induction xs with
  | nil => exact .nil
  | cons x xs ih =>
    exact List.rel_append (h x List.mem_cons_self) (ih fun y hy => h y (List.mem_cons_of_mem x hy))

/-- What is no marker itself has the markers of its parts. -/
theorem listsMarkers_parts {v : Value} (hv : v.IsOrdered) (hnone : ∀ id, ¬v.Refers id)
    {places : Branch × Value → List (List Branch)} (h : ∀ c ∈ v.parts, c.2.ListsMarkers (places c)) :
    v.ListsMarkers (v.parts.flatMap fun c => (places c).map (c.1 :: ·)) := by
  refine ⟨?_, fun place => ?_, ?_⟩
  · refine List.pairwise_flatMap.mpr ⟨fun c hc => ?_, (parts_inOrder hv).imp ?_⟩
    · exact List.pairwise_map.mpr ((h c hc).depthFirst.imp .cons)
    · intro c d hbefore x hx y hy
      obtain ⟨_, -, rfl⟩ := List.mem_map.mp hx
      obtain ⟨_, -, rfl⟩ := List.mem_map.mp hy
      exact .rel hbefore
  · simp only [List.mem_flatMap, List.mem_map]
    constructor
    · rintro ⟨⟨branch, w⟩, hc, rest, hrest, rfl⟩
      exact (hasMarker_cons hnone).mpr ⟨w, (mem_parts hv).mp hc, ((h _ hc).mem_iff rest).mp hrest⟩
    · intro hplace
      cases place with
      | nil => exact absurd hplace (not_hasMarker_nil hnone)
      | cons branch rest =>
        obtain ⟨w, hw, hrest⟩ := (hasMarker_cons hnone).mp hplace
        have hc : (branch, w) ∈ v.parts := (mem_parts hv).mpr hw
        exact ⟨(branch, w), hc, rest, ((h _ hc).mem_iff rest).mpr hrest, rfl⟩
  · have htarget : Reference.target? v = none :=
      Option.eq_none_iff_forall_not_mem.mpr fun id hid => hnone id (target?_eq_some.mp hid)
    rw [findReferences_parts htarget]
    refine forall₂_flatMap fun c hc => ?_
    rw [List.forall₂_map_left_iff, List.forall₂_map_right_iff]
    exact (h c hc).described.imp fun _ _ hr => hr.behind ((mem_parts hv).mp hc)

/-- **The references found in a document are its markers that stand in no other marker, each of them
once, depth first.** -/
theorem findReferences_markers {document : Value} (h : document.IsOrdered) :
    ∃ places : List (List Branch), places.Nodup ∧ document.ListsMarkers places := by
  suffices hlists : ∃ places, document.ListsMarkers places by
    obtain ⟨places, hplaces⟩ := hlists
    exact ⟨places, hplaces.nodup, hplaces⟩
  -- being ordered is said by the parts, so this is an induction on the tree
  induction h with
  | @mk v hsorted hparts ih =>
    cases htarget : Reference.target? v with
    | some id => exact ⟨[[]], listsMarkers_self (target?_eq_some.mp htarget)⟩
    | none =>
      have hnone : ∀ id, ¬v.Refers id := fun id hid => by
        rw [target?_eq_some.mpr hid] at htarget
        cases htarget
      choose! places hplaces using ih
      exact ⟨_, listsMarkers_parts (.mk hsorted hparts) hnone hplaces⟩

/-- Two markers in arrays: the one with a key, which is weak, is named by it, and the reference
within the other one is none of the document. -/
theorem findReferences_markers_arrays :
    let document := ofJson (Json.normalize (.obj [
      ("b", .arr [.str "", .arr [.obj [("_ref", .str "x"), ("in", .obj [("_ref", .str "y")])]]]),
      ("a", .arr [.obj [("_key", .str "k"), ("_ref", .str "x"), ("_weak", .bool true)],
        .obj [("_ref", .str "")]])]))
    document.IsOrdered ∧
      (∃ places : List (List Branch), places.Nodup ∧ document.ListsMarkers places) ∧
      findReferences document = [⟨"x", true, [.field "a", .keyed "k"]⟩,
        ⟨"x", false, [.field "b", .index 1, .index 0]⟩] :=
  ⟨isOrdered_ofJson _, findReferences_markers (isOrdered_ofJson _), by decide +kernel⟩

end Value
end DocQuery
