import DocQuery.Proofs.Engine.References
import DocQuery.Proofs.Store.Document
import DocQuery.Query

/-!
# The names of fields

The engine reads an accessor name by name, the store reads it by one text: its names with dots
between them, which the store splits at dots again. So **the store reads a field as if each of its
names were split at its dots** (`lookup_field`), and a name with a dot in it is lost: a document that
holds just such names has the field for the engine and not for the store (`foldlM_nested`). Names
that come from the text of a sort key may hold dots, too.
-/

set_option autoImplicit false

namespace DocQuery
namespace Selector

open Operation (attrs)

/-- A document in which names lead, one after the other, to a number. -/
def nested (names : List String) : Json := names.foldr (fun name j => .obj [(name, j)]) (.int 1)

theorem get?_single (name other : String) (j : Json) :
    (Json.obj [(name, j)]).get? other = if name = other then some j else none := by
  show Fields.get? [(name, j)] other = _
  simp [Fields.get?]

theorem follow_nested (names : List String) :
    (Value.ofJson (nested names)).follow names = .int 1 := by
  rw [← Value.ofJson?_foldlM]
  have hfound : names.foldlM (fun j name => j.get? name) (nested names) = some (.int 1) := by
    induction names with
    | nil => rfl
    | cons name names ih =>
      show ((Json.obj [(name, nested names)]).get? name).bind _ = _
      rw [get?_single, if_pos rfl]
      exact ih
  rw [hfound]
  rfl

/-- The first piece of a name that is split is another name. -/
theorem exists_first_piece {name : String} (h : Path.isSegment name = false) :
    ∃ piece pieces, (Path.parse name).segments = piece :: pieces ∧ name ≠ piece := by
  cases hpieces : Text.splitDots name.toList with
  | nil => exact absurd hpieces (Text.splitDots_ne_nil _)
  | cons piece pieces =>
    have hmem : piece ∈ Text.splitDots name.toList := hpieces ▸ List.mem_cons_self
    have hdot : '.' ∉ piece := Text.not_mem_of_mem_splitDots hmem
    refine ⟨String.ofList piece, pieces.map String.ofList, ?_, ?_⟩
    · show (Text.splitDots name.toList).map String.ofList = _
      rw [hpieces]
      rfl
    · rintro rfl
      simp [Path.isSegment, hdot] at h

/-- **Split names lead nowhere in a document that holds the names themselves.** -/
theorem foldlM_nested {names : List String} (h : names.all Path.isSegment = false) :
    (names.flatMap fun n => (Path.parse n).segments).foldlM (fun j name => j.get? name)
      (nested names) = none := by
  induction names with
  | nil => cases h
  | cons name names ih =>
    show List.foldlM _ (Json.obj [(name, nested names)]) _ = none
    rw [List.flatMap_cons]
    cases hname : Path.isSegment name with
    | true =>
      rw [List.all_cons, hname, Bool.true_and] at h
      rw [Path.segments_parse_self hname, List.singleton_append, List.foldlM_cons, get?_single,
        if_pos rfl]
      exact ih h
    | false =>
      obtain ⟨piece, pieces, hpieces, hne⟩ := exists_first_piece hname
      rw [hpieces, List.cons_append, List.foldlM_cons, get?_single, if_neg hne]
      rfl

/-- The store reads the names that the joined names are split into. -/
theorem ofJson?_lookup_intercalate {names : List String} (hne : names ≠ []) (document : Json) :
    Value.ofJson? (lookup document (String.intercalate "." names)) =
      (Value.ofJson document).follow (names.flatMap fun n => (Path.parse n).segments) := by
  rw [lookup, Path.segments_intercalate hne, Value.ofJson?_foldlM]

/-- **The store reads an accessor as if each of its names were split at its dots.** It reads it as
the engine does, in every document, exactly when there is no dot in any of its names. -/
theorem lookup_field (name : String) (names : List String) :
    ∃ field, (attrs (name :: names)).fieldName? = some field ∧
      (∀ (document : Json) (s : Scope), Value.ofJson? (lookup document field) =
        ((s.element (.ofJson document)).resolve
          (((name :: names).flatMap fun n => (Path.parse n).segments).map .attr)).value) ∧
      ((∀ (fields : Fields Json) (s : Scope), Value.ofJson? (lookup (.obj fields) field) =
          ((s.element (.ofJson (.obj fields))).resolve ((name :: names).map .attr)).value) ↔
        (name :: names).all Path.isSegment = true) := by
  have hfield : (attrs (name :: names)).fieldName? =
      some (String.intercalate "." (name :: names)) := by
    show (Operation.attributeNames? ((name :: names).map .attr)).map _ = _
    rw [Operation.attributeNames?_map]
    rfl
  have hread := ofJson?_lookup_intercalate (List.cons_ne_nil name names)
  refine ⟨_, hfield, fun document s => ?_, fun hagree => ?_, fun hnames fields s => ?_⟩
  · rw [hread, Scope.value_resolve_attrs]
    rfl
  · cases hnames : (name :: names).all Path.isSegment with
    | true => rfl
    | false =>
      have hsame := hagree [(name, nested names)] .root
      have hdocument : Json.obj [(name, nested names)] = nested (name :: names) := rfl
      rw [hdocument, hread, ← Value.ofJson?_foldlM, foldlM_nested hnames,
        Scope.value_resolve_attrs] at hsame
      exact nomatch hsame.trans (follow_nested (name :: names))
  · rw [lookup_intercalate (List.cons_ne_nil name names) hnames, Value.ofJson?_foldlM,
      Scope.value_resolve_attrs]
    rfl

/-- A sort key with a dot in its text is no field to the store: documents are cut as they came and
not in order. -/
theorem lookup_field_dotted :
    ∃ c, Collection.ofDocuments true
        [.obj [("_id", .str "x"), ("a.b", .int 2)], .obj [("_id", .str "y"), ("a.b", .int 1)]] =
          .ok c ∧
      let key := (Planner.sortTerm (.literal (.string "a.b")) .asc).expression
      let document := Json.obj [("_id", .str "y"), ("a.b", .int 1)]
      let q : Query := ⟨.pipe (.pipe .everything (.functionCall "order" [.string "a.b"]))
        (.subscript (.range (.integer 0) (.integer 1) false)), [], none⟩
      key = attrs ["a.b"] ∧ key.fieldName? = some "a.b" ∧
        Value.ofJson? (lookup document "a.b") = .null ∧
        ((Scope.root.element (.ofJson document)).resolve [.attr "a.b"]).value = .int 1 ∧
        q.result (.fullScan [.obj [("_id", .str "x"), ("a.b", .int 2)], document]) =
          .ok (.arr [document]) ∧
        q.result c.fetcher = .ok (.arr [.obj [("_id", .str "x"), ("a.b", .int 2)]]) :=
  ⟨_, rfl, rfl, rfl, rfl, rfl, by with_unfolding_all rfl, by with_unfolding_all rfl⟩

end Selector
end DocQuery
