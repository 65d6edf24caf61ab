import DocQuery.Proofs.Fetch.Nesting
import DocQuery.Proofs.Fetch.Overflow
import DocQuery.Store.Collection

/-!
# Nested windows in a store

Subscripts behind a source fold into one window (`FetchSpec.ofSubscripts`), and the window into an
offset and a limit. **The subscripts make the same of what a store cuts out by these as of all
items** (`subscripts_fetched`), whether they are the items of a collection or the elements of a
source's array. Nothing overflows on the way: neither the limit nor a position of any subscript,
with what was cut out or without.
-/

set_option autoImplicit false

namespace DocQuery

/-! ## The window of a store query -/

namespace StoreQuery

variable {α : Type} {spec : FetchSpec}

/-- The items that an offset and a limit give. -/
def cutOut (offset : Nat) (limit : Option Nat) (items : List α) : List α :=
  match limit with
  | some n => (items.drop offset).take n
  | none => items.drop offset

/-- This is how a collection cuts its documents. -/
theorem cutOut_documents : cutOut = Collection.window := rfl

theorem ofSpec_unfiltered (h : spec.filter = none) : ofSpec spec = .ok {
    selector := (Clause.const true).selector?
    exact := (Clause.const true).isExact
    sort := spec.ordering.filterMap sortKey?
    sortable := spec.ordering.all fun term => (sortKey? term).isSome
    offset := spec.offset
    limit := spec.stop.map fun stop => (stop - (spec.offset : Int)).toNat } := by
  unfold ofSpec
  rw [h]
  rfl

/-- Offset and limit of a specification cut out its window. -/
theorem cutOut_eq (hbounds : spec.HasBounds) (items : List α) :
    cutOut spec.offset (spec.stop.map fun stop => (stop - (spec.offset : Int)).toNat) items =
      spec.windowed items := by
  rcases hbounds with ⟨hstart, hstop⟩ | ⟨a, b, hstart, hstop, ha, hb⟩
  · rw [FetchSpec.windowed, FetchSpec.offset, hstart, hstop]
    rfl
  · have hlimit : (b - (a.toNat : Int)).toNat = b.toNat - a.toNat := by
      have hpos := ha.1
      omega
    rw [FetchSpec.windowed, FetchSpec.offset, hstart, hstop]
    show (items.drop a.toNat).take (b - (a.toNat : Int)).toNat = _
    rw [hlimit]
    rfl

/-- Where the first of the cut items is. -/
theorem cuts_cutOut (hbounds : spec.HasBounds) (items : List α) :
    spec.Cuts items (spec.windowed items) (min spec.offset items.length) :=
  .inr ⟨rfl, Nat.min_le_left .., fun hne =>
    Nat.min_eq_left (FetchSpec.offset_le_length hbounds hne)⟩

/-- The limit in 64 bits: nothing where the difference of the bounds does not fit. -/
def checkedLimit (spec : FetchSpec) : Option (Option Nat) :=
  match spec.stop with
  | some stop => (Window.Checked.fit? (stop - (spec.offset : Int))).map (some ·.toNat)
  | none => some none

theorem checkedLimit_eq (hbounds : spec.HasBounds) : checkedLimit spec =
    some (spec.stop.map fun stop => (stop - (spec.offset : Int)).toNat) := by
  unfold checkedLimit
  rcases hbounds with ⟨hstart, hstop⟩ | ⟨a, b, hstart, hstop, ha, hb⟩
  · rw [hstop]
    rfl
  · have hoffset : (spec.offset : Int) = a := by
      rw [FetchSpec.offset, hstart]
      exact Int.toNat_of_nonneg ha.1
    rw [hstop, hoffset]
    show (Window.Checked.fit? (b - a)).map _ = _
    rw [Window.Checked.fit?_sub hb.1 hb.2 ha.1 ha.2]
    rfl

end StoreQuery

/-! ## Subscripts behind a source -/

namespace FetchSpec

/-- The specification of subscripts one behind the other: from the last one to the first. -/
def ofSubscripts (ws : List Subscript) : FetchSpec :=
  ws.foldr (fun w spec => spec.applySubscript w) .everything

theorem isWindow_ofSubscripts (ws : List Subscript) : (ofSubscripts ws).IsWindow := by
  cases ws with
  | nil => exact isWindow_everything
  | cons w rest => exact isWindow_applySubscript _ w

theorem project_ofSubscripts (ws : List Subscript) :
    (ofSubscripts ws).project = ofSubscripts ws :=
  project_of_hasConstraints (isWindow_ofSubscripts ws).hasConstraints

theorem hasBounds_ofSubscripts {ws : List Subscript} (h : Subscript.Nested ws) :
    (ofSubscripts ws).HasBounds := by
  induction ws with
  | nil => exact hasBounds_everything
  | cons w rest ih => exact (ih h.2.2).applySubscript h.1.isPlanned

end FetchSpec

namespace Scoped

open FetchSpec

variable {ws : List Subscript}

/-- Subscripts make the same of the items of a collection and of those cut out for them. -/
theorem subscripts_many (hws : Subscript.Nested ws) {items given : List Scope} {offset : Nat}
    (h : (ofSubscripts ws).Cuts items given offset) :
    ws.foldl subscript (.many given offset) = ws.foldl subscript (.many items 0) := by
  induction ws generalizing items given offset with
  | nil =>
    obtain ⟨rfl, rfl⟩ := h.eq_of_everything
    rfl
  | cons w rest ih =>
    obtain ⟨hw, hlast, hrest⟩ := hws
    rw [List.foldl_cons, List.foldl_cons]
    cases hfirst : w.first with
    | true =>
      rw [subscript_many_index hfirst, subscript_many_index hfirst, h.pick? hw.isPlanned hfirst]
    | false =>
      have hcuts := h.narrow hw.isPlanned hfirst (hasBounds_ofSubscripts hrest)
      rw [project_ofSubscripts] at hcuts
      rw [subscript_many_slice hfirst, subscript_many_slice hfirst, Window.narrow_remaining]
      exact ih hrest hcuts

/-- Subscripts make the same of an array and of the part of it cut out for them. -/
theorem subscripts_one (hws : Subscript.Nested ws) {s : Scope} {items given : List Value}
    {offset : Nat} (h : (ofSubscripts ws).Cuts items given offset) :
    ws.foldl subscript (.one { s with value := .array given, start := offset }) =
      ws.foldl subscript (.one { s with value := .array items, start := 0 }) := by
  induction ws generalizing s items given offset with
  | nil =>
    obtain ⟨rfl, rfl⟩ := h.eq_of_everything
    rfl
  | cons w rest ih =>
    obtain ⟨hw, hlast, hrest⟩ := hws
    rw [List.foldl_cons, List.foldl_cons]
    cases hfirst : w.first with
    | true =>
      rw [subscript_one_index hfirst rfl, subscript_one_index hfirst rfl]
      dsimp only
      rw [h.pick? hw.isPlanned hfirst]
      rfl
    | false =>
      have hcuts := h.narrow hw.isPlanned hfirst (hasBounds_ofSubscripts hrest)
      rw [project_ofSubscripts] at hcuts
      rw [subscript_one_slice hfirst rfl, subscript_one_slice hfirst rfl, Window.narrow_remaining]
      exact ih (s := s.narrowed .null ⟨w.start, w.stop, false⟩ 0) hrest hcuts

/-- Subscripts make the same of two results, and nothing overflows while they do. -/
structure SameUnder (ws : List Subscript) (r r' : Scoped) : Prop where
  eq : ws.foldl subscript r = ws.foldl subscript r'
  inRange : InRange ws r
  inRange' : InRange ws r'

end Scoped

open StoreQuery FetchSpec

/-- **Nested windows that were cut out by a store come out as those of all items.** -/
theorem subscripts_fetched {ws : List Subscript} (hws : Subscript.Nested ws) :
    ∃ query, ofSpec (ofSubscripts ws) = .ok query ∧
      checkedLimit (ofSubscripts ws) = some query.limit ∧
      (∀ items : List Scope, (items.length : Int) ≤ maxInt64 →
        Scoped.SameUnder ws
          (.many (cutOut query.offset query.limit items) (min query.offset items.length))
          (.many items 0)) ∧
      ∀ (s : Scope) (id : SourceId) (documents : List Value),
        (documents.length : Int) ≤ maxInt64 →
          Scoped.SameUnder ws
            (.one (s.ofSource id (.array (cutOut query.offset query.limit documents))
              (min query.offset documents.length)))
            (.one (s.ofSource id (.array documents) 0)) := by
  have hbounds := hasBounds_ofSubscripts hws
  refine ⟨_, ofSpec_unfiltered (isWindow_ofSubscripts ws).filter, checkedLimit_eq hbounds,
    fun items hitems => ?_, fun s id documents hdocuments => ?_⟩
  · have hcuts := cuts_cutOut hbounds items
    dsimp only
    rw [cutOut_eq hbounds]
    have hshorter := ((ofSubscripts ws).windowed_sublist items).length_le
    exact ⟨Scoped.subscripts_many hws hcuts, (Scoped.sized_many (by omega) (by omega)).inRange hws,
      (Scoped.sized_many hitems (by decide)).inRange hws⟩
  · have hcuts := cuts_cutOut hbounds documents
    dsimp only
    rw [cutOut_eq hbounds]
    have hshorter := ((ofSubscripts ws).windowed_sublist documents).length_le
    refine ⟨Scoped.subscripts_one (s := s.ofSource id .null 0) hws hcuts, ?_, ?_⟩
    · refine (Scoped.sized_one rfl (by omega) ?_).inRange hws
      show ((min (ofSubscripts ws).offset documents.length : Nat) : Int) ≤ maxInt64
      omega
    · have hzero : ((0 : Nat) : Int) ≤ maxInt64 := by decide
      exact (Scoped.sized_one rfl hdocuments hzero).inRange hws

/-- The element at 1 of what is behind the first two items of the window from 10 to 20. The one item
that a store cuts out for it, of 30 items, is the one at 13. -/
theorem subscripts_fetched_element : ∃ query,
    ofSpec (ofSubscripts [⟨10, 20, false⟩, ⟨2, maxInt64, false⟩, ⟨1, 2, true⟩]) = .ok query ∧
      query.offset = 13 ∧ query.limit = some 1 ∧
      let items := (List.range 30).map fun (n : Nat) => Scope.detached (.int n)
      Scoped.SameUnder [⟨10, 20, false⟩, ⟨2, maxInt64, false⟩, ⟨1, 2, true⟩]
          (.many (cutOut 13 (some 1) items) 13) (.many items 0) ∧
        [⟨10, 20, false⟩, ⟨2, maxInt64, false⟩, ⟨1, 2, true⟩].foldl Scoped.subscript
          (.many items 0) = .one (Scope.detached (.int 13)) := by
  have hnested : Subscript.Nested [⟨10, 20, false⟩, ⟨2, maxInt64, false⟩, ⟨1, 2, true⟩] :=
    ⟨⟨by decide, by decide, by simp⟩, by simp, ⟨by decide, by decide, by simp⟩, by simp,
      ⟨by decide, by decide, by simp⟩, by simp, trivial⟩
  obtain ⟨query, hquery, -, hmany, -⟩ := subscripts_fetched hnested
  have hoffset : query.offset = 13 := by
    cases hquery
    rfl
  have hlimit : query.limit = some 1 := by
    cases hquery
    rfl
  have hsame := hmany ((List.range 30).map fun (n : Nat) => Scope.detached (.int n)) (by decide)
  rw [hoffset, hlimit] at hsame
  exact ⟨query, hquery, hoffset, hlimit, hsame, rfl⟩

end DocQuery
