import DocQuery.Proofs.Join.Siblings

/-!
# Where a scope says it is

A join finds the siblings of a value by following the path of its scope in other documents. The
path is written down while the value is reached, by one set of rules, and followed later by another.
**The two agree**: whatever attributes, indices and windows lead away from a document, the path leads
from the document to the value (`Scope.path_found`), unless a subscript was asked of what is no
array. Then there is nothing to be found, and the scope says that its value was computed.

`Located` is kept by every move (`Located.move`), so by any number of them.
-/

set_option autoImplicit false

namespace DocQuery
namespace Scope

/-- A way from a scope to what is in its value. -/
inductive Move where
  | access (names : List String)
  | index (position : Int)
  | window (start stop : Int)
deriving DecidableEq

/-- The scope that a move leads to. -/
def move (s : Scope) : Move → Scope
  | .access names => s.resolve (names.map .attr)
  | .index position => s.first position
  | .window start stop => s.slice start stop

/-- The scope behind some moves, made one after the other. -/
def walk (s : Scope) (moves : List Move) : Scope := moves.foldl move s

/-- The scope of a document, or of a value that is looked at as one. -/
def ofDocument (document : Value) (parent : Option Scope) (source : Option SourceId) : Scope :=
  ⟨document, parent, [], source, 0, false⟩

example (s : Scope) (id : SourceId) (documents document : Value) (start : Nat) :
    (s.ofSource id documents start).element document = ofDocument document (some s) (some id) := rfl

/-- A subscript of what is no array. -/
def Move.misses (s : Scope) : Move → Bool
  | .access _ => false
  | .index _ | .window _ _ => s.value.asArray?.isNone

variable {s : Scope} {items : List Value}

theorem first_array (hvalue : s.value = .array items) (hstart : s.start = 0) (position : Int) :
    ∃ w, s.first position = s.narrowed ((ScopeStep.subscript w).next (.array items)) w 0 := by
  refine ⟨⟨position, min (position + 1) maxInt64, true⟩, ?_⟩
  rw [Scope.first, hvalue, hstart]
  dsimp only
  rw [Window.index?_zero]
  rfl

theorem slice_array (hvalue : s.value = .array items) (hstart : s.start = 0) (start stop : Int) :
    ∃ w, s.slice start stop = s.narrowed ((ScopeStep.subscript w).next (.array items)) w 0 := by
  refine ⟨⟨start, stop, false⟩, ?_⟩
  have hbounds := Window.bounds_zero items.length start stop
  rw [Scope.slice, hvalue, hstart]
  dsimp only
  rw [hbounds]
  rfl

/-- What a move does where nothing has been cut: an accessor walks, a subscript takes the part of an
array that it names, and computes a null of anything else. -/
theorem move_cases (hstart : s.start = 0) (m : Move) :
    (∃ names, m = .access names) ∨
    (m.misses s = true ∧ s.move m = s.withValue .null) ∨
    (m.misses s = false ∧ ∃ items w, s.value = .array items ∧
      s.move m = s.narrowed ((ScopeStep.subscript w).next (.array items)) w 0) := by
  have hsingle : s.value.asArray? = none → ∀ w : Subscript, (if w.first then s.first w.start
      else s.slice w.start w.stop) = s.withValue .null := fun hnone w =>
    Scoped.one.inj (Scoped.subscript_of_single hnone w)
  cases m with
  | access names => exact .inl ⟨names, rfl⟩
  | index position =>
    unfold Move.misses move
    cases hvalue : s.value with
    | array items =>
      obtain ⟨w, hw⟩ := first_array hvalue hstart position
      exact .inr (.inr ⟨rfl, items, w, rfl, hw⟩)
    | _ => exact .inr (.inl ⟨rfl, hsingle (by rw [hvalue]; rfl) ⟨position, position, true⟩⟩)
  | window start stop =>
    unfold Move.misses move
    cases hvalue : s.value with
    | array items =>
      obtain ⟨w, hw⟩ := slice_array hvalue hstart start stop
      exact .inr (.inr ⟨rfl, items, w, rfl, hw⟩)
    | _ => exact .inr (.inl ⟨rfl, hsingle (by rw [hvalue]; rfl) ⟨start, stop, false⟩⟩)

/-- A scope with a whole value that is found where its path leads to, or with no value at all. -/
structure Located (document : Value) (s : Scope) : Prop where
  start : s.start = 0
  found : s.computed = false → followPath document s.path = s.value
  lost : s.computed = true → s.value = .null

namespace Located

variable {document : Value}

theorem ofDocument (document : Value) (parent : Option Scope) (source : Option SourceId) :
    (ofDocument document parent source).Located document where
  start := rfl
  found _ := rfl
  lost h := nomatch h

theorem attr (h : s.Located document) (name : String) : (s.attr name).Located document where
  start := rfl
  found hread := by
    show followPath document (s.path ++ [.attr name]) = s.value.getD name
    rw [followPath_append, h.found hread]
    rfl
  lost hcomputed := by
    show s.value.getD name = .null
    rw [h.lost hcomputed]
    rfl

/-- A null ends an accessor early, and its path with it. -/
theorem attrs (h : s.Located document) (names : List String) :
    (s.resolve (names.map .attr)).Located document := by
  induction names generalizing s with
  | nil => exact h
  | cons name names ih =>
    have hattr := h.attr name
    show (if (s.attr name).value.isNull then s.attr name
      else (s.attr name).resolve (names.map .attr)).Located document
    split
    · exact hattr
    · exact ih hattr

/-- A subscript finds nothing in what is no array. -/
theorem withNull (h : s.Located document) : (s.withValue .null).Located document where
  start := h.start
  found hread := nomatch hread
  lost _ := rfl

/-- A part of an array is found by the subscript that it was taken with. -/
theorem narrowed (h : s.Located document) (hvalue : s.value = .array items)
    (w : Subscript) :
    (s.narrowed ((ScopeStep.subscript w).next (.array items)) w 0).Located document where
  start := rfl
  found hread := by
    show followPath document (s.path ++ [.subscript w]) = _
    rw [followPath_append, h.found hread, hvalue]
    rfl
  lost hcomputed := by
    have hnull := h.lost hcomputed
    rw [hvalue] at hnull
    cases hnull

theorem move (h : s.Located document) (m : Move) : (s.move m).Located document := by
  rcases move_cases h.start m with ⟨names, rfl⟩ | ⟨-, heq⟩ | ⟨-, items, w, hvalue, heq⟩
  · exact h.attrs names
  · rw [heq]
    exact h.withNull
  · rw [heq]
    exact h.narrowed hvalue w

theorem walk (h : s.Located document) (moves : List Move) : (s.walk moves).Located document := by
  induction moves generalizing s with
  | nil => exact h
  | cons m moves ih => exact ih (h.move m)

/-! What is computed. -/

theorem computed_attrs (s : Scope) (names : List String) :
    (s.resolve (names.map .attr)).computed = s.computed := by
  induction names generalizing s with
  | nil => rfl
  | cons name names ih =>
    show (if (s.attr name).value.isNull then s.attr name
      else (s.attr name).resolve (names.map .attr)).computed = s.computed
    split
    · rfl
    · exact ih (s.attr name)

theorem computed_move (h : s.Located document) (m : Move) :
    (s.move m).computed = (s.computed || m.misses s) := by
  rcases move_cases h.start m with ⟨names, rfl⟩ | ⟨hmisses, heq⟩ | ⟨hmisses, _, _, -, heq⟩
  · exact (computed_attrs s names).trans (Bool.or_false _).symm
  · rw [heq, hmisses]
    exact (Bool.or_true _).symm
  · rw [heq, hmisses]
    exact (Bool.or_false _).symm

/-- What was computed once stays so. -/
theorem computed_walk (h : s.Located document) (moves : List Move) :
    (s.walk moves).computed = true ↔ s.computed = true ∨
      ∃ before m after, moves = before ++ m :: after ∧ m.misses (s.walk before) = true := by
  induction moves generalizing s with
  | nil => simp [Scope.walk]
  | cons m moves ih =>
    show ((s.move m).walk moves).computed = true ↔ _
    rw [ih (h.move m), h.computed_move, Bool.or_eq_true, or_assoc]
    refine or_congr_right ⟨?_, ?_⟩
    · rintro (hmisses | ⟨before, next, after, rfl, hmisses⟩)
      · exact ⟨[], m, moves, rfl, hmisses⟩
      · exact ⟨m :: before, next, after, rfl, hmisses⟩
    · rintro ⟨before, next, after, hsplit, hmisses⟩
      cases before with
      | nil =>
        obtain ⟨rfl, rfl⟩ := List.cons.inj hsplit
        exact .inl hmisses
      | cons first before =>
        obtain ⟨rfl, rfl⟩ := List.cons.inj hsplit
        exact .inr ⟨before, next, after, rfl, hmisses⟩

end Located

/-- **The path of a scope leads back to its value**: from a document by any attributes, indices and
windows to a value that was not computed, and by the path that the scope has then from the document
to that value. It is computed only behind a subscript of what is no array, and is null there. -/
theorem path_found (document : Value) (parent : Option Scope) (source : Option SourceId)
    (moves : List Move) :
    let s := (ofDocument document parent source).walk moves
    (s.computed = false → followPath document s.path = s.value) ∧
      (s.computed = true → s.value = .null) ∧
      (s.computed = true ↔ ∃ before m after, moves = before ++ m :: after ∧
        m.misses ((ofDocument document parent source).walk before) = true) := by
  have hlocated := (Located.ofDocument document parent source).walk moves
  refine ⟨hlocated.found, hlocated.lost, ?_⟩
  have hcomputed := (Located.ofDocument document parent source).computed_walk moves
  exact hcomputed.trans ⟨fun h => h.resolve_left nofun, .inr⟩

/-- The last but one of the elements from the second on, and an attribute that it does not have. -/
theorem path_found_missing :
    let items := Value.array [.int 1, .object [("b", .int 2)], .int 3]
    let s := (ofDocument (.object [("a", items)]) none (some 1)).walk
      [.access ["a"], .window 1 9, .index (-2), .access ["c", "d"]]
    s.computed = false ∧ s.path = [.attr "a", .subscript ⟨1, 9, false⟩,
      .subscript ⟨-2, -1, true⟩, .attr "c"] ∧ s.value = .null ∧
      followPath (.object [("a", items)]) s.path = s.value := by
  intro items s
  have hread : s.computed = false := by decide
  exact ⟨hread, by decide, Value.eq_null_of_isNull (by decide),
    (path_found (.object [("a", items)]) none (some 1) _).1 hread⟩

end Scope
end DocQuery
