import DocQuery.Proofs.Engine.Exec
import DocQuery.Proofs.Store.Document

/-!
# Operands

A store knows two kinds of operand: a field, which it reads by its dotted name, and a literal, which
is sent to it as JSON. For plain operands (`Operation.isPlainOperand`) it sees the value that the
engine gives: `yields_of_field` for fields, `yields_of_literal?` for literals.
-/

set_option autoImplicit false

namespace DocQuery

namespace Operation

/-- An operand that the store reads as the engine does: a field with a plain name, a literal that
JSON can write, or anything that is neither. -/
def isPlainOperand : Operation → Bool
  | accessor path => (attributeNames? path).all isPlainPath
  | o => o.literal?.all Value.isJson

theorem isJson_of_isPlainOperand {o : Operation} {v : Value} (h : o.isPlainOperand = true)
    (hv : o.literal? = some v) : v.isJson = true := by
  cases o with
  | accessor path => simp [literal?] at hv
  | _ =>
    rw [isPlainOperand, hv] at h
    · exact h
    · simp

/-- The names behind the field name of a plain operand. -/
theorem names_of_isPlainOperand {o : Operation} {field : String} (h : o.isPlainOperand = true)
    (hf : o.fieldName? = some field) :
    ∃ path names, o = accessor path ∧ attributeNames? path = some names ∧ names ≠ [] ∧
      isPlainPath names = true ∧ field = String.intercalate "." names := by
  cases o with
  | accessor path =>
    obtain ⟨names, hnames, hne, rfl⟩ := fieldName?_accessor hf
    rw [isPlainOperand, hnames] at h
    exact ⟨path, names, rfl, hnames, hne, h, rfl⟩
  | _ => cases hf

theorem not_mem_reserved {o : Operation} {field : String} (h : o.isPlainOperand = true)
    (hf : o.fieldName? = some field) : field ∉ Selector.reserved := by
  obtain ⟨path, names, rfl, -, -, hplain, rfl⟩ := names_of_isPlainOperand h hf
  simp only [isPlainPath, Bool.and_eq_true] at hplain
  simpa using hplain.2

end Operation

namespace Operand

theorem field_of_ofOperation {o : Operation} {field : String}
    (h : ofOperation o = .field field) : o.fieldName? = some field := by
  unfold ofOperation at h
  cases hf : o.fieldName? with
  | some name =>
    rw [hf] at h
    cases h
    rfl
  | none =>
    rw [hf] at h
    cases hl : o.literal? with
    | some v =>
      rw [hl] at h
      cases h
    | none =>
      rw [hl] at h
      cases h

theorem literal_of_ofOperation {o : Operation} {v : Value}
    (h : ofOperation o = .value v) : o.literal? = some v := by
  unfold ofOperation at h
  cases hf : o.fieldName? with
  | some name =>
    rw [hf] at h
    cases h
  | none =>
    rw [hf] at h
    cases hl : o.literal? with
    | some w =>
      rw [hl] at h
      cases h
      rfl
    | none =>
      rw [hl] at h
      cases h

end Operand

namespace Engine

open Run

variable {fetcher : Fetcher}

/-! ## Literals -/

mutual

/-- An operation made of literals gives its value and leaves the session alone. -/
theorem yields_of_literal? : ∀ {o : Operation} {v : Value}, o.literal? = some v →
    ∀ {s : Scope} {σ τ : Session} {r : Scoped},
      (exec fetcher o s).Yields σ r τ → r.value = v ∧ τ = σ
  | .literal w, v, h, s, σ, τ, r, hr => by
    obtain rfl : w = v := by simpa [Operation.literal?] using h
    obtain ⟨rfl, rfl⟩ := yields_literal.mp hr
    exact ⟨rfl, rfl⟩
  | .array elements, v, h, s, σ, τ, r, hr => by
    simp only [Operation.literal?, Option.map_eq_some_iff] at h
    obtain ⟨values, hvalues, rfl⟩ := h
    obtain ⟨found, hfound, rfl⟩ := yields_array.mp hr
    obtain ⟨rfl, rfl⟩ := yields_of_literals? hvalues hfound
    exact ⟨rfl, rfl⟩
  | .source _, v, h, s, σ, τ, r, hr | .filter _, v, h, s, σ, τ, r, hr
  | .binary _ _ _, v, h, s, σ, τ, r, hr | .not _, v, h, s, σ, τ, r, hr
  | .accessor _, v, h, s, σ, τ, r, hr | .object _, v, h, s, σ, τ, r, hr
  | .assignment _ _, v, h, s, σ, τ, r, hr | .splat, v, h, s, σ, τ, r, hr
  | .subscript _, v, h, s, σ, τ, r, hr | .range _ _ _, v, h, s, σ, τ, r, hr
  | .ordering _, v, h, s, σ, τ, r, hr | .sortDirection _, v, h, s, σ, τ, r, hr
  | .call _ _, v, h, s, σ, τ, r, hr | .pipe _ _, v, h, s, σ, τ, r, hr
  | .mapJoin _, v, h, s, σ, τ, r, hr => by
    simp [Operation.literal?] at h

theorem yields_of_literals? : ∀ {os : List Operation} {vs : List Value},
    Operation.literals? os = some vs → ∀ {s : Scope} {σ τ : Session} {values : List Value},
      (execAll fetcher os s).Yields σ values τ → values = vs ∧ τ = σ
  | [], vs, h, s, σ, τ, values, hr => by
    obtain rfl : [] = vs := by simpa [Operation.literals?] using h
    exact yields_execAll_nil.mp hr
  | o :: os, vs, h, s, σ, τ, values, hr => by
    simp only [Operation.literals?, Option.bind_eq_bind, Option.bind_eq_some_iff,
      Option.pure_def, Option.some.injEq] at h
    obtain ⟨v, hv, rest, hrest, rfl⟩ := h
    obtain ⟨a, ρ, found, ha, hfound, rfl⟩ := yields_execAll_cons.mp hr
    obtain ⟨rfl, rfl⟩ := yields_of_literal? hv ha
    obtain ⟨rfl, rfl⟩ := yields_of_literals? hrest hfound
    exact ⟨rfl, rfl⟩

end

end Engine

/-! ## What an operand gives at a document -/

namespace Operation

/-- What the store knows of the value of an operand at a document. -/
structure Reads (o : Operation) (document : Json) (a : Value) : Prop where
  field : ∀ {name : String}, o.fieldName? = some name →
    a = Value.ofJson? (Selector.lookup document name)
  literal : ∀ {v : Value}, o.literal? = some v → a = v

end Operation

namespace Engine

open Run

variable {fetcher : Fetcher}

/-- The engine gives a plain operand the value that the store knows of. -/
theorem reads_of_yields {o : Operation} (hplain : o.isPlainOperand = true) {fields : Fields Json}
    {s : Scope} {σ τ : Session} {r : Scoped}
    (hs : s.value = Value.ofJson (Collection.unstored (Collection.stored fields)).1)
    (hr : (exec fetcher o s).Yields σ r τ) : o.Reads (Collection.stored fields) r.value where
  field hf := by
    obtain ⟨path, names, rfl, hnames, hne, hnames', rfl⟩ :=
      Operation.names_of_isPlainOperand hplain hf
    obtain ⟨rfl, rfl⟩ := yields_accessor.mp hr
    show (s.resolve path).value = _
    rw [Scope.value_resolve hnames, hs, Collection.ofJson?_lookup_stored hne
      (Operation.isFieldPath_of_isPlainPath hnames')]
  literal hl := (yields_of_literal? hl hr).1

end Engine
end DocQuery
