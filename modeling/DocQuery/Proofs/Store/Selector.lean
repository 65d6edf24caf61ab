import DocQuery.Store.Pushdown
import DocQuery.Store.Selector

/-!
# How a selector is evaluated

One equation for each form of selector that filters are turned into. None of the forms can fail, so
the equations give the answer itself: a condition on a field asks `holds` of the field's value, and
`$and`, `$or` and `$nor` combine the answers of their parts.
-/

set_option autoImplicit false

namespace DocQuery
namespace Selector

open Clause (on combined)

/-- The names at the top of a selector that are no fields. -/
def reserved : List String := ["$and", "$or", "$nor", "$expr"]

variable {name : String} {document : Json}

/-! ## The recursion

The equations that all others are read off. -/

theorem accepts_obj (clauses : List (String × Json)) (document : Json) :
    accepts (.obj clauses) document = acceptsClauses clauses document := rfl

theorem acceptsAll_cons (selector : Json) (rest : List Json) (document : Json) :
    acceptsAll (selector :: rest) document = (do
      if ← accepts selector document then acceptsAll rest document else return false) := rfl

theorem acceptsAny_cons (selector : Json) (rest : List Json) (document : Json) :
    acceptsAny (selector :: rest) document = (do
      if ← accepts selector document then return true else acceptsAny rest document) := rfl

theorem acceptsClauses_cons (name : String) (condition : Json) (rest : List (String × Json))
    (document : Json) : acceptsClauses ((name, condition) :: rest) document = (do
      let here ←
        if name = "$and" then
          match condition with
          | .arr selectors => acceptsAll selectors document
          | j => .error (notAnArray j)
        else if name = "$or" then
          match condition with
          | .arr selectors => acceptsAny selectors document
          | j => .error (notAnArray j)
        else if name = "$nor" then
          match condition with
          | .arr selectors => not <$> acceptsAny selectors document
          | j => .error (notAnArray j)
        else if name = "$expr" then expressionHolds condition document
        else meets condition (lookup document name)
      if here then acceptsClauses rest document else return false) :=
  acceptsClauses.eq_def _ _

theorem meets_obj (operators : List (String × Json)) (value : Option Json) :
    meets (.obj operators) value =
      if isOperatorDocument (.obj operators) then meetsAll operators operators value
      else .ok (holds .eq value (.obj operators)) := rfl

theorem meetsAll_cons (name : String) (operand : Json) (rest : List (String × Json))
    (condition : Fields Json) (value : Option Json) :
    meetsAll ((name, operand) :: rest) condition value = (do
      let here ←
        match comparison? name with
        | some op => pure (holds op value operand)
        | none =>
          match name with
          | "$in" => (·.any (holds .eq value)) <$> itemsOf operand
          | "$exists" => pure (value.isSome == operand.asBool?.getD true)
          | "$size" => pure (hasSize value operand)
          | "$type" => hasType value operand
          | "$regex" => hasPattern value operand (Fields.get? condition "$options")
          | "$options" => pure true
          | "$not" => not <$> meets operand value
          | "$elemMatch" =>
            match value with
            | some (.arr items) =>
              items.anyM fun item =>
                if isOperatorDocument operand then meets operand (some item)
                else match item with
                  | .obj _ => accepts operand item
                  | _ => pure false
            | _ => pure false
          | _ => .error (.invalidSelector ("unknown operator " ++ name))
      if here then meetsAll rest condition value else return false) :=
  meetsAll.eq_def _ _ _

/-! ## Clauses -/

theorem acceptsClauses_field (h : name ∉ reserved) (condition : Json) (rest : List (String × Json))
    (document : Json) : acceptsClauses ((name, condition) :: rest) document = (do
      if ← meets condition (lookup document name) then acceptsClauses rest document
      else return false) := by
  simp only [reserved, List.mem_cons, List.not_mem_nil, or_false, not_or] at h
  obtain ⟨hand, hor, hnor, hexpr⟩ := h
  rw [acceptsClauses_cons]
  dsimp only
  rw [if_neg hand, if_neg hor, if_neg hnor, if_neg hexpr]

theorem accepts_on (h : name ∉ reserved) (condition document : Json) :
    accepts (on name condition) document = meets condition (lookup document name) := by
  rw [on, accepts_obj, acceptsClauses_field h]
  cases meets condition (lookup document name) with
  | error e => rfl
  | ok b => cases b <;> rfl

/-! ## Selectors made of selectors -/

theorem accepts_and (selectors : List Json) (document : Json) :
    accepts (combined "$and" selectors) document = acceptsAll selectors document := by
  rw [combined, accepts_obj, acceptsClauses_cons]
  dsimp only
  rw [if_pos rfl]
  cases acceptsAll selectors document with
  | error e => rfl
  | ok b => cases b <;> rfl

theorem accepts_or (selectors : List Json) (document : Json) :
    accepts (combined "$or" selectors) document = acceptsAny selectors document := by
  rw [combined, accepts_obj, acceptsClauses_cons]
  dsimp only
  rw [if_neg (by decide), if_pos rfl]
  cases acceptsAny selectors document with
  | error e => rfl
  | ok b => cases b <;> rfl

theorem accepts_nor (selectors : List Json) (document : Json) :
    accepts (combined "$nor" selectors) document = (acceptsAny selectors document).map (!·) := by
  rw [combined, accepts_obj, acceptsClauses_cons]
  dsimp only
  rw [if_neg (by decide), if_neg (by decide), if_pos rfl]
  cases acceptsAny selectors document with
  | error e => rfl
  | ok b => cases b <;> rfl

theorem accepts_expr (expression document : Json) :
    accepts (on "$expr" expression) document = expressionHolds expression document := by
  rw [on, accepts_obj, acceptsClauses_cons]
  dsimp only
  rw [if_neg (by decide), if_neg (by decide), if_neg (by decide), if_pos rfl]
  cases expressionHolds expression document with
  | error e => rfl
  | ok b => cases b <;> rfl

theorem acceptsAll_pair {s t : Json} {a b : Bool} (hs : accepts s document = .ok a)
    (ht : accepts t document = .ok b) : acceptsAll [s, t] document = .ok (a && b) := by
  rw [acceptsAll_cons, acceptsAll_cons, hs, ht]
  cases a <;> cases b <;> rfl

theorem acceptsAny_map {α : Type} {f : α → Json} {p : α → Bool} {xs : List α}
    (h : ∀ x ∈ xs, accepts (f x) document = .ok (p x)) :
    acceptsAny (xs.map f) document = .ok (xs.any p) := by
  induction xs with
  | nil => rfl
  | cons x xs ih =>
    have hrest := ih fun y hy => h y (List.mem_cons_of_mem x hy)
    rw [List.map_cons, acceptsAny_cons, h x List.mem_cons_self, hrest, List.any_cons]
    cases p x <;> rfl

theorem acceptsAny_pair {s t : Json} {a b : Bool} (hs : accepts s document = .ok a)
    (ht : accepts t document = .ok b) : acceptsAny [s, t] document = .ok (a || b) := by
  rw [acceptsAny_cons, acceptsAny_cons, hs, ht]
  cases a <;> cases b <;> rfl

/-! ## Conditions -/

variable {value : Option Json}

/-- What is no object is a value to be equal to. -/
theorem meets_value {condition : Json} (h : ∀ fields, condition ≠ .obj fields) :
    meets condition value = .ok (holds .eq value condition) := by
  cases condition with
  | obj fields => exact absurd rfl (h fields)
  | _ => rfl

theorem meets_on (h : name.startsWith "$" = true) (operand : Json) (value : Option Json) :
    meets (on name operand) value = meetsAll [(name, operand)] [(name, operand)] value := by
  rw [on, meets_obj, if_pos]
  show (!false && (name.startsWith "$" && true)) = true
  rw [h]
  rfl

theorem meets_comparison {op : BinaryOp} (hname : name.startsWith "$" = true)
    (hop : comparison? name = some op) (operand : Json) (value : Option Json) :
    meets (on name operand) value = .ok (holds op value operand) := by
  rw [meets_on hname, meetsAll_cons]
  dsimp only
  rw [hop]
  dsimp only
  cases holds op value operand <;> rfl

theorem meets_in (operands : List Json) (value : Option Json) :
    meets (on "$in" (.arr operands)) value = .ok (operands.any (holds .eq value)) := by
  rw [meets_on (by simp), meetsAll_cons]
  show (do let here ← (Except.ok (operands.any (holds .eq value)) : Except StoreError Bool); _) = _
  cases operands.any (holds .eq value) <;> rfl

theorem meets_type (type : String) {b : Bool} (h : hasType value (.str type) = .ok b) :
    meets (on "$type" (.str type)) value = .ok b := by
  rw [meets_on (by simp), meetsAll_cons]
  show (do let here ← hasType value (.str type); _) = _
  rw [h]
  cases b <;> rfl

theorem meets_size (operand : Json) (value : Option Json) :
    meets (on "$size" operand) value = .ok (hasSize value operand) := by
  rw [meets_on (by simp), meetsAll_cons]
  show (do let here ← (Except.ok (hasSize value operand) : Except StoreError Bool); _) = _
  cases hasSize value operand <;> rfl

theorem meets_regex {pattern : Json} :
    meets (on "$regex" pattern) value = hasPattern value pattern none := by
  rw [meets_on (by simp), meetsAll_cons]
  show (do let here ← hasPattern value pattern none; _) = _
  cases hasPattern value pattern none with
  | error e => rfl
  | ok b => cases b <;> rfl

/-- What can be read is refused for its size alone. -/
theorem refusal_of_parse {regex : String} {ignoreCase : Bool} {p : Pattern}
    (h : Pattern.parse? regex ignoreCase = some p) :
    refusal regex ignoreCase = .tooLarge Pattern.Tally.limit := by
  rw [refusal, h]
  rfl

/-- A field that is there and does not meet a condition. -/
theorem meets_exists_not {condition : Json} {b : Bool} (h : meets condition value = .ok b) :
    meets (.obj [("$exists", .bool true), ("$not", condition)]) value =
      .ok (value.isSome && !b) := by
  rw [meets_obj, if_pos (by simp [isOperatorDocument]), meetsAll_cons]
  show (do let here ← (Except.ok (value.isSome == true) : Except StoreError Bool); _) = _
  cases value with
  | none => rfl
  | some v =>
    show meetsAll [("$not", condition)] [("$exists", .bool true), ("$not", condition)] (some v) = _
    rw [meetsAll_cons]
    show (do let here ← Bool.not <$> meets condition (some v); _) = _
    rw [h]
    cases b <;> rfl

/-- Whether an element of an array is one that `$elemMatch` looks for. -/
def matchesElement (operand item : Json) : Except StoreError Bool :=
  if isOperatorDocument operand then meets operand (some item)
  else match item with
    | .obj _ => accepts operand item
    | _ => pure false

theorem meets_elemMatch {α : Type} {f : α → Json} {p : α → Bool} {operand : Json} {xs : List α}
    (h : ∀ x ∈ xs, matchesElement operand (f x) = .ok (p x)) :
    meets (on "$elemMatch" operand) (some (.arr (xs.map f))) = .ok (xs.any p) := by
  have hany : (xs.map f).anyM (matchesElement operand) = .ok (xs.any p) := by
    induction xs with
    | nil => rfl
    | cons x xs ih =>
      have hrest := ih fun y hy => h y (List.mem_cons_of_mem x hy)
      rw [List.map_cons, List.anyM, h x List.mem_cons_self, List.any_cons]
      cases p x with
      | true => rfl
      | false => exact hrest
  rw [meets_on (by simp), meetsAll_cons]
  show (do let here ← (xs.map f).anyM (matchesElement operand); _) = _
  rw [hany]
  cases xs.any p <;> rfl

theorem meets_elemMatch_of_not_array {operand : Json}
    (h : ∀ items, value ≠ some (.arr items)) :
    meets (on "$elemMatch" operand) value = .ok false := by
  rw [meets_on (by simp), meetsAll_cons]
  cases value with
  | none => rfl
  | some v =>
    cases v with
    | arr items => exact absurd rfl (h items)
    | _ => rfl

end Selector
end DocQuery
