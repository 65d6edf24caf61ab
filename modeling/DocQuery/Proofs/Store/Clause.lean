import DocQuery.Proofs.Store.Selector
import DocQuery.Proofs.Value.Truth

/-!
# What a clause says of a document

`Clause.judge` is the answer of a clause's selector for one document; a clause without a selector
accepts none. `and`, `or` and `not` of clauses are conjunction, disjunction and, for exact clauses,
negation of these answers.

**A clause describes a filter at a document** (`Clause.Describes`) when it accepts the document if
the filter's value is `true`, does so only then if it is exact, and gives the value itself if it is
a constant. The three connectives keep this up with the three-valued connectives of the engine.
Negation is where it could be lost: a filter whose value is unknown is not kept, nor is its
negation, so a negated clause must never be called exact.
-/

set_option autoImplicit false

namespace DocQuery

namespace Clause

/-! ## The answer of a clause -/

/-- Whether the selector of a clause accepts a document. -/
def judge (c : Clause) (document : Json) : Except StoreError Bool :=
  match c.selector? with
  | none => .ok false
  | some selector => Selector.accepts selector document

variable {c d : Clause} {document : Json} {a b : Bool}

@[simp] theorem judge_const (b : Bool) (document : Json) :
    (const b).judge document = .ok b := by
  cases b <;> rfl

@[simp] theorem judge_unknown (document : Json) : unknown.judge document = .ok true := rfl

theorem judge_exactly (selector document : Json) :
    (exactly selector).judge document = Selector.accepts selector document := rfl

theorem judge_eq_ok_true : c.judge document = .ok true ↔
    ∃ selector, c.selector? = some selector ∧ Selector.accepts selector document = .ok true := by
  unfold judge
  cases c.selector? with
  | none => simp
  | some selector => simp

theorem judge_and (hc : c.judge document = .ok a) (hd : d.judge document = .ok b) :
    (c.and d).judge document = .ok (a && b) := by
  cases c with
  | const x =>
    obtain rfl : x = a := by simpa using hc
    cases x with
    | false => rfl
    | true =>
      cases d with
      | const y => cases y <;> exact hd
      | select t exactT => exact hd
      | unknown => exact hd
  | select s exactS =>
    cases d with
    | const y =>
      obtain rfl : y = b := by simpa using hd
      cases y with
      | false => rw [Bool.and_false]; rfl
      | true => rw [Bool.and_true]; exact hc
    | select t exactT =>
      show Selector.accepts (combined "$and" [s, t]) document = _
      rw [Selector.accepts_and]
      exact Selector.acceptsAll_pair hc hd
    | unknown =>
      obtain rfl : true = b := by simpa using hd
      rw [Bool.and_true]
      exact hc
  | unknown =>
    obtain rfl : true = a := by simpa using hc
    rw [Bool.true_and]
    cases d with
    | const y => cases y <;> exact hd
    | select t exactT => exact hd
    | unknown => exact hd

theorem judge_or (hc : c.judge document = .ok a) (hd : d.judge document = .ok b) :
    (c.or d).judge document = .ok (a || b) := by
  cases c with
  | const x =>
    obtain rfl : x = a := by simpa using hc
    cases x with
    | true => rfl
    | false =>
      cases d with
      | const y => cases y <;> exact hd
      | select t exactT => exact hd
      | unknown => exact hd
  | select s exactS =>
    cases d with
    | const y =>
      obtain rfl : y = b := by simpa using hd
      cases y with
      | false => rw [Bool.or_false]; exact hc
      | true => rw [Bool.or_true]; rfl
    | select t exactT =>
      show Selector.accepts (combined "$or" [s, t]) document = _
      rw [Selector.accepts_or]
      exact Selector.acceptsAny_pair hc hd
    | unknown =>
      obtain rfl : true = b := by simpa using hd
      rw [Bool.or_true]
      rfl
  | unknown =>
    obtain rfl : true = a := by simpa using hc
    rw [Bool.true_or]
    cases d with
    | const y => cases y <;> rfl
    | select t exactT => rfl
    | unknown => rfl

/-- The negation of a clause that is not exact accepts everything. -/
theorem judge_not (hc : c.judge document = .ok a) :
    c.not.judge document = .ok (!(c.isExact && a)) := by
  cases c with
  | const x =>
    obtain rfl : x = a := by simpa using hc
    exact judge_const _ document
  | select s exactS =>
    cases exactS with
    | false => rfl
    | true =>
      show Selector.accepts (combined "$nor" [s]) document = _
      have hs : Selector.accepts s document = .ok a := hc
      rw [Selector.accepts_nor, Selector.acceptsAny, Selector.acceptsAny, hs]
      cases a <;> rfl
  | unknown => rfl

/-! ## When a clause made of others is a constant, or exact -/

theorem and_eq_const (h : c.and d = const b) :
    b = false ∧ (c = const false ∨ d = const false) ∨
      b = true ∧ c = const true ∧ d = const true := by
  cases c with
  | const x =>
    cases x with
    | false => exact .inl ⟨by simpa [and] using h.symm, .inl rfl⟩
    | true =>
      cases d with
      | const y =>
        obtain rfl : y = b := by cases y <;> simpa [and] using h
        cases y with
        | false => exact .inl ⟨rfl, .inr rfl⟩
        | true => exact .inr ⟨rfl, rfl, rfl⟩
      | _ => cases h
  | _ =>
    cases d with
    | const y =>
      cases y with
      | false => exact .inl ⟨by simpa [and] using h.symm, .inr rfl⟩
      | true => cases h
    | _ => cases h

theorem or_eq_const (h : c.or d = const b) :
    b = true ∧ (c = const true ∨ d = const true) ∨
      b = false ∧ c = const false ∧ d = const false := by
  cases c with
  | const x =>
    cases x with
    | true => exact .inl ⟨by simpa [or] using h.symm, .inl rfl⟩
    | false =>
      cases d with
      | const y =>
        obtain rfl : y = b := by cases y <;> simpa [or] using h
        cases y with
        | true => exact .inl ⟨rfl, .inr rfl⟩
        | false => exact .inr ⟨rfl, rfl, rfl⟩
      | _ => cases h
  | _ =>
    cases d with
    | const y =>
      cases y with
      | true => exact .inl ⟨by simpa [or] using h.symm, .inr rfl⟩
      | false => cases h
    | _ => cases h

theorem not_eq_const (h : c.not = const b) : c = const !b := by
  cases c with
  | const x =>
    obtain rfl : (!x) = b := by simpa [not] using h
    rw [Bool.not_not]
  | select s exactS => cases exactS <;> cases h
  | unknown => cases h

theorem isExact_and (h : (c.and d).isExact = true) :
    c = const false ∨ d = const false ∨ c.isExact = true ∧ d.isExact = true := by
  cases c with
  | const x =>
    cases x with
    | false => exact .inl rfl
    | true =>
      cases d with
      | const y =>
        cases y with
        | false => exact .inr (.inl rfl)
        | true => exact .inr (.inr ⟨rfl, rfl⟩)
      | _ => exact .inr (.inr ⟨rfl, h⟩)
  | select s exactS =>
    cases d with
    | const y =>
      cases y with
      | false => exact .inr (.inl rfl)
      | true => exact .inr (.inr ⟨h, rfl⟩)
    | select t exactT =>
      have hboth : exactS = true ∧ exactT = true := by simpa [and, isExact] using h
      exact .inr (.inr hboth)
    | unknown => cases h
  | unknown =>
    cases d with
    | const y =>
      cases y with
      | false => exact .inr (.inl rfl)
      | true => cases h
    | _ => cases h

theorem isExact_or (h : (c.or d).isExact = true) :
    c = const true ∨ d = const true ∨ c.isExact = true ∧ d.isExact = true := by
  cases c with
  | const x =>
    cases x with
    | true => exact .inl rfl
    | false =>
      cases d with
      | const y =>
        cases y with
        | true => exact .inr (.inl rfl)
        | false => exact .inr (.inr ⟨rfl, rfl⟩)
      | _ => exact .inr (.inr ⟨rfl, h⟩)
  | select s exactS =>
    cases d with
    | const y =>
      cases y with
      | true => exact .inr (.inl rfl)
      | false => exact .inr (.inr ⟨h, rfl⟩)
    | select t exactT =>
      have hboth : exactS = true ∧ exactT = true := by simpa [or, isExact] using h
      exact .inr (.inr hboth)
    | unknown => cases h
  | unknown =>
    cases d with
    | const y =>
      cases y with
      | true => exact .inr (.inl rfl)
      | false => cases h
    | _ => cases h

/-- A negation is exact only as a constant. -/
theorem isExact_not (h : c.not.isExact = true) : ∃ x, c = const x := by
  cases c with
  | const x => exact ⟨x, rfl⟩
  | select s exactS => cases exactS <;> cases h
  | unknown => cases h

/-! ## Clauses and the values of filters -/

/-- What a clause promises of a document, given the value of the filter there. -/
structure Describes (c : Clause) (document : Json) (verdict : Value) : Prop where
  keeps : verdict = .bool true → c.judge document = .ok true
  exact : c.isExact = true → c.judge document = .ok true → verdict = .bool true
  const : ∀ b, c = .const b → verdict = .bool b

variable {v w : Value}

theorem describes_unknown (document : Json) (v : Value) : unknown.Describes document v where
  keeps _ := rfl
  exact h := by cases h
  const b h := by cases h

theorem describes_const (b : Bool) (document : Json) :
    (const b).Describes document (.bool b) where
  keeps h := by
    obtain rfl : b = true := by simpa using h
    rfl
  exact _ h := by
    obtain rfl : b = true := by simpa using h
    rfl
  const x h := by cases h; rfl

theorem describes_ofValue (v : Value) (document : Json) : (ofValue v).Describes document v := by
  cases v with
  | bool b => exact describes_const b document
  | _ => exact describes_unknown document _

/-- A selector that has to accept where the value is `true`. -/
theorem describes_atLeast {selector : Json}
    (h : v = .bool true → Selector.accepts selector document = .ok true) :
    (atLeast selector).Describes document v where
  keeps := h
  exact h := by cases h
  const b h := by cases h

/-- A selector that accepts exactly where the value is `true`. -/
theorem describes_exactly {selector : Json}
    (hjudge : Selector.accepts selector document = .ok a) (h : v = .bool true ↔ a = true) :
    (exactly selector).Describes document v where
  keeps hv := by rw [judge_exactly, hjudge, h.mp hv]
  exact _ hj := by
    rw [judge_exactly, hjudge] at hj
    exact h.mpr (by simpa using hj)
  const b h := by cases h

theorem Describes.and (hv : c.Describes document v) (hw : d.Describes document w)
    (hc : c.judge document = .ok a) (hd : d.judge document = .ok b) :
    (c.and d).Describes document (Operator.conjunction v w) where
  keeps h := by
    obtain ⟨hvt, hwt⟩ := Operator.conjunction_eq_true.mp h
    exact judge_and (hv.keeps hvt) (hw.keeps hwt)
  exact hexact h := by
    have hab : a = true ∧ b = true := by simpa [judge_and hc hd] using h
    obtain ⟨rfl, rfl⟩ := hab
    rcases isExact_and hexact with rfl | rfl | ⟨hce, hde⟩
    · cases hc
    · cases hd
    · exact Operator.conjunction_eq_true.mpr ⟨hv.exact hce hc, hw.exact hde hd⟩
  const x h := by
    rcases and_eq_const h with ⟨rfl, hfalse⟩ | ⟨rfl, hct, hdt⟩
    · rcases hfalse with hcf | hdf
      · rw [hv.const false hcf]
        rfl
      · rw [hw.const false hdf]
        exact Operator.conjunction_false_right v
    · exact Operator.conjunction_eq_true.mpr ⟨hv.const true hct, hw.const true hdt⟩

theorem Describes.or (hv : c.Describes document v) (hw : d.Describes document w)
    (hc : c.judge document = .ok a) (hd : d.judge document = .ok b) :
    (c.or d).Describes document (Operator.disjunction v w) where
  keeps h := by
    rw [judge_or hc hd]
    rcases Operator.disjunction_eq_true.mp h with hvt | hwt
    · obtain rfl : a = true := by simpa [hc] using hv.keeps hvt
      rfl
    · obtain rfl : b = true := by simpa [hd] using hw.keeps hwt
      rw [Bool.or_true]
  exact hexact h := by
    have hab : a = true ∨ b = true := by simpa [judge_or hc hd] using h
    rcases isExact_or hexact with hct | hdt | ⟨hce, hde⟩
    · exact Operator.disjunction_eq_true.mpr (.inl (hv.const true hct))
    · exact Operator.disjunction_eq_true.mpr (.inr (hw.const true hdt))
    · rcases hab with rfl | rfl
      · exact Operator.disjunction_eq_true.mpr (.inl (hv.exact hce hc))
      · exact Operator.disjunction_eq_true.mpr (.inr (hw.exact hde hd))
  const x h := by
    rcases or_eq_const h with ⟨rfl, htrue⟩ | ⟨rfl, hcf, hdf⟩
    · exact Operator.disjunction_eq_true.mpr
        (htrue.imp (fun hct => hv.const true hct) (fun hdt => hw.const true hdt))
    · rw [hv.const false hcf, hw.const false hdf]
      rfl

theorem Describes.not (hv : c.Describes document v) (hc : c.judge document = .ok a) :
    c.not.Describes document (Operator.negation v) where
  keeps h := by
    have hvf := Operator.negation_eq_true h
    -- an exact clause that accepts the document would make the filter true there
    have hnot : (c.isExact && a) = false := by
      cases hexact : c.isExact with
      | false => rfl
      | true =>
        cases a with
        | false => rfl
        | true =>
          have hvt := hv.exact hexact hc
          rw [hvf] at hvt
          cases hvt
    rw [judge_not hc, hnot]
    rfl
  exact hexact h := by
    obtain ⟨x, rfl⟩ := isExact_not hexact
    obtain rfl : x = false := by simpa [Clause.not] using h
    rw [hv.const false rfl]
    rfl
  const x h := by
    rw [hv.const _ (not_eq_const h)]
    exact congrArg Value.bool (Bool.not_not x)

end Clause
end DocQuery
