import DocQuery.Proofs.Join.Widening
import DocQuery.Proofs.Store.Answer

/-!
# Widened filters as selectors

A store reads a widened filter as the engine does (`reading_clause`), so **it accepts every document
that the join filter keeps for some sibling** (`accepted_of_widens`). Filters that were plain and
translated are so after widening, when the siblings hold nothing that JSON cannot write.
-/

set_option autoImplicit false

namespace DocQuery

/-! ## Values that JSON can write -/

namespace Value

theorem isJson_of_get? {fields : List (String × Value)} {name : String} {v : Value}
    (h : fieldsJson fields = true) (hv : Fields.get? fields name = some v) : v.isJson = true := by
  induction fields with
  | nil => cases hv
  | cons f fields ih =>
    obtain ⟨key, w⟩ := f
    simp only [fieldsJson, Bool.and_eq_true] at h
    rw [Fields.get?] at hv
    split at hv
    · cases hv
      exact h.1
    · exact ih h.2 hv

theorem isJson_getD {v : Value} (h : v.isJson = true) (name : String) :
    (v.getD name).isJson = true := by
  unfold getD
  cases hv : v.get? name with
  | none => rfl
  | some w =>
    cases v with
    | object fields => exact isJson_of_get? h hv
    | _ => cases hv

theorem isJson_follow {v : Value} (h : v.isJson = true) (names : List String) :
    (v.follow names).isJson = true := by
  induction names generalizing v with
  | nil => exact h
  | cons name names ih => exact ih (isJson_getD h name)

theorem isJson_of_mem_spread {v w : Value} (h : v.isJson = true) (hw : w ∈ Join.spread v) :
    w.isJson = true := by
  cases v with
  | array items => exact isJson_of_mem h hw
  | _ =>
    rw [List.mem_singleton.mp hw]
    exact h

end Value

/-! ## Clauses and their answers -/

/-- A clause describes the truth value that it has for an answer. -/
theorem Clause.describes_judged {c : Clause} {document : Json} {x : Bool}
    (h : c.judge document = .ok x) : c.Describes document (.bool x) where
  keeps hx := by
    cases hx
    exact h
  exact _ htrue := by
    rw [h] at htrue
    cases htrue
    rfl
  const b hb := by
    rw [hb, judge_const] at h
    cases h
    rfl

namespace Join

open Operation Operator Correlated Clause Collection Pushdown

variable {siblings values : List Value} {sign : Bool} {F G c o : Operation} {p : Value}
  {document : Json}

/-! ## Plain and translated filters -/

theorem isPlainFilter_member {a b : Operation}
    (h : (Operation.binary .member a c).isPlainFilter = true) (hb : b.isPlainOperand = true) :
    (Operation.binary .member b c).isPlainFilter = true := by
  have hc := (member_eq_memberOf h).2.2
  rw [isPlainFilter]
  · exact Bool.and_eq_true_iff.mpr ⟨hb, hc⟩
  · simp
  · simp
  · simp
  · intro pattern _ hpath
    rw [hpath] at h
    cases h

theorem isPlainFilter_widenEq (hc : c.isPlainOperand = true) (hvalues : ∀ v ∈ values, v.isJson = true) :
    (widenEq c values).isPlainFilter = true := by
  match values, hvalues with
  | [], _ => rfl
  | [v], hvalues => exact Bool.and_eq_true_iff.mpr ⟨hc, hvalues v List.mem_cons_self⟩
  | v :: w :: values, hvalues =>
    have hall : Value.allJson (v :: w :: values) = true := Value.allJson_of_forall hvalues
    exact Bool.and_eq_true_iff.mpr ⟨hc, hall⟩

theorem isPlainFilter_widenMember (hc : c.isPlainOperand = true)
    (hvalues : ∀ v ∈ values, v.isJson = true) : (widenMember c values).isPlainFilter = true := by
  unfold widenMember
  dsimp only
  split
  · rfl
  · have hall : Value.allJson (values.flatMap spread) = true := by
      refine Value.allJson_of_forall fun v hv => ?_
      obtain ⟨w, hw, hv⟩ := List.mem_flatMap.mp hv
      exact Value.isJson_of_mem_spread (hvalues w hw) hv
    exact Bool.and_eq_true_iff.mpr ⟨hc, hall⟩

theorem isPlainFilter_foldl_orMember
    (hmember : ∀ v ∈ values, (Operation.binary .member (.literal v) c).isPlainFilter = true)
    (ho : o.isPlainFilter = true) : (values.foldl (orMember c) o).isPlainFilter = true := by
  induction values generalizing o with
  | nil => exact ho
  | cons v values ih =>
    refine ih (fun w hw => hmember w (List.mem_cons_of_mem v hw)) ?_
    exact Bool.and_eq_true_iff.mpr ⟨ho, hmember v List.mem_cons_self⟩

theorem isPlainFilter_widenMembers (h : (Operation.binary .member o c).isPlainFilter = true)
    (hvalues : ∀ v ∈ values, v.isJson = true) : (widenMembers c values).isPlainFilter = true := by
  have hmember : ∀ v ∈ values, (Operation.binary .member (.literal v) c).isPlainFilter = true :=
    fun v hv => isPlainFilter_member h (hvalues v hv)
  cases values with
  | nil => rfl
  | cons v values =>
    exact isPlainFilter_foldl_orMember (fun w hw => hmember w (List.mem_cons_of_mem v hw))
      (hmember v List.mem_cons_self)

/-- Widening leaves a filter plain. -/
theorem isPlainFilter_of_widens (h : Widens siblings sign F G)
    (hjson : ∀ v ∈ siblings, v.isJson = true) (hplain : F.isPlainFilter = true) :
    G.isPlainFilter = true := by
  have hvalues : ∀ names, ∀ v ∈ valuesAt siblings names, v.isJson = true := by
    intro names v hv
    obtain ⟨-, w, hw, rfl⟩ := mem_valuesAt.mp hv
    exact Value.isJson_follow (hjson w hw) names
  induction h with
  | and _ _ left right | or _ _ left right =>
    obtain ⟨hl, hr⟩ := Bool.and_eq_true_iff.mp hplain
    exact Bool.and_eq_true_iff.mpr ⟨left hl, right hr⟩
  | not _ operand => exact operand hplain
  | free _ => exact hplain
  | eq _ _ _ => exact isPlainFilter_widenEq (Bool.and_eq_true_iff.mp hplain).1 (hvalues _)
  | outerEq _ _ _ => exact isPlainFilter_widenEq (Bool.and_eq_true_iff.mp hplain).2 (hvalues _)
  | member _ _ _ => exact isPlainFilter_widenMember (member_eq_memberOf hplain).2.1 (hvalues _)
  | outerMember _ _ _ => exact isPlainFilter_widenMembers hplain (hvalues _)
  | references _ _ => rfl

theorem translated_foldl_orMember (ho : ∃ clause, ofFilter o = .ok clause) :
    ∃ clause, ofFilter (values.foldl (orMember c) o) = .ok clause := by
  induction values generalizing o with
  | nil => exact ho
  | cons v values ih =>
    obtain ⟨clause, hclause⟩ := ho
    refine ih ⟨clause.or (member (.literal v) c), ?_⟩
    rw [orMember, ofFilter, hclause]
    rfl

/-- Widening leaves a filter translated. -/
theorem translated_of_widens (h : Widens siblings sign F G)
    (htranslated : ∃ clause, ofFilter F = .ok clause) : ∃ clause, ofFilter G = .ok clause := by
  induction h with
  | and _ _ left right =>
    obtain ⟨_, hclause⟩ := htranslated
    obtain ⟨_, _, hl, hr, -⟩ := ofFilter_and hclause
    obtain ⟨l, hl⟩ := left ⟨_, hl⟩
    obtain ⟨r, hr⟩ := right ⟨_, hr⟩
    refine ⟨l.and r, ?_⟩
    rw [ofFilter, hl, hr]
    rfl
  | or _ _ left right =>
    obtain ⟨_, hclause⟩ := htranslated
    obtain ⟨_, _, hl, hr, -⟩ := ofFilter_or hclause
    obtain ⟨l, hl⟩ := left ⟨_, hl⟩
    obtain ⟨r, hr⟩ := right ⟨_, hr⟩
    refine ⟨l.or r, ?_⟩
    rw [ofFilter, hl, hr]
    rfl
  | not _ operand =>
    obtain ⟨_, hclause⟩ := htranslated
    obtain ⟨_, ho, -⟩ := ofFilter_not hclause
    obtain ⟨inner, ho⟩ := operand ⟨_, ho⟩
    refine ⟨inner.not, ?_⟩
    rw [ofFilter, ho]
    rfl
  | free _ => exact htranslated
  | @eq _ _ _ names _ _ _ | @outerEq _ _ _ names _ _ _ =>
    rcases valuesAt siblings names with _ | ⟨_, _ | ⟨_, _⟩⟩ <;> exact ⟨_, rfl⟩
  | member _ _ _ =>
    unfold widenMember
    dsimp only
    split <;> exact ⟨_, rfl⟩
  | @outerMember _ _ _ names _ _ _ =>
    cases valuesAt siblings names with
    | nil => exact ⟨_, rfl⟩
    | cons v values => exact translated_foldl_orMember ⟨_, rfl⟩
  | references _ _ => exact ⟨_, rfl⟩

/-! ## The clause of a free filter -/

open Engine Run in
theorem referencesOwn_of_isFree {fetcher : Fetcher} {s : Scope} : ∀ {f : Operation} {σ : Session},
    f.isFree = true → σ.context.KeepsOwn s.value → ReferencesOwn fetcher s f σ
  | .filter condition, _, h, hown => referencesOwn_of_isFree (f := condition) h hown
  | .binary op lhs rhs, _, h, hown => by
    obtain ⟨hl, hr⟩ := Bool.and_eq_true_iff.mp h
    cases op with
    | and | or =>
      refine ⟨referencesOwn_of_isFree hl hown, fun a ρ ha => referencesOwn_of_isFree hr ?_⟩
      exact ((comesTo_exec (fun _ => Session.faithful_keepsOwn s.value)
        (isCorrelated_of_isFree hl)).of_yields hown ha).2
    | _ => trivial
  | .not operand, _, h, hown => referencesOwn_of_isFree (f := operand) h hown
  | .call function arguments, _, h, hown => by
    cases function with
    | references =>
      intro values ρ hvalues
      have hcorrelated : (Operation.array arguments).isCorrelated = true :=
        isCorrelated_of_isFree (o := .array arguments) h
      exact ((comesTo_execAll (fun _ => Session.faithful_keepsOwn s.value)
        hcorrelated).of_yields hown hvalues).2
    | _ => trivial
  | .accessor _, _, _, _ | .literal _, _, _, _ | .object _, _, _, _ | .array _, _, _, _
  | .assignment _ _, _, _, _ | .splat, _, _, _ | .subscript _, _, _, _ | .range _ _ _, _, _, _
  | .ordering _, _, _, _ | .sortDirection _, _, _, _ => trivial
  | .source _, _, h, _ | .pipe _ _, _, h, _ | .mapJoin _, _, h, _ => by
    cases h

open Engine in
/-- The clause of a free filter describes the value that the filter has at a document. -/
theorem describes_free {outer v : Value} {clause : Clause} (hdocument : IsDocument document)
    (hfree : G.isFree = true) (hread : G.isReadFilter = true)
    (htranslated : ofFilter G = .ok clause)
    (heval : eval outer G (.ofJson document) = .ok v) :
    clause.Describes (storedOf document) v := by
  let s := Scope.detached (.ofJson document)
  have hown : Session.empty.context.KeepsOwn s.value := Context.keepsOwn_empty _
  have hcomes := @comesTo_exec (.fullScan []) _ s _ (fun _ => Session.faithful_keepsOwn s.value) G
    (isCorrelated_of_isFree hfree)
  have hvalue : eval (outerOf s) G s.value = .ok v :=
    (eval_of_isFree (outerOf s) outer hfree _).trans heval
  rw [hvalue] at hcomes
  obtain ⟨r, τ, hrun, hr, -⟩ := hcomes.yields hown
  have hunstored := unstored_storedOf hdocument
  obtain ⟨fields, rfl⟩ := hdocument.isObject
  rw [← hr]
  exact describes_ofReadFilter (congrArg Value.ofJson hunstored.symm) htranslated hread
    (referencesOwn_of_isFree hfree hown) hrun

/-! ## Reading filters as selectors -/

/-- A filter as its clause: what the clause gives for a document has a property. -/
def Selects (document : Json) (P : Value → Prop) (o : Operation) : Prop :=
  o.isPlainFilter = true → ∀ clause, ofFilter o = .ok clause →
    ∃ x, clause.Describes (storedOf document) (.bool x) ∧ P (.bool x)

theorem judge_of_plain {clause : Clause} (hdocument : IsDocument document)
    (hplain : o.isPlainFilter = true) (htranslated : ofFilter o = .ok clause) :
    ∃ x, clause.judge (storedOf document) = .ok x :=
  ⟨_, judge_eq_accepted hdocument hplain htranslated⟩

/-- Clauses are a reading of filters. -/
theorem reading_clause (outer : Value) (hdocument : IsDocument document) :
    Reading outer (.ofJson document) (Selects document) where
  mono h hPQ := by
    intro hplain clause hclause
    obtain ⟨x, hx, hP⟩ := h hplain clause hclause
    exact ⟨x, hx, hPQ _ hP⟩
  and hl hr h := by
    intro hplain clause hclause
    obtain ⟨hplainl, hplainr⟩ := Bool.and_eq_true_iff.mp hplain
    obtain ⟨l, r, hcl, hcr, rfl⟩ := ofFilter_and hclause
    obtain ⟨x, hx, hP⟩ := hl hplainl l hcl
    obtain ⟨y, hy, hQ⟩ := hr hplainr r hcr
    obtain ⟨_, hjl⟩ := judge_of_plain hdocument hplainl hcl
    obtain ⟨_, hjr⟩ := judge_of_plain hdocument hplainr hcr
    have hand : conjunction (.bool x) (.bool y) = .bool (x && y) := by cases x <;> cases y <;> rfl
    exact ⟨x && y, hand ▸ hx.and hy hjl hjr, hand ▸ h _ _ hP hQ⟩
  or hl hr h := by
    intro hplain clause hclause
    obtain ⟨hplainl, hplainr⟩ := Bool.and_eq_true_iff.mp hplain
    obtain ⟨l, r, hcl, hcr, rfl⟩ := ofFilter_or hclause
    obtain ⟨x, hx, hP⟩ := hl hplainl l hcl
    obtain ⟨y, hy, hQ⟩ := hr hplainr r hcr
    obtain ⟨_, hjl⟩ := judge_of_plain hdocument hplainl hcl
    obtain ⟨_, hjr⟩ := judge_of_plain hdocument hplainr hcr
    have hor : disjunction (.bool x) (.bool y) = .bool (x || y) := by cases x <;> cases y <;> rfl
    exact ⟨x || y, hor ▸ hx.or hy hjl hjr, hor ▸ h _ _ hP hQ⟩
  not {P Q o} ho h := by
    intro hplain clause hclause
    obtain ⟨inner, hinner, rfl⟩ := ofFilter_not hclause
    obtain ⟨x, hx, hP⟩ := ho hplain inner hinner
    obtain ⟨_, hj⟩ := judge_of_plain (o := o) hdocument hplain hinner
    exact ⟨!x, hx.not hj, h _ hP⟩
  value {o v} hfree hv := by
    intro hplain clause hclause
    cases v with
    | bool b =>
      refine ⟨b, describes_free hdocument hfree (isReadFilter_of_isPlainFilter hplain) hclause hv,
        fun b' hb' => ?_⟩
      exact hb'
    | _ =>
      obtain ⟨x, hx⟩ := judge_of_plain hdocument hplain hclause
      exact ⟨x, describes_judged hx, fun _ hb => nomatch hb⟩
  refused _ _ _ := by
    intro hplain clause hclause
    obtain ⟨x, hx⟩ := judge_of_plain hdocument hplain hclause
    exact ⟨x, describes_judged hx, trivial⟩

/-- **A document that a filter keeps for some sibling is accepted by what the filter is widened
to.** -/
theorem accepted_of_widens {clause : Clause} (h : Widens siblings true F G)
    (hread : ∀ v ∈ siblings, v.IsRead) (hjson : ∀ v ∈ siblings, v.isJson = true)
    (hplain : F.isPlainFilter = true) (htranslated : ofFilter G = .ok clause)
    (hdocument : IsDocument document) (hp : p ∈ siblings)
    (heval : eval p F (.ofJson document) = .ok (.bool true)) :
    accepted clause (storedOf document) = true := by
  obtain ⟨x, hdescribes, hx⟩ := (reading_clause .null hdocument).of_widens hread hp h _ heval
    (isPlainFilter_of_widens h hjson hplain) clause htranslated
  have htrue := hdescribes.keeps (hx rfl)
  rw [accepted, htrue]

end Join
end DocQuery
