import DocQuery.Proofs.Store.Collection
import DocQuery.Proofs.Store.PathPattern

/-!
# Filters and their clauses

**The clause of a filter describes the filter at every stored document** (`describes_ofReadFilter`):
it accepts the documents for which the engine gives `true`, if it is exact it accepts no others, and
if it is a constant that is what the engine gives. The store always has an answer
(`judge_ofReadFilter`).

Both are inductions on the filter that follow `Clause.ofFilter`; the parts are those of
`DocQuery.Proofs.Store.Filter` and `DocQuery.Proofs.Store.PathPattern`, the connectives those of
`DocQuery.Proofs.Store.Clause`. A part that is not translated may be anything, a pipeline that
fetches included: its clause is `unknown`, and only the value it has in the end counts.
-/

set_option autoImplicit false

namespace DocQuery

/-! ## Which filters -/

namespace Operation

/-- A filter whose fields and literals the store reads as the engine does, and that matches no
patterns. Nothing is asked of the parts that are not translated. -/
def isPlainFilter : Operation → Bool
  | filter condition => isPlainFilter condition
  | binary .and lhs rhs | binary .or lhs rhs => isPlainFilter lhs && isPlainFilter rhs
  | binary .textMatch _ _ => false
  | binary .member _ (call .path [literal (.string _)]) => false
  | binary _ lhs rhs => isPlainOperand lhs && isPlainOperand rhs
  | not operand => isPlainFilter operand
  | accessor path => isPlainOperand (accessor path)
  | call .defined (argument :: _) => isPlainOperand argument
  | _ => true

/-- The same with path patterns, as long as their regular expressions compile. -/
def isReadFilter : Operation → Bool
  | filter condition => isReadFilter condition
  | binary .and lhs rhs | binary .or lhs rhs => isReadFilter lhs && isReadFilter rhs
  | binary .textMatch _ _ => false
  | binary .member lhs (call .path [literal (.string pattern)]) =>
    isPlainOperand lhs && Clause.pathCompiles (Path.parse pattern)
  | binary _ lhs rhs => isPlainOperand lhs && isPlainOperand rhs
  | not operand => isReadFilter operand
  | accessor path => isPlainOperand (accessor path)
  | call .defined (argument :: _) => isPlainOperand argument
  | _ => true

theorem isReadFilter_of_isPlainFilter : ∀ {f : Operation}, f.isPlainFilter = true →
    f.isReadFilter = true
  | filter condition, h => isReadFilter_of_isPlainFilter (f := condition) h
  | binary op lhs rhs, h => by
    cases op with
    | and | or =>
      obtain ⟨hl, hr⟩ := Bool.and_eq_true_iff.mp h
      exact Bool.and_eq_true_iff.mpr
        ⟨isReadFilter_of_isPlainFilter hl, isReadFilter_of_isPlainFilter hr⟩
    | textMatch => cases h
    | member =>
      by_cases hpath : ∃ pattern, rhs = .call .path [.literal (.string pattern)]
      · obtain ⟨pattern, rfl⟩ := hpath
        cases h
      · rw [isPlainFilter] at h
        · rw [isReadFilter]
          · exact h
          all_goals simp_all
        all_goals simp_all
    | eq | neq | lt | lte | gt | gte => exact h
  | not operand, h => isReadFilter_of_isPlainFilter (f := operand) h
  | accessor _, h => h
  | call function arguments, h => by
    cases function with
    | defined => cases arguments <;> exact h
    | _ => rfl
  | literal _, _ | object _, _ | array _, _ | pipe _ _, _ | source _, _ | assignment _ _, _
  | splat, _ | subscript _, _ | range _ _ _, _ | ordering _, _ | sortDirection _, _
  | mapJoin _, _ => rfl

end Operation

namespace Engine

/-- Every translated `references()` of a filter is decided on the references of the document it is
asked about, at the time it is asked. The parts before it may have fetched. -/
def ReferencesOwn (fetcher : Fetcher) (s : Scope) : Operation → Session → Prop
  | .filter condition, σ => ReferencesOwn fetcher s condition σ
  | .binary .and lhs rhs, σ | .binary .or lhs rhs, σ =>
    ReferencesOwn fetcher s lhs σ ∧ ∀ a ρ, (exec fetcher lhs s).Yields σ a ρ →
      ReferencesOwn fetcher s rhs ρ
  | .not operand, σ => ReferencesOwn fetcher s operand σ
  | .call .references arguments, σ =>
    ∀ values ρ, (execAll fetcher arguments s).Yields σ values ρ → ρ.context.KeepsOwn s.value
  | _, _ => True

end Engine

namespace Clause

/-! ## Inversion of the translation -/

/-- Both translations succeed where that of a connective does. -/
theorem eq_ok_of_pair {x y : Except StoreError Clause} {g : Clause → Clause → Clause}
    {clause : Clause}
    (h : (do
      let c ← x
      let d ← y
      return g c d) = Except.ok clause) :
    ∃ c d, x = .ok c ∧ y = .ok d ∧ clause = g c d := by
  obtain ⟨c, hx, h⟩ := exists_of_bind_eq_ok h
  obtain ⟨d, hy, h⟩ := exists_of_bind_eq_ok h
  exact ⟨c, d, hx, hy, (Except.ok.inj h).symm⟩

theorem ofFilter_and {lhs rhs : Operation} {clause : Clause}
    (h : ofFilter (.binary .and lhs rhs) = .ok clause) :
    ∃ c d, ofFilter lhs = .ok c ∧ ofFilter rhs = .ok d ∧ clause = c.and d :=
  eq_ok_of_pair h

theorem ofFilter_or {lhs rhs : Operation} {clause : Clause}
    (h : ofFilter (.binary .or lhs rhs) = .ok clause) :
    ∃ c d, ofFilter lhs = .ok c ∧ ofFilter rhs = .ok d ∧ clause = c.or d :=
  eq_ok_of_pair h

theorem ofFilter_not {operand : Operation} {clause : Clause}
    (h : ofFilter (.not operand) = .ok clause) :
    ∃ c, ofFilter operand = .ok c ∧ clause = c.not := by
  obtain ⟨c, hc, h⟩ := exists_of_bind_eq_ok h
  exact ⟨c, hc, (Except.ok.inj h).symm⟩

/-- Membership in a path pattern, or in a field or known values. -/
theorem member_cases {lhs rhs : Operation}
    (h : (Operation.binary .member lhs rhs).isReadFilter = true) :
    (∃ pattern, rhs = .call .path [.literal (.string pattern)] ∧
      lhs.isPlainOperand = true ∧ pathCompiles (Path.parse pattern) = true) ∨
    member lhs rhs = memberOf lhs rhs ∧ lhs.isPlainOperand = true ∧ rhs.isPlainOperand = true := by
  by_cases hpath : ∃ pattern, rhs = .call .path [.literal (.string pattern)]
  · obtain ⟨pattern, rfl⟩ := hpath
    exact .inl ⟨pattern, rfl, Bool.and_eq_true_iff.mp h⟩
  · refine .inr ⟨?_, ?_⟩
    · rw [member]
      simp_all
    · rw [Operation.isReadFilter] at h
      · exact Bool.and_eq_true_iff.mp h
      all_goals simp_all

theorem member_eq_memberOf {lhs rhs : Operation}
    (h : (Operation.binary .member lhs rhs).isPlainFilter = true) :
    member lhs rhs = memberOf lhs rhs ∧ lhs.isPlainOperand = true ∧ rhs.isPlainOperand = true := by
  rcases member_cases (Operation.isReadFilter_of_isPlainFilter h) with ⟨pattern, rfl, -⟩ | hmember
  · cases h
  · exact hmember

/-! ## The store answers -/

theorem judge_ofReadFilter (fields : Fields Json) : ∀ {f : Operation} {clause : Clause},
    ofFilter f = .ok clause → f.isReadFilter = true →
      ∃ x, clause.judge (Collection.stored fields) = .ok x
  | .filter condition, clause, h, hread => judge_ofReadFilter fields (f := condition) h hread
  | .binary op lhs rhs, clause, h, hread => by
    cases op with
    | and =>
      obtain ⟨c, d, hc, hd, rfl⟩ := ofFilter_and h
      obtain ⟨hl, hr⟩ := Bool.and_eq_true_iff.mp hread
      obtain ⟨x, hx⟩ := judge_ofReadFilter fields hc hl
      obtain ⟨y, hy⟩ := judge_ofReadFilter fields hd hr
      exact ⟨x && y, judge_and hx hy⟩
    | or =>
      obtain ⟨c, d, hc, hd, rfl⟩ := ofFilter_or h
      obtain ⟨hl, hr⟩ := Bool.and_eq_true_iff.mp hread
      obtain ⟨x, hx⟩ := judge_ofReadFilter fields hc hl
      obtain ⟨y, hy⟩ := judge_ofReadFilter fields hd hr
      exact ⟨x || y, judge_or hx hy⟩
    | member =>
      cases h
      rcases member_cases hread with ⟨pattern, rfl, hl, hcompiles⟩ | ⟨hmember, hl, hr⟩
      · exact judge_memberOfPath hl hcompiles _
      · rw [hmember]
        exact judge_memberOf hl hr _
    | textMatch => cases hread
    | eq | neq | lt | lte | gt | gte =>
      cases h
      obtain ⟨hl, hr⟩ := Bool.and_eq_true_iff.mp hread
      exact judge_compare rfl hl hr _
  | .not operand, clause, h, hread => by
    obtain ⟨c, hc, rfl⟩ := ofFilter_not h
    obtain ⟨x, hx⟩ := judge_ofReadFilter fields (f := operand) hc hread
    exact ⟨_, judge_not hx⟩
  | .accessor path, clause, h, hread => by
    rw [ofFilter] at h
    cases hfield : (Operation.accessor path).fieldName? with
    | none =>
      rw [hfield] at h
      cases h
      exact ⟨true, rfl⟩
    | some field =>
      rw [hfield] at h
      cases h
      exact ⟨_, accepts_true (Operation.not_mem_reserved hread hfield) _⟩
  | .literal v, clause, h, _ => by
    cases h
    cases v with
    | bool b => exact ⟨b, judge_const b _⟩
    | _ => exact ⟨true, rfl⟩
  | .call function arguments, clause, h, hread => by
    cases h
    cases function with
    | references => exact judge_references arguments fields
    | defined =>
      cases arguments with
      | nil => exact ⟨true, rfl⟩
      | cons argument arguments => exact judge_defined hread _
    | _ => exact ⟨true, rfl⟩
  | .object _, clause, h, _ | .array _, clause, h, _ | .pipe _ _, clause, h, _ => by
    cases h
    exact ⟨true, rfl⟩
  | .source _, clause, h, _ | .assignment _ _, clause, h, _ | .splat, clause, h, _
  | .subscript _, clause, h, _ | .range _ _ _, clause, h, _ | .ordering _, clause, h, _
  | .sortDirection _, clause, h, _ | .mapJoin _, clause, h, _ => by
    cases h

theorem judge_ofFilter (fields : Fields Json) {f : Operation} {clause : Clause}
    (h : ofFilter f = .ok clause) (hplain : f.isPlainFilter = true) :
    ∃ x, clause.judge (Collection.stored fields) = .ok x :=
  judge_ofReadFilter fields h (Operation.isReadFilter_of_isPlainFilter hplain)

/-! ## The clause describes the filter -/

open Engine Run in
theorem value_of_yields_path {fetcher : Fetcher} {s : Scope} {σ τ : Session} {r : Scoped}
    {pattern : String}
    (h : (exec fetcher (.call .path [.literal (.string pattern)]) s).Yields σ r τ) :
    r.value = .path (Path.parse pattern) := by
  obtain ⟨values, ρ, v, hvalues, hv, rfl⟩ := yields_call.mp h
  have hliterals : Operation.literals? [.literal (.string pattern)] = some [.string pattern] := rfl
  obtain ⟨rfl, -⟩ := yields_of_literals? hliterals hvalues
  obtain ⟨rfl, -⟩ := (yields_call_pure rfl).mp hv
  rfl

open Engine Run in
theorem describes_ofReadFilter {fetcher : Fetcher} {fields : Fields Json} {s : Scope}
    (hs : s.value = Value.ofJson (Collection.unstored (Collection.stored fields)).1) :
    ∀ {f : Operation} {clause : Clause} {σ τ : Session} {r : Scoped},
      ofFilter f = .ok clause → f.isReadFilter = true → ReferencesOwn fetcher s f σ →
        (exec fetcher f s).Yields σ r τ →
          clause.Describes (Collection.stored fields) r.value
  | .filter condition, clause, σ, τ, r, h, hread, hown, hrun =>
    describes_ofReadFilter hs (f := condition) h hread hown (yields_filter.mp hrun)
  | .binary op lhs rhs, clause, σ, τ, r, h, hread, hown, hrun => by
    obtain ⟨a, ρ, b, v, ha, hb, hv, rfl⟩ := yields_binary.mp hrun
    cases op with
    | and =>
      obtain ⟨c, d, hc, hd, rfl⟩ := ofFilter_and h
      obtain ⟨hl, hr⟩ := Bool.and_eq_true_iff.mp hread
      obtain ⟨x, hx⟩ := judge_ofReadFilter fields hc hl
      obtain ⟨y, hy⟩ := judge_ofReadFilter fields hd hr
      cases hv
      exact (describes_ofReadFilter hs hc hl hown.1 ha).and
        (describes_ofReadFilter hs hd hr (hown.2 a ρ ha) hb) hx hy
    | or =>
      obtain ⟨c, d, hc, hd, rfl⟩ := ofFilter_or h
      obtain ⟨hl, hr⟩ := Bool.and_eq_true_iff.mp hread
      obtain ⟨x, hx⟩ := judge_ofReadFilter fields hc hl
      obtain ⟨y, hy⟩ := judge_ofReadFilter fields hd hr
      cases hv
      exact (describes_ofReadFilter hs hc hl hown.1 ha).or
        (describes_ofReadFilter hs hd hr (hown.2 a ρ ha) hb) hx hy
    | member =>
      cases h
      rcases member_cases hread with ⟨pattern, rfl, hl, hcompiles⟩ | ⟨hmember, hl, hr⟩
      · have hpath := value_of_yields_path hb
        rw [hpath] at hv
        exact describes_memberOfPath hl hcompiles (reads_of_yields hl hs ha) hv
      · rw [hmember]
        exact describes_memberOf hl hr (reads_of_yields hl hs ha) (reads_of_yields hr hs hb) hv
    | textMatch => cases hread
    | eq | neq | lt | lte | gt | gte =>
      cases h
      obtain ⟨hl, hr⟩ := Bool.and_eq_true_iff.mp hread
      exact describes_compare rfl hl hr (reads_of_yields hl hs ha) (reads_of_yields hr hs hb) hv
  | .not operand, clause, σ, τ, r, h, hread, hown, hrun => by
    obtain ⟨c, hc, rfl⟩ := ofFilter_not h
    obtain ⟨x, hx⟩ := judge_ofReadFilter fields (f := operand) hc hread
    obtain ⟨a, ha, rfl⟩ := yields_not.mp hrun
    exact (describes_ofReadFilter hs (f := operand) hc hread hown ha).not hx
  | .accessor path, clause, σ, τ, r, h, hread, _, hrun => by
    have hreads := reads_of_yields hread hs hrun
    rw [ofFilter] at h
    cases hfield : (Operation.accessor path).fieldName? with
    | none =>
      rw [hfield] at h
      cases h
      exact describes_unknown _ _
    | some field =>
      rw [hfield] at h
      cases h
      refine describes_atLeast fun htrue => ?_
      rw [accepts_true (Operation.not_mem_reserved hread hfield), selector_holds_eq,
        ← hreads.field hfield, htrue]
      rfl
  | .literal v, clause, σ, τ, r, h, _, _, hrun => by
    cases h
    obtain ⟨rfl, rfl⟩ := yields_literal.mp hrun
    exact describes_ofValue v _
  | .call function arguments, clause, σ, τ, r, h, hread, hown, hrun => by
    cases h
    obtain ⟨values, ρ, v, hvalues, hv, rfl⟩ := yields_call.mp hrun
    cases function with
    | references =>
      obtain ⟨rfl, -⟩ := yields_call_references.mp hv
      exact describes_references (fun vs hvs => (yields_of_literals? hvs hvalues).1) hs
        (hown values ρ hvalues)
    | defined =>
      cases arguments with
      | nil => exact describes_unknown _ _
      | cons argument arguments =>
        obtain ⟨rfl, -⟩ := (yields_call_pure rfl).mp hv
        obtain ⟨a, ρ, rest, ha, -, rfl⟩ := yields_execAll_cons.mp hvalues
        exact describes_defined hread (reads_of_yields hread hs ha)
    | _ => exact describes_unknown _ _
  | .object _, clause, σ, τ, r, h, _, _, _ | .array _, clause, σ, τ, r, h, _, _, _
  | .pipe _ _, clause, σ, τ, r, h, _, _, _ => by
    cases h
    exact describes_unknown _ _
  | .source _, clause, σ, τ, r, h, _, _, _ | .assignment _ _, clause, σ, τ, r, h, _, _, _
  | .splat, clause, σ, τ, r, h, _, _, _ | .subscript _, clause, σ, τ, r, h, _, _, _
  | .range _ _ _, clause, σ, τ, r, h, _, _, _ | .ordering _, clause, σ, τ, r, h, _, _, _
  | .sortDirection _, clause, σ, τ, r, h, _, _, _ | .mapJoin _, clause, σ, τ, r, h, _, _, _ => by
    cases h

open Engine Run in
theorem describes_ofFilter {fetcher : Fetcher} {fields : Fields Json} {s : Scope}
    (hs : s.value = Value.ofJson (Collection.unstored (Collection.stored fields)).1) {f : Operation}
    {clause : Clause} {σ τ : Session} {r : Scoped} (h : ofFilter f = .ok clause)
    (hplain : f.isPlainFilter = true) (hown : ReferencesOwn fetcher s f σ)
    (hrun : (exec fetcher f s).Yields σ r τ) :
    clause.Describes (Collection.stored fields) r.value :=
  describes_ofReadFilter hs h (Operation.isReadFilter_of_isPlainFilter hplain) hown hrun

/-! ## Documents of a collection -/

/-- **A selector keeps what its filter keeps, and an exact one keeps nothing else.** Whatever the
filter: its selector gives an answer for every document of a collection. Where the engine finds the
filter `true` for the document, there is a selector and it accepts the document; if the clause is
exact these are all the documents it accepts; and a constant clause is the filter's value. -/
theorem ofFilter_sound {c : Collection} (built : c.Built) {document : Json}
    (held : document ∈ c.documents) {f : Operation} {clause : Clause}
    (translated : ofFilter f = .ok clause) (plain : f.isPlainFilter = true) :
    (∀ selector, clause.selector? = some selector →
      ∃ x, Selector.accepts selector document = .ok x) ∧
    ∀ (fetcher : Fetcher) (s : Scope) (σ τ : Session) (r : Scoped),
      s.value = Value.ofJson (Collection.unstored document).1 →
      Engine.ReferencesOwn fetcher s f σ → (Engine.exec fetcher f s).Yields σ r τ →
        (r.value = .bool true → ∃ selector, clause.selector? = some selector ∧
          Selector.accepts selector document = .ok true) ∧
        (clause.isExact = true → ((∃ selector, clause.selector? = some selector ∧
          Selector.accepts selector document = .ok true) ↔ r.value = .bool true)) ∧
        ∀ b, clause = .const b → r.value = .bool b := by
  obtain ⟨fields, rfl⟩ := built.stored held
  refine ⟨fun selector hselector => ?_, fun fetcher s σ τ r hs hown hrun => ?_⟩
  · obtain ⟨x, hx⟩ := judge_ofFilter fields translated plain
    rw [judge, hselector] at hx
    exact ⟨x, hx⟩
  · have hdescribes := describes_ofFilter hs translated plain hown hrun
    rw [← judge_eq_ok_true]
    exact ⟨hdescribes.keeps, fun hexact => ⟨hdescribes.exact hexact, hdescribes.keeps⟩,
      hdescribes.const⟩

/-- A document that meets an equality and refers to an id, in a collection of its own. -/
theorem ofFilter_sound_single :
    ∃ clause, ofFilter (.binary .and (.binary .eq (.attr "a") (.literal (.int 1)))
        (.call .references [.literal (.string "x")])) = .ok clause ∧ clause.isExact = true ∧
      ∃ selector, clause.selector? = some selector ∧
        Selector.accepts selector (Collection.stored
          [("_id", .str "d"), ("a", .int 1), ("r", .obj [("_ref", .str "x")])]) = .ok true := by
  refine ⟨_, rfl, rfl, ?_⟩
  have inserted : (Collection.empty true).insert
      (.obj [("_id", .str "d"), ("a", .int 1), ("r", .obj [("_ref", .str "x")])]) =
    .ok ⟨true, [Collection.stored
      [("_id", .str "d"), ("a", .int 1), ("r", .obj [("_ref", .str "x")])]]⟩ := rfl
  obtain ⟨-, hsound⟩ := ofFilter_sound (.insert (.empty true) inserted) List.mem_cons_self
    (f := .binary .and (.binary .eq (.attr "a") (.literal (.int 1)))
      (.call .references [.literal (.string "x")])) rfl (by decide +kernel)
  have hrun : (Engine.exec (Fetcher.fullScan [])
      (.binary .and (.binary .eq (.attr "a") (.literal (.int 1)))
        (.call .references [.literal (.string "x")]))
      (.detached (Value.ofJson (.obj
        [("_id", .str "d"), ("a", .int 1), ("r", .obj [("_ref", .str "x")])])))).Yields .empty
      (.one (.detached (.bool true))) ⟨⟨[], [("d", [⟨"x", false, [.field "r"]⟩])]⟩, []⟩ := by
    with_unfolding_all rfl
  refine (hsound _ _ _ _ _ (by with_unfolding_all rfl) ?_ hrun).1 rfl
  -- the session is still empty when `references()` is asked
  refine ⟨trivial, fun a ρ ha values ρ' hvalues => ?_⟩
  obtain ⟨_, _, _, _, hfield, hliteral, -, -⟩ := Engine.yields_binary.mp ha
  obtain ⟨-, rfl⟩ := Engine.yields_accessor.mp hfield
  obtain ⟨-, rfl⟩ := Engine.yields_literal.mp hliteral
  obtain ⟨-, rfl⟩ := Engine.yields_of_literals? rfl hvalues
  exact Context.keepsOwn_empty _

end Clause
end DocQuery
