import DocQuery.Plan.Planner

/-!
# Parameters are literals

A parameter of a query stands for the literal of the value that it is bound to. `Node.substitute`
puts trees in the places of parameters, wherever these are, and **planning a query with its
parameters is planning, without any, the query with literals in their places**
(`plan_substitute`). The plan is the same one, and so is the error where there is none.

Only a subscript looks at the tree behind it and not at what that tree is composed to: it asks
whether it is a range (`compose_index`). So another tree may take the place of a parameter where it
is no range and is composed to the same (`StandsFor`), and everything else that looks at literals
(bounds, keys of objects and of sorts, operands of references) cannot tell the difference
(`compose_substitute`).
-/

set_option autoImplicit false

namespace DocQuery

namespace Node

/-! ## Substitution -/

mutual

/-- The names of the parameters in a tree, in order. -/
def parameters : Node → List String
  | pipe lhs rhs | dot lhs rhs | binary _ lhs rhs | range lhs rhs _ =>
    parameters lhs ++ parameters rhs
  | constraint (some e) => parameters e
  | not operand | postfixed _ operand | subscript operand => parameters operand
  | object nodes | array nodes | functionCall _ nodes => parametersAll nodes
  | param name => [name]
  | everything | constraint none | attr _ | parent | ellipsis | integer _ | float _ | string _
  | bool _ | null => []

def parametersAll : List Node → List String
  | [] => []
  | node :: nodes => parameters node ++ parametersAll nodes

end

mutual

/-- The tree with another one in the place of every parameter. -/
def substitute (f : String → Node) : Node → Node
  | pipe lhs rhs => pipe (substitute f lhs) (substitute f rhs)
  | dot lhs rhs => dot (substitute f lhs) (substitute f rhs)
  | everything => everything
  | constraint none => constraint none
  | constraint (some e) => constraint (some (substitute f e))
  | binary operator lhs rhs => binary operator (substitute f lhs) (substitute f rhs)
  | not operand => not (substitute f operand)
  | postfixed operator operand => postfixed operator (substitute f operand)
  | attr name => attr name
  | parent => parent
  | object members => object (substituteAll f members)
  | array elements => array (substituteAll f elements)
  | subscript value => subscript (substitute f value)
  | range start stop inclusive => range (substitute f start) (substitute f stop) inclusive
  | ellipsis => ellipsis
  | functionCall name arguments => functionCall name (substituteAll f arguments)
  | param name => f name
  | integer n => integer n
  | float d => float d
  | string s => string s
  | bool b => bool b
  | null => null

def substituteAll (f : String → Node) : List Node → List Node
  | [] => []
  | node :: nodes => substitute f node :: substituteAll f nodes

end

mutual

/-- The parameters left are those of the trees put in. -/
theorem parameters_substitute (f : String → Node) : ∀ node : Node,
    (node.substitute f).parameters = node.parameters.flatMap fun name => (f name).parameters
  | .pipe lhs rhs | .dot lhs rhs | .binary _ lhs rhs | .range lhs rhs _ => by
    rw [substitute, parameters, parameters, List.flatMap_append, parameters_substitute f lhs,
      parameters_substitute f rhs]
  | .constraint (some e) | .not e | .postfixed _ e | .subscript e => by
    rw [substitute, parameters, parameters, parameters_substitute f e]
  | .object nodes | .array nodes | .functionCall _ nodes => by
    rw [substitute, parameters, parameters, parametersAll_substituteAll f nodes]
  | .param name => by simp [substitute, parameters]
  | .everything | .constraint none | .attr _ | .parent | .ellipsis | .integer _ | .float _
  | .string _ | .bool _ | .null => rfl

theorem parametersAll_substituteAll (f : String → Node) : ∀ nodes : List Node,
    parametersAll (substituteAll f nodes) =
      (parametersAll nodes).flatMap fun name => (f name).parameters
  | [] => rfl
  | node :: nodes => by
    rw [substituteAll, parametersAll, parametersAll, List.flatMap_append,
      parameters_substitute f node, parametersAll_substituteAll f nodes]

end

/-! ## Composition -/

/-- Whether a tree is a range. -/
def isRange : Node → Bool
  | range _ _ _ => true
  | _ => false

theorem isRange_substitute {f : String → Node} {node : Node}
    (h : ∀ name ∈ node.parameters, (f name).isRange = false) :
    (node.substitute f).isRange = node.isRange := by
  cases node with
  | constraint e => cases e <;> rfl
  | param name => exact h name List.mem_cons_self
  | _ => rfl

end Node

namespace Planner

variable {params params' : Params} {f : String → Node}

/-- A subscript that is no range is an index. -/
theorem compose_index {value : Node} (h : value.isRange = false) (params : Params) :
    compose params (.subscript value) = do
      let index ← bound (← compose params value)
      return .subscript ⟨index, ← past index, true⟩ := by
  rw [compose]
  rintro start stop inclusive rfl
  cases h

/-- Whether a tree, composed under `params'`, is as good as a parameter under `params`. -/
structure StandsFor (params params' : Params) (node : Node) (name : String) : Prop where
  isRange : node.isRange = false
  compose : compose params' node = compose params (.param name)

mutual

/-- What stands for the parameters of a tree may take their places. -/
theorem compose_substitute : ∀ node : Node,
    (∀ name ∈ node.parameters, StandsFor params params' (f name) name) →
      compose params' (node.substitute f) = compose params node
  | .pipe lhs rhs, h | .dot lhs rhs, h | .binary _ lhs rhs, h | .range lhs rhs _, h => by
    obtain ⟨hl, hr⟩ := List.forall_mem_append.mp h
    rw [Node.substitute, compose, compose, compose_substitute lhs hl, compose_substitute rhs hr]
  | .constraint (some e), h | .not e, h | .postfixed _ e, h => by
    rw [Node.substitute, compose, compose, compose_substitute e h]
  | .object nodes, h | .array nodes, h | .functionCall _ nodes, h => by
    rw [Node.substitute, compose, compose, composeAll_substituteAll nodes h]
  | .subscript value, h => by
    have hvalue : compose params' (value.substitute f) = compose params value :=
      compose_substitute value h
    have hrange : (value.substitute f).isRange = value.isRange :=
      Node.isRange_substitute fun name hname => (h name hname).isRange
    cases value with
    | range start stop inclusive =>
      obtain ⟨hstart, hstop⟩ := List.forall_mem_append.mp h
      rw [Node.substitute, Node.substitute, compose, compose, compose_substitute start hstart,
        compose_substitute stop hstop]
    | _ => rw [Node.substitute, compose_index hrange, compose_index rfl, hvalue]
  | .param name, h => (h name List.mem_cons_self).compose
  | .everything, _ | .constraint none, _ | .attr _, _ | .parent, _ | .ellipsis, _ | .integer _, _
  | .float _, _ | .string _, _ | .bool _, _ | .null, _ => by
    rw [Node.substitute, compose, compose]

theorem composeAll_substituteAll : ∀ nodes : List Node,
    (∀ name ∈ Node.parametersAll nodes, StandsFor params params' (f name) name) →
      composeAll params' (Node.substituteAll f nodes) = composeAll params nodes
  | [], _ => by rw [Node.substituteAll, composeAll, composeAll]
  | node :: nodes, h => by
    obtain ⟨hnode, hnodes⟩ := List.forall_mem_append.mp h
    rw [Node.substituteAll, composeAll, composeAll, compose_substitute node hnode,
      composeAll_substituteAll nodes hnodes]

end

end Planner

/-! ## Literals -/

/-- The literal of a scalar: an integer of 64 bits is an integer, and any other number a double.
Arrays and objects have no literal. -/
def Node.ofScalar? : Json → Option Node
  | .null => some .null
  | .bool b => some (.bool b)
  | .int n => some (if fitsInt64 n then .integer n else .float (Double.ofInt n))
  | .float d => some (.float d)
  | .str s => some (.string s)
  | .arr _ | .obj _ => none

/-- The literal of the value that a parameter is bound to. -/
def Params.literal? (params : Params) (name : String) : Option Node :=
  (params.get? name).bind Node.ofScalar?

/-- Whether all these parameters are bound to scalars. -/
def Params.BindScalars (params : Params) (names : List String) : Prop :=
  ∀ name ∈ names, (params.literal? name).isSome

instance (params : Params) (names : List String) : Decidable (params.BindScalars names) :=
  inferInstanceAs (Decidable (∀ name ∈ names, (params.literal? name).isSome))

/-- The tree with literals in the places of its parameters. -/
def Node.withLiterals (params : Params) (node : Node) : Node :=
  node.substitute fun name => (params.literal? name).getD (.param name)

namespace Planner

theorem exists_of_literal? {params : Params} {name : String} (h : (params.literal? name).isSome) :
    ∃ j n, params.get? name = some j ∧ Node.ofScalar? j = some n ∧
      (params.literal? name).getD (.param name) = n := by
  obtain ⟨n, hn⟩ := Option.isSome_iff_exists.mp h
  obtain ⟨j, hj, hscalar⟩ := Option.bind_eq_some_iff.mp hn
  exact ⟨j, n, hj, hscalar, by rw [hn, Option.getD_some]⟩

/-- The literal of a value is composed to the value, and it is neither a range nor a parameter. -/
theorem compose_ofScalar? {j : Json} {n : Node} (h : Node.ofScalar? j = some n) :
    (∀ params, compose params n = pure (.literal (.ofJson j))) ∧ n.isRange = false ∧
      n.parameters = [] := by
  cases j with
  | int i =>
    cases h
    rw [Value.ofJson]
    split
    · exact ⟨fun params => by rw [compose], rfl, rfl⟩
    · exact ⟨fun params => by rw [compose], rfl, rfl⟩
  | arr items => cases h
  | obj fields => cases h
  | _ =>
    cases h
    exact ⟨fun params => by rw [compose]; rfl, rfl, rfl⟩

theorem standsFor_literal {params : Params} {name : String}
    (h : (params.literal? name).isSome) (params' : Params) :
    StandsFor params params' ((params.literal? name).getD (.param name)) name := by
  obtain ⟨j, n, hj, hscalar, heq⟩ := exists_of_literal? h
  obtain ⟨hcompose, hrange, -⟩ := compose_ofScalar? hscalar
  rw [heq]
  exact ⟨hrange, by rw [hcompose, compose, hj]⟩

end Planner

theorem Node.parameters_withLiterals {params : Params} {node : Node}
    (h : params.BindScalars node.parameters) : (node.withLiterals params).parameters = [] := by
  rw [withLiterals, parameters_substitute, List.flatMap_eq_nil_iff]
  intro name hname
  obtain ⟨j, n, -, hscalar, heq⟩ := Planner.exists_of_literal? (h name hname)
  rw [heq]
  exact (Planner.compose_ofScalar? hscalar).2.2

theorem Planner.compose_withLiterals {params : Params} {node : Node}
    (h : params.BindScalars node.parameters) :
    compose [] (node.withLiterals params) = compose params node :=
  compose_substitute node fun name hname => standsFor_literal (h name hname) []

/-- **Binding parameters is substitution**: a query whose parameters are bound to scalars has the
plan, or the error, of the query with the literals in their places, in which no parameter is
left. -/
theorem plan_substitute {query : Node} {globalFilter : Option Node} {params : Params}
    (hquery : params.BindScalars query.parameters)
    (hfilter : ∀ filter ∈ globalFilter, params.BindScalars filter.parameters) :
    plan query globalFilter params =
        plan (query.withLiterals params) (globalFilter.map (·.withLiterals params)) [] ∧
      (query.withLiterals params).parameters = [] ∧
      ∀ filter ∈ globalFilter, (filter.withLiterals params).parameters = [] := by
  refine ⟨?_, Node.parameters_withLiterals hquery,
    fun filter hmem => Node.parameters_withLiterals (hfilter filter hmem)⟩
  unfold plan
  rw [Planner.compose_withLiterals hquery]
  cases globalFilter with
  | none => rfl
  | some filter => simp only [Option.map_some, Planner.compose_withLiterals (hfilter filter rfl)]

/-- Parameters as a bound, a sort key, a member name, the operand of a dereference and an operand of
the global filter. -/
theorem plan_substitute_everywhere :
    let query := Node.pipe (.pipe (.pipe .everything (.functionCall "order" [.param "s"]))
      (.subscript (.range (.integer 0) (.param "n") true)))
      (.object [.binary .colon (.param "s") (.postfixed .arrow (.param "n"))])
    let filter := Node.binary .equals (.attr "x") (.param "s")
    let params : Params := [("n", .int 3), ("s", .str "t")]
    params.BindScalars query.parameters ∧ params.BindScalars filter.parameters ∧
      plan query (some filter) params =
        plan (query.withLiterals params) (some (filter.withLiterals params)) [] ∧
      plan query (some filter) params = .ok (.pipe [.source 1,
        .filter (.binary .eq (.attr "x") (.literal (.string "t"))),
        .ordering [.mk (.attr "t") .asc], .subscript ⟨0, 4, false⟩,
        .object [.assignment "t" (.pipe [.literal .null] none)]] none) := by
  intro query filter params
  have hquery : params.BindScalars query.parameters := by decide
  have hfilter : params.BindScalars filter.parameters := by decide
  have hfilters : ∀ f ∈ some filter, params.BindScalars f.parameters := by
    rintro _ ⟨⟩
    exact hfilter
  exact ⟨hquery, hfilter, (plan_substitute hquery hfilters).1, rfl⟩

end DocQuery
