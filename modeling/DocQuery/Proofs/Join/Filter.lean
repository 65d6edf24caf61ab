import DocQuery.Proofs.Engine.Correlated

/-!
# Join filters

A join filter compares with the enclosing value (`^.a…`) in its leaves: in equalities and
memberships of which it is one side, and among the arguments of `references()`. Everything else in
it is free. What `Join.generalize` makes of such a filter is said by one relation (`Join.Widens`,
`widens_of_generalize`): the leaves are widened to the values that the accessor has in the siblings,
the connectives stay. It keeps account of the sign of a leaf, since **a leaf under an odd number of
`not`s must not be widened**: there the accessor has to have one value in all siblings.

The siblings are the values that stand at one place of the documents of a source
(`Value.Stands`, `mem_siblings`).
-/

set_option autoImplicit false

namespace DocQuery

/-! ## Values read from JSON -/

namespace Value

/-- A value read from JSON, or null for one that is not there. -/
def IsRead (v : Value) : Prop := ∃ j, v = ofJson? j

theorem isRead_ofJson (j : Json) : (ofJson j).IsRead := ⟨some j, rfl⟩

theorem IsRead.follow {v : Value} (h : v.IsRead) (names : List String) : (v.follow names).IsRead := by
  obtain ⟨j, rfl⟩ := h
  cases j with
  | none => exact ⟨none, follow_null names⟩
  | some j => exact ⟨_, (ofJson?_foldlM names j).symm⟩

theorem IsRead.ne_path {v : Value} (h : v.IsRead) (p : Path) : v ≠ path p := by
  obtain ⟨j, rfl⟩ := h
  exact ofJson?_ne_path j p

theorem IsRead.of_mem_items {v : Value} {items : List Value} (h : (array items).IsRead)
    (hv : v ∈ items) : v.IsRead := by
  obtain ⟨j, hj⟩ := h
  obtain ⟨js, -, rfl⟩ := eq_arr_of_ofJson? hj.symm
  obtain ⟨k, -, rfl⟩ := List.mem_map.mp hv
  exact isRead_ofJson k

theorem IsRead.of_mem_spread {v w : Value} (h : v.IsRead) (hw : w ∈ Join.spread v) : w.IsRead := by
  cases v with
  | array items => exact h.of_mem_items hw
  | _ =>
    obtain rfl := List.mem_singleton.mp hw
    exact h

theorem isNull_eq_false {v : Value} (h : v ≠ null) : v.isNull = false := by
  cases v with
  | null => exact absurd rfl h
  | _ => rfl

/-! ## Places in documents -/

/-- A value stands at a place of a document: it is what the attributes lead to, or an element of the
array that they lead to. Without attributes the place is that of the document itself. -/
inductive Stands (document : Value) : List ScopeStep → Value → Prop where
  | whole {names : List String} {v : Value} (found : document.follow names = v)
      (single : v.asArray? = none) : Stands document (names.map .attr) v
  | element {names : List String} {items : List Value} {v : Value}
      (found : document.follow names = .array items) (mem : v ∈ items) :
      Stands document (names.map .attr) v

theorem followPath_attrs (names : List String) (v : Value) :
    followPath v (names.map .attr) = v.follow names := by
  induction names generalizing v with
  | nil => rfl
  | cons name names ih =>
    rw [List.map_cons, followPath]
    split
    · next hnull =>
      have hvalue : v.getD name = null := by
        cases hv : v.getD name with
        | null => rfl
        | _ =>
          rw [hv] at hnull
          cases hnull
      rw [follow, List.foldl_cons, hvalue]
      exact (follow_null names).symm
    · exact ih _

theorem Stands.exists_attrs {document v : Value} {path : List ScopeStep}
    (h : document.Stands path v) : ∃ names : List String, path = names.map .attr := by
  cases h with
  | whole _ _ => exact ⟨_, rfl⟩
  | element _ _ => exact ⟨_, rfl⟩

theorem Stands.mem_spread {document v : Value} {path : List ScopeStep}
    (h : document.Stands path v) : v ∈ Join.spread (followPath document path) := by
  cases h with
  | whole found single =>
    rw [followPath_attrs, found]
    cases v with
    | array items => cases single
    | _ => exact List.mem_singleton.mpr rfl
  | element found mem =>
    rw [followPath_attrs, found]
    exact mem

end Value

/-! ## Which filters -/

namespace Operation

/-- The attributes of the enclosing value that an operand reads; `^` alone reads none. -/
def outerOperand? : Operation → Option (List String)
  | accessor (.parent :: step :: steps) => attributeNames? (step :: steps)
  | _ => none

/-- An equality or a membership with the enclosing value on one side, or `references()` with it
among the arguments. -/
def isJoinLeaf : Operation → Bool
  | binary .eq lhs rhs | binary .member lhs rhs =>
    lhs.outerOperand?.isSome && rhs.isFree || lhs.isFree && rhs.outerOperand?.isSome
  | call .references arguments => arguments.all fun o => o.outerOperand?.isSome || o.isFree
  | _ => false

/-- A filter made with `and` and `or` of free operations and comparisons with the enclosing value. -/
def isPositiveJoin : Operation → Bool
  | binary .and lhs rhs | binary .or lhs rhs => isPositiveJoin lhs && isPositiveJoin rhs
  | o => o.isFree || o.isJoinLeaf

end Operation

namespace Join

open Operation

/-- All values that have something there have the same there. -/
def Agree (siblings : List Value) (names : List String) : Prop :=
  ∀ p ∈ siblings, ∀ q ∈ siblings, p.follow names ≠ .null → q.follow names ≠ .null →
    p.follow names = q.follow names

/-- What a comparison with the enclosing value reads of it does not tell the siblings apart. For
`references()` this goes for missing values too: these refer to nothing, but no less definitely. -/
def Steady (siblings : List Value) : Operation → Prop
  | .binary _ lhs rhs =>
    (∀ names, lhs.outerOperand? = some names → Agree siblings names) ∧
      ∀ names, rhs.outerOperand? = some names → Agree siblings names
  | .call _ arguments => ∀ o ∈ arguments, ∀ names, o.outerOperand? = some names →
    ∀ p ∈ siblings, ∀ q ∈ siblings, p.follow names = q.follow names
  | _ => True

/-- A join filter whose truth value `sign` is asked for: comparisons with the enclosing value whose
falsehood makes for it are steady. -/
def IsJoinFilter (siblings : List Value) : Bool → Operation → Prop
  | sign, .binary .and lhs rhs | sign, .binary .or lhs rhs =>
    IsJoinFilter siblings sign lhs ∧ IsJoinFilter siblings sign rhs
  | sign, .not operand => IsJoinFilter siblings (!sign) operand
  | sign, o => o.isFree = true ∨ o.isJoinLeaf = true ∧ (sign = false → Steady siblings o)

/-- The values that an accessor has in the siblings, nulls left out. -/
def valuesAt (siblings : List Value) (names : List String) : List Value :=
  (siblings.map (·.follow names)).filter (!·.isNull)

/-- An argument of `references()`, in the place of an accessor its values. -/
def widenArgument (siblings : List Value) (o : Operation) : List Operation :=
  match o.outerOperand? with
  | some names => (valuesAt siblings names).map .literal
  | none => [o]

/-- What a join filter is widened to, given the siblings and the truth value that is asked for. -/
inductive Widens (siblings : List Value) : Bool → Operation → Operation → Prop where
  | and {sign : Bool} {lhs lhs' rhs rhs' : Operation} (left : Widens siblings sign lhs lhs')
      (right : Widens siblings sign rhs rhs') :
      Widens siblings sign (.binary .and lhs rhs) (.binary .and lhs' rhs')
  | or {sign : Bool} {lhs lhs' rhs rhs' : Operation} (left : Widens siblings sign lhs lhs')
      (right : Widens siblings sign rhs rhs') :
      Widens siblings sign (.binary .or lhs rhs) (.binary .or lhs' rhs')
  | not {sign : Bool} {o o' : Operation} (operand : Widens siblings (!sign) o o') :
      Widens siblings sign (.not o) (.not o')
  | free {sign : Bool} {o : Operation} (free : o.isFree = true) : Widens siblings sign o o
  | eq {sign : Bool} {c o : Operation} {names : List String} (free : c.isFree = true)
      (outer : o.outerOperand? = some names) (steady : sign = false → Agree siblings names) :
      Widens siblings sign (.binary .eq c o) (widenEq c (valuesAt siblings names))
  | outerEq {sign : Bool} {c o : Operation} {names : List String} (free : c.isFree = true)
      (outer : o.outerOperand? = some names) (steady : sign = false → Agree siblings names) :
      Widens siblings sign (.binary .eq o c) (widenEq c (valuesAt siblings names))
  | member {sign : Bool} {c o : Operation} {names : List String} (free : c.isFree = true)
      (outer : o.outerOperand? = some names) (steady : sign = false → Agree siblings names) :
      Widens siblings sign (.binary .member c o) (widenMember c (valuesAt siblings names))
  | outerMember {sign : Bool} {c o : Operation} {names : List String} (free : c.isFree = true)
      (outer : o.outerOperand? = some names) (steady : sign = false → Agree siblings names) :
      Widens siblings sign (.binary .member o c) (widenMembers c (valuesAt siblings names))
  | references {sign : Bool} {arguments : List Operation}
      (arguments_join : ∀ o ∈ arguments, (∃ names, o.outerOperand? = some names) ∨ o.isFree = true)
      (steady : sign = false → Steady siblings (.call .references arguments)) :
      Widens siblings sign (.call .references arguments)
        (.call .references (arguments.flatMap (widenArgument siblings)))

/-! ## Accessors of the enclosing value -/

theorem exists_of_outerOperand? {o : Operation} {names : List String}
    (h : o.outerOperand? = some names) :
    ∃ name steps, o = .accessor (.parent :: .attr name :: steps) ∧
      attributeNames? (.attr name :: steps) = some names := by
  cases o with
  | accessor path =>
    match path, h with
    | .parent :: .attr name :: steps, h => exact ⟨name, steps, rfl, h⟩
  | _ => cases h

theorem isParentAccessor_of_outer {o : Operation} {names : List String}
    (h : o.outerOperand? = some names) : o.isParentAccessor = true := by
  obtain ⟨name, steps, rfl, -⟩ := exists_of_outerOperand? h
  rfl

theorem isParentAccessor_of_isFree {o : Operation} (h : o.isFree = true) :
    o.isParentAccessor = false := by
  cases o with
  | accessor path =>
    match path, h with
    | [], _ => rfl
    | .attr _ :: _, _ => rfl
  | _ => rfl

theorem outerOperand?_of_isFree {o : Operation} (h : o.isFree = true) : o.outerOperand? = none := by
  cases ho : o.outerOperand? with
  | none => rfl
  | some names =>
    have hparent := isParentAccessor_of_outer ho
    rw [isParentAccessor_of_isFree h] at hparent
    cases hparent

theorem isFree_of_mem {os : List Operation} {o : Operation}
    (h : allWithin isInner (fun _ => true) os = true) (ho : o ∈ os) :
    o.isFree = true := by
  induction os with
  | nil => cases ho
  | cons p os ih =>
    obtain ⟨hp, hos⟩ := Bool.and_eq_true_iff.mp h
    rcases List.mem_cons.mp ho with rfl | ho
    · exact hp
    · exact ih hos ho

variable {c : Context} {s : Scope} {siblings : List Value}

theorem joinValues_of_outer (hsiblings : siblings? c s = some siblings) {o : Operation}
    {names : List String} (h : o.outerOperand? = some names) :
    joinValues c s o = some (valuesAt siblings names) := by
  obtain ⟨name, steps, rfl, hnames⟩ := exists_of_outerOperand? h
  have hvalues : joinValues c s (.accessor (.parent :: .attr name :: steps)) =
      valuesFrom c s (.attr name :: steps) := rfl
  rw [hvalues, valuesFrom, hsiblings]
  refine congrArg (fun vs : List Value => some (vs.filter (!·.isNull))) ?_
  exact List.map_congr_left fun v _ => Scope.value_resolve hnames _

/-! ## What a filter is widened to -/

theorem widenArguments_eq (hsiblings : siblings? c s = some siblings) {arguments : List Operation}
    (h : ∀ o ∈ arguments, (∃ names, o.outerOperand? = some names) ∨ o.isFree = true) :
    widenArguments c s arguments = some (arguments.flatMap (widenArgument siblings)) := by
  induction arguments with
  | nil => rfl
  | cons o os ih =>
    have hos := ih fun p hp => h p (List.mem_cons_of_mem o hp)
    rw [widenArguments, hos, List.flatMap_cons]
    rcases h o List.mem_cons_self with ⟨names, hnames⟩ | hfree
    · rw [isParentAccessor_of_outer hnames, joinValues_of_outer hsiblings hnames, widenArgument,
        hnames]
      rfl
    · rw [isParentAccessor_of_isFree hfree, widenArgument, outerOperand?_of_isFree hfree]
      rfl

/-- Both sides of a connective are widened where it is. -/
theorem eq_ok_some_of_pair {x y : Except ExecError (Option Operation)} {op : BinaryOp}
    {G : Operation}
    (h : (do
      match ← x with
      | none => return none
      | some lhs => return (← y).map (.binary op lhs)) = Except.ok (some G)) :
    ∃ lhs rhs, x = .ok (some lhs) ∧ y = .ok (some rhs) ∧ G = .binary op lhs rhs := by
  match x, y with
  | .error _, _ => cases h
  | .ok none, _ => cases h
  | .ok (some _), .error _ => cases h
  | .ok (some _), .ok none => cases h
  | .ok (some lhs), .ok (some rhs) =>
    cases h
    exact ⟨lhs, rhs, rfl, rfl, rfl⟩

theorem eq_ok_some_of_not {x : Except ExecError (Option Operation)} {G : Operation}
    (h : (do return (← x).map .not) = Except.ok (some G)) :
    ∃ o, x = .ok (some o) ∧ G = .not o := by
  match x with
  | .error _ => cases h
  | .ok none => cases h
  | .ok (some o) =>
    cases h
    exact ⟨o, rfl, rfl⟩

theorem inward_isFree : Inward (·.isFree = true) where
  accessor := isParentAccessor_of_isFree
  binary := Bool.and_eq_true_iff.mp
  not h := h
  references h _ ho := isFree_of_mem h ho

theorem generalize_free {o : Operation} (h : o.isFree = true) : generalize c s o = .ok (some o) :=
  inward_isFree.generalize_eq h

/-! ## Leaves -/

/-- Which side of a comparison is the enclosing value. -/
theorem outer_side {lhs rhs : Operation} (h : (lhs.outerOperand?.isSome && rhs.isFree ||
    lhs.isFree && rhs.outerOperand?.isSome) = true) :
    (∃ names, lhs.outerOperand? = some names ∧ rhs.isFree = true) ∨
      ∃ names, lhs.isFree = true ∧ rhs.outerOperand? = some names := by
  rcases Bool.or_eq_true_iff.mp h with h | h
  · obtain ⟨houter, hfree⟩ := Bool.and_eq_true_iff.mp h
    obtain ⟨names, hnames⟩ := Option.isSome_iff_exists.mp houter
    exact .inl ⟨names, hnames, hfree⟩
  · obtain ⟨hfree, houter⟩ := Bool.and_eq_true_iff.mp h
    obtain ⟨names, hnames⟩ := Option.isSome_iff_exists.mp houter
    exact .inr ⟨names, hfree, hnames⟩

section

variable (hsiblings : siblings? c s = some siblings) {sign : Bool} {lhs rhs G : Operation}

include hsiblings

theorem widens_eq (hleaf : (Operation.binary .eq lhs rhs).isJoinLeaf = true)
    (hsteady : sign = false → Steady siblings (.binary .eq lhs rhs))
    (h : generalize c s (.binary .eq lhs rhs) = .ok (some G)) :
    Widens siblings sign (.binary .eq lhs rhs) G := by
  rw [generalize] at h
  rcases outer_side hleaf with ⟨names, hnames, hfree⟩ | ⟨names, hfree, hnames⟩
  · rw [isParentAccessor_of_outer hnames, isParentAccessor_of_isFree hfree,
      joinValues_of_outer hsiblings hnames] at h
    cases h
    exact .outerEq hfree hnames fun hsign => (hsteady hsign).1 names hnames
  · rw [isParentAccessor_of_outer hnames, isParentAccessor_of_isFree hfree,
      joinValues_of_outer hsiblings hnames] at h
    cases h
    exact .eq hfree hnames fun hsign => (hsteady hsign).2 names hnames

theorem widens_member (hleaf : (Operation.binary .member lhs rhs).isJoinLeaf = true)
    (hsteady : sign = false → Steady siblings (.binary .member lhs rhs))
    (h : generalize c s (.binary .member lhs rhs) = .ok (some G)) :
    Widens siblings sign (.binary .member lhs rhs) G := by
  rw [generalize] at h
  rcases outer_side hleaf with ⟨names, hnames, hfree⟩ | ⟨names, hfree, hnames⟩
  · rw [isParentAccessor_of_outer hnames, isParentAccessor_of_isFree hfree,
      joinValues_of_outer hsiblings hnames] at h
    cases h
    exact .outerMember hfree hnames fun hsign => (hsteady hsign).1 names hnames
  · rw [isParentAccessor_of_outer hnames, isParentAccessor_of_isFree hfree,
      joinValues_of_outer hsiblings hnames] at h
    cases h
    exact .member hfree hnames fun hsign => (hsteady hsign).2 names hnames

theorem widens_references {arguments : List Operation}
    (hleaf : (Operation.call .references arguments).isJoinLeaf = true)
    (hsteady : sign = false → Steady siblings (.call .references arguments))
    (h : generalize c s (.call .references arguments) = .ok (some G)) :
    Widens siblings sign (.call .references arguments) G := by
  have hjoin : ∀ o ∈ arguments, (∃ names, o.outerOperand? = some names) ∨ o.isFree = true := by
    intro o ho
    refine (Bool.or_eq_true_iff.mp (List.all_eq_true.mp hleaf o ho)).imp_left ?_
    exact Option.isSome_iff_exists.mp
  have hwiden := Widens.references hjoin hsteady
  rw [generalize] at h
  split at h
  · rw [widenArguments_eq hsiblings hjoin] at h
    cases h
    exact hwiden
  · next hnone =>
    cases h
    -- no argument is an accessor of the enclosing value, so each stands for itself
    have hsame : arguments.map (widenArgument siblings) = arguments.map fun o => [o] := by
      refine List.map_congr_left fun o ho => ?_
      rcases hjoin o ho with ⟨names, hnames⟩ | hfree
      · exact absurd (List.any_eq_true.mpr ⟨o, ho, isParentAccessor_of_outer hnames⟩) hnone
      · rw [widenArgument, outerOperand?_of_isFree hfree]
    rw [List.flatMap, hsame, ← List.flatMap, List.flatMap_singleton'] at hwiden
    exact hwiden

theorem widens_leaf {o : Operation} (hleaf : o.isJoinLeaf = true)
    (hsteady : sign = false → Steady siblings o) (h : generalize c s o = .ok (some G)) :
    Widens siblings sign o G := by
  cases o with
  | binary op lhs rhs =>
    cases op with
    | eq => exact widens_eq hsiblings hleaf hsteady h
    | member => exact widens_member hsiblings hleaf hsteady h
    | _ => cases hleaf
  | call function arguments =>
    cases function with
    | references => exact widens_references hsiblings hleaf hsteady h
    | _ => cases hleaf
  | _ => cases hleaf

theorem exists_generalize_leaf {o : Operation} (hleaf : o.isJoinLeaf = true) :
    ∃ G, generalize c s o = .ok (some G) := by
  cases o with
  | binary op lhs rhs =>
    cases op with
    | eq | member =>
      rw [generalize]
      rcases outer_side hleaf with ⟨names, hnames, hfree⟩ | ⟨names, hfree, hnames⟩ <;>
        · rw [isParentAccessor_of_outer hnames, isParentAccessor_of_isFree hfree,
            joinValues_of_outer hsiblings hnames]
          exact ⟨_, rfl⟩
    | _ => cases hleaf
  | call function arguments =>
    cases function with
    | references =>
      rw [generalize]
      split
      · rw [widenArguments_eq hsiblings fun o ho => (Bool.or_eq_true_iff.mp
          (List.all_eq_true.mp hleaf o ho)).imp_left Option.isSome_iff_exists.mp]
        exact ⟨_, rfl⟩
      · exact ⟨_, rfl⟩
    | _ => cases hleaf
  | _ => cases hleaf

theorem exists_generalize_base {o : Operation} {P : Prop}
    (hjoin : o.isFree = true ∨ o.isJoinLeaf = true ∧ P) : ∃ G, generalize c s o = .ok (some G) := by
  rcases hjoin with hfree | ⟨hleaf, -⟩
  · exact ⟨_, generalize_free hfree⟩
  · exact exists_generalize_leaf hsiblings hleaf

theorem widens_base {o : Operation}
    (hjoin : o.isFree = true ∨ o.isJoinLeaf = true ∧ (sign = false → Steady siblings o))
    (h : generalize c s o = .ok (some G)) : Widens siblings sign o G := by
  rcases hjoin with hfree | ⟨hleaf, hsteady⟩
  · rw [generalize_free hfree] at h
    cases h
    exact .free hfree
  · exact widens_leaf hsiblings hleaf hsteady h

/-! ## Filters -/

/-- What a filter is generalized to where the siblings are known. -/
theorem widens_of_generalize : ∀ {sign : Bool} {F G : Operation}, IsJoinFilter siblings sign F →
    generalize c s F = .ok (some G) → Widens siblings sign F G
  | sign, .binary op lhs rhs, G, hjoin, h => by
    cases op with
    | and =>
      obtain ⟨lhs', rhs', hl, hr, rfl⟩ := eq_ok_some_of_pair h
      exact .and (widens_of_generalize hjoin.1 hl) (widens_of_generalize hjoin.2 hr)
    | or =>
      obtain ⟨lhs', rhs', hl, hr, rfl⟩ := eq_ok_some_of_pair h
      exact .or (widens_of_generalize hjoin.1 hl) (widens_of_generalize hjoin.2 hr)
    | _ => exact widens_base hsiblings hjoin h
  | sign, .not operand, G, hjoin, h => by
    obtain ⟨o, ho, rfl⟩ := eq_ok_some_of_not h
    exact .not (widens_of_generalize (F := operand) hjoin ho)
  | _, .source _, _, hjoin, h | _, .filter _, _, hjoin, h | _, .accessor _, _, hjoin, h
  | _, .literal _, _, hjoin, h | _, .object _, _, hjoin, h | _, .array _, _, hjoin, h
  | _, .assignment _ _, _, hjoin, h | _, .splat, _, hjoin, h | _, .subscript _, _, hjoin, h
  | _, .range _ _ _, _, hjoin, h | _, .ordering _, _, hjoin, h | _, .sortDirection _, _, hjoin, h
  | _, .call _ _, _, hjoin, h | _, .pipe _ _, _, hjoin, h | _, .mapJoin _, _, hjoin, h =>
    widens_base hsiblings hjoin h

end

/-- A join filter is generalized wherever siblings are known, be they the ones that it is steady on
or others. -/
theorem exists_generalize {known : List Value} (hknown : siblings? c s = some known) :
    ∀ {sign : Bool} {F : Operation}, IsJoinFilter siblings sign F →
      ∃ G, generalize c s F = .ok (some G)
  | _, .binary op lhs rhs, hjoin => by
    cases op with
    | and | or =>
      obtain ⟨lhs', hl⟩ := exists_generalize hknown hjoin.1
      obtain ⟨rhs', hr⟩ := exists_generalize hknown hjoin.2
      rw [generalize, hl, hr]
      exact ⟨_, rfl⟩
    | _ => exact exists_generalize_base hknown hjoin
  | _, .not operand, hjoin => by
    obtain ⟨o, ho⟩ := exists_generalize (F := operand) hknown hjoin
    rw [generalize, ho]
    exact ⟨_, rfl⟩
  | _, .source _, h | _, .filter _, h | _, .accessor _, h | _, .literal _, h | _, .object _, h
  | _, .array _, h | _, .assignment _ _, h | _, .splat, h | _, .subscript _, h
  | _, .range _ _ _, h | _, .ordering _, h | _, .sortDirection _, h | _, .call _ _, h
  | _, .pipe _ _, h | _, .mapJoin _, h => exists_generalize_base hknown h

/-- Free operations and positive join filters are join filters whatever the siblings. -/
theorem isJoinFilter_of_isFree : ∀ {sign : Bool} {F : Operation}, F.isFree = true →
    IsJoinFilter siblings sign F
  | _, .binary op _ _, h => by
    obtain ⟨hl, hr⟩ := Bool.and_eq_true_iff.mp h
    cases op with
    | and | or => exact ⟨isJoinFilter_of_isFree hl, isJoinFilter_of_isFree hr⟩
    | _ => exact .inl h
  | _, .not operand, h => isJoinFilter_of_isFree (F := operand) h
  | _, .source _, h | _, .filter _, h | _, .accessor _, h | _, .literal _, h | _, .object _, h
  | _, .array _, h | _, .assignment _ _, h | _, .splat, h | _, .subscript _, h
  | _, .range _ _ _, h | _, .ordering _, h | _, .sortDirection _, h | _, .call _ _, h
  | _, .pipe _ _, h | _, .mapJoin _, h => .inl h

theorem isJoinFilter_of_isPositiveJoin : ∀ {F : Operation}, F.isPositiveJoin = true →
    IsJoinFilter siblings true F
  | .binary op _ _, h => by
    cases op with
    | and | or =>
      obtain ⟨hl, hr⟩ := Bool.and_eq_true_iff.mp h
      exact ⟨isJoinFilter_of_isPositiveJoin hl, isJoinFilter_of_isPositiveJoin hr⟩
    | _ => exact (Bool.or_eq_true_iff.mp h).imp_right fun hleaf => ⟨hleaf, nofun⟩
  | .not operand, h => by
    have hfree : (Operation.not operand).isFree = true := by
      simpa [isPositiveJoin, isJoinLeaf] using h
    exact isJoinFilter_of_isFree hfree
  | .source _, h | .filter _, h | .accessor _, h | .literal _, h | .object _, h
  | .array _, h | .assignment _ _, h | .splat, h | .subscript _, h | .range _ _ _, h
  | .ordering _, h | .sortDirection _, h | .call _ _, h | .pipe _ _, h | .mapJoin _, h =>
    (Bool.or_eq_true_iff.mp h).imp_right fun hleaf => ⟨hleaf, nofun⟩

end Join
end DocQuery
