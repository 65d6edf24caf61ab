import DocQuery.Proofs.Engine.References
import DocQuery.Proofs.Join.Widening

/-!
# Siblings

A join is widened to what an accessor has at every sibling of a scope, and the siblings are had from
the documents of its source alone: the path that the scope kept is followed in each of them
(`followPath`), and what it leads to is spread if it is an array. So every scope of a collection has to
stand where this walk comes to.

`Scope.At` says that it does, and `Join.Leads` says so of a whole collection. Each stage that leads to
parts of documents keeps it (`Join.Leads.step`), so any number of them do (`Join.Leads.steps`). Arrays
inside documents may be taken apart at the end alone, since paths do not say that they were.

**On such a way every value that an accessor has at a scope of the collection is found from any other
one** (`Join.joinValues_covers`). A bare enclosing value has no path to follow and is its own only
sibling.
-/

set_option autoImplicit false

namespace DocQuery

open Local

/-! ## Following a path -/

/-- What one step of a path leads to. -/
def ScopeStep.next : ScopeStep → Value → Value
  | attr name, v => v.getD name
  | subscript w, .array items =>
    if w.first then ((Window.element? items.length w.start).bind (items[·]?)).getD .null
    else .array (Window.cut items (Window.slice items.length w.start w.stop).1
      (Window.slice items.length w.start w.stop).2)
  | subscript _, v => v

theorem ScopeStep.next_null (step : ScopeStep) : step.next .null = .null := by
  cases step <;> rfl

/-- A path is followed step by step: a null on the way leads to nothing but null. -/
theorem followPath_eq_foldl (v : Value) (path : List ScopeStep) :
    followPath v path = path.foldl (fun v step => step.next v) v := by
  have hnull : ∀ path : List ScopeStep, path.foldl (fun v step => step.next v) .null = .null := by
    intro path
    induction path with
    | nil => rfl
    | cons step path ih => rw [List.foldl_cons, step.next_null, ih]
  induction path generalizing v with
  | nil => rfl
  | cons step path ih =>
    have hnext : followPath v (step :: path) =
        if (step.next v).isNull then step.next v else followPath (step.next v) path := by
      cases step <;> cases v <;> rfl
    rw [hnext, List.foldl_cons, ih]
    split
    · next h => rw [Value.eq_null_of_isNull h, hnull]
    · rfl

theorem followPath_append (v : Value) (path : List ScopeStep) (step : ScopeStep) :
    followPath v (path ++ [step]) = step.next (followPath v path) := by
  simp only [followPath_eq_foldl, List.foldl_append, List.foldl_cons, List.foldl_nil]

/-- Subscripts lead nowhere from what is no array. -/
theorem followPath_subscripts {d : Value} (h : d.asArray? = none) :
    ∀ {path : List ScopeStep}, (∀ step ∈ path, ∃ w, step = .subscript w) → followPath d path = d
  | [], _ => rfl
  | step :: path, hpath => by
    obtain ⟨w, rfl⟩ := hpath step List.mem_cons_self
    have hstep : (ScopeStep.subscript w).next d = d := by
      cases d with
      | array items => cases h
      | _ => rfl
    have hrest := followPath_subscripts h fun step hs => hpath step (List.mem_cons_of_mem _ hs)
    rw [followPath_eq_foldl] at hrest ⊢
    rw [List.foldl_cons, hstep, hrest]

namespace Window

/-! A subscript of what has not been cut. -/

theorem shift_zero (bound : Int) : shift 0 bound = if bound < 0 then bound else max 0 bound := by
  unfold shift
  rw [signed_eq (by decide)]
  simp

theorem index?_zero (len : Nat) (index : Int) : index? len 0 index = element? len index := by
  unfold index?
  rw [signed_eq (by decide), if_neg (by simp only [Int.natCast_zero]; omega)]
  simp

theorem bounds_zero (len : Nat) (start stop : Int) :
    bounds len 0 start stop = ((slice len start stop).1, (slice len start stop).2, 0) := by
  have hshift : ∀ bound, shift 0 bound = bound := fun bound => by
    rw [shift_zero]
    omega
  unfold bounds
  rw [hshift, hshift, signed_eq (by decide)]
  simp only [Prod.mk.injEq, true_and]
  split
  · rfl
  · omega

end Window

/-! ## Places of scopes -/

namespace Join

/-- The values that stand where a path leads to: what is there, or the elements of the array that
is there. -/
def standing (opened : Bool) (v : Value) : List Value := if opened then spread v else [v]

end Join

variable {documents : List Value} {id : SourceId} {short opened : Bool} {place : List ScopeStep}

/-- A scope of a source, at the place that its path names: unless null, its value stands there in
one of the documents. A null may have ended an accessor, where these can be `short`; the path of
such a scope says how far it came. -/
structure Scope.At (documents : List Value) (id : SourceId) (short opened : Bool)
    (place : List ScopeStep) (s : Scope) : Prop where
  source : s.source = some id
  start : s.start = 0
  path : s.path = place ∨ short = true ∧ s.value = .null
  value : s.value = .null ∨
    ∃ d ∈ documents, s.value ∈ Join.standing opened (followPath d place)

namespace Scope.At

variable {s : Scope}

theorem of_ne_null (h : s.At documents id short opened place) (hvalue : s.value ≠ .null) :
    s.path = place ∧ ∃ d ∈ documents, s.value ∈ Join.standing opened (followPath d place) :=
  ⟨h.path.resolve_right fun hnull => hvalue hnull.2, h.value.resolve_left hvalue⟩

theorem behind_attr (h : s.At documents id short false place) (name : String) :
    (s.attr name).At documents id short false (place ++ [.attr name]) where
  source := h.source
  start := rfl
  path := by
    rcases h.path with hpath | ⟨hshort, hnull⟩
    · exact .inl (congrArg (· ++ _) hpath)
    · refine .inr ⟨hshort, ?_⟩
      show s.value.getD name = .null
      rw [hnull]
      rfl
  value := by
    show s.value.getD name = .null ∨ _
    rcases h.value with hnull | ⟨d, hd, hmem⟩
    · rw [hnull]
      exact .inl rfl
    · refine .inr ⟨d, hd, List.mem_singleton.mpr ?_⟩
      rw [followPath_append, ← List.mem_singleton.mp hmem]
      rfl

/-- An accessor leads to the place behind. -/
theorem behind_attrs {names : List String} (hshort : names.length ≤ 1 ∨ short = true)
    (h : s.At documents id short false place) :
    (s.resolve (names.map .attr)).At documents id short false (place ++ names.map .attr) := by
  induction names generalizing s place with
  | nil =>
    rw [List.map_nil, List.map_nil, List.append_nil]
    exact h
  | cons name names ih =>
    have hattr := h.behind_attr name
    show (if (s.attr name).value.isNull then s.attr name
      else (s.attr name).resolve (names.map .attr)).At _ _ _ _ _
    split
    · next hnull =>
      cases names with
      | nil => exact hattr
      | cons _ _ =>
        have hvalue := Value.eq_null_of_isNull hnull
        exact ⟨hattr.source, hattr.start, .inr ⟨hshort.resolve_left (by simp), hvalue⟩, .inl hvalue⟩
    · have hrest := ih (hshort.imp_left fun hlength => by
        rw [List.length_cons] at hlength
        omega) hattr
      rw [List.append_assoc] at hrest
      exact hrest

/-- A subscript leads to a part of the array that is there. -/
theorem behind_subscript {items : List Value} (h : s.At documents id short false place)
    (hvalue : s.value = .array items) (w : Subscript) :
    ∃ w', (if w.first then s.first w.start else s.slice w.start w.stop).At documents id short false
      (place ++ [.subscript w']) := by
  obtain ⟨hpath, d, hd, hmem⟩ := h.of_ne_null (by rw [hvalue]; nofun)
  have hfound : followPath d place = .array items := by
    rw [← hvalue, List.mem_singleton.mp hmem]
  cases hfirst : w.first with
  | true =>
    refine ⟨⟨w.start, min (w.start + 1) maxInt64, true⟩, ?_⟩
    rw [if_pos rfl, Scope.first, hvalue]
    refine ⟨h.source, rfl, .inl (congrArg (· ++ _) hpath), .inr ⟨d, hd, List.mem_singleton.mpr ?_⟩⟩
    rw [followPath_append, hfound, ScopeStep.next, if_pos rfl]
    show ((Window.index? items.length s.start w.start).bind (items[·]?)).getD .null = _
    rw [h.start, Window.index?_zero]
  | false =>
    refine ⟨⟨w.start, w.stop, false⟩, ?_⟩
    rw [if_neg (by simp), Scope.slice, hvalue]
    have hbounds := Window.bounds_zero items.length w.start w.stop
    dsimp only
    rw [h.start]
    rw [hbounds]
    refine ⟨h.source, rfl, .inl (congrArg (· ++ _) hpath), .inr ⟨d, hd, List.mem_singleton.mpr ?_⟩⟩
    rw [followPath_append, hfound]
    rfl

/-- The elements of an array stand at its place. -/
theorem opened_of_mem {items : List Value} (h : s.At documents id short false place)
    (hvalue : s.value = .array items) {v : Value} (hv : v ∈ items) :
    (s.element v).At documents id short true place := by
  obtain ⟨hpath, d, hd, hmem⟩ := h.of_ne_null (by rw [hvalue]; nofun)
  refine ⟨h.source, rfl, .inl hpath, .inr ⟨d, hd, ?_⟩⟩
  show v ∈ Join.spread (followPath d place)
  rw [← List.mem_singleton.mp hmem, hvalue]
  exact hv

theorem opened_of_single (h : s.At documents id short false place) (hvalue : s.value.asArray? = none) :
    s.At documents id short true place := by
  refine ⟨h.source, h.start, h.path, h.value.imp_right ?_⟩
  rintro ⟨d, hd, hmem⟩
  refine ⟨d, hd, ?_⟩
  show s.value ∈ Join.spread (followPath d place)
  rw [← List.mem_singleton.mp hmem]
  cases hs : s.value with
  | array items =>
    rw [hs] at hvalue
    cases hvalue
  | _ => exact List.mem_singleton.mpr rfl

end Scope.At

/-- The value of an accessor for a document that is fetched inside the scope. -/
def Scope.read (s : Scope) (steps : List PathStep) : Value :=
  ((s.child (.object [])).resolve steps).value

theorem Scope.read_parent (s : Scope) (names : List String) :
    s.read (.parent :: names.map .attr) = s.value.follow names := by
  show (if s.value.isNull then s else s.resolve (names.map .attr)).value = _
  split
  · next hnull => rw [Value.eq_null_of_isNull hnull, Value.follow_null]
  · exact Scope.value_resolve_attrs s names

/-! ## Collections -/

namespace Operation

/-- The stages that lead from documents to parts of them: attributes, the elements that pass a
filter, windows. -/
def isWay : Operation → Bool
  | accessor path => (attributeNames? path).isSome
  | filter condition => condition.isLocal
  | subscript _ => true
  | _ => false

/-- Whether the stage reads more than one attribute. -/
def isLong : Operation → Bool
  | accessor path => 1 < path.length
  | _ => false

theorem eq_attrs_of_attributeNames? {path : List PathStep} {names : List String}
    (h : attributeNames? path = some names) : path = names.map .attr := by
  induction path generalizing names with
  | nil =>
    cases h
    rfl
  | cons step path ih =>
    cases step with
    | parent => cases h
    | attr name =>
      obtain ⟨rest, hrest, rfl⟩ := Option.map_eq_some_iff.mp h
      rw [List.map_cons, ← ih hrest]

end Operation

namespace Scoped

/-- The scopes of a result. -/
def scopes : Scoped → List Scope
  | one s => [s]
  | many items _ => items

theorem subscript_of_single {s : Scope} (h : s.value.asArray? = none) (w : Subscript) :
    (one s).subscript w = one (s.withValue .null) := by
  have hboth : s.first w.start = s.withValue .null ∧ s.slice w.start w.stop = s.withValue .null := by
    unfold Scope.first Scope.slice
    cases hs : s.value with
    | array items =>
      rw [hs] at h
      cases h
    | _ => exact ⟨rfl, rfl⟩
  rw [subscript, hboth.1, hboth.2, ite_self]

theorem computed_subscript {s : Scope} (h : s.computed = true) (w : Subscript) :
    ∀ x ∈ ((one s).subscript w).scopes, x.computed = true := by
  have hboth : (s.first w.start).computed = true ∧ (s.slice w.start w.stop).computed = true := by
    unfold Scope.first Scope.slice
    cases s.value with
    | array items => exact ⟨h, h⟩
    | _ => exact ⟨rfl, rfl⟩
  intro x hx
  obtain rfl := List.mem_singleton.mp hx
  split
  · exact hboth.1
  · exact hboth.2

/-- A window of several scopes has no others, except for a null where nothing is found. -/
theorem subscript_many (items : List Scope) (start : Nat) (w : Subscript) :
    (∀ x ∈ ((many items start).subscript w).scopes, x ∈ items) ∨
      (many items start).subscript w = one (.detached .null) := by
  unfold subscript
  dsimp only
  split
  · cases hfound : (Window.index? items.length start w.start).bind (items[·]?) with
    | none => exact .inr rfl
    | some s =>
      obtain ⟨n, -, hn⟩ := Option.bind_eq_some_iff.mp hfound
      exact .inl fun x hx => List.mem_singleton.mp hx ▸ List.mem_of_getElem? hn
  · exact .inl fun x hx => Window.mem_of_mem_cut hx

theorem mem_explode {s x : Scope} (h : x ∈ explode s) : x = s ∧ s.value.asArray? = none ∨
    ∃ items v, s.value = .array items ∧ v ∈ items ∧ x = s.element v := by
  unfold explode at h
  cases hs : s.value with
  | array items =>
    rw [hs] at h
    obtain ⟨v, hv, rfl⟩ := List.mem_map.mp h
    exact .inr ⟨items, v, rfl, hv, rfl⟩
  | _ =>
    rw [hs] at h
    exact .inl ⟨List.mem_singleton.mp h, rfl⟩

theorem exists_of_mem_candidates {r : Scoped} {x : Scope} (h : x ∈ r.candidates.1) :
    ∃ s ∈ r.scopes, x ∈ explode s := by
  cases r with
  | one s =>
    refine ⟨s, List.mem_singleton.mpr rfl, ?_⟩
    unfold explode
    simp only [candidates] at h
    cases hs : s.value <;> rw [hs] at h <;> exact h
  | many items start => exact List.mem_flatMap.mp h

end Scoped

theorem Scope.computed_resolve {s : Scope} (h : s.computed = true) (names : List String) :
    (s.resolve (names.map .attr)).computed = true := by
  induction names generalizing s with
  | nil => exact h
  | cons name names ih =>
    show (if (s.attr name).value.isNull then s.attr name
      else (s.attr name).resolve (names.map .attr)).computed = true
    split
    · exact h
    · exact ih h

namespace Local

variable {stage condition : Operation} {r next : Scoped} {names : List String}

theorem scopes_of_accessor (h : Step (.accessor (names.map .attr)) r next) :
    next.scopes = r.scopes.map (·.resolve (names.map .attr)) := by
  have hmapped : mapped (.accessor (names.map .attr)) = fun s => s.resolve (names.map .attr) := rfl
  cases r with
  | one s =>
    obtain ⟨-, rfl⟩ := h
    rw [hmapped]
    rfl
  | many items start =>
    obtain ⟨-, rfl⟩ := h
    rw [hmapped]
    rfl

theorem exists_of_filter (h : Step (.filter condition) r next) {x : Scope} (hx : x ∈ next.scopes) :
    ∃ s ∈ r.scopes, x ∈ Scoped.explode s := by
  obtain ⟨-, rfl⟩ := h
  exact Scoped.exists_of_mem_candidates (List.mem_filter.mp hx).1

end Local

namespace Join

/-- All scopes of a collection are computed or at one place. -/
def Placed (documents : List Value) (id : SourceId) (short opened : Bool) (place : List ScopeStep)
    (r : Scoped) : Prop :=
  ∀ s ∈ r.scopes, s.computed = true ∨ s.At documents id short opened place

/-- How far a way from the documents has come: it has a window of them, or parts of some, or there
is nothing where it leads. -/
inductive Leads (documents : List Value) (id : SourceId) (short : Bool) : Scoped → Prop
  | whole {s : Scope} {items : List Value} (source : s.source = some id)
      (uncomputed : s.computed = false) (path : ∀ step ∈ s.path, ∃ w, step = .subscript w)
      (value : s.value = .array items) (mem : ∀ v ∈ items, v ∈ documents) :
      Leads documents id short (.one s)
  | parts {r : Scoped} {place : List ScopeStep} (placed : Placed documents id short false place r) :
      Leads documents id short r
  | nothing {r : Scoped} (null : ∀ s ∈ r.scopes, s.value = .null) : Leads documents id short r

/-- No scope of a collection has an array, save that of the documents. -/
def NoArrays (r : Scoped) : Prop :=
  ∀ s ∈ r.scopes, s.value.asArray? = none ∨ ∀ step ∈ s.path, ∃ w, step = .subscript w

variable {r next : Scoped}

/-- The elements of arrays stand where the arrays do. -/
theorem Placed.explode {condition : Operation} (h : Placed documents id short false place r)
    (hstep : Step (.filter condition) r next) : Placed documents id short true place next := by
  intro x hx
  obtain ⟨s, hs, hx⟩ := exists_of_filter hstep hx
  rcases Scoped.mem_explode hx with ⟨rfl, hsingle⟩ | ⟨items, v, hvalue, hv, rfl⟩
  · exact (h x hs).imp_right (·.opened_of_single hsingle)
  · exact (h s hs).imp_right (·.opened_of_mem hvalue hv)

/-- A window of a collection is at the same place, except for a null where nothing is found. -/
theorem Placed.window {items : List Scope} {start : Nat}
    (h : Placed documents id short opened place (.many items start)) (w : Subscript) :
    Placed documents id short opened place ((Scoped.many items start).subscript w) ∨
      ∀ s ∈ ((Scoped.many items start).subscript w).scopes, s.value = .null := by
  rcases Scoped.subscript_many items start w with hmem | hnone
  · exact .inl fun x hx => h x (hmem x hx)
  · rw [hnone]
    exact .inr fun x hx => congrArg Scope.value (List.mem_singleton.mp hx)

/-- One of a window of the documents is at the place of a document. -/
theorem exists_at_first {s : Scope} {items : List Value}
    (hdocuments : ∀ d ∈ documents, d.asArray? = none) (hsource : s.source = some id)
    (hpath : ∀ step ∈ s.path, ∃ w, step = .subscript w) (hvalue : s.value = .array items)
    (hmem : ∀ v ∈ items, v ∈ documents) (index : Int) :
    ∃ place, (s.first index).At documents id short false place := by
  have hfirst : s.first index = s.narrowed
      (((Window.index? items.length s.start index).bind (items[·]?)).getD .null)
      ⟨index, min (index + 1) maxInt64, true⟩ 0 := by
    rw [Scope.first, hvalue]
  rw [hfirst]
  refine ⟨_, hsource, rfl, .inl rfl, ?_⟩
  show ((Window.index? items.length s.start index).bind (items[·]?)).getD .null = _ ∨
    ∃ d ∈ documents, ((Window.index? items.length s.start index).bind (items[·]?)).getD .null ∈ _
  cases hfound : (Window.index? items.length s.start index).bind (items[·]?) with
  | none => exact .inl rfl
  | some d =>
    obtain ⟨n, -, hn⟩ := Option.bind_eq_some_iff.mp hfound
    have hd := hmem d (List.mem_of_getElem? hn)
    refine .inr ⟨d, hd, List.mem_singleton.mpr (followPath_subscripts (hdocuments d hd) ?_).symm⟩
    intro step hstep
    rcases List.mem_append.mp hstep with hstep | hstep
    · exact hpath step hstep
    · exact ⟨_, List.mem_singleton.mp hstep⟩

namespace Leads

theorem step_accessor {names : List String} (hlong : names.length ≤ 1 ∨ short = true)
    (h : Leads documents id short r) (hstep : Step (.accessor (names.map .attr)) r next) :
    Leads documents id short next := by
  have hscopes := scopes_of_accessor hstep
  cases h with
  | @whole s items source uncomputed path value mem =>
    obtain ⟨-, rfl⟩ := hstep
    cases names with
    | nil => exact .whole source uncomputed path value mem
    | cons name names =>
      refine .nothing ?_
      rw [hscopes]
      intro x hx
      obtain ⟨_, hs, rfl⟩ := List.mem_map.mp hx
      obtain rfl := List.mem_singleton.mp hs
      rw [Scope.value_resolve_attrs, value]
      exact Value.follow_null names
  | @parts _ place placed =>
    refine @Leads.parts documents id short _ (place ++ names.map .attr) fun x hx => ?_
    rw [hscopes] at hx
    obtain ⟨s, hs, rfl⟩ := List.mem_map.mp hx
    exact (placed s hs).imp (Scope.computed_resolve · names) (·.behind_attrs hlong)
  | nothing null =>
    refine .nothing ?_
    rw [hscopes]
    intro x hx
    obtain ⟨s, hs, rfl⟩ := List.mem_map.mp hx
    rw [Scope.value_resolve_attrs, null s hs]
    exact Value.follow_null names

theorem step_filter {condition : Operation} (hdocuments : ∀ d ∈ documents, d.asArray? = none)
    (hnone : NoArrays r) (h : Leads documents id short r) (hstep : Step (.filter condition) r next) :
    Leads documents id short next := by
  cases h with
  | @whole s items source uncomputed path value mem =>
    refine @Leads.parts documents id short _ s.path fun x hx => ?_
    obtain ⟨_, hs, hx⟩ := exists_of_filter hstep hx
    obtain rfl := List.mem_singleton.mp hs
    rw [Scoped.explode, value] at hx
    obtain ⟨d, hd, rfl⟩ := List.mem_map.mp hx
    have hdocument := mem d hd
    exact .inr ⟨source, rfl, .inl rfl, .inr ⟨d, hdocument, List.mem_singleton.mpr
      (followPath_subscripts (hdocuments d hdocument) path).symm⟩⟩
  | @parts _ place placed =>
    refine @Leads.parts documents id short _ place fun x hx => ?_
    obtain ⟨s, hs, hx⟩ := exists_of_filter hstep hx
    rcases Scoped.mem_explode hx with ⟨rfl, -⟩ | ⟨items, v, hvalue, hv, rfl⟩
    · exact placed x hs
    · refine (placed s hs).imp_right fun hat => ?_
      -- an array at no place but that of a document
      obtain ⟨hpath, d, hd, hmem⟩ := hat.of_ne_null (by rw [hvalue]; nofun)
      have hsubscripts := (hnone s hs).resolve_left (by rw [hvalue]; nofun)
      have hdocument : s.value = d := by
        rw [List.mem_singleton.mp hmem, ← hpath, followPath_subscripts (hdocuments d hd) hsubscripts]
      have hsingle := hdocuments d hd
      rw [← hdocument, hvalue] at hsingle
      cases hsingle
  | nothing null =>
    refine .nothing fun x hx => ?_
    obtain ⟨s, hs, hx⟩ := exists_of_filter hstep hx
    rw [Scoped.explode, null s hs] at hx
    obtain rfl := List.mem_singleton.mp hx
    exact null _ hs

theorem step_subscript {w : Subscript} (hdocuments : ∀ d ∈ documents, d.asArray? = none)
    (h : Leads documents id short r) : Leads documents id short (r.subscript w) := by
  cases h with
  | @whole s items source uncomputed path value mem =>
    unfold Scoped.subscript
    dsimp only
    split
    · obtain ⟨place, hplace⟩ := exists_at_first hdocuments source path value mem w.start
      exact .parts fun x hx => .inr (List.mem_singleton.mp hx ▸ hplace)
    · rw [Scope.slice, value]
      refine .whole source uncomputed ?_ rfl fun v hv => mem v (Window.mem_of_mem_cut hv)
      intro step hstep
      rcases List.mem_append.mp hstep with hstep | hstep
      · exact path step hstep
      · exact ⟨_, List.mem_singleton.mp hstep⟩
  | @parts _ place placed =>
    cases r with
    | one s =>
      rcases hsingle : s.value.asArray? with _ | items
      · rw [Scoped.subscript_of_single hsingle]
        exact .nothing fun x hx => congrArg Scope.value (List.mem_singleton.mp hx)
      · have hvalue : s.value = .array items := by
          cases hs : s.value <;> rw [hs] at hsingle <;> cases hsingle
          rfl
        rcases placed s (List.mem_singleton.mpr rfl) with hcomputed | hat
        · exact @Leads.parts documents id short _ place fun x hx =>
            .inl (Scoped.computed_subscript hcomputed w x hx)
        · obtain ⟨w', hw'⟩ := hat.behind_subscript hvalue w
          exact .parts fun x hx => .inr (List.mem_singleton.mp hx ▸ hw')
    | many items start => exact (placed.window w).elim .parts .nothing
  | nothing null =>
    refine .nothing ?_
    cases r with
    | one s =>
      have hsingle : s.value.asArray? = none := by
        rw [null s (List.mem_singleton.mpr rfl)]
        rfl
      rw [Scoped.subscript_of_single hsingle]
      exact fun x hx => congrArg Scope.value (List.mem_singleton.mp hx)
    | many items start =>
      rcases Scoped.subscript_many items start w with hmem | hnone
      · exact fun x hx => null x (hmem x hx)
      · rw [hnone]
        exact fun x hx => congrArg Scope.value (List.mem_singleton.mp hx)

theorem step {stage : Operation} (hdocuments : ∀ d ∈ documents, d.asArray? = none)
    (hway : stage.isWay = true) (hlong : stage.isLong = true → short = true)
    (hkeeps : ∀ condition, stage = .filter condition → NoArrays r) (h : Leads documents id short r)
    (hstep : Step stage r next) : Leads documents id short next := by
  cases stage with
  | accessor path =>
    obtain ⟨names, hnames⟩ := Option.isSome_iff_exists.mp hway
    obtain rfl := Operation.eq_attrs_of_attributeNames? hnames
    refine h.step_accessor ?_ hstep
    by_cases hlength : names.length ≤ 1
    · exact .inl hlength
    · refine .inr (hlong (decide_eq_true ?_))
      rw [List.length_map]
      omega
  | filter condition => exact h.step_filter hdocuments (hkeeps condition rfl) hstep
  | subscript w =>
    obtain rfl : next = r.subscript w := hstep
    exact h.step_subscript hdocuments
  | _ => cases hway

end Leads

/-- Stages that take no array inside a document apart. -/
def LeavesArrays (stages : List Operation) (r : Scoped) : Prop :=
  ∀ before condition rest next, stages = before ++ .filter condition :: rest →
    Steps before r next → NoArrays next

theorem Leads.steps {stages : List Operation} (hdocuments : ∀ d ∈ documents, d.asArray? = none)
    (hway : ∀ stage ∈ stages, stage.isWay = true)
    (hlong : ∀ stage ∈ stages, stage.isLong = true → short = true) (hkeeps : LeavesArrays stages r)
    (h : Leads documents id short r) (hsteps : Steps stages r next) :
    Leads documents id short next := by
  induction stages generalizing r with
  | nil =>
    obtain rfl : next = r := hsteps
    exact h
  | cons stage stages ih =>
    obtain ⟨mid, hstep, hsteps⟩ := hsteps
    refine ih (fun p hp => hway p (List.mem_cons_of_mem _ hp))
      (fun p hp => hlong p (List.mem_cons_of_mem _ hp)) ?_ ?_ hsteps
    · rintro before condition rest next rfl hbefore
      exact hkeeps (stage :: before) condition rest next rfl ⟨mid, hstep, hbefore⟩
    · refine h.step hdocuments (hway stage List.mem_cons_self) (hlong stage List.mem_cons_self) ?_ hstep
      rintro condition rfl
      exact hkeeps [] condition stages r rfl rfl

/-! ## The end of the way -/

/-- Windows of a collection, a single scope last. -/
def isWindows : List Operation → Bool
  | [] => true
  | [.subscript _] => true
  | .subscript w :: rest => !w.first && isWindows rest
  | _ => false

/-- What may stand at the end: arrays are taken apart, and windows of their elements follow. -/
def isEnd : List Operation → Bool
  | [] => true
  | .filter condition :: rest => condition.isLocal && isWindows rest
  | _ => false

theorem Placed.windows {stages : List Operation} {items : List Scope} {start : Nat}
    (hstages : isWindows stages = true)
    (h : Placed documents id short opened place (.many items start))
    (hsteps : Steps stages (.many items start) next) :
    Placed documents id short opened place next ∨ ∀ s ∈ next.scopes, s.value = .null := by
  induction stages generalizing items start with
  | nil =>
    obtain rfl : next = .many items start := hsteps
    exact .inl h
  | cons stage rest ih =>
    obtain ⟨mid, hstep, hsteps⟩ := hsteps
    cases stage with
    | subscript w =>
      obtain rfl : mid = (Scoped.many items start).subscript w := hstep
      cases rest with
      | nil =>
        obtain rfl : next = (Scoped.many items start).subscript w := hsteps
        exact h.window w
      | cons stage rest =>
        obtain ⟨hfirst, hrest⟩ := Bool.and_eq_true_iff.mp hstages
        have hmany : (Scoped.many items start).subscript w = .many
            (Window.cut items (Window.bounds items.length start w.start w.stop).1
              (Window.bounds items.length start w.start w.stop).2.1)
            (Window.bounds items.length start w.start w.stop).2.2 := by
          unfold Scoped.subscript
          dsimp only
          rw [if_neg (by simpa using hfirst)]
        rw [hmany] at hsteps
        exact ih hrest (fun x hx => h x (Window.mem_of_mem_cut hx)) hsteps
    | _ => cases hstages

theorem Leads.windows {stages : List Operation} (hdocuments : ∀ d ∈ documents, d.asArray? = none)
    (hstages : isWindows stages = true) (h : Leads documents id short r)
    (hsteps : Steps stages r next) : Leads documents id short next := by
  induction stages generalizing r with
  | nil =>
    obtain rfl : next = r := hsteps
    exact h
  | cons stage rest ih =>
    obtain ⟨mid, hstep, hsteps⟩ := hsteps
    cases stage with
    | subscript w =>
      obtain rfl : mid = r.subscript w := hstep
      refine ih ?_ (h.step_subscript hdocuments) hsteps
      cases rest with
      | nil => rfl
      | cons stage rest => exact (Bool.and_eq_true_iff.mp hstages).2
    | _ => cases hstages

/-- What a way leads to has come along it, or stands in arrays at the end of it. -/
theorem Leads.over_end {stages : List Operation} (hdocuments : ∀ d ∈ documents, d.asArray? = none)
    (hstages : isEnd stages = true) (h : Leads documents id short r)
    (hsteps : Steps stages r next) :
    Leads documents id short next ∨ ∃ place, Placed documents id short true place next := by
  cases stages with
  | nil =>
    obtain rfl : next = r := hsteps
    exact .inl h
  | cons stage rest =>
    obtain ⟨mid, hstep, hsteps⟩ := hsteps
    cases stage with
    | filter condition =>
      obtain ⟨-, hrest⟩ := Bool.and_eq_true_iff.mp hstages
      have hleads : NoArrays r → Leads documents id short next := fun hnone =>
        (h.step_filter hdocuments hnone hstep).windows hdocuments hrest hsteps
      cases h with
      | @parts _ place placed =>
        have hmid := placed.explode hstep
        obtain ⟨-, rfl⟩ := hstep
        exact (hmid.windows hrest hsteps).elim (fun h => .inr ⟨place, h⟩) (.inl <| .nothing ·)
      | whole source uncomputed path value mem =>
        exact .inl (hleads fun x hx => .inr (List.mem_singleton.mp hx ▸ path))
      | nothing null =>
        refine .inl (hleads fun x hx => .inl ?_)
        rw [null x hx]
        rfl
    | _ => cases hstages

/-! ## Values of siblings -/

variable {c : Context} {data : SourceData} {s t : Scope} {r : Scoped}

theorem exists_siblings (c : Context) (h : s.computed = false) :
    ∃ siblings, siblings? c s = some siblings := by
  unfold siblings?
  cases s.source.bind c.source? with
  | none => exact ⟨_, rfl⟩
  | some data =>
    dsimp only
    rw [h]
    exact ⟨_, rfl⟩

/-- Nothing is read of an array. -/
theorem asArray?_of_follow {v : Value} {names : List String} (hnames : names ≠ [])
    (h : v.follow names ≠ .null) : v.asArray? = none := by
  cases v with
  | array items =>
    cases names with
    | nil => exact absurd rfl hnames
    | cons name names => exact absurd (Value.follow_null names) h
  | _ => rfl

/-- What stands at the place of a scope in one of the documents is found as a sibling. -/
theorem mem_siblings {siblings : List Value} (hsource : s.source = some id)
    (hdata : c.source? id = some data) (hcomputed : s.computed = false)
    (hsiblings : siblings? c s = some siblings) {d v : Value} (hd : d ∈ data.documents)
    (hv : v ∈ standing true (followPath d s.path)) : v ∈ siblings := by
  rw [siblings?_of_source hsource hdata hcomputed] at hsiblings
  cases hsiblings
  exact List.mem_flatMap.mpr ⟨d, hd, hv⟩

/-- The values at one scope of a place cover what is read at another one there. -/
theorem mem_valuesAt_siblings {siblings : List Value} {names : List String}
    (hs : s.At data.documents id short opened place) (ht : t.At data.documents id short true place)
    (hdata : c.source? id = some data) (hcomputed : s.computed = false)
    (hshort : s.value ≠ .null ∨ short = false) (hsiblings : siblings? c s = some siblings)
    (hvalue : t.value.follow names ≠ .null) :
    t.value.follow names ∈ valuesAt siblings names := by
  have hpath : s.path = place := hs.path.resolve_right fun ⟨hlong, hnull⟩ =>
    hshort.elim (· hnull) (by rw [hlong]; nofun)
  have hnull : t.value ≠ .null := fun hnull => hvalue (by rw [hnull]; exact Value.follow_null names)
  obtain ⟨-, d, hd, hmem⟩ := ht.of_ne_null hnull
  rw [← hpath] at hmem
  exact mem_valuesAt.mpr
    ⟨hvalue, t.value, mem_siblings hs.source hdata hcomputed hsiblings hd hmem, rfl⟩

theorem outerOperand?_names {names : List String} (h : names ≠ []) :
    (Operation.accessor (.parent :: names.map .attr)).outerOperand? = some names := by
  cases names with
  | nil => exact absurd rfl h
  | cons name names => exact Operation.attributeNames?_map (name :: names)

/-- An accessor that reads an attribute is given all values that it has in the collection. -/
theorem mem_valuesAt_of_leads {siblings : List Value} {names : List String}
    (h : Leads data.documents id short r ∨ ∃ place, Placed data.documents id short true place r)
    (hdata : c.source? id = some data) (hs : s ∈ r.scopes) (ht : t ∈ r.scopes)
    (hscomputed : s.computed = false) (htcomputed : t.computed = false)
    (hshort : s.value ≠ .null ∨ short = false) (hsiblings : siblings? c s = some siblings)
    (hnames : names ≠ []) (hvalue : t.value.follow names ≠ .null) :
    t.value.follow names ∈ valuesAt siblings names := by
  have hsingle := asArray?_of_follow hnames hvalue
  have hat : ∀ {opened place}, Placed data.documents id short opened place r →
      s.At data.documents id short opened place ∧ t.At data.documents id short opened place :=
    fun hplaced => ⟨(hplaced s hs).resolve_left (by rw [hscomputed]; nofun),
      (hplaced t ht).resolve_left (by rw [htcomputed]; nofun)⟩
  rcases h with h | ⟨place, hplaced⟩
  · cases h with
    | whole source uncomputed path value mem =>
      -- the only scope is an array
      rw [List.mem_singleton.mp ht, value] at hsingle
      cases hsingle
    | parts placed =>
      obtain ⟨hsat, htat⟩ := hat placed
      exact mem_valuesAt_siblings hsat (htat.opened_of_single hsingle) hdata hscomputed hshort
        hsiblings hvalue
    | nothing null =>
      rw [null t ht, Value.follow_null] at hvalue
      exact absurd rfl hvalue
  · obtain ⟨hsat, htat⟩ := hat hplaced
    exact mem_valuesAt_siblings hsat htat hdata hscomputed hshort hsiblings hvalue

theorem isLocalStage_of_isWay {stage : Operation} (h : stage.isWay = true) :
    stage.isLocalStage = true := by
  cases stage with
  | accessor path => exact h
  | filter condition => exact h
  | subscript w => rfl
  | _ => cases h

theorem isWay_of_isWindows {stages : List Operation} (h : isWindows stages = true) :
    ∀ stage ∈ stages, stage.isWay = true := by
  induction stages with
  | nil => exact fun _ hstage => absurd hstage List.not_mem_nil
  | cons stage rest ih =>
    cases stage with
    | subscript w =>
      have hrest : isWindows rest = true := by
        cases rest with
        | nil => rfl
        | cons stage rest => exact (Bool.and_eq_true_iff.mp h).2
      exact List.forall_mem_cons.mpr ⟨rfl, ih hrest⟩
    | _ => cases h

theorem isWay_of_isEnd {stages : List Operation} (h : isEnd stages = true) :
    ∀ stage ∈ stages, stage.isWay = true := by
  cases stages with
  | nil => exact fun _ hstage => absurd hstage List.not_mem_nil
  | cons stage rest =>
    cases stage with
    | filter condition =>
      obtain ⟨hlocal, hrest⟩ := Bool.and_eq_true_iff.mp h
      exact List.forall_mem_cons.mpr ⟨hlocal, isWay_of_isWindows hrest⟩
    | _ => cases h

variable {fetcher : Fetcher} {base : Scope} {lead last : List Operation} {σ τ : Session}

/-- A collection that stages lead to, arrays inside the documents being taken apart at the end. -/
theorem leads_of_yields (hdocuments : ∀ d ∈ data.documents, d.asArray? = none)
    (hway : ∀ stage ∈ lead, stage.isWay = true)
    (hlead : LeavesArrays lead (.one (base.ofSource id (.array data.documents) data.start)))
    (hlast : isEnd last = true)
    (hrun : (Engine.applyStages fetcher (lead ++ last)
      (.one (base.ofSource id (.array data.documents) data.start)) base).Yields σ r τ)
    (hshort : ∀ stage ∈ lead, stage.isLong = true → short = true) :
    Leads data.documents id short r ∨ ∃ place, Placed data.documents id short true place r := by
  obtain ⟨mid, hmid, hrest⟩ :=
    (yields_applyStages_append fun p hp => isLocalStage_of_isWay (hway p hp)).mp hrun
  obtain ⟨-, hend⟩ :=
    (yields_applyStages fun p hp => isLocalStage_of_isWay (isWay_of_isEnd hlast p hp)).mp hrest
  have hstart : Leads data.documents id short
      (.one (base.ofSource id (.array data.documents) data.start)) :=
    .whole rfl rfl (fun _ hstep => absurd hstep List.not_mem_nil) rfl fun _ hv => hv
  exact (hstart.steps hdocuments hway hshort hlead hmid).over_end hdocuments hlast hend

/-- **Which values of the siblings are found.** Let stages lead from the documents of a source to a
collection, and take arrays inside the documents apart at the end only. At any scope of the
collection an accessor of the enclosing value is then given all values that it has at scopes of the
collection. The bare enclosing value is given the scope's own value alone. -/
theorem joinValues_covers {names : List String}
    (hdocuments : ∀ d ∈ data.documents, d.asArray? = none)
    (hway : ∀ stage ∈ lead, stage.isWay = true)
    (hlead : LeavesArrays lead (.one (base.ofSource id (.array data.documents) data.start)))
    (hlast : isEnd last = true)
    (hrun : (Engine.applyStages fetcher (lead ++ last)
      (.one (base.ofSource id (.array data.documents) data.start)) base).Yields σ r τ)
    (hdata : c.source? id = some data) (hs : s ∈ r.scopes) (ht : t ∈ r.scopes)
    (hscomputed : s.computed = false) (htcomputed : t.computed = false)
    (hlong : s.value ≠ .null ∨ ∀ stage ∈ lead, stage.isLong = false) :
    ∃ values, joinValues c s (.accessor (.parent :: names.map .attr)) = some values ∧
      (t.read (.parent :: names.map .attr) ≠ .null →
        (t.read (.parent :: names.map .attr) ∈ values ↔
          names ≠ [] ∨ t.read (.parent :: names.map .attr) = s.value)) := by
  rw [Scope.read_parent]
  by_cases hnames : names = []
  · subst hnames
    refine ⟨if s.value.isNull then [] else [s.value], rfl, fun hvalue => ?_⟩
    change t.value ≠ .null at hvalue
    show t.value ∈ _ ↔ [] ≠ [] ∨ t.value = s.value
    split
    · next hnull =>
      rw [Value.eq_null_of_isNull hnull]
      simp [hvalue]
    · simp
  · obtain ⟨siblings, hsiblings⟩ := exists_siblings c hscomputed
    refine ⟨_, joinValues_of_outer hsiblings (outerOperand?_names hnames), fun hvalue => ?_⟩
    refine iff_of_true ?_ (.inl hnames)
    have hlongs : ∀ stage ∈ lead, stage.isLong = true → lead.any Operation.isLong = true :=
      fun stage hstage hstage' => List.any_eq_true.mpr ⟨stage, hstage, hstage'⟩
    have hleads := leads_of_yields hdocuments hway hlead hlast hrun hlongs
    have hshort : s.value ≠ .null ∨ lead.any Operation.isLong = false :=
      hlong.imp_right fun h => List.any_eq_false.mpr fun stage hstage => by rw [h stage hstage]; nofun
    exact mem_valuesAt_of_leads hleads hdata hs ht hscomputed htcomputed hshort hsiblings
      hnames hvalue

/-- The elements of the arrays in two documents: at one of the first document a value of the second
is found. -/
theorem joinValues_covers_element :
    ∃ (data : SourceData) (r : Scoped) (s t : Scope),
      data.documents = [.object [("items", .array [.object [("k", .int 1)], .object [("k", .int 2)]])],
        .object [("items", .array [.object [("k", .string "x")]])]] ∧
      (Engine.applyStages (.fullScan []) [.filter (.literal (.bool true)), .attr "items",
        .filter (.literal (.bool true))] (.one (Scope.root.ofSource 1 (.array data.documents) 0))
        .root).Yields .empty r .empty ∧
      s ∈ r.scopes ∧ t ∈ r.scopes ∧ s.value = .object [("k", .int 1)] ∧
      t.value = .object [("k", .string "x")] ∧
      ∃ values, joinValues ⟨[(1, data)], []⟩ s (.accessor [.parent, .attr "k"]) = some values ∧
        .string "x" ∈ values := by
  let data : SourceData := ⟨[
    .object [("items", .array [.object [("k", .int 1)], .object [("k", .int 2)]])],
    .object [("items", .array [.object [("k", .string "x")]])]], 0⟩
  let start : Scope := Scope.root.ofSource 1 (.array data.documents) 0
  have hrun : ∃ r, (Engine.applyStages (.fullScan []) [.filter (.literal (.bool true)),
      .attr "items", .filter (.literal (.bool true))] (.one start) .root).Yields .empty r .empty ∧
      ∃ s t, s ∈ r.scopes ∧ t ∈ r.scopes ∧ s.computed = false ∧ t.computed = false ∧
        s.value = .object [("k", .int 1)] ∧ t.value = .object [("k", .string "x")] := by
    refine ⟨_, by with_unfolding_all rfl, _, _, List.mem_cons_self,
      List.mem_cons_of_mem _ (List.mem_cons_of_mem _ List.mem_cons_self), rfl, rfl, rfl, rfl⟩
  obtain ⟨r, hrun, s, t, hs, ht, hscomputed, htcomputed, hsvalue, htvalue⟩ := hrun
  have hleaves : LeavesArrays [.filter (.literal (.bool true)), .attr "items"] (.one start) := by
    intro before condition rest next hstages hbefore
    rcases before with _ | ⟨first, _ | ⟨second, _ | ⟨third, before⟩⟩⟩
    · obtain rfl : next = .one start := hbefore
      exact fun x hx => .inr fun step hstep => by
        rw [List.mem_singleton.mp hx] at hstep
        exact absurd hstep List.not_mem_nil
    all_goals cases hstages
  obtain ⟨values, hvalues, hmem⟩ := @joinValues_covers 1 ⟨[(1, data)], []⟩ data s t r (.fullScan [])
    .root [.filter (.literal (.bool true)), .attr "items"] [.filter (.literal (.bool true))] .empty
    .empty ["k"] (by decide) (by decide) hleaves rfl hrun rfl hs ht hscomputed htcomputed
    (.inr (by decide))
  have hread : t.read (.parent :: ["k"].map .attr) = .string "x" := by
    rw [Scope.read_parent, htvalue]
    rfl
  rw [hread] at hmem
  exact ⟨data, r, s, t, rfl, hrun, hs, ht, hsvalue, htvalue, values, hvalues,
    (hmem nofun).mpr (.inl (List.cons_ne_nil _ _))⟩

/-- What is read behind the elements of an array is not found, and the bare enclosing value has
other values in the collection than at a scope of it. -/
theorem joinValues_misses :
    ∃ (data : SourceData) (r : Scoped) (s t : Scope),
      data.documents = [.object [("a", .array [.object [("b", .object [("k", .int 1)])],
        .object [("b", .object [("k", .int 2)])]])]] ∧
      (Engine.applyStages (.fullScan []) [.filter (.literal (.bool true)), .attr "a",
        .filter (.literal (.bool true)), .attr "b"]
        (.one (Scope.root.ofSource 1 (.array data.documents) 0)) .root).Yields .empty r .empty ∧
      s ∈ r.scopes ∧ t ∈ r.scopes ∧ (∀ x ∈ r.scopes, x.computed = false) ∧
      joinValues ⟨[(1, data)], []⟩ s (.accessor [.parent, .attr "k"]) = some [] ∧
      t.read [.parent, .attr "k"] = .int 2 ∧
      joinValues ⟨[(1, data)], []⟩ s (.accessor [.parent]) = some [.object [("k", .int 1)]] ∧
      t.read [.parent] = .object [("k", .int 2)] := by
  refine ⟨⟨[.object [("a", .array [.object [("b", .object [("k", .int 1)])],
    .object [("b", .object [("k", .int 2)])]])]], 0⟩, _, _, _, rfl, by with_unfolding_all rfl,
    List.mem_cons_self, List.mem_cons_of_mem _ List.mem_cons_self, ?_, rfl, rfl, rfl, rfl⟩
  intro x hx
  rcases List.mem_cons.mp hx with rfl | hx
  · rfl
  · obtain rfl := List.mem_singleton.mp hx
    rfl

end Join

end DocQuery
