import DocQuery.Proofs.Engine.Scans
import DocQuery.Proofs.Query.Fetching
import DocQuery.Proofs.Query.Pushdown
import DocQuery.Proofs.Value.Json

/-!
# Subscripts of queries

Over a full scan, a subscript behind a query selects among the elements of what the query gives
without it (`Query.result_subscript`).

An inclusive range is planned as the window that ends one position later. For bounds that count from
the front, and for ends that count from the back up to the last but one, the window has the elements
at the positions of both bounds and between them (`Window.narrow_inclusive`). One after the last
position from the back, however, is the first one from the front: **a range up to `-1` is empty**, and
all other inclusive ranges select both of their ends (`Query.inclusive_selects`).
-/

set_option autoImplicit false

namespace DocQuery

/-! ## Windows of lists -/

namespace Window

variable {α β : Type} {items : List α}

/-- The position that a bound stands for among `len` items. -/
def position (len : Nat) (bound : Int) : Int := if 0 ≤ bound then bound else len + bound

/-- The items at the positions of two bounds and between them. -/
def between (items : List α) (first last : Int) : List α :=
  (items.zipIdx.filter fun p =>
    position items.length first ≤ p.2 ∧ p.2 ≤ position items.length last).map (·.1)

theorem pick?_map (f : α → β) (w : Subscript) (items : List α) (offset : Nat) :
    pick? w (items.map f) offset = (pick? w items offset).map f := by
  unfold pick?
  rw [List.length_map]
  cases index? items.length offset w.start with
  | none => rfl
  | some i => exact List.getElem?_map ..

theorem narrow_map (f : α → β) (w : Subscript) (items : List α) (offset : Nat) :
    narrow w (items.map f) offset = ((narrow w items offset).1.map f, (narrow w items offset).2) := by
  unfold narrow
  rw [List.length_map]
  exact congrArg (·, _) (map_cut f items _ _).symm

/-- A cut has the items at its positions; `k` is the position of the first item. -/
theorem cut_eq_filter (items : List α) (k low high : Nat) : cut items low high =
    ((items.zipIdx k).filter fun p => k + low ≤ p.2 ∧ p.2 < k + high).map (·.1) := by
  induction items generalizing k low high with
  | nil => simp [cut]
  | cons x items ih =>
    rw [List.zipIdx_cons, List.filter_cons]
    cases low with
    | succ low =>
      have hcut : cut (x :: items) (low + 1) high = cut items low (high - 1) := by
        rw [cut, cut, List.drop_succ_cons]
        congr 1
        omega
      have hout : ¬(k + (low + 1) ≤ k ∧ k < k + high) := by omega
      rw [hcut, ih (k + 1), if_neg fun h => hout (of_decide_eq_true h)]
      refine congrArg (List.map _) (List.filter_congr fun p hp => decide_eq_decide.mpr ?_)
      have hle := List.le_snd_of_mem_zipIdx hp
      omega
    | zero =>
      cases high with
      | zero =>
        rw [if_neg (by simp), List.filter_eq_nil_iff.mpr (by simp)]
        rfl
      | succ high =>
        have hcut : cut (x :: items) 0 (high + 1) = x :: cut items 0 high := rfl
        rw [hcut, ih (k + 1), if_pos (by simp)]
        refine congrArg (x :: List.map _ ·) (List.filter_congr fun p hp => decide_eq_decide.mpr ?_)
        have hle := List.le_snd_of_mem_zipIdx hp
        omega

/-- **The window of an inclusive range** has the items from one bound to the other, unless the range
is one up to the last position from the back. -/
theorem narrow_inclusive (items : List α) (a b : Int) (first : Bool) :
    (narrow ⟨a, b + 1, first⟩ items 0).1 = if b = -1 then [] else between items a b := by
  have hsigned : signed 0 = 0 := rfl
  have hshift : ∀ bound, shift 0 bound = bound := by
    intro bound
    unfold shift
    rw [hsigned]
    omega
  have hbounds : bounds items.length 0 a (b + 1) = (clamp items.length a,
      max (clamp items.length a) (clamp items.length (b + 1)), (bounds items.length 0 a (b + 1)).2.2) := by
    unfold bounds slice
    rw [hshift, hshift]
  show cut items (bounds items.length 0 a (b + 1)).1 (bounds items.length 0 a (b + 1)).2.1 = _
  rw [hbounds]
  by_cases hlast : b = -1
  · subst hlast
    have hzero : clamp items.length (-1 + 1) = 0 := by
      show min 0 items.length = 0
      omega
    rw [if_pos rfl, hzero, Nat.max_zero]
    exact cut_eq_nil (Nat.le_refl _)
  · rw [if_neg hlast, cut_eq_filter items 0, between]
    refine congrArg (List.map _) (List.filter_congr fun p hp => decide_eq_decide.mpr ?_)
    have hlt := List.snd_lt_of_mem_zipIdx hp
    unfold clamp position
    dsimp only
    split_ifs <;> omega

end Window

/-! ## Subscripts of results -/

namespace Scoped

/-- The position in the collection of the first item that is at hand. -/
def offset : Scoped → Nat
  | one s => s.start
  | many _ start => start

theorem Uncut.offset {r : Scoped} (h : r.Uncut) : r.offset = 0 := by
  cases r with
  | one s => exact Scope.Uncut.start h
  | many items start => exact h.1

/-- What a subscript makes of a result, it makes of the result's value. -/
theorem value_subscript {r : Scoped} {vs : List Value} (hvalue : r.value = .array vs)
    (w : Subscript) : (r.subscript w).value =
      if w.first then (Window.pick? w vs r.offset).getD .null
      else .array (Window.narrow w vs r.offset).1 := by
  cases r with
  | one s =>
    cases hfirst : w.first with
    | true =>
      rw [subscript_one_index hfirst hvalue]
      rfl
    | false =>
      rw [subscript_one_slice hfirst hvalue]
      rfl
  | many items start =>
    cases hvalue
    cases hfirst : w.first with
    | true =>
      rw [subscript_many_index hfirst, Window.pick?_map]
      show ((Window.pick? w items start).getD _).value = ((Window.pick? w items start).map _).getD _
      cases Window.pick? w items start <;> rfl
    | false =>
      rw [subscript_many_slice hfirst, Window.narrow_map]
      rfl

end Scoped

/-! ## Subscripts of plans -/

namespace Planner

open Operation

variable {params : Params} {node : Node} {n n' : SourceId} {o : Operation}

theorem restrict_pipeInto {condition : Operation} (h : ∀ id, o ≠ .source id) (w : Subscript) :
    restrict condition (pipeInto o (.subscript w)) = pipeInto (restrict condition o) (.subscript w) := by
  have hafter : ∀ stages : List Operation, afterSources condition (stages ++ [.subscript w]) =
      afterSources condition stages ++ [.subscript w] := by
    intro stages
    induction stages with
    | nil => rfl
    | cons stage stages ih =>
      cases stage with
      | source id => exact congrArg (fun rest => .source id :: .filter condition :: rest) ih
      | _ => exact congrArg (_ :: ·) ih
  have hall : ∀ stages : List Operation,
      mapPipesAll (afterSources condition) (stages ++ [.subscript w]) =
        mapPipesAll (afterSources condition) stages ++ [.subscript w] := by
    intro stages
    induction stages with
    | nil => rfl
    | cons stage stages ih => exact congrArg (_ :: ·) ih
  rw [restrict_eq, restrict_eq]
  cases o with
  | pipe stages name =>
    show Operation.pipe (afterSources condition (mapPipesAll _ (stages ++ [.subscript w]))) name = _
    rw [hall, hafter]
    rfl
  | source id => exact absurd rfl (h id)
  | sortDirection term =>
    cases term
    rfl
  | _ => rfl

end Planner

/-! ## Subscripts of queries -/

namespace Query

open Engine Planner

variable {q : Query} {documents items : List Json} {node : Node} {w : Subscript}

/-- The query with a stage behind it. -/
def piped (q : Query) (node : Node) : Query := { q with tree := .pipe q.tree node }

/-- A planned query is no bare source, and its pipeline has a stage. -/
theorem shape_operation {o : Operation} (h : q.operation = .ok o) :
    o.Conforms {} anySource ∧ ∀ name, o ≠ .pipe [] name := by
  have hconforms := (operation_conforms h).imp ⟨.refl _, fun _ _ _ _ _ _ => trivial⟩ (.refl _)
  refine ⟨hconforms, fun name => ?_⟩
  obtain ⟨base, next, hbase, ⟨-, rfl⟩ | ⟨filter, condition, next', -, -, rfl⟩⟩ := gives_of_operation h
  · exact hbase.pipe_ne_nil name
  · rw [restrict_eq]
    intro heq
    cases base with
    | pipe stages name' =>
      cases stages with
      | nil => exact hbase.pipe_ne_nil name' rfl
      | cons first rest =>
        cases hfirst : first.mapPipes (afterSources condition) <;>
          simp [Operation.mapPipes, Operation.mapPipesAll, afterSources, hfirst] at heq
    | sortDirection term =>
      cases term
      cases heq
    | _ => cases heq

/-- The subscript is planned behind the query, also where a filter is put behind every source. -/
theorem operation_piped {o : Operation} (h : q.operation = .ok o)
    (hnode : ∀ n, Gives (compose q.params node) n (.subscript w) n) :
    (q.piped node).operation = .ok (pipeInto o (.subscript w)) := by
  obtain ⟨base, next, hbase, hfilter⟩ := gives_of_operation h
  have hpiped : (compose (q.piped node).params (q.piped node).tree).run 1 =
      .ok (pipeInto base (.subscript w), next) := by
    exact gives_pipe.mpr ⟨base, next, _, hbase, hnode next, rfl⟩
  have hglobal : (q.piped node).globalFilter = q.globalFilter := rfl
  unfold Query.operation plan
  rw [hpiped, hglobal]
  rcases hfilter with ⟨hnone, rfl⟩ | ⟨filter, condition, next', hsome, hcondition, rfl⟩
  · rw [hnone]
    rfl
  · have hsource : ∀ id, base ≠ .source id := by
      rintro id rfl
      exact conforms_compose q.tree.usesOnly_all hbase
    unfold Gives at hcondition
    rw [hsome]
    show ((compose q.params filter).run next >>= _) = _
    rw [hcondition]
    exact congrArg Except.ok (restrict_pipeInto hsource w)

/-- **A subscript behind a query selects among the elements that the query gives.** -/
theorem result_subscript (hnode : ∀ n, Gives (compose q.params node) n (.subscript w) n)
    (h : q.result (.fullScan documents) = .ok (.arr items)) :
    (q.piped node).result (.fullScan documents) =
      .ok (if w.first then (Window.pick? w items 0).getD .null
        else .arr (Window.narrow w items 0).1) := by
  obtain ⟨o, hplan⟩ : ∃ o, q.operation = .ok o := by
    cases hplan : q.operation with
    | ok o => exact ⟨o, rfl⟩
    | error e =>
      unfold Query.result execute at h
      rw [hplan] at h
      cases h
  obtain ⟨hconforms, hstages⟩ := shape_operation hplan
  obtain ⟨r, τ, hrun, hitems⟩ := (result_eq_ok hplan).mp h
  have huncut := (keepsUncut_exec (Fetcher.uncut_fullScan documents) o (Scope.uncut_detached _) _ _ _
    Session.uncut_empty hrun).1
  obtain ⟨vs, hvalue, rfl⟩ : ∃ vs, r.value = .array vs ∧ items = vs.map Value.toJson := by
    cases hvalue : r.value with
    | array vs =>
      rw [hvalue, Value.toJson, Value.toItems_eq_map] at hitems
      cases hitems
      exact ⟨vs, rfl, rfl⟩
    | float d =>
      rw [hvalue, Value.toJson] at hitems
      split at hitems <;> cases hitems
    | _ =>
      rw [hvalue] at hitems
      cases hitems
  -- with the subscript behind it the plan runs to the same result, and then takes the window
  have htracks := @tracks_exec_subscript documents o hconforms hstages w .root .empty .empty rfl
  unfold Run.Yields at hrun
  rw [hrun] at htracks
  generalize hpiped : (exec (.fullScan documents) (pipeInto o (.subscript w)) .root).run.run
    .empty = outcome at htracks
  cases htracks with
  | ok hsubscript _ =>
    subst hsubscript
    refine (result_eq_ok (operation_piped hplan hnode)).mpr ⟨_, _, hpiped, ?_⟩
    rw [Scoped.value_subscript hvalue, huncut.offset, Window.pick?_map, Window.narrow_map]
    split
    · cases Window.pick? w vs 0 <;> rfl
    · rw [Value.toJson, Value.toItems_eq_map]

/-! ## Inclusive ranges -/

/-- The subscript of an inclusive range. -/
def inclusive (a b : Int) : Node := .subscript (.range (.integer a) (.integer b) true)

theorem gives_inclusive {a b : Int} (hb : b < maxInt64) (params : Params) (n : SourceId) :
    Gives (compose params (inclusive a b)) n (.subscript ⟨a, b + 1, false⟩) n := by
  have hpast : past b = .ok (b + 1) := by
    rw [past, if_pos (by omega)]
  rw [inclusive, compose, compose, compose]
  simp only [reduceIte, gives_bind, gives_pure, gives_lift]
  exact ⟨_, _, ⟨rfl, rfl⟩, a, _, ⟨rfl, rfl⟩, _, _, ⟨rfl, rfl⟩, b, _, ⟨rfl, rfl⟩, b + 1, _,
    ⟨hpast, rfl⟩, rfl, rfl⟩

/-- **An inclusive range selects from its first position to its last**, both included, except that
it selects nothing when it ends at `-1`. It is planned as a window; applied to an array at hand as a
whole the window gives these elements, and behind a query over a full scan the range gives them of
what the query gives. -/
theorem inclusive_selects {a b : Int} (hb : b < maxInt64) : ∃ w : Subscript,
    (∀ params n, Gives (compose params (inclusive a b)) n (.subscript w) n) ∧
    (∀ (r : Scoped) (vs : List Value), r.offset = 0 → r.value = .array vs →
      (r.subscript w).value = .array (if b = -1 then [] else Window.between vs a b)) ∧
    ∀ (q : Query) (documents items : List Json), q.result (.fullScan documents) = .ok (.arr items) →
      (q.piped (inclusive a b)).result (.fullScan documents) =
        .ok (.arr (if b = -1 then [] else Window.between items a b)) := by
  refine ⟨⟨a, b + 1, false⟩, gives_inclusive hb, fun r vs hoffset hvalue => ?_,
    fun q documents items hitems => ?_⟩
  · rw [Scoped.value_subscript hvalue, hoffset, if_neg Bool.false_ne_true, Window.narrow_inclusive]
  · rw [result_subscript (gives_inclusive hb q.params) hitems, if_neg Bool.false_ne_true,
      Window.narrow_inclusive]

/-- The second to the last but one of four elements. -/
theorem inclusive_selects_inner : (1 : Int) < maxInt64 ∧ (-2 : Int) < maxInt64 ∧
    (Query.piped ⟨.array [.integer 1, .integer 2, .integer 3, .integer 4], [], none⟩
      (inclusive 1 (-2))).result (.fullScan []) = .ok (.arr [.int 2, .int 3]) := by
  have hend : (-2 : Int) < maxInt64 := by decide
  obtain ⟨w, -, -, hquery⟩ := inclusive_selects (a := 1) hend
  exact ⟨by decide, hend, hquery ⟨.array [.integer 1, .integer 2, .integer 3, .integer 4], [], none⟩ []
    [.int 1, .int 2, .int 3, .int 4] (by with_unfolding_all rfl)⟩

/-- A range to the last of three elements, counted from the back, has none of them. -/
theorem inclusive_last_lost :
    (Query.piped ⟨.array [.integer 1, .integer 2, .integer 3], [], none⟩
      (inclusive 0 (-1))).result (.fullScan []) = .ok (.arr []) ∧
    Window.between [Json.int 1, .int 2, .int 3] 0 (-1) = [.int 1, .int 2, .int 3] :=
  ⟨by with_unfolding_all rfl, rfl⟩

end Query
end DocQuery
