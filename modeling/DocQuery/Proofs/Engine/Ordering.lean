import DocQuery.Proofs.Engine.Stages

/-!
# Sorting scopes by local keys

`Local.sorted` is what an ordering makes of its items. On items whose keys all have a value that is
no double (`Local.GoodKeys`) the keys order the items weakly, so a filter may be applied before or
after a sort, and two orderings in a row are one ordering with the keys of the second in front.
-/

set_option autoImplicit false

namespace DocQuery
namespace Local

variable {terms terms' : List SortTerm} {items : List Scope}

/-- Every key of an item has a value, and none is a double. -/
def GoodKeys (terms : List SortTerm) (s : Scope) : Prop :=
  ∃ ks, evalAll (terms.map (·.expression)) s.value = .ok ks ∧ ∀ key ∈ ks, key.isFloat = false

/-- The items in the order of their keys. -/
def sorted (terms : List SortTerm) (items : List Scope) : List Scope :=
  Sorting.sortBy (fun s t => before terms s.value t.value) items

theorem keys_eq {v : Value} {ks : List Value}
    (h : evalAll (terms.map (·.expression)) v = .ok ks) : keys terms v = ks := by
  rw [keys, h]

theorem length_evalAll {os : List Operation} {v : Value} {ks : List Value}
    (h : evalAll os v = .ok ks) : ks.length = os.length := by
  induction os generalizing ks with
  | nil =>
    cases h
    rfl
  | cons o os ih =>
    obtain ⟨a, -, h⟩ := exists_of_bind_eq_ok h
    obtain ⟨rest, hos, h⟩ := exists_of_bind_eq_ok h
    cases h
    exact congrArg Nat.succ (ih hos)

theorem evalAll_append {os os' : List Operation} {v : Value} {ks ks' : List Value}
    (h : evalAll os v = .ok ks) (h' : evalAll os' v = .ok ks') :
    evalAll (os ++ os') v = .ok (ks ++ ks') := by
  induction os generalizing ks with
  | nil =>
    cases h
    exact h'
  | cons o os ih =>
    obtain ⟨a, ho, h⟩ := exists_of_bind_eq_ok h
    obtain ⟨rest, hos, h⟩ := exists_of_bind_eq_ok h
    cases h
    rw [List.cons_append, evalAll, ho, ih hos]
    rfl

/-! ## Good keys -/

namespace GoodKeys

variable {s t : Scope}

theorem nil (s : Scope) : GoodKeys [] s := ⟨[], rfl, fun _ h => absurd h List.not_mem_nil⟩

theorem append (h : GoodKeys terms s) (h' : GoodKeys terms' s) : GoodKeys (terms ++ terms') s := by
  obtain ⟨ks, hks, hgood⟩ := h
  obtain ⟨ks', hks', hgood'⟩ := h'
  refine ⟨ks ++ ks', ?_, fun key hkey => ?_⟩
  · rw [List.map_append]
    exact evalAll_append hks hks'
  · rcases List.mem_append.mp hkey with hkey | hkey
    · exact hgood key hkey
    · exact hgood' key hkey

theorem isKeyList (h : GoodKeys terms s) :
    Value.IsKeyList (terms.map (·.direction)) (keys terms s.value) := by
  obtain ⟨ks, hks, hgood⟩ := h
  rw [keys_eq hks]
  refine ⟨?_, hgood⟩
  rw [length_evalAll hks, List.length_map, List.length_map]

end GoodKeys

theorem weak_before (terms : List SortTerm) :
    Sorting.Weak (fun s t : Scope => before terms s.value t.value) (GoodKeys terms) :=
  (weak_keyed _ fun s : Scope => keys terms s.value).subset fun _ h => h.isKeyList

theorem keys_append {s : Scope} (h : GoodKeys terms s) (h' : GoodKeys terms' s) :
    keys (terms ++ terms') s.value = keys terms s.value ++ keys terms' s.value := by
  obtain ⟨ks, hks, -⟩ := h
  obtain ⟨ks', hks', -⟩ := h'
  rw [keys_eq hks, keys_eq hks']
  refine keys_eq ?_
  rw [List.map_append]
  exact evalAll_append hks hks'

/-! ## Sorting -/

@[simp] theorem mem_sorted {s : Scope} : s ∈ sorted terms items ↔ s ∈ items :=
  Sorting.mem_sortBy

theorem sorted_nil (items : List Scope) : sorted [] items = items := by
  refine Sorting.sortBy_eq_self (weak_before []) (fun s _ => .nil s) ?_
  exact List.pairwise_of_forall fun _ _ => rfl

theorem filter_sorted (h : ∀ s ∈ items, GoodKeys terms s) (p : Scope → Bool) :
    (sorted terms items).filter p = sorted terms (items.filter p) :=
  Sorting.filter_sortBy (weak_before terms) h p

theorem sorted_sorted (h : ∀ s ∈ items, GoodKeys terms s) (h' : ∀ s ∈ items, GoodKeys terms' s) :
    sorted terms (sorted terms' items) = sorted (terms ++ terms') items := by
  refine (sortedOn_sortedOn fun s hs => ⟨(h' s hs).isKeyList, (h s hs).isKeyList⟩).trans ?_
  refine Sorting.sortBy_congr (fun s (hs : s ∈ items) t ht => ?_) fun _ hs => hs
  rw [before, keys_append (h s hs) (h' s hs), keys_append (h t ht) (h' t ht), List.map_append]

/-- A part of a sorted list is sorted. -/
theorem sorted_sublist {part : List Scope} (h : ∀ s ∈ items, GoodKeys terms s)
    (hsub : part.Sublist (sorted terms items)) : sorted terms part = part :=
  Sorting.sortBy_eq_self (weak_before terms) (fun s hs => h s (mem_sorted.mp (hsub.subset hs)))
    ((Sorting.sortBy_inOrder (weak_before terms) h).sublist hsub)

end Local
end DocQuery
