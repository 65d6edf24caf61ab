import DocQuery.Proofs.Value.SortKeys

/-!
# Lists of keys in order

What it means for keyed items to be sorted, without a look at `Value.compareKeys`: the first keys
that differ decide (`Value.Precedes`), each in the direction of its term, and items that are equal
in all their keys stay as they stood (`IsStableSort`). Types are ranked whatever the direction is
(`Value.compareForSort_of_rank_lt`).

**Items with keys that are no doubles are sorted like this** (`isStableSort_sortByKeys`), and
sorting by some keys and then by others is sorting once by both, the later ones in front
(`sortByKeys_sortByKeys`).
-/

set_option autoImplicit false

namespace DocQuery
namespace Value

theorem compareForSort_of_rank_lt {a b : Value} (h : a.rank < b.rank) (d : Direction) :
    compareForSort a b d = .lt := by
  rw [compareForSort, if_neg (Nat.ne_of_lt h)]
  exact Nat.compare_eq_lt.mpr h

/-- The first keys that differ are in order. -/
inductive Precedes : List Direction → List Value → List Value → Prop
  | here {d : Direction} {ds : List Direction} {a b : Value} {as bs : List Value}
      (less : compareForSort a b d = .lt) : Precedes (d :: ds) (a :: as) (b :: bs)
  | later {d : Direction} {ds : List Direction} {a b : Value} {as bs : List Value}
      (equal : compareForSort a b d = .eq) (rest : Precedes ds as bs) :
      Precedes (d :: ds) (a :: as) (b :: bs)

/-- No keys differ. -/
inductive AllEqual : List Direction → List Value → List Value → Prop
  | nil : AllEqual [] [] []
  | cons {d : Direction} {ds : List Direction} {a b : Value} {as bs : List Value}
      (equal : compareForSort a b d = .eq) (rest : AllEqual ds as bs) :
      AllEqual (d :: ds) (a :: as) (b :: bs)

theorem Precedes.compareKeys {ds : List Direction} {as bs : List Value} (h : Precedes ds as bs) :
    compareKeys ds as bs = .lt := by
  induction h with
  | here less =>
    rw [Value.compareKeys, less]
    rfl
  | later equal _ ih =>
    rw [Value.compareKeys, equal, ih]
    rfl

theorem AllEqual.compareKeys {ds : List Direction} {as bs : List Value} (h : AllEqual ds as bs) :
    compareKeys ds as bs = .eq := by
  induction h with
  | nil => rfl
  | cons equal _ ih =>
    rw [Value.compareKeys, equal, ih]
    rfl

end Value

open Value

/-- Keyed items sorted by the directions of their keys. -/
structure IsStableSort {α : Type} (directions : List Direction)
    (keyed sorted : List (List Value × α)) : Prop where
  perm : sorted.Perm keyed
  inOrder : sorted.Pairwise fun a b => ¬Precedes directions b.1 a.1
  stable : ∀ {part : List (List Value × α)}, part.Sublist keyed →
    part.Pairwise (fun a b => AllEqual directions a.1 b.1) → part.Sublist sorted

variable {α : Type} {directions directions' : List Direction} {keyed : List (List Value × α)}

theorem ties_of_allEqual {a b : List Value × α} (ha : IsKeyList directions a.1)
    (hb : IsKeyList directions b.1) (h : AllEqual directions a.1 b.1) :
    Sorting.ties (fun a b : List Value × α => compareKeys directions a.1 b.1 == .lt) a b = true := by
  have hab := h.compareKeys
  have hba := (preordered_compareKeys directions).swap ha hb
  rw [hab] at hba
  exact Sorting.ties_iff.mpr ⟨by simp [hab], by simp [hba]⟩

theorem isStableSort_sortByKeys (h : ∀ k ∈ keyed, IsKeyList directions k.1) :
    IsStableSort directions keyed (sortByKeys directions keyed) := by
  have hweak := weak_keyed directions fun k : List Value × α => k.1
  refine ⟨Sorting.sortBy_perm _ _, ?_, fun {part} hsub hequal => ?_⟩
  · refine (Sorting.sortBy_inOrder hweak h).imp fun {a b} hless hprecedes => ?_
    dsimp only at hless
    rw [hprecedes.compareKeys] at hless
    cases hless
  · cases part with
    | nil => exact List.nil_sublist _
    | cons a part =>
      -- all of them are among the items that tie with the first one, which stay as they stood
      have hkey : ∀ b ∈ a :: part, IsKeyList directions b.1 := fun b hb => h b (hsub.subset hb)
      have ha := hkey a List.mem_cons_self
      have hties : ∀ b ∈ a :: part, Sorting.ties
          (fun a b : List Value × α => compareKeys directions a.1 b.1 == .lt) a b = true := by
        intro b hb
        rcases List.mem_cons.mp hb with rfl | hrest
        · exact hweak.ties_self ha
        · exact ties_of_allEqual ha (hkey b hb) ((List.pairwise_cons.mp hequal).1 b hrest)
      have hkeep := hsub.filter (Sorting.ties
        (fun a b : List Value × α => compareKeys directions a.1 b.1 == .lt) a)
      rw [List.filter_eq_self.mpr hties, ← Sorting.sortBy_stable hweak h ha] at hkeep
      exact hkeep.trans (List.filter_sublist ..)

/-! ## Sorting twice -/

/-- An item with the keys of two sorts. -/
structure Twice (α : Type) where
  earlier : List Value
  later : List Value
  item : α

namespace Twice

def first (t : Twice α) : List Value × α := (t.earlier, t.item)

def second (t : Twice α) : List Value × α := (t.later, t.item)

/-- The keys of the later sort in front of those of the earlier one. -/
def both (t : Twice α) : List Value × α := (t.later ++ t.earlier, t.item)

end Twice

theorem items_sortByKeys_first (rows : List (Twice α)) :
    (sortByKeys directions (rows.map Twice.first)).map (·.2) =
      (sortedOn directions Twice.earlier rows).map Twice.item :=
  sortByKeys_map _ Twice.earlier Twice.item rows

/-- One sort after the other is one sort by the keys of both. -/
theorem sortByKeys_sortByKeys {rows : List (Twice α)}
    (h : ∀ t ∈ rows, IsKeyList directions t.earlier ∧ IsKeyList directions' t.later) :
    (sortByKeys directions' ((sortedOn directions Twice.earlier rows).map Twice.second)).map (·.2) =
      (sortByKeys (directions' ++ directions) (rows.map Twice.both)).map (·.2) :=
  calc
    _ = (sortedOn directions' Twice.later (sortedOn directions Twice.earlier rows)).map
          Twice.item := sortByKeys_map _ Twice.later Twice.item _
    _ = (sortedOn (directions' ++ directions) (fun t => t.later ++ t.earlier) rows).map
          Twice.item := congrArg (List.map Twice.item) (sortedOn_sortedOn h)
    _ = _ := (sortByKeys_map _ (fun t : Twice α => t.later ++ t.earlier) Twice.item rows).symm

/-- Items with other keys beside those that they were sorted by were given in some order. -/
theorem exists_rows {sorted : List (Twice α)}
    (h : sortByKeys directions keyed = sorted.map Twice.first) : ∃ rows : List (Twice α),
      rows.map Twice.first = keyed ∧ sortedOn directions Twice.earlier rows = sorted :=
  Sorting.exists_unsorted Twice.first h

end DocQuery
