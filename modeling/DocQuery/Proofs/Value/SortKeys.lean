import DocQuery.Proofs.Value.Sorting

/-!
# The order of sort keys

**Lists of keys without doubles are weakly ordered** (`Value.weak_compareKeys`), whatever the
directions, so all that `DocQuery.Proofs.Value.Sorting` says of sorting holds for them. Doubles are
left out for a reason: an integer and a double are compared as decimals with a bounded number of
digits, and three numbers can then run in a circle.

Items are sorted on their keys (`sortedOn`); two such sorts in a row are one (`sortedOn_sortedOn`).

A key without a double is a rank, a number and a text, compared in turn (`compareForSort_eq`).
-/

set_option autoImplicit false

namespace DocQuery

/-! ## Orders given by comparison -/

/-- On these items a comparison turns around with its arguments, and "not greater" is transitive. -/
structure Preordered {α : Type} (cmp : α → α → Ordering) (Item : α → Prop) : Prop where
  swap : ∀ {a b : α}, Item a → Item b → cmp b a = (cmp a b).swap
  trans : ∀ {a b c : α}, Item a → Item b → Item c → (cmp a b).isLE = true →
    (cmp b c).isLE = true → (cmp a c).isLE = true

namespace Preordered

variable {α β : Type} {cmp cmp' : α → α → Ordering} {Item : α → Prop}

theorem isLE_of_ne_lt (h : Preordered cmp Item) {a b : α} (ha : Item a) (hb : Item b)
    (hab : cmp a b ≠ .lt) : (cmp b a).isLE = true := by
  rw [h.swap ha hb]
  cases hcmp : cmp a b with
  | lt => exact absurd hcmp hab
  | eq => rfl
  | gt => rfl

theorem eq_of_isLE (h : Preordered cmp Item) {a b : α} (ha : Item a) (hb : Item b)
    (hab : (cmp a b).isLE = true) (hba : (cmp b a).isLE = true) : cmp a b = .eq := by
  rw [h.swap ha hb] at hba
  cases hcmp : cmp a b with
  | eq => rfl
  | lt =>
    rw [hcmp] at hba
    cases hba
  | gt =>
    rw [hcmp] at hab
    cases hab

theorem weak (h : Preordered cmp Item) : Sorting.Weak (fun a b => cmp a b == .lt) Item where
  asymm {a b} ha hb hless := by
    rw [h.swap ha hb, beq_iff_eq.mp hless]
    rfl
  between {a b c} ha hb hc hless := by
    by_cases hab : cmp a b = .lt
    · exact .inl (by simp [hab])
    · by_cases hbc : cmp b c = .lt
      · exact .inr (by simp [hbc])
      · have hca := h.trans hc hb ha (h.isLE_of_ne_lt hb hc hbc) (h.isLE_of_ne_lt ha hb hab)
        rw [h.swap ha hc, beq_iff_eq.mp hless] at hca
        cases hca

theorem of_compare [Ord β] [Std.TransOrd β] (f : α → β) :
    Preordered (fun a b => compare (f a) (f b)) Item where
  swap _ _ := Std.OrientedOrd.eq_swap
  trans _ _ _ hab hbc := Std.TransOrd.isLE_trans hab hbc

theorem andThen (h : Preordered cmp Item) (h' : Preordered cmp' Item) :
    Preordered (fun a b => (cmp a b).then (cmp' a b)) Item where
  swap {a b} ha hb := by
    rw [h.swap ha hb, h'.swap ha hb]
    cases cmp a b <;> rfl
  trans {a b c} ha hb hc hab hbc := by
    have hab' : (cmp a b).isLE = true := by
      cases hcmp : cmp a b <;> simp_all [Ordering.then, Ordering.isLE]
    have hbc' : (cmp b c).isLE = true := by
      cases hcmp : cmp b c <;> simp_all [Ordering.then, Ordering.isLE]
    have hac := h.trans ha hb hc hab' hbc'
    cases hcmp : cmp a c with
    | lt => rfl
    | gt =>
      rw [hcmp] at hac
      cases hac
    | eq =>
      -- all three are equal in the first comparison
      have hca : (cmp c a).isLE = true := by
        rw [h.swap ha hc, hcmp]
        rfl
      have heq : cmp a b = .eq := h.eq_of_isLE ha hb hab' (h.trans hb hc ha hbc' hca)
      have heq' : cmp b c = .eq := h.eq_of_isLE hb hc hbc' (h.trans hc ha hb hca hab')
      rw [heq] at hab
      rw [heq'] at hbc
      exact h'.trans ha hb hc hab hbc

theorem comap (h : Preordered cmp Item) (f : β → α) {Part : β → Prop}
    (hpart : ∀ b, Part b → Item (f b)) : Preordered (fun a b => cmp (f a) (f b)) Part where
  swap ha hb := h.swap (hpart _ ha) (hpart _ hb)
  trans ha hb hc := h.trans (hpart _ ha) (hpart _ hb) (hpart _ hc)

theorem direction (h : Preordered cmp Item) (d : Direction) :
    Preordered (fun a b => d.apply (cmp a b)) Item := by
  cases d with
  | asc => exact h
  | desc =>
    constructor
    · intro a b ha hb
      exact congrArg Ordering.swap (h.swap ha hb)
    · intro a b c ha hb hc hab hbc
      have hba : (cmp b a).isLE = true := by
        rw [h.swap ha hb]
        exact hab
      have hcb : (cmp c b).isLE = true := by
        rw [h.swap hb hc]
        exact hbc
      show (cmp a c).swap.isLE = true
      rw [← h.swap ha hc]
      exact h.trans hc hb ha hcb hba

end Preordered

namespace Value

/-! ## One key -/

def isFloat : Value → Bool
  | float _ => true
  | _ => false

/-- The number that decides between keys of one rank: that of an integer or a boolean. -/
def weight : Value → Int
  | int n => n
  | bool b => b.toNat
  | _ => 0

/-- The text that decides between strings. -/
def letters : Value → String
  | string s => s
  | _ => ""

theorem compareForSort_eq {a b : Value} (ha : a.isFloat = false) (hb : b.isFloat = false)
    (d : Direction) : compareForSort a b d = (compare a.rank b.rank).then
      (d.apply ((compare a.weight b.weight).then (compare a.letters b.letters))) := by
  unfold compareForSort
  by_cases hrank : a.rank = b.rank
  · rw [if_pos hrank, hrank, Std.ReflOrd.compare_self]
    refine congrArg d.apply ?_
    cases a <;> cases b
    case int.int n m => exact (by simp [compareWithin, compareNumbers, weight, letters])
    case string.string s t => rfl
    case bool.bool x y => cases x <;> cases y <;> rfl
    all_goals first | rfl | simp_all [rank, isFloat]
  · rw [if_neg hrank]
    cases hcmp : compare a.rank b.rank with
    | eq => exact absurd (Std.LawfulEqOrd.eq_of_compare hcmp) hrank
    | lt => rfl
    | gt => rfl

/-- Rank, weight and letters decide one after the other. -/
theorem preordered_codes (d : Direction) :
    Preordered (fun a b : Value => (compare a.rank b.rank).then
      (d.apply ((compare a.weight b.weight).then (compare a.letters b.letters)))) fun _ => True :=
  (Preordered.of_compare rank).andThen (((Preordered.of_compare weight).andThen
    (Preordered.of_compare letters)).direction d)

theorem preordered_compareForSort (d : Direction) :
    Preordered (fun a b => compareForSort a b d) fun a => a.isFloat = false where
  swap {a b} ha hb := by
    rw [compareForSort_eq ha hb, compareForSort_eq hb ha]
    exact (preordered_codes d).swap trivial trivial
  trans {a b c} ha hb hc hab hbc := by
    rw [compareForSort_eq ha hb] at hab
    rw [compareForSort_eq hb hc] at hbc
    rw [compareForSort_eq ha hc]
    exact (preordered_codes d).trans trivial trivial trivial hab hbc

/-! ## Lists of keys -/

/-- One key for each direction, and none of them a double. -/
structure IsKeyList (directions : List Direction) (keys : List Value) : Prop where
  length_eq : keys.length = directions.length
  noFloat : ∀ key ∈ keys, key.isFloat = false

theorem IsKeyList.cons {d : Direction} {directions : List Direction} {keys : List Value}
    (h : IsKeyList (d :: directions) keys) :
    (keys.headD null).isFloat = false ∧ IsKeyList directions keys.tail := by
  cases keys with
  | nil => cases h.length_eq
  | cons key rest =>
    refine ⟨h.noFloat key List.mem_cons_self, Nat.succ.inj h.length_eq, fun k hk => ?_⟩
    exact h.noFloat k (List.mem_cons_of_mem key hk)

theorem compareKeys_cons {d : Direction} {directions : List Direction} {as bs : List Value}
    (ha : IsKeyList (d :: directions) as) (hb : IsKeyList (d :: directions) bs) :
    compareKeys (d :: directions) as bs =
      (compareForSort (as.headD null) (bs.headD null) d).then
        (compareKeys directions as.tail bs.tail) := by
  cases as with
  | nil => cases ha.length_eq
  | cons a as =>
    cases bs with
    | nil => cases hb.length_eq
    | cons b bs => rfl

theorem preordered_compareKeys (directions : List Direction) :
    Preordered (compareKeys directions) (IsKeyList directions) := by
  induction directions with
  | nil => exact ⟨fun _ _ => rfl, fun _ _ _ _ _ => rfl⟩
  | cons d ds ih =>
    have hhead := (preordered_compareForSort d).comap (fun keys : List Value => keys.headD null)
      fun keys (hkeys : IsKeyList (d :: ds) keys) => hkeys.cons.1
    have htail := ih.comap List.tail fun keys (hkeys : IsKeyList (d :: ds) keys) => hkeys.cons.2
    have hboth := hhead.andThen htail
    constructor
    · intro as bs ha hb
      rw [compareKeys_cons ha hb, compareKeys_cons hb ha]
      exact hboth.swap ha hb
    · intro as bs cs ha hb hc hab hbc
      rw [compareKeys_cons ha hb] at hab
      rw [compareKeys_cons hb hc] at hbc
      rw [compareKeys_cons ha hc]
      exact hboth.trans ha hb hc hab hbc

/-- Lists of keys without doubles are weakly ordered. -/
theorem weak_compareKeys (directions : List Direction) :
    Sorting.Weak (fun as bs => compareKeys directions as bs == .lt) (IsKeyList directions) :=
  (preordered_compareKeys directions).weak

/-- The keys of two orderings, one after the other. -/
theorem compareKeys_append {ds ds' : List Direction} {as as' bs bs' : List Value}
    (ha : as.length = ds.length) (hb : bs.length = ds.length) :
    compareKeys (ds ++ ds') (as ++ as') (bs ++ bs') =
      (compareKeys ds as bs).then (compareKeys ds' as' bs') := by
  induction ds generalizing as bs with
  | nil =>
    rw [List.length_eq_zero_iff.mp ha, List.length_eq_zero_iff.mp hb]
    rfl
  | cons d ds ih =>
    cases as with
    | nil => cases ha
    | cons a as =>
      cases bs with
      | nil => cases hb
      | cons b bs =>
        show (compareForSort a b d).then (compareKeys (ds ++ ds') (as ++ as') (bs ++ bs')) =
          ((compareForSort a b d).then (compareKeys ds as bs)).then (compareKeys ds' as' bs')
        rw [ih (Nat.succ.inj ha) (Nat.succ.inj hb)]
        cases compareForSort a b d <;> rfl

/-- The keys behind decide where those in front are equal. -/
theorem lt_compareKeys_append {ds ds' : List Direction} {as as' bs bs' : List Value}
    (ha : IsKeyList ds as) (hb : IsKeyList ds bs) :
    (compareKeys (ds ++ ds') (as ++ as') (bs ++ bs') == .lt) =
      (compareKeys ds as bs == .lt ||
        (!(compareKeys ds as bs == .lt) && !(compareKeys ds bs as == .lt)) &&
          (compareKeys ds' as' bs' == .lt)) := by
  rw [compareKeys_append ha.length_eq hb.length_eq, (preordered_compareKeys ds).swap ha hb]
  cases compareKeys ds as bs <;> rfl

end Value

/-! ## Items with keys -/

/-- Items in the order of their keys. -/
def sortedOn {α : Type} (directions : List Direction) (keys : α → List Value) (items : List α) :
    List α :=
  Sorting.sortBy (fun a b => Value.compareKeys directions (keys a) (keys b) == .lt) items

section

variable {α β : Type} {ds ds' : List Direction} {keys keys' : α → List Value} {items : List α}

theorem weak_keyed (ds : List Direction) (keys : α → List Value) :
    Sorting.Weak (fun a b => Value.compareKeys ds (keys a) (keys b) == .lt)
      (fun a => Value.IsKeyList ds (keys a)) where
  asymm ha hb := (Value.weak_compareKeys ds).asymm ha hb
  between ha hb hc := (Value.weak_compareKeys ds).between ha hb hc

/-- Sorting what stands beside the keys is sorting by the keys. -/
theorem sortByKeys_map (ds : List Direction) (keys : α → List Value) (f : α → β)
    (items : List α) : (sortByKeys ds (items.map fun a => (keys a, f a))).map (·.2) =
      (sortedOn ds keys items).map f := by
  rw [sortByKeys, Sorting.sortBy_map, List.map_map]
  rfl

/-- **Sorting what is sorted by other keys is sorting once by both**, those of the later sort in
front. -/
theorem sortedOn_sortedOn
    (h : ∀ a ∈ items, Value.IsKeyList ds (keys a) ∧ Value.IsKeyList ds' (keys' a)) :
    sortedOn ds' keys' (sortedOn ds keys items) =
      sortedOn (ds' ++ ds) (fun a => keys' a ++ keys a) items := by
  have hearlier := (weak_keyed ds keys).subset
    fun a (ha : Value.IsKeyList ds (keys a) ∧ Value.IsKeyList ds' (keys' a)) => ha.1
  have hlater := (weak_keyed ds' keys').subset
    fun a (ha : Value.IsKeyList ds (keys a) ∧ Value.IsKeyList ds' (keys' a)) => ha.2
  refine (Sorting.sortBy_sortBy hlater hearlier h).trans (Sorting.sortBy_congr ?_ h)
  intro a ha b hb
  exact (Value.lt_compareKeys_append ha.2 hb.2).symm

end

end DocQuery
