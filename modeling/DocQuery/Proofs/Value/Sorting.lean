import DocQuery.Value.Order

/-!
# Stable sorting

`Sorting.sortBy` on items that `less` orders weakly (`Sorting.Weak`). What it gives is in order
(`sortBy_inOrder`) and leaves items that tie as they stood (`sortBy_stable`), and **these two
properties determine a list** (`eq_of_inOrder`). The rest follows from there without another look at
the algorithm: sorting twice is sorting by both orders at once, the later one leading
(`sortBy_sortBy`), a filter may come before or after (`filter_sortBy`), and sorting what is in order
changes nothing (`sortBy_eq_self`).
-/

set_option autoImplicit false

namespace DocQuery
namespace Sorting

variable {α β : Type} {less : α → α → Bool} {Item : α → Prop} {xs ys : List α}

/-- On these items `less` is a strict weak order: it never holds both ways, and what lies between
two items is above the lower or below the upper one. -/
structure Weak (less : α → α → Bool) (Item : α → Prop) : Prop where
  asymm : ∀ {a b : α}, Item a → Item b → less a b = true → less b a = false
  between : ∀ {a b c : α}, Item a → Item b → Item c → less a c = true →
    less a b = true ∨ less b c = true

/-- No item is less than one before it. -/
def InOrder (less : α → α → Bool) (xs : List α) : Prop := xs.Pairwise fun a b => less b a = false

/-- Neither of two items is less than the other. -/
def ties (less : α → α → Bool) (a b : α) : Bool := !less a b && !less b a

theorem ties_iff {a b : α} : ties less a b = true ↔ less a b = false ∧ less b a = false := by
  simp [ties]

namespace Weak

theorem irrefl (h : Weak less Item) {a : α} (ha : Item a) : less a a = false := by
  cases hless : less a a with
  | false => rfl
  | true => exact absurd (h.asymm ha ha hless) (by simp [hless])

theorem ties_self (h : Weak less Item) {a : α} (ha : Item a) : ties less a a = true :=
  ties_iff.mpr ⟨h.irrefl ha, h.irrefl ha⟩

/-- Items that are not less than one another, one after the other. -/
theorem trans (h : Weak less Item) {a b c : α} (ha : Item a) (hb : Item b) (hc : Item c)
    (hab : less b a = false) (hbc : less c b = false) : less c a = false := by
  cases hca : less c a with
  | false => rfl
  | true =>
    rcases h.between hc hb ha hca with hcb | hba
    · exact absurd hcb (by simp [hbc])
    · exact absurd hba (by simp [hab])

theorem ties_trans (h : Weak less Item) {a b c : α} (ha : Item a) (hb : Item b) (hc : Item c)
    (hab : ties less a b = true) (hbc : ties less b c = true) : ties less a c = true := by
  obtain ⟨hab, hba⟩ := ties_iff.mp hab
  obtain ⟨hbc, hcb⟩ := ties_iff.mp hbc
  exact ties_iff.mpr ⟨h.trans hc hb ha hbc hab, h.trans ha hb hc hba hcb⟩

theorem ties_symm {a b : α} (hab : ties less a b = true) : ties less b a = true :=
  ties_iff.mpr (ties_iff.mp hab).symm

theorem subset (h : Weak less Item) {Part : α → Prop} (hpart : ∀ a, Part a → Item a) :
    Weak less Part where
  asymm ha hb := h.asymm (hpart _ ha) (hpart _ hb)
  between ha hb hc := h.between (hpart _ ha) (hpart _ hb) (hpart _ hc)

end Weak

theorem InOrder.filter (h : InOrder less xs) (p : α → Bool) : InOrder less (xs.filter p) :=
  List.Pairwise.filter p h

theorem InOrder.sublist (h : InOrder less ys) (hsub : xs.Sublist ys) : InOrder less xs :=
  List.Pairwise.sublist hsub h

/-! ## Order and ties determine a list -/

theorem eq_of_inOrder (h : Weak less Item) (hxs : ∀ x ∈ xs, Item x) (hys : ∀ y ∈ ys, Item y)
    (hx : InOrder less xs) (hy : InOrder less ys)
    (hties : ∀ a, Item a → xs.filter (ties less a) = ys.filter (ties less a)) : xs = ys := by
  induction xs generalizing ys with
  | nil =>
    cases ys with
    | nil => rfl
    | cons b ys =>
      have hb := hys b List.mem_cons_self
      have hnil := hties b hb
      rw [List.filter_cons_of_pos (h.ties_self hb)] at hnil
      cases hnil
  | cons a xs ih =>
    have ha := hxs a List.mem_cons_self
    cases ys with
    | nil =>
      have hnil := hties a ha
      rw [List.filter_cons_of_pos (h.ties_self ha)] at hnil
      cases hnil
    | cons b ys =>
      have hb := hys b List.mem_cons_self
      obtain ⟨hlow, hx'⟩ := List.pairwise_cons.mp hx
      obtain ⟨hlow', hy'⟩ := List.pairwise_cons.mp hy
      -- each of the two heads occurs in the other list, so neither is less
      have hba : less b a = false := by
        have hmem : b ∈ (a :: xs).filter (ties less b) := by
          rw [hties b hb]
          exact List.mem_filter.mpr ⟨List.mem_cons_self, h.ties_self hb⟩
        rcases List.mem_cons.mp (List.mem_filter.mp hmem).1 with rfl | hmem
        · exact h.irrefl hb
        · exact hlow b hmem
      have hab : less a b = false := by
        have hmem : a ∈ (b :: ys).filter (ties less a) := by
          rw [← hties a ha]
          exact List.mem_filter.mpr ⟨List.mem_cons_self, h.ties_self ha⟩
        rcases List.mem_cons.mp (List.mem_filter.mp hmem).1 with rfl | hmem
        · exact h.irrefl ha
        · exact hlow' a hmem
      have hhead : a = b := by
        have hboth := hties a ha
        rw [List.filter_cons_of_pos (h.ties_self ha),
          List.filter_cons_of_pos (ties_iff.mpr ⟨hab, hba⟩)] at hboth
        exact (List.cons.inj hboth).1
      subst hhead
      refine congrArg (a :: ·) (ih (fun x hx => hxs x (List.mem_cons_of_mem a hx))
        (fun y hy => hys y (List.mem_cons_of_mem a hy)) hx' hy' fun c hc => ?_)
      have hboth := hties c hc
      rw [List.filter_cons, List.filter_cons] at hboth
      split at hboth
      · exact (List.cons.inj hboth).2
      · exact hboth

/-! ## What sorting gives -/

theorem place_perm (x : α) (ys : List α) : (place less x ys).Perm (x :: ys) := by
  induction ys with
  | nil => exact .refl _
  | cons y ys ih =>
    rw [place]
    split
    · exact (ih.cons y).trans (.swap x y ys)
    · exact .refl _

theorem foldl_place_perm (xs ys : List α) :
    (xs.foldl (fun placed x => place less x placed) ys).Perm (xs ++ ys) := by
  induction xs generalizing ys with
  | nil => exact .refl _
  | cons x xs ih =>
    rw [List.foldl_cons]
    exact ((ih _).trans ((place_perm x ys).append_left xs)).trans List.perm_middle

theorem sortBy_perm (less : α → α → Bool) (xs : List α) : (sortBy less xs).Perm xs := by
  have hperm : (xs.foldl (fun placed x => place less x placed) []).Perm (xs ++ []) :=
    foldl_place_perm xs []
  rw [List.append_nil] at hperm
  exact (List.reverse_perm _).trans hperm

@[simp] theorem mem_sortBy {x : α} : x ∈ sortBy less xs ↔ x ∈ xs := (sortBy_perm less xs).mem_iff

@[simp] theorem length_sortBy : (sortBy less xs).length = xs.length :=
  (sortBy_perm less xs).length_eq

/-- Placed items stand in reverse: those that an item is less than come first. -/
theorem filter_append_filter (h : Weak less Item) {x : α} (hx : Item x) (hys : ∀ y ∈ ys, Item y)
    (hy : InOrder less ys.reverse) :
    (ys.filter (less x) ++ ys.filter fun y => !less x y) = ys := by
  induction ys with
  | nil => rfl
  | cons y ys ih =>
    have hyi := hys y List.mem_cons_self
    have hrest : ∀ z ∈ ys, Item z := fun z hz => hys z (List.mem_cons_of_mem y hz)
    rw [List.reverse_cons, InOrder, List.pairwise_append] at hy
    obtain ⟨hy', -, hlast⟩ := hy
    cases hxy : less x y with
    | true =>
      rw [List.filter_cons_of_pos hxy, List.filter_cons_of_neg (by simp [hxy]), List.cons_append,
        ih hrest hy']
    | false =>
      have hnone : ∀ z ∈ ys, less x z = false := fun z hz =>
        h.trans (hrest z hz) hyi hx (hlast z (by simpa using hz) y (by simp)) hxy
      have hfilter : ys.filter (less x) = [] :=
        List.filter_eq_nil_iff.mpr fun z hz => by simp [hnone z hz]
      have hall : (ys.filter fun z => !less x z) = ys :=
        List.filter_eq_self.mpr fun z hz => by simp [hnone z hz]
      rw [List.filter_cons_of_neg (by simp [hxy]), hfilter,
        List.filter_cons_of_pos (by simp [hxy]), hall]
      rfl

/-- An item is placed between those two parts. -/
theorem place_eq (h : Weak less Item) {x : α} (hx : Item x) (hys : ∀ y ∈ ys, Item y)
    (hy : InOrder less ys.reverse) :
    place less x ys = ys.filter (less x) ++ x :: ys.filter fun y => !less x y := by
  induction ys with
  | nil => rfl
  | cons y ys ih =>
    have hsplit := filter_append_filter h hx hys hy
    have hrest : ∀ z ∈ ys, Item z := fun z hz => hys z (List.mem_cons_of_mem y hz)
    have hy' : InOrder less ys.reverse := by
      rw [List.reverse_cons] at hy
      exact hy.sublist (List.sublist_append_left _ _)
    rw [place]
    cases hxy : less x y with
    | true =>
      rw [if_pos rfl, ih hrest hy', List.filter_cons_of_pos hxy,
        List.filter_cons_of_neg (by simp [hxy])]
      rfl
    | false =>
      -- the first part is empty: it would have to begin with `y`
      rw [List.filter_cons_of_neg (by simp [hxy]), List.filter_cons_of_pos (by simp [hxy])] at hsplit
      rw [if_neg (by simp), List.filter_cons_of_neg (by simp [hxy]),
        List.filter_cons_of_pos (by simp [hxy])]
      cases hfirst : ys.filter (less x) with
      | nil =>
        rw [hfirst, List.nil_append] at hsplit
        rw [hsplit]
        rfl
      | cons z zs =>
        rw [hfirst] at hsplit
        have hzy : z = y := (List.cons.inj hsplit).1
        have hz : z ∈ ys.filter (less x) := by
          rw [hfirst]
          exact List.mem_cons_self
        have hxz : less x z = true := (List.mem_filter.mp hz).2
        exact absurd hxz (by simp [hzy, hxy])

theorem place_inOrder (h : Weak less Item) {x : α} (hx : Item x) (hys : ∀ y ∈ ys, Item y)
    (hy : InOrder less ys.reverse) : InOrder less (place less x ys).reverse := by
  rw [place_eq h hx hys hy, List.reverse_append, List.reverse_cons, List.append_assoc,
    ← List.filter_reverse, ← List.filter_reverse]
  refine List.pairwise_append.mpr ⟨hy.filter _, List.pairwise_append.mpr
    ⟨List.pairwise_singleton _ _, hy.filter _, ?_⟩, ?_⟩
  · intro a ha b hb
    obtain rfl := List.mem_singleton.mp ha
    obtain ⟨hb, hab⟩ := List.mem_filter.mp hb
    exact h.asymm hx (hys b (by simpa using hb)) hab
  · intro a ha b hb
    obtain ⟨ha, hxa⟩ := List.mem_filter.mp ha
    have hai := hys a (by simpa using ha)
    have hxa : less x a = false := by simpa using hxa
    rcases List.mem_append.mp hb with hb | hb
    · obtain rfl := List.mem_singleton.mp hb
      exact hxa
    · obtain ⟨hb, hxb⟩ := List.mem_filter.mp hb
      have hbi := hys b (by simpa using hb)
      exact h.trans hai hx hbi hxa (h.asymm hx hbi hxb)

theorem place_stable (h : Weak less Item) {x a : α} (hx : Item x) (ha : Item a)
    (hys : ∀ y ∈ ys, Item y) (hy : InOrder less ys.reverse) :
    (place less x ys).reverse.filter (ties less a) =
      ys.reverse.filter (ties less a) ++ [x].filter (ties less a) := by
  rw [place_eq h hx hys hy, List.filter_reverse, List.filter_reverse, List.filter_append,
    List.filter_cons]
  cases hax : ties less a x with
  | true =>
    -- what ties with the item is not above it
    have htied : ∀ y ∈ ys, ties less a y = true → less x y = false := by
      intro y hy' hay
      exact (ties_iff.mp (h.ties_trans hx ha (hys y hy') (Weak.ties_symm hax) hay)).1
    have hnone : (ys.filter (less x)).filter (ties less a) = [] := by
      rw [List.filter_filter, List.filter_eq_nil_iff]
      intro y hy' hboth
      obtain ⟨hay, hxy⟩ := Bool.and_eq_true_iff.mp hboth
      exact absurd hxy (by simp [htied y hy' hay])
    have hall : (ys.filter fun y => !less x y).filter (ties less a) = ys.filter (ties less a) := by
      rw [List.filter_filter]
      refine List.filter_congr fun y hy' => ?_
      cases hay : ties less a y with
      | false => rfl
      | true => simp [htied y hy' hay]
    rw [hnone, if_pos rfl, hall, List.filter_cons_of_pos hax]
    simp
  | false =>
    have hsplit := congrArg (List.filter (ties less a)) (filter_append_filter h hx hys hy)
    rw [List.filter_append] at hsplit
    rw [if_neg (by simp), hsplit, List.filter_cons_of_neg (by simp [hax])]
    simp

theorem foldl_place_inOrder (h : Weak less Item) (hxs : ∀ x ∈ xs, Item x)
    (hys : ∀ y ∈ ys, Item y) (hy : InOrder less ys.reverse) :
    InOrder less (xs.foldl (fun placed x => place less x placed) ys).reverse ∧
      ∀ a, Item a → (xs.foldl (fun placed x => place less x placed) ys).reverse.filter (ties less a) =
        ys.reverse.filter (ties less a) ++ xs.filter (ties less a) := by
  induction xs generalizing ys with
  | nil => exact ⟨hy, fun a _ => (List.append_nil _).symm⟩
  | cons x xs ih =>
    have hx := hxs x List.mem_cons_self
    have hplaced : ∀ y ∈ place less x ys, Item y := by
      intro y hmem
      rcases List.mem_cons.mp ((place_perm x ys).mem_iff.mp hmem) with rfl | hmem
      · exact hx
      · exact hys y hmem
    obtain ⟨horder, hstable⟩ := ih (fun z hz => hxs z (List.mem_cons_of_mem x hz)) hplaced
      (place_inOrder h hx hys hy)
    refine ⟨horder, fun a ha => ?_⟩
    rw [List.foldl_cons, hstable a ha, place_stable h hx ha hys hy, List.append_assoc,
      ← List.filter_append]
    rfl

theorem sortBy_inOrder (h : Weak less Item) (hxs : ∀ x ∈ xs, Item x) :
    InOrder less (sortBy less xs) :=
  (foldl_place_inOrder h hxs (fun _ hy => absurd hy List.not_mem_nil) List.Pairwise.nil).1

theorem sortBy_stable (h : Weak less Item) (hxs : ∀ x ∈ xs, Item x) {a : α} (ha : Item a) :
    (sortBy less xs).filter (ties less a) = xs.filter (ties less a) :=
  (foldl_place_inOrder h hxs (fun _ hy => absurd hy List.not_mem_nil) List.Pairwise.nil).2 a ha

/-- A list in order with the ties of another one is what sorting that one gives. -/
theorem eq_sortBy (h : Weak less Item) (hxs : ∀ x ∈ xs, Item x) (hys : ∀ y ∈ ys, Item y)
    (hy : InOrder less ys)
    (hties : ∀ a, Item a → ys.filter (ties less a) = xs.filter (ties less a)) :
    ys = sortBy less xs :=
  eq_of_inOrder h hys (fun x hx => hxs x (mem_sortBy.mp hx)) hy (sortBy_inOrder h hxs)
    fun a ha => (hties a ha).trans (sortBy_stable h hxs ha).symm

/-! ## Sorting and other operations -/

theorem filter_comm (p q : α → Bool) (xs : List α) :
    (xs.filter p).filter q = (xs.filter q).filter p := by
  rw [List.filter_filter, List.filter_filter]
  exact List.filter_congr fun x _ => Bool.and_comm _ _

theorem sortBy_eq_self (h : Weak less Item) (hxs : ∀ x ∈ xs, Item x) (hx : InOrder less xs) :
    sortBy less xs = xs :=
  (eq_sortBy h hxs hxs hx fun _ _ => rfl).symm

theorem filter_sortBy (h : Weak less Item) (hxs : ∀ x ∈ xs, Item x) (p : α → Bool) :
    (sortBy less xs).filter p = sortBy less (xs.filter p) := by
  refine eq_sortBy h (fun x hx => hxs x (List.mem_filter.mp hx).1)
    (fun y hy => hxs y (mem_sortBy.mp (List.mem_filter.mp hy).1))
    ((sortBy_inOrder h hxs).filter p) fun a ha => ?_
  rw [filter_comm, sortBy_stable h hxs ha, filter_comm]

/-- Two orders at once: where the first one ties, the second one decides. -/
def andThen (first second : α → α → Bool) (a b : α) : Bool :=
  first a b || ties first a b && second a b

theorem andThen_iff {first second : α → α → Bool} {a b : α} :
    andThen first second a b = true ↔
      first a b = true ∨ ties first a b = true ∧ second a b = true := by
  simp [andThen]

theorem weak_andThen {first second : α → α → Bool} (hfirst : Weak first Item)
    (hsecond : Weak second Item) : Weak (andThen first second) Item where
  asymm {a b} ha hb hless := by
    rcases andThen_iff.mp hless with hless | ⟨htie, hless⟩
    · simp [andThen, ties, hless, hfirst.asymm ha hb hless]
    · obtain ⟨hab, hba⟩ := ties_iff.mp htie
      simp [andThen, hba, hsecond.asymm ha hb hless]
  between {a b c} ha hb hc hless := by
    rcases andThen_iff.mp hless with hless | ⟨htie, hless⟩
    · rcases hfirst.between ha hb hc hless with hab | hbc
      · exact .inl (andThen_iff.mpr (.inl hab))
      · exact .inr (andThen_iff.mpr (.inl hbc))
    · obtain ⟨hac, hca⟩ := ties_iff.mp htie
      cases hab : first a b with
      | true => exact .inl (andThen_iff.mpr (.inl hab))
      | false =>
        cases hbc : first b c with
        | true => exact .inr (andThen_iff.mpr (.inl hbc))
        | false =>
          -- all three tie in the first order
          have hba : first b a = false := hfirst.trans ha hc hb hca hbc
          have hcb : first c b = false := hfirst.trans hb ha hc hab hca
          rcases hsecond.between ha hb hc hless with hless | hless
          · exact .inl (andThen_iff.mpr (.inr ⟨ties_iff.mpr ⟨hab, hba⟩, hless⟩))
          · exact .inr (andThen_iff.mpr (.inr ⟨ties_iff.mpr ⟨hbc, hcb⟩, hless⟩))

theorem sortBy_sortBy {first second : α → α → Bool} (hfirst : Weak first Item)
    (hsecond : Weak second Item) (hxs : ∀ x ∈ xs, Item x) :
    sortBy first (sortBy second xs) = sortBy (andThen first second) xs := by
  have hsorted : ∀ x ∈ sortBy second xs, Item x := fun x hx => hxs x (mem_sortBy.mp hx)
  refine eq_sortBy (weak_andThen hfirst hsecond) hxs (fun x hx => hsorted x (mem_sortBy.mp hx)) ?_ ?_
  · refine List.pairwise_iff_forall_sublist.mpr fun {a b} hsub => ?_
    have ha : Item a := hsorted a (mem_sortBy.mp (hsub.subset (by simp)))
    have hfalse : first b a = false :=
      List.pairwise_iff_forall_sublist.mp (sortBy_inOrder hfirst hsorted) hsub
    cases htie : ties first b a with
    | false => simp [andThen, hfalse, htie]
    | true =>
      -- items that tie stand as the second sort has left them
      have hkeep := hsub.filter (ties first a)
      rw [sortBy_stable hfirst hsorted ha, List.filter_cons_of_pos (hfirst.ties_self ha),
        List.filter_cons_of_pos (Weak.ties_symm htie), List.filter_nil] at hkeep
      have hsecond' : second b a = false := List.pairwise_iff_forall_sublist.mp
        (sortBy_inOrder hsecond hxs) (hkeep.trans (List.filter_sublist ..))
      simp [andThen, hfalse, hsecond']
  · intro a ha
    have hboth : ∀ ys : List α, ys.filter (ties (andThen first second) a) =
        (ys.filter (ties first a)).filter (ties second a) := by
      intro ys
      rw [List.filter_filter]
      refine List.filter_congr fun b _ => ?_
      rw [Bool.and_comm]
      cases hab : first a b <;> cases hba : first b a <;> simp [ties, andThen, hab, hba]
    rw [hboth, hboth, sortBy_stable hfirst hsorted ha, filter_comm,
      sortBy_stable hsecond hxs ha, filter_comm]

/-- Sorting items by what a function gives of them. -/
theorem sortBy_map (f : α → β) {less : β → β → Bool} (xs : List α) :
    sortBy less (xs.map f) = (sortBy (fun a b => less (f a) (f b)) xs).map f := by
  have hplace : ∀ (x : α) (ys : List α),
      place less (f x) (ys.map f) = (place (fun a b => less (f a) (f b)) x ys).map f := by
    intro x ys
    induction ys with
    | nil => rfl
    | cons y ys ih =>
      rw [List.map_cons, place, place]
      split
      · rw [ih, List.map_cons]
      · rfl
  have hfold : ∀ ys : List α, (xs.map f).foldl (fun placed x => place less x placed) (ys.map f) =
      (xs.foldl (fun placed x => place (fun a b => less (f a) (f b)) x placed) ys).map f := by
    induction xs with
    | nil => exact fun ys => rfl
    | cons x xs ih =>
      intro ys
      rw [List.map_cons, List.foldl_cons, hplace, ih, List.foldl_cons]
  have hsort := congrArg List.reverse (hfold [])
  rw [← List.map_reverse] at hsort
  exact hsort

theorem place_congr {less' : α → α → Bool} {x : α}
    (h : ∀ y ∈ ys, less x y = less' x y) : place less x ys = place less' x ys := by
  induction ys with
  | nil => rfl
  | cons y ys ih =>
    rw [place, place, h y List.mem_cons_self, ih fun z hz => h z (List.mem_cons_of_mem y hz)]

theorem foldl_place_congr {less' : α → α → Bool}
    (h : ∀ x, Item x → ∀ y, Item y → less x y = less' x y) (hxs : ∀ x ∈ xs, Item x)
    (hys : ∀ y ∈ ys, Item y) :
    xs.foldl (fun placed x => place less x placed) ys =
      xs.foldl (fun placed x => place less' x placed) ys := by
  induction xs generalizing ys with
  | nil => rfl
  | cons x xs ih =>
    have hx := hxs x List.mem_cons_self
    rw [List.foldl_cons, List.foldl_cons, place_congr fun y hy => h x hx y (hys y hy)]
    refine ih (fun z hz => hxs z (List.mem_cons_of_mem x hz)) fun y hy => ?_
    rcases List.mem_cons.mp ((place_perm x ys).mem_iff.mp hy) with rfl | hy
    · exact hx
    · exact hys y hy

/-- A list in which an item was placed was a list without it. -/
theorem exists_unplaced (f : α → β) {less : β → β → Bool} {x : β} {ys : List β} {zs : List α}
    (h : place less x ys = zs.map f) : ∃ y ws, f y = x ∧ ws.map f = ys ∧
      place (fun a b => less (f a) (f b)) y ws = zs := by
  induction ys generalizing zs with
  | nil =>
    cases zs with
    | nil => cases h
    | cons z zs =>
      obtain ⟨rfl, hnil⟩ := List.cons.inj h
      obtain rfl := List.map_eq_nil_iff.mp hnil.symm
      exact ⟨z, [], rfl, rfl, rfl⟩
  | cons y ys ih =>
    cases zs with
    | nil =>
      rw [place] at h
      split at h <;> cases h
    | cons z zs =>
      rw [place] at h
      cases hless : less x y with
      | true =>
        rw [hless, if_pos rfl] at h
        obtain ⟨rfl, hrest⟩ := List.cons.inj h
        obtain ⟨w, ws, rfl, rfl, rfl⟩ := ih hrest
        refine ⟨w, z :: ws, rfl, rfl, ?_⟩
        rw [place, if_pos hless]
      | false =>
        rw [hless, if_neg (by simp)] at h
        obtain ⟨rfl, hrest⟩ := List.cons.inj h
        cases zs with
        | nil => cases hrest
        | cons w ws =>
          obtain ⟨rfl, rfl⟩ := List.cons.inj hrest
          refine ⟨z, w :: ws, rfl, rfl, ?_⟩
          rw [place, if_neg (by simp [hless])]

theorem exists_unplaced_foldr (f : α → β) {less : β → β → Bool} {xs : List β} {zs : List α}
    (h : xs.foldr (place less) [] = zs.map f) : ∃ ws : List α, ws.map f = xs ∧
      ws.foldr (place fun a b => less (f a) (f b)) [] = zs := by
  induction xs generalizing zs with
  | nil => exact ⟨[], rfl, (List.map_eq_nil_iff.mp h.symm).symm⟩
  | cons x xs ih =>
    obtain ⟨w, vs, rfl, hvs, hplace⟩ := exists_unplaced f h
    obtain ⟨ws, rfl, rfl⟩ := ih hvs.symm
    exact ⟨w :: ws, rfl, hplace⟩

theorem sortBy_eq_foldr (less : α → α → Bool) (xs : List α) :
    sortBy less xs = (xs.reverse.foldr (place less) []).reverse := by
  rw [List.foldr_reverse]
  rfl

/-- Whatever else is known of the items of a sorted list was known of them before it was sorted. -/
theorem exists_unsorted (f : α → β) {less : β → β → Bool} {xs : List β} {zs : List α}
    (h : sortBy less xs = zs.map f) :
    ∃ ws : List α, ws.map f = xs ∧ sortBy (fun a b => less (f a) (f b)) ws = zs := by
  rw [sortBy_eq_foldr, List.reverse_eq_iff, ← List.map_reverse] at h
  obtain ⟨ws, hws, hplaced⟩ := exists_unplaced_foldr f h
  refine ⟨ws.reverse, ?_, ?_⟩
  · rw [List.map_reverse, hws, List.reverse_reverse]
  · rw [sortBy_eq_foldr, List.reverse_reverse, hplaced, List.reverse_reverse]

/-- Only how the items compare with one another matters. -/
theorem sortBy_congr {less' : α → α → Bool}
    (h : ∀ x, Item x → ∀ y, Item y → less x y = less' x y) (hxs : ∀ x ∈ xs, Item x) :
    sortBy less xs = sortBy less' xs :=
  congrArg List.reverse (foldl_place_congr h hxs fun _ hy => absurd hy List.not_mem_nil)

end Sorting
end DocQuery
