/-!
# Fields of an object

An object maps names to values. It is kept as a list of pairs in the order of the names (by code
point, which is also the order of their UTF-8 bytes) with no name twice. `insert` keeps a list in
that form and `ofList` brings any list into it, the last of several pairs with one name winning.
-/

set_option autoImplicit false

namespace DocQuery

universe u

/-- Names with their values. -/
abbrev Fields (α : Type u) := List (String × α)

namespace Fields

variable {α : Type u}

/-- The value of a name: that of the first pair that has it. -/
def get? : Fields α → String → Option α
  | [], _ => none
  | (k, v) :: fs, name => if k = name then some v else get? fs name

/-- Set the value of a name. -/
def insert : Fields α → String → α → Fields α
  | [], name, value => [(name, value)]
  | (k, v) :: fs, name, value =>
    if name < k then (name, value) :: (k, v) :: fs
    else if name = k then (name, value) :: fs
    else (k, v) :: insert fs name value

/-- Take a name out. -/
def erase (fs : Fields α) (name : String) : Fields α := fs.filter fun f => f.1 ≠ name

/-- Set the values of many names, one pair after the other. -/
def merge (fs : Fields α) (more : List (String × α)) : Fields α :=
  more.foldl (fun fs (name, value) => fs.insert name value) fs

/-- The object with the given pairs. -/
def ofList (pairs : List (String × α)) : Fields α := merge [] pairs

/-- Names strictly increase. -/
def Sorted (fs : Fields α) : Prop := fs.Pairwise fun a b => a.1 < b.1

/-! ## Laws -/

theorem get?_insert (fs : Fields α) (name other : String) (value : α) :
    (fs.insert name value).get? other = if name = other then some value else fs.get? other := by
  induction fs with
  | nil => simp [insert, get?]
  | cons f fs ih =>
    obtain ⟨k, v⟩ := f
    simp only [insert]
    split
    · simp only [get?]
    · split
      · next h => subst h; simp only [get?]; split <;> simp_all
      · next h => simp only [get?, ih]; split <;> simp_all

theorem get?_erase (fs : Fields α) (name other : String) :
    (fs.erase name).get? other = if name = other then none else fs.get? other := by
  induction fs with
  | nil => simp [erase, get?]
  | cons f fs ih =>
    obtain ⟨k, v⟩ := f
    by_cases hk : k = name
    · have hrest : Fields.erase ((k, v) :: fs) name = Fields.erase fs name := by simp [erase, hk]
      rw [hrest, ih, get?, hk]
      split <;> rfl
    · have hrest : Fields.erase ((k, v) :: fs) name = (k, v) :: Fields.erase fs name := by
        simp [erase, hk]
      rw [hrest, get?, get?, ih]
      by_cases hko : k = other
      · have hne : name ≠ other := fun h => hk (hko.trans h.symm)
        simp [hko, hne]
      · simp [hko]

theorem mem_insert {fs : Fields α} {name : String} {value : α} {f : String × α}
    (h : f ∈ fs.insert name value) : f = (name, value) ∨ f ∈ fs := by
  induction fs with
  | nil => exact .inl (List.mem_singleton.mp h)
  | cons g fs ih =>
    obtain ⟨k, v⟩ := g
    rw [insert] at h
    split at h
    · exact List.mem_cons.mp h
    · split at h
      · exact (List.mem_cons.mp h).imp_right (List.mem_cons_of_mem (k, v))
      · rcases List.mem_cons.mp h with rfl | h
        · exact .inr List.mem_cons_self
        · exact (ih h).imp_right (List.mem_cons_of_mem (k, v))

theorem mem_merge {fs : Fields α} {more : List (String × α)} {f : String × α}
    (h : f ∈ fs.merge more) : f ∈ more ∨ f ∈ fs := by
  induction more generalizing fs with
  | nil => exact .inr h
  | cons g more ih =>
    rcases ih h with hmore | hinsert
    · exact .inl (List.mem_cons_of_mem g hmore)
    · rcases mem_insert hinsert with rfl | hfs
      · exact .inl List.mem_cons_self
      · exact .inr hfs

theorem mem_of_get? {fs : Fields α} {name : String} {value : α} (h : fs.get? name = some value) :
    (name, value) ∈ fs := by
  induction fs with
  | nil => cases h
  | cons f fs ih =>
    obtain ⟨k, v⟩ := f
    rw [get?] at h
    split at h
    · next hk =>
      cases h
      rw [hk]
      exact List.mem_cons_self
    · exact List.mem_cons_of_mem _ (ih h)

theorem Sorted.insert {fs : Fields α} (hs : fs.Sorted) (name : String) (value : α) :
    (fs.insert name value).Sorted := by
  induction fs with
  | nil => simp [Fields.insert, Sorted]
  | cons g fs ih =>
    obtain ⟨k, v⟩ := g
    obtain ⟨hk, hs⟩ := List.pairwise_cons.1 hs
    simp only [Fields.insert]
    split
    · next h =>
      refine List.pairwise_cons.2 ⟨fun f hf => ?_, List.pairwise_cons.2 ⟨hk, hs⟩⟩
      rcases List.mem_cons.1 hf with rfl | hf
      · exact h
      · exact String.lt_trans h (hk f hf)
    · next hn =>
      split
      · next h => exact List.pairwise_cons.2 ⟨fun f hf => h ▸ hk f hf, hs⟩
      · next h =>
        refine List.pairwise_cons.2 ⟨fun f hf => ?_, ih hs⟩
        rcases mem_insert hf with rfl | hf
        · exact String.not_le.1 fun hle => h (String.le_antisymm hle (String.not_lt.1 hn))
        · exact hk f hf

theorem Sorted.merge {fs : Fields α} (hs : fs.Sorted) (more : List (String × α)) :
    (fs.merge more).Sorted := by
  induction more generalizing fs with
  | nil => exact hs
  | cons f more ih => exact ih (hs.insert f.1 f.2)

theorem sorted_ofList (pairs : List (String × α)) : (ofList pairs).Sorted :=
  Sorted.merge List.Pairwise.nil pairs

theorem insert_eq_append {fs : Fields α} {name : String} {value : α} (h : ∀ f ∈ fs, f.1 < name) :
    fs.insert name value = fs ++ [(name, value)] := by
  induction fs with
  | nil => rfl
  | cons f fs ih =>
    obtain ⟨k, v⟩ := f
    have hk : k < name := h (k, v) List.mem_cons_self
    have hne : name ≠ k := fun heq => String.lt_irrefl k (heq ▸ hk)
    rw [insert, if_neg (String.lt_asymm hk), if_neg hne,
      ih fun f hf => h f (List.mem_cons_of_mem _ hf)]
    rfl

theorem merge_eq_append {fs more : Fields α} (h : Sorted (fs ++ more)) :
    fs.merge more = fs ++ more := by
  induction more generalizing fs with
  | nil => exact (List.append_nil fs).symm
  | cons f more ih =>
    have hbefore : ∀ g ∈ fs, g.1 < f.1 := fun g hg =>
      (List.pairwise_append.mp h).2.2 g hg f List.mem_cons_self
    have happend : fs.insert f.1 f.2 = fs ++ [f] := insert_eq_append hbefore
    show (fs.insert f.1 f.2).merge more = _
    rw [happend, ih (by simpa using h), List.append_assoc]
    rfl

/-- Fields in order are an object already. -/
theorem Sorted.ofList_eq {fs : Fields α} (h : fs.Sorted) : ofList fs = fs := merge_eq_append h

/-- The fields of an object in order are found by their names. -/
theorem Sorted.get?_of_mem {fs : Fields α} (hs : fs.Sorted) {name : String} {value : α}
    (h : (name, value) ∈ fs) : fs.get? name = some value := by
  induction fs with
  | nil => cases h
  | cons f fs ih =>
    obtain ⟨k, v⟩ := f
    obtain ⟨hk, hs⟩ := List.pairwise_cons.1 hs
    rcases List.mem_cons.1 h with heq | h
    · cases heq
      simp [get?]
    · have hne : k ≠ name := fun heq => String.lt_irrefl name (heq ▸ hk _ h)
      simpa [get?, hne] using ih hs h

end Fields
end DocQuery
