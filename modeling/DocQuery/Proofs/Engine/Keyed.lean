import DocQuery.Proofs.Engine.Quiet
import DocQuery.Proofs.Value.Lexicographic

/-!
# Sorting by evaluated keys

An ordering evaluates its terms at one item after the other (`Engine.keyed`) and sorts the items by
the values. Nothing is assumed of the terms here: they may ask for references or have pipelines in
them, and what they come to may depend on the session.

**Two orderings in a row are one sort** by the keys that both have evaluated, those of the second in
front (`orderings_eq`). So they are one ordering by the terms of both wherever that one finds the
same keys, and it does where keys depend on nothing but the item (`Engine.Steady`,
`orderings_of_steady`), as they do without sources and references (`orderings_of_quiet`).
-/

set_option autoImplicit false

namespace DocQuery
namespace Engine

open Run

/-- The keys of some items, evaluated in the order of the items. -/
def keyed (fetcher : Fetcher) (terms : List SortTerm) (items : List Scope) :
    Run (List (List Value × Scope)) :=
  items.mapM fun s => do return (← execKeys fetcher terms s, s)

/-- The directions of the keys. -/
def directions (terms : List SortTerm) : List Direction := terms.map (·.direction)

theorem directions_append (terms terms' : List SortTerm) :
    directions (terms ++ terms') = directions terms ++ directions terms' :=
  List.map_append

variable {fetcher : Fetcher} {terms terms' : List SortTerm} {items : List Scope} {s base : Scope}
  {σ ρ τ : Session} {input next r : Scoped} {ks : List (List Value × Scope)}

/-! ## Evaluating keys -/

theorem yields_keyed_cons : (keyed fetcher terms (s :: items)).Yields σ ks τ ↔
    ∃ keys ρ rest, (execKeys fetcher terms s).Yields σ keys ρ ∧
      (keyed fetcher terms items).Yields ρ rest τ ∧ ks = (keys, s) :: rest := by
  unfold keyed
  rw [List.mapM_cons]
  simp only [yields_bind, yields_pure]
  constructor
  · rintro ⟨_, ρ, ⟨keys, _, hkeys, rfl, rfl⟩, rest, _, hrest, rfl, rfl⟩
    exact ⟨keys, ρ, rest, hkeys, hrest, rfl⟩
  · rintro ⟨keys, ρ, rest, hkeys, hrest, rfl⟩
    exact ⟨_, ρ, ⟨keys, ρ, hkeys, rfl, rfl⟩, rest, τ, hrest, rfl, rfl⟩

theorem yields_keyed_nil : (keyed fetcher terms []).Yields σ ks τ ↔ ks = [] ∧ τ = σ :=
  yields_pure

theorem length_execAll {os : List Operation} {values : List Value}
    (h : (execAll fetcher os s).Yields σ values τ) : values.length = os.length := by
  induction os generalizing σ values with
  | nil =>
    obtain ⟨rfl, -⟩ := yields_execAll_nil.mp h
    rfl
  | cons o os ih =>
    obtain ⟨a, ρ, rest, -, hrest, rfl⟩ := yields_execAll_cons.mp h
    exact congrArg Nat.succ (ih hrest)

theorem length_execKeys {keys : List Value} (h : (execKeys fetcher terms s).Yields σ keys τ) :
    keys.length = (directions terms).length := by
  rw [Local.execKeys_eq_execAll] at h
  rw [length_execAll h, directions, List.length_map, List.length_map]

/-- Every item has a key for each of the terms. -/
theorem items_of_keyed (h : (keyed fetcher terms items).Yields σ ks τ) :
    ks.map (·.2) = items ∧ ∀ k ∈ ks, k.1.length = (directions terms).length := by
  induction items generalizing σ ks with
  | nil =>
    obtain ⟨rfl, -⟩ := yields_keyed_nil.mp h
    exact ⟨rfl, fun k hk => absurd hk List.not_mem_nil⟩
  | cons s items ih =>
    obtain ⟨keys, ρ, rest, hkeys, hrest, rfl⟩ := yields_keyed_cons.mp h
    obtain ⟨hitems, hlengths⟩ := ih hrest
    refine ⟨congrArg (s :: ·) hitems, fun k hk => ?_⟩
    rcases List.mem_cons.mp hk with rfl | hk
    · exact length_execKeys hkeys
    · exact hlengths k hk

/-! ## One ordering -/

/-- An ordering evaluates the keys of its items and sorts by them. -/
theorem yields_ordering {rest : List Operation} :
    (applyStages fetcher (.ordering terms :: rest) input base).Yields σ r τ ↔
      ∃ ks ρ, (keyed fetcher terms input.sortItems.1).Yields σ ks ρ ∧
        (applyStages fetcher rest
          (.many ((sortByKeys (directions terms) ks).map (·.2)) input.sortItems.2) base).Yields
            ρ r τ := by
  rw [applyStages_cons]
  show ((keyed fetcher terms input.sortItems.1 >>= fun ks => pure
    (Scoped.many ((sortByKeys (directions terms) ks).map (·.2)) input.sortItems.2)) >>=
      fun next => applyStages fetcher rest next base).Yields σ r τ ↔ _
  simp only [yields_bind, yields_pure]
  constructor
  · rintro ⟨_, ρ, ⟨ks, _, hks, rfl, rfl⟩, hrest⟩
    exact ⟨ks, ρ, hks, hrest⟩
  · rintro ⟨ks, ρ, hks, hrest⟩
    exact ⟨_, ρ, ⟨ks, ρ, hks, rfl, rfl⟩, hrest⟩

theorem yields_ordering_nil : (applyStages fetcher [.ordering terms] input base).Yields σ r τ ↔
    ∃ ks, (keyed fetcher terms input.sortItems.1).Yields σ ks τ ∧
      r = .many ((sortByKeys (directions terms) ks).map (·.2)) input.sortItems.2 := by
  rw [yields_ordering]
  simp only [applyStages_nil, yields_pure]
  constructor
  · rintro ⟨ks, _, hks, rfl, rfl⟩
    exact ⟨ks, hks, rfl⟩
  · rintro ⟨ks, hks, rfl⟩
    exact ⟨ks, τ, hks, rfl, rfl⟩

/-- None of the keys is a double. -/
def NoFloats (ks : List (List Value × Scope)) : Prop :=
  ∀ k ∈ ks, ∀ key ∈ k.1, key.isFloat = false

theorem isKeyList_of_keyed (h : (keyed fetcher terms items).Yields σ ks τ) (hks : NoFloats ks) :
    ∀ k ∈ ks, Value.IsKeyList (directions terms) k.1 :=
  fun k hk => ⟨(items_of_keyed h).2 k hk, hks k hk⟩

/-- **An ordering sorts the items whose keys it has found, and items with equal keys stay as they
stood.** -/
theorem ordering_isStableSort (input : Scoped) (base : Scope)
    (h : (keyed fetcher terms input.sortItems.1).Yields σ ks τ) (hfloats : NoFloats ks) :
    ∃ sorted, IsStableSort (directions terms) ks sorted ∧
      (applyStages fetcher [.ordering terms] input base).Yields σ
        (.many (sorted.map (·.2)) input.sortItems.2) τ :=
  ⟨_, isStableSort_sortByKeys (isKeyList_of_keyed h hfloats),
    yields_ordering_nil.mpr ⟨ks, h, rfl⟩⟩

/-! ## Two orderings -/

/-- The rows of a list whose items have keys already and get others. -/
theorem exists_twice {sorted ks : List (List Value × Scope)}
    (h : ks.map (·.2) = sorted.map (·.2)) : ∃ rows : List (Twice Scope),
      rows.map Twice.first = sorted ∧ rows.map Twice.second = ks := by
  induction sorted generalizing ks with
  | nil =>
    obtain rfl := List.map_eq_nil_iff.mp h
    exact ⟨[], rfl, rfl⟩
  | cons k sorted ih =>
    cases ks with
    | nil => cases h
    | cons l ks =>
      obtain ⟨hitem, hrest⟩ := List.cons.inj h
      obtain ⟨rows, hfirst, hsecond⟩ := ih hrest
      obtain ⟨earlier, item⟩ := k
      obtain ⟨later, item'⟩ := l
      obtain rfl : item' = item := hitem
      refine ⟨⟨earlier, later, item'⟩ :: rows, ?_, ?_⟩
      · rw [List.map_cons, hfirst]
        rfl
      · rw [List.map_cons, hsecond]
        rfl

/-- What two orderings have evaluated: the first one at the items as they stood, the second one at
the items as the first has left them. -/
structure EvaluatedTwice (fetcher : Fetcher) (terms terms' : List SortTerm) (items : List Scope)
    (rows : List (Twice Scope)) (σ τ : Session) : Prop where
  items_eq : rows.map Twice.item = items
  evaluated : ∃ ρ, (keyed fetcher terms items).Yields σ (rows.map Twice.first) ρ ∧
    (keyed fetcher terms'
      ((sortedOn (directions terms) Twice.earlier rows).map Twice.item)).Yields ρ
        ((sortedOn (directions terms) Twice.earlier rows).map Twice.second) τ

theorem EvaluatedTwice.isKeyList {rows : List (Twice Scope)}
    (h : EvaluatedTwice fetcher terms terms' items rows σ τ)
    (hfloats : NoFloats (rows.map Twice.both)) :
    ∀ t ∈ rows, Value.IsKeyList (directions terms) t.earlier ∧
      Value.IsKeyList (directions terms') t.later := by
  obtain ⟨ρ, hfirst, hsecond⟩ := h.evaluated
  intro t ht
  have hnone := hfloats t.both (List.mem_map_of_mem ht)
  have hsorted : t ∈ sortedOn (directions terms) Twice.earlier rows := Sorting.mem_sortBy.mpr ht
  exact ⟨⟨(items_of_keyed hfirst).2 t.first (List.mem_map_of_mem ht),
      fun key hkey => hnone key (List.mem_append_right _ hkey)⟩,
    ⟨(items_of_keyed hsecond).2 t.second (List.mem_map_of_mem hsorted),
      fun key hkey => hnone key (List.mem_append_left _ hkey)⟩⟩

/-- Two orderings sort by the keys that they find, one after the other. -/
theorem yields_orderings :
    (applyStages fetcher [.ordering terms, .ordering terms'] input base).Yields σ r τ ↔
      ∃ rows, EvaluatedTwice fetcher terms terms' input.sortItems.1 rows σ τ ∧
        r = .many ((sortByKeys (directions terms')
          ((sortedOn (directions terms) Twice.earlier rows).map Twice.second)).map (·.2))
            input.sortItems.2 := by
  rw [yields_ordering]
  constructor
  · rintro ⟨ks, ρ, hks, hrest⟩
    obtain ⟨ls, hls, rfl⟩ := yields_ordering_nil.mp hrest
    obtain ⟨sorted, hfirst, rfl⟩ := exists_twice (items_of_keyed hls).1
    obtain ⟨rows, rfl, rfl⟩ := exists_rows hfirst.symm
    refine ⟨rows, ⟨?_, ρ, hks, ?_⟩, rfl⟩
    · rw [← (items_of_keyed hks).1, List.map_map]
      rfl
    · rw [← items_sortByKeys_first]
      exact hls
  · rintro ⟨rows, ⟨-, ρ, hfirst, hsecond⟩, rfl⟩
    refine ⟨_, ρ, hfirst, yields_ordering_nil.mpr ⟨_, ?_, rfl⟩⟩
    show (keyed fetcher terms' ((sortByKeys (directions terms) _).map (·.2))).Yields ρ _ τ
    rw [items_sortByKeys_first]
    exact hsecond

/-- **Two orderings sort once by the keys of both**, those of the second in front. One ordering by
the terms of both gives the same if it finds the same keys. -/
theorem orderings_eq {rows : List (Twice Scope)} (input : Scoped) (base : Scope)
    (h : EvaluatedTwice fetcher terms terms' input.sortItems.1 rows σ τ)
    (hfloats : NoFloats (rows.map Twice.both)) : ∃ r,
    (applyStages fetcher [.ordering terms, .ordering terms'] input base).Yields σ r τ ∧
      r = .many ((sortByKeys (directions (terms' ++ terms)) (rows.map Twice.both)).map (·.2))
        input.sortItems.2 ∧
      ∀ {σ' τ'}, (keyed fetcher (terms' ++ terms) input.sortItems.1).Yields σ'
          (rows.map Twice.both) τ' →
        (applyStages fetcher [.ordering (terms' ++ terms)] input base).Yields σ' r τ' := by
  have hsame := sortByKeys_sortByKeys (h.isKeyList hfloats)
  rw [← directions_append] at hsame
  have hr := congrArg (Scoped.many · input.sortItems.2) hsame
  exact ⟨_, yields_orderings.mpr ⟨rows, h, rfl⟩, hr,
    fun hboth => yields_ordering_nil.mpr ⟨_, hboth, hr⟩⟩

/-! ## Keys that depend on the item alone -/

/-- The terms have keys at these items that are the same in every session. -/
def Steady (fetcher : Fetcher) (terms : List SortTerm) (items : List Scope)
    (keys : Scope → List Value) : Prop :=
  ∀ s ∈ items, ∀ σ, ∃ τ, (execKeys fetcher terms s).Yields σ (keys s) τ

/-- Local terms have, wherever they have a value at all. -/
theorem steady_of_isLocal (h : Operation.allLocal (terms.map (·.expression)) = true)
    (heval : Local.AllEval (terms.map (·.expression)) items) :
    Steady fetcher terms items fun s => Local.keys terms s.value := by
  intro s hs σ
  obtain ⟨values, hvalues⟩ := heval s hs
  refine ⟨σ, (Local.yields_execKeys h).mpr ⟨rfl, ?_⟩⟩
  dsimp only
  rw [Local.keys_eq hvalues]
  exact hvalues

theorem yields_execKeys_append {keys keys' : List Value}
    (h : (execKeys fetcher terms s).Yields σ keys ρ)
    (h' : (execKeys fetcher terms' s).Yields ρ keys' τ) :
    (execKeys fetcher (terms ++ terms') s).Yields σ (keys ++ keys') τ := by
  rw [Local.execKeys_eq_execAll] at h h' ⊢
  rw [List.map_append]
  generalize terms.map (·.expression) = os at h
  induction os generalizing σ keys with
  | nil =>
    obtain ⟨rfl, rfl⟩ := yields_execAll_nil.mp h
    exact h'
  | cons o os ih =>
    obtain ⟨a, ρ', rest, ha, hrest, rfl⟩ := yields_execAll_cons.mp h
    exact yields_execAll_cons.mpr ⟨a, ρ', rest ++ keys', ha, ih hrest, rfl⟩

theorem Steady.append {keys keys' : Scope → List Value} (h : Steady fetcher terms items keys)
    (h' : Steady fetcher terms' items keys') :
    Steady fetcher (terms ++ terms') items fun s => keys s ++ keys' s := by
  intro s hs σ
  obtain ⟨ρ, hkeys⟩ := h s hs σ
  obtain ⟨τ, hkeys'⟩ := h' s hs ρ
  exact ⟨τ, yields_execKeys_append hkeys hkeys'⟩

theorem Steady.yields_keyed {keys : Scope → List Value} (h : Steady fetcher terms items keys)
    (σ : Session) :
    ∃ τ, (keyed fetcher terms items).Yields σ (items.map fun s => (keys s, s)) τ := by
  induction items generalizing σ with
  | nil => exact ⟨σ, yields_keyed_nil.mpr ⟨rfl, rfl⟩⟩
  | cons s items ih =>
    obtain ⟨ρ, hkeys⟩ := h s List.mem_cons_self σ
    obtain ⟨τ, hrest⟩ := ih (fun t ht => h t (List.mem_cons_of_mem s ht)) ρ
    exact ⟨τ, yields_keyed_cons.mpr ⟨keys s, ρ, _, hkeys, hrest, rfl⟩⟩

theorem Steady.isKeyList {keys : Scope → List Value} (h : Steady fetcher terms items keys)
    (hfloats : ∀ s ∈ items, ∀ key ∈ keys s, key.isFloat = false) :
    ∀ s ∈ items, Value.IsKeyList (directions terms) (keys s) := by
  intro s hs
  obtain ⟨τ, hkeys⟩ := h s hs .empty
  exact ⟨length_execKeys hkeys, hfloats s hs⟩

/-- An ordering sorts by such keys in every session. -/
theorem yields_ordering_of_steady (input : Scoped) (base : Scope) {keys : Scope → List Value}
    (h : Steady fetcher terms input.sortItems.1 keys) (σ : Session) :
    ∃ ρ, ∀ rest r τ, (applyStages fetcher rest
        (.many (sortedOn (directions terms) keys input.sortItems.1) input.sortItems.2)
          base).Yields ρ r τ →
      (applyStages fetcher (.ordering terms :: rest) input base).Yields σ r τ := by
  obtain ⟨ρ, hkeys⟩ := h.yields_keyed σ
  have hsorted : (sortByKeys (directions terms)
      (input.sortItems.1.map fun s => (keys s, s))).map (·.2) =
        sortedOn (directions terms) keys input.sortItems.1 :=
    (sortByKeys_map _ keys id _).trans (List.map_id _)
  refine ⟨ρ, fun rest r τ hrest => yields_ordering.mpr ⟨_, ρ, hkeys, ?_⟩⟩
  rw [hsorted]
  exact hrest

/-- **Two orderings give what one by the terms of both gives**, those of the second in front. -/
theorem orderings_of_steady {keys keys' : Scope → List Value}
    (h : Steady fetcher terms input.sortItems.1 keys)
    (h' : Steady fetcher terms' input.sortItems.1 keys')
    (hfloats : ∀ s ∈ input.sortItems.1, ∀ key ∈ keys' s ++ keys s, key.isFloat = false)
    (σ : Session) : ∃ r τ τ',
      (applyStages fetcher [.ordering terms, .ordering terms'] input base).Yields σ r τ ∧
        (applyStages fetcher [.ordering (terms' ++ terms)] input base).Yields σ r τ' := by
  have hkeys := h.isKeyList fun s hs key hkey => hfloats s hs key (List.mem_append_right _ hkey)
  have hkeys' := h'.isKeyList fun s hs key hkey => hfloats s hs key (List.mem_append_left _ hkey)
  -- the second ordering finds its keys wherever the first one puts the items
  have hagain : Steady fetcher terms' (sortedOn (directions terms) keys input.sortItems.1) keys' :=
    fun s hs => h' s (Sorting.mem_sortBy.mp hs)
  obtain ⟨ρ, hfirst⟩ := yields_ordering_of_steady input base h σ
  obtain ⟨τ, hsecond⟩ := yields_ordering_of_steady
    (.many (sortedOn (directions terms) keys input.sortItems.1) input.sortItems.2) base hagain ρ
  obtain ⟨τ', hboth⟩ := yields_ordering_of_steady input base (h'.append h) σ
  refine ⟨.many (sortedOn (directions (terms' ++ terms)) (fun s => keys' s ++ keys s)
    input.sortItems.1) input.sortItems.2, τ, τ', hfirst _ _ _ (hsecond _ _ _ ?_),
    hboth _ _ _ (yields_pure.mpr ⟨rfl, rfl⟩)⟩
  rw [directions_append, ← sortedOn_sortedOn fun s hs => ⟨hkeys s hs, hkeys' s hs⟩]
  exact yields_pure.mpr ⟨rfl, rfl⟩

/-! ## Terms without sources and references -/

/-- Such terms have the same keys in every session. -/
theorem yields_anywhere_of_keyed (hquiet : Operation.AllQuiet (terms.map (·.expression)))
    (h : (keyed fetcher terms items).Yields σ ks τ) :
    ∀ k ∈ ks, ∀ σ', (execKeys fetcher terms k.2).Yields σ' k.1 σ' := by
  induction items generalizing σ ks with
  | nil =>
    obtain ⟨rfl, -⟩ := yields_keyed_nil.mp h
    exact fun k hk => absurd hk List.not_mem_nil
  | cons s items ih =>
    obtain ⟨keys, ρ, rest, hkeys, hrest, rfl⟩ := yields_keyed_cons.mp h
    refine List.forall_mem_cons.mpr ⟨fun σ' => ?_, ih hrest⟩
    rw [Local.execKeys_eq_execAll] at hkeys ⊢
    exact Quiet.yields_execAll_anywhere hquiet hkeys σ'

theorem keyed_of_forall (h : ∀ k ∈ ks, ∀ σ', (execKeys fetcher terms k.2).Yields σ' k.1 σ')
    (σ : Session) : (keyed fetcher terms (ks.map (·.2))).Yields σ ks σ := by
  induction ks with
  | nil => exact yields_keyed_nil.mpr ⟨rfl, rfl⟩
  | cons k ks ih =>
    obtain ⟨hk, hks⟩ := List.forall_mem_cons.mp h
    exact yields_keyed_cons.mpr ⟨k.1, σ, ks, hk σ, ih hks, rfl⟩

/-- One ordering by such terms finds the keys that two have found. -/
theorem EvaluatedTwice.keyed_of_quiet {rows : List (Twice Scope)}
    (h : EvaluatedTwice fetcher terms terms' items rows σ τ)
    (hquiet : Operation.AllQuiet (terms.map (·.expression)))
    (hquiet' : Operation.AllQuiet (terms'.map (·.expression))) (σ' : Session) :
    (keyed fetcher (terms' ++ terms) items).Yields σ' (rows.map Twice.both) σ' := by
  obtain ⟨ρ, hfirst, hsecond⟩ := h.evaluated
  have hitems : (rows.map Twice.both).map (·.2) = items := by
    rw [← h.items_eq, List.map_map]
    rfl
  rw [← hitems]
  refine keyed_of_forall (fun k hk σ'' => ?_) σ'
  obtain ⟨t, ht, rfl⟩ := List.mem_map.mp hk
  have hsorted : t ∈ sortedOn (directions terms) Twice.earlier rows := Sorting.mem_sortBy.mpr ht
  exact yields_execKeys_append
    (yields_anywhere_of_keyed hquiet' hsecond t.second (List.mem_map_of_mem hsorted) σ'')
    (yields_anywhere_of_keyed hquiet hfirst t.first (List.mem_map_of_mem ht) σ'')

/-- **Two orderings by such terms give what one by the terms of both gives**, in whatever session. -/
theorem orderings_of_quiet {rows : List (Twice Scope)} (input : Scoped) (base : Scope)
    (h : EvaluatedTwice fetcher terms terms' input.sortItems.1 rows σ τ)
    (hfloats : NoFloats (rows.map Twice.both))
    (hquiet : Operation.AllQuiet (terms.map (·.expression)))
    (hquiet' : Operation.AllQuiet (terms'.map (·.expression))) : ∃ r,
    (applyStages fetcher [.ordering terms, .ordering terms'] input base).Yields σ r τ ∧
      ∀ σ', (applyStages fetcher [.ordering (terms' ++ terms)] input base).Yields σ' r σ' := by
  obtain ⟨r, htwo, -, hone⟩ := orderings_eq input base h hfloats
  exact ⟨r, htwo, fun σ' => hone (h.keyed_of_quiet hquiet hquiet' σ')⟩

end Engine
end DocQuery
