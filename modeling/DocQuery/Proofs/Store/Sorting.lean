import DocQuery.Proofs.Engine.Keyed
import DocQuery.Proofs.Engine.Ordering
import DocQuery.Proofs.Store.Collection

/-!
# Sorting in a store

A store sorts by fields, the engine by the values of terms. **A term that is an accessor of
attributes has the field's value for its key** (`SortTerm.IsField`, `sortKeys_eq`), so the store
puts its documents in the order that the engine puts them in (`sortDocuments_eq`,
`Engine.yields_ordering_documents`). The names of the attributes have to survive being joined with
dots, and the references that the store keeps for itself are no field of the document.

`Engine.orderings_sort` is all that is promised of orderings: what one does and what two do, what is
fetched for two of them (`Engine.compileStages_orderings`), and that a store agrees. Two orderings are
one by the keys of both where the terms have no sources and references in them, and wherever else the
one ordering reads the same keys as the two. A term with a source of its own may have other keys in
the one ordering (`Engine.orderings_sort_counts`): its documents are fetched once, for the item that
comes first, and an ordering in front makes another item the first.
-/

set_option autoImplicit false

namespace DocQuery

/-- A term that is an accessor of attributes without dots, and not of the references alone. -/
def SortTerm.IsField (term : SortTerm) : Prop :=
  ∃ path names, term.expression = .accessor path ∧ Operation.attributeNames? path = some names ∧
    names ≠ [] ∧ Operation.isFieldPath names = true

namespace Collection

open Local

variable {terms : List SortTerm} {documents : List Json}

theorem sortKey?_of_isField {term : SortTerm} {path : List PathStep} {names : List String}
    (hexpression : term.expression = .accessor path)
    (hnames : Operation.attributeNames? path = some names) (hne : names ≠ []) :
    StoreQuery.sortKey? term = some (String.intercalate "." names, term.direction) := by
  rw [StoreQuery.sortKey?, hexpression]
  cases path with
  | nil =>
    cases hnames
    exact absurd rfl hne
  | cons step steps =>
    rw [Operation.fieldName?, hnames]
    · rfl
    · simp

/-- A collection is able to sort by fields. -/
theorem sortKey?_isSome_of_isField (hterms : ∀ term ∈ terms, term.IsField) :
    (terms.all fun term => (StoreQuery.sortKey? term).isSome) = true := by
  refine List.all_eq_true.mpr fun term hterm => ?_
  obtain ⟨path, names, hexpression, hnames, hne, -⟩ := hterms term hterm
  rw [sortKey?_of_isField hexpression hnames hne]
  rfl

/-- The fields that a collection sorts by have the values of the sort keys. -/
theorem sortKeys_eq (hterms : ∀ term ∈ terms, term.IsField) (fields : Fields Json) :
    (terms.filterMap StoreQuery.sortKey?).map (·.2) = terms.map (·.direction) ∧
      evalAll (terms.map (·.expression)) (Value.ofJson (unstored (stored fields)).1) =
        .ok ((terms.filterMap StoreQuery.sortKey?).map fun key =>
          Value.ofJson? (Selector.lookup (stored fields) key.1)) := by
  induction terms with
  | nil => exact ⟨rfl, rfl⟩
  | cons term terms ih =>
    obtain ⟨hdirections, hkeys⟩ := ih fun t ht => hterms t (List.mem_cons_of_mem term ht)
    obtain ⟨path, names, hexpression, hnames, hne, hfield⟩ := hterms term List.mem_cons_self
    have hkey := sortKey?_of_isField hexpression hnames hne
    have hvalue : eval (.accessor path) (Value.ofJson (unstored (stored fields)).1) =
        .ok ((Value.ofJson (unstored (stored fields)).1).follow names) := by
      rw [eval, hnames]
      rfl
    rw [List.filterMap_cons_some hkey, List.map_cons, List.map_cons, List.map_cons, List.map_cons,
      hdirections, ofJson?_lookup_stored hne hfield, evalAll, hexpression, hvalue, hkeys]
    exact ⟨rfl, rfl⟩

theorem sortDocuments_map {α : Type} (keys : List (String × Direction)) (f : α → Json)
    (items : List α) : sortDocuments keys (items.map f) =
      (sortedOn (keys.map (·.2)) (fun a => keys.map fun key =>
        Value.ofJson? (Selector.lookup (f a) key.1)) items).map f := by
  unfold sortDocuments
  dsimp only
  rw [List.map_map, ← sortByKeys_map]
  rfl

/-- **A collection sorts its documents as the engine sorts what leaves the collection.** -/
theorem sortDocuments_eq (hterms : ∀ term ∈ terms, term.IsField)
    (hobjects : ∀ d ∈ documents, ∃ fields, d = .obj fields) :
    sortDocuments (terms.filterMap StoreQuery.sortKey?) (documents.map storedOf) =
      (Sorting.sortBy (fun d e => before terms (Value.ofJson (unstored (storedOf d)).1)
        (Value.ofJson (unstored (storedOf e)).1)) documents).map storedOf := by
  rw [sortDocuments_map]
  refine congrArg (List.map storedOf) (Sorting.sortBy_congr (fun d hd e he => ?_) hobjects)
  obtain ⟨fields, rfl⟩ := hd
  obtain ⟨fields', rfl⟩ := he
  obtain ⟨hdirections, hd⟩ := sortKeys_eq hterms fields
  obtain ⟨-, he⟩ := sortKeys_eq hterms fields'
  change (_ == _) = before terms (Value.ofJson (unstored (stored fields)).1)
    (Value.ofJson (unstored (stored fields')).1)
  rw [before, keys_eq hd, keys_eq he, hdirections]
  rfl

end Collection

namespace Engine

open Collection Local Run

variable {fetcher : Fetcher} {terms terms' : List SortTerm}

theorem compileStages_orderings (s : Scope) :
    compileStages fetcher [.ordering terms, .ordering terms'] s =
      pure { FetchSpec.everything with ordering := terms' ++ terms } := rfl

theorem isLocalStage_of_isField (hterms : ∀ term ∈ terms, term.IsField) :
    (Operation.ordering terms).isLocalStage = true := by
  show Operation.allLocal (terms.map (·.expression)) = true
  induction terms with
  | nil => rfl
  | cons term terms ih =>
    obtain ⟨path, names, hexpression, hnames, -, -⟩ := hterms term List.mem_cons_self
    rw [List.map_cons, Operation.allLocal, hexpression, Operation.isLocal, hnames,
      ih fun t ht => hterms t (List.mem_cons_of_mem term ht)]
    rfl

/-- An ordering by fields puts documents in the order in which a collection has them. -/
theorem yields_ordering_documents (hterms : ∀ term ∈ terms, term.IsField)
    (documents : List (Fields Json)) {place : Json → Scope}
    (hplace : ∀ d, (place d).value = Value.ofJson d) (start : Nat) (base : Scope) (σ : Session) :
    (applyStages fetcher [.ordering terms]
        (.many (documents.map fun d => place (unstored (stored d)).1) start) base).Yields σ
      (.many ((sortDocuments (terms.filterMap StoreQuery.sortKey?) (documents.map stored)).map
        fun d => place (unstored d).1) start) σ := by
  have hobjects : ∀ d ∈ documents.map Json.obj, ∃ fields, d = .obj fields := by
    intro d hd
    obtain ⟨fields, -, rfl⟩ := List.mem_map.mp hd
    exact ⟨fields, rfl⟩
  have hsorted := sortDocuments_eq hterms hobjects
  rw [List.map_map, Sorting.sortBy_map, List.map_map] at hsorted
  change sortDocuments _ (documents.map stored) = (Sorting.sortBy _ documents).map stored at hsorted
  refine (Local.yields_applyStages fun stage hstage => ?_).mpr ⟨rfl, _, ⟨fun s hs => ?_, rfl⟩, ?_⟩
  · obtain rfl := List.mem_singleton.mp hstage
    exact isLocalStage_of_isField hterms
  · obtain ⟨fields, -, rfl⟩ := List.mem_map.mp hs
    rw [hplace]
    exact ⟨_, (sortKeys_eq hterms fields).2⟩
  · rw [hsorted, List.map_map]
    show Scoped.many _ start = .many (Sorting.sortBy _ (documents.map _)) start
    rw [Sorting.sortBy_map]
    refine congrArg (Scoped.many · start) (congrArg (List.map _) ?_)
    have hless : ∀ d, True → ∀ e, True →
        before terms (Value.ofJson (unstored (stored d)).1) (Value.ofJson (unstored (stored e)).1) =
          before terms (place (unstored (stored d)).1).value
            (place (unstored (stored e)).1).value := by
      intro d _ e _
      rw [hplace, hplace]
    exact Sorting.sortBy_congr hless fun _ _ => trivial

/-- **Orderings sort by their keys, one after the other as one by the keys of both, and in the store
as in the engine.** -/
theorem orderings_sort (fetcher : Fetcher) :
    -- types are ranked in either direction
    (∀ (a b : Value) (d : Direction), a.rank < b.rank → Value.compareForSort a b d = .lt) ∧
    -- one ordering fails only where a key does
    (∀ (terms : List SortTerm) (input : Scoped) (base : Scope) (σ τ : Session) (r : Scoped),
      (applyStages fetcher [.ordering terms] input base).Yields σ r τ →
        ∃ ks, (keyed fetcher terms input.sortItems.1).Yields σ ks τ) ∧
    (∀ (terms : List SortTerm) (input : Scoped) (base : Scope) (σ τ : Session)
        (ks : List (List Value × Scope)),
      (keyed fetcher terms input.sortItems.1).Yields σ ks τ →
        ks.map (·.2) = input.sortItems.1 ∧ (NoFloats ks → ∃ sorted,
          IsStableSort (directions terms) ks sorted ∧
            (applyStages fetcher [.ordering terms] input base).Yields σ
              (.many (sorted.map (·.2)) input.sortItems.2) τ)) ∧
    -- two orderings fail only where a key does
    (∀ (terms terms' : List SortTerm) (input : Scoped) (base : Scope) (σ τ : Session) (r : Scoped),
      (applyStages fetcher [.ordering terms, .ordering terms'] input base).Yields σ r τ →
        ∃ rows, EvaluatedTwice fetcher terms terms' input.sortItems.1 rows σ τ) ∧
    (∀ (terms terms' : List SortTerm) (input : Scoped) (base : Scope) (σ τ : Session)
        (rows : List (Twice Scope)),
      EvaluatedTwice fetcher terms terms' input.sortItems.1 rows σ τ →
        NoFloats (rows.map Twice.both) → ∃ r,
          (applyStages fetcher [.ordering terms, .ordering terms'] input base).Yields σ r τ ∧
          r = .many ((sortByKeys (directions (terms' ++ terms)) (rows.map Twice.both)).map (·.2))
            input.sortItems.2 ∧
          ∀ {σ' τ'}, (keyed fetcher (terms' ++ terms) input.sortItems.1).Yields σ'
              (rows.map Twice.both) τ' →
            (applyStages fetcher [.ordering (terms' ++ terms)] input base).Yields σ' r τ') ∧
    -- two orderings by keys that depend on the items alone
    (∀ (terms terms' : List SortTerm) (input : Scoped) (base : Scope)
        (keys keys' : Scope → List Value), Steady fetcher terms input.sortItems.1 keys →
      Steady fetcher terms' input.sortItems.1 keys' →
      (∀ s ∈ input.sortItems.1, ∀ key ∈ keys' s ++ keys s, key.isFloat = false) →
        ∀ σ, ∃ r τ τ',
          (applyStages fetcher [.ordering terms, .ordering terms'] input base).Yields σ r τ ∧
            (applyStages fetcher [.ordering (terms' ++ terms)] input base).Yields σ r τ') ∧
    -- two orderings by terms without sources and references
    (∀ (terms terms' : List SortTerm) (input : Scoped) (base : Scope) (σ τ : Session)
        (rows : List (Twice Scope)),
      Operation.AllQuiet (terms.map (·.expression)) →
      Operation.AllQuiet (terms'.map (·.expression)) →
      EvaluatedTwice fetcher terms terms' input.sortItems.1 rows σ τ →
        NoFloats (rows.map Twice.both) → ∃ r,
          (applyStages fetcher [.ordering terms, .ordering terms'] input base).Yields σ r τ ∧
            ∀ σ', (applyStages fetcher [.ordering (terms' ++ terms)] input base).Yields σ' r σ') ∧
    -- what is fetched for two orderings
    (∀ (terms terms' : List SortTerm) (s : Scope),
      compileStages fetcher [.ordering terms, .ordering terms'] s =
        pure { FetchSpec.everything with ordering := terms' ++ terms }) ∧
    -- the store
    ∀ (terms : List SortTerm) (documents : List (Fields Json)) (place : Json → Scope) (start : Nat)
        (base : Scope) (σ : Session), (∀ term ∈ terms, term.IsField) →
      (∀ d, (place d).value = Value.ofJson d) →
        (terms.all fun term => (StoreQuery.sortKey? term).isSome) = true ∧
          (applyStages fetcher [.ordering terms]
              (.many (documents.map fun d => place (unstored (stored d)).1) start) base).Yields σ
            (.many ((sortDocuments (terms.filterMap StoreQuery.sortKey?) (documents.map stored)).map
              fun d => place (unstored d).1) start) σ := by
  refine ⟨fun a b d h => Value.compareForSort_of_rank_lt h d,
    fun terms input base σ τ r h => ?_,
    fun terms input base σ τ ks h =>
      ⟨(items_of_keyed h).1, fun hfloats => ordering_isStableSort input base h hfloats⟩,
    fun terms terms' input base σ τ r h => ?_,
    fun terms terms' input base σ τ rows h hfloats => orderings_eq input base h hfloats,
    fun terms terms' input base keys keys' h h' hfloats σ => orderings_of_steady h h' hfloats σ,
    fun terms terms' input base σ τ rows hquiet hquiet' h hfloats =>
      orderings_of_quiet input base h hfloats hquiet hquiet',
    fun terms terms' s => compileStages_orderings s,
    fun terms documents place start base σ hterms hplace =>
      ⟨sortKey?_isSome_of_isField hterms,
        yields_ordering_documents hterms documents hplace start base σ⟩⟩
  · obtain ⟨ks, hks, -⟩ := yields_ordering_nil.mp h
    exact ⟨ks, hks⟩
  · obtain ⟨rows, hrows, -⟩ := yields_orderings.mp h
    exact ⟨rows, hrows⟩

/-- Cards sorted by their names and then by their ranks: the two orderings are one, and a collection
that is asked to sort by the ranks leaves equal ones as they were stored. -/
theorem orderings_sort_cards :
    let nothing : Fetcher := fun _ _ => .ok (.ofResults [])
    let term := fun name : String => (⟨.accessor [.attr name], .asc⟩ : SortTerm)
    let card := fun (name : String) (rank : Int) => [("name", Json.str name), ("rank", .int rank)]
    let cards := [card "b" 1, card "a" 1, card "c" 0]
    let scopes := fun cards : List (Fields Json) =>
      cards.map fun d => Scope.detached (Value.ofJson (unstored (stored d)).1)
    (∃ r τ τ', (applyStages nothing [.ordering [term "name"], .ordering [term "rank"]]
        (.many (scopes cards) 0) .root).Yields .empty r τ ∧
      (applyStages nothing [.ordering [term "rank", term "name"]]
        (.many (scopes cards) 0) .root).Yields .empty r τ') ∧
    (∃ r, (applyStages nothing [.ordering [term "name"], .ordering [term "rank"]]
        (.many (scopes cards) 0) .root).Yields .empty r .empty ∧
      ∀ σ, (applyStages nothing [.ordering [term "rank", term "name"]]
        (.many (scopes cards) 0) .root).Yields σ r σ) ∧
    (applyStages nothing [.ordering [term "rank"]] (.many (scopes cards) 0) .root).Yields .empty
      (.many (scopes [card "c" 0, card "b" 1, card "a" 1]) 0) .empty := by
  intro nothing term card cards scopes
  obtain ⟨-, -, -, -, -, hsteady, hquiet, -, hstore⟩ := orderings_sort nothing
  refine ⟨?_, ?_, ?_⟩
  · have hkeys : ∀ name : String, Steady nothing [term name] (scopes cards) fun s =>
        Local.keys [term name] s.value := fun name =>
      steady_of_isLocal rfl fun s _ => ⟨_, rfl⟩
    refine hsteady [term "name"] [term "rank"] (.many (scopes cards) 0) .root _ _ (hkeys "name")
      (hkeys "rank") ?_ .empty
    decide
  · have hterm : ∀ name : String, Operation.AllQuiet ([term name].map (·.expression)) :=
      fun name => ⟨.inl rfl, trivial⟩
    have htwice : EvaluatedTwice nothing [term "name"] [term "rank"] (scopes cards)
        ((scopes cards).map fun s => ⟨[s.value.getD "name"], [s.value.getD "rank"], s⟩) .empty
          .empty := ⟨rfl, .empty, by with_unfolding_all rfl, by with_unfolding_all rfl⟩
    refine hquiet _ _ (.many (scopes cards) 0) .root _ _ _ (hterm "name") (hterm "rank") htwice ?_
    unfold NoFloats
    decide
  · have hrank : ∀ t ∈ [term "rank"], t.IsField := by
      intro t ht
      obtain rfl := List.mem_singleton.mp ht
      exact ⟨_, ["rank"], rfl, rfl, by decide, by decide⟩
    have hobjects : ∀ d ∈ cards.map Json.obj, ∃ fields, d = .obj fields := by
      simp
    have hcards : sortDocuments ([term "rank"].filterMap StoreQuery.sortKey?) (cards.map stored) =
        [card "c" 0, card "b" 1, card "a" 1].map stored :=
      (sortDocuments_eq hrank hobjects).trans rfl
    obtain ⟨-, hsorted⟩ := hstore [term "rank"] cards (fun d => Scope.detached (Value.ofJson d)) 0
      .root .empty hrank fun _ => rfl
    rw [hcards] at hsorted
    exact hsorted

/-- Elements sorted by a field and then by the number of documents that they match, greatest first. A
collection is asked for the documents that match the first element, and that is another element when
an ordering in front has sorted them. Over all documents the two orderings are one. -/
theorem orderings_sort_counts :
    ∃ (two one : Query) (document : Json) (elements : List Json) (count : Operation) (c : Collection),
      count = .call .count [.pipe [.source 1,
        .filter (.binary .eq (.attr "c") (.accessor [.parent, .attr "k"]))] none] ∧
      elements = [.obj [("k", .int 1), ("x", .int 2)], .obj [("k", .int 2), ("x", .int 1)]] ∧
      two.operation = .ok (.pipe [.literal (.array (elements.map .ofJson)),
        .filter (.literal (.bool true)), .ordering [.mk (.attr "x") .asc],
        .ordering [.mk count .desc]] none) ∧
      one.operation = .ok (.pipe [.literal (.array (elements.map .ofJson)),
        .filter (.literal (.bool true)), .ordering [.mk count .desc, .mk (.attr "x") .asc]] none) ∧
      document = .obj [("_id", .str "d"), ("c", .int 1)] ∧
      (two.result (.fullScan [document]) = .ok (.arr elements) ∧
        one.result (.fullScan [document]) = .ok (.arr elements)) ∧
      ofDocuments true [document] = .ok c ∧ two.result c.fetcher = .ok (.arr elements.reverse) ∧
        one.result c.fetcher = .ok (.arr elements) := by
  refine ⟨⟨.pipe (.pipe (.pipe (.param "a") (.constraint none)) (.functionCall "order" [.attr "x"]))
      (.functionCall "order" [.postfixed .desc (.functionCall "count" [.filtered
        (.binary .equals (.attr "c") (.dot .parent (.attr "k")))])]),
      [("a", .arr [.obj [("k", .int 1), ("x", .int 2)], .obj [("k", .int 2), ("x", .int 1)]])], none⟩,
    ⟨.pipe (.pipe (.param "a") (.constraint none)) (.functionCall "order" [.postfixed .desc
        (.functionCall "count" [.filtered (.binary .equals (.attr "c") (.dot .parent (.attr "k")))]),
        .attr "x"]),
      [("a", .arr [.obj [("k", .int 1), ("x", .int 2)], .obj [("k", .int 2), ("x", .int 1)]])], none⟩,
    _, _, _, _, rfl, rfl, by with_unfolding_all rfl, by with_unfolding_all rfl, rfl, ⟨?_, ?_⟩, rfl,
    ?_, ?_⟩
  · with_unfolding_all rfl
  · with_unfolding_all rfl
  · with_unfolding_all rfl
  · with_unfolding_all rfl

end Engine
end DocQuery
