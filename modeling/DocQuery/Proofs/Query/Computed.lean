import DocQuery.Proofs.Fetch.Documents
import DocQuery.Proofs.Query.Subscripts
import DocQuery.Proofs.Store.Windows

/-!
# Windows of computed arrays

`* | stage | [w]`, where the stage makes an array of its own. The stage looks at what was fetched and
the subscript behind it is folded into the fetch all the same; and the array it makes stands in the
scope of what was fetched, with the position where that begins. **So the subscript takes the array
for one whose front has been cut off** as far as the fetch was (`Query.window_behind_computed`). A full
scan and a collection that does not push down cut nothing off, and there the window is one of the
array itself.
-/

set_option autoImplicit false

namespace DocQuery

/-- The stages that make an array of their own: array expressions, and calls of `coalesce()`. -/
def Operation.makesArray : Operation → Bool
  | array _ => true
  | call function _ => function == .coalesce
  | _ => false

/-- What a subscript makes of an array whose first item is at position `offset`. -/
def Subscript.applied (w : Subscript) (vs : List Value) (offset : Nat) : Value :=
  if w.first then (Window.pick? w vs offset).getD .null else .array (Window.narrow w vs offset).1

/-! ## What a collection leaves out in front -/

namespace Collection

/-- How many documents a collection leaves out in front for a subscript. -/
def skipped (c : Collection) (w : Subscript) : Nat :=
  if c.pushdown ∧ 0 ≤ w.start ∧ 0 ≤ w.stop then min w.start.toNat c.documents.length else 0

/-- A collection answers every window, and begins where it has cut. -/
theorem fetch_subscript (c : Collection) (w : Subscript) :
    ∃ response, c.fetch (FetchSpec.everything.applySubscript w) = .ok response ∧
      response.start = c.skipped w := by
  have hwindow := FetchSpec.isWindow_applySubscript .everything w
  have hall : select (.obj []) c.documents = .ok c.documents := by
    rw [Pushdown.select_eq (p := fun _ => true) fun _ _ => rfl]
    exact congrArg Except.ok (List.filter_eq_self.mpr fun _ _ => rfl)
  have hoffset : (FetchSpec.everything.applySubscript w).offset =
      if 0 ≤ w.start ∧ 0 ≤ w.stop then w.start.toNat else 0 := by
    unfold FetchSpec.applySubscript FetchSpec.applyWindow
    split_ifs <;> first | omega | rfl
  unfold fetch
  rw [StoreQuery.ofSpec_unfiltered hwindow.filter, hwindow.ordering]
  show ∃ response, (select (.obj []) c.documents >>= _) = _ ∧ _
  rw [hall]
  show ∃ response, (if c.pushdown && true && true then _ else _ : Except StoreError FetchResponse) =
    .ok response ∧ _
  unfold skipped
  cases c.pushdown with
  | true =>
    refine ⟨_, rfl, ?_⟩
    show min (FetchSpec.everything.applySubscript w).offset c.documents.length = _
    rw [hoffset]
    simp only [true_and]
    split_ifs
    · rfl
    · exact Nat.zero_min _
  | false => exact ⟨_, rfl, by simp [respond]⟩

end Collection

/-! ## The stage and the subscript -/

namespace Query

open Engine Run Collection

variable {q : Query} {id : SourceId} {stage : Operation} {w : Subscript} {name : Option String}
  {fetcher : Fetcher} {vs : List Value}

/-- The stage makes this array of what is fetched for the subscript behind it. -/
def Computes (fetcher : Fetcher) (id : SourceId) (stage : Operation) (w : Subscript)
    (vs : List Value) : Prop :=
  ∃ response r τ, fetcher 0 (FetchSpec.everything.applySubscript w) = .ok response ∧
    r.value = .array vs ∧
    (exec fetcher stage (sourceScope id .root
      ⟨response.results.map Value.ofJson, response.start⟩)).Yields
        (fetched .empty id (FetchSpec.everything.applySubscript w) response) r τ

/-- What a stage makes stands where it was made. -/
theorem offset_of_makesArray (h : stage.makesArray = true) {s : Scope} {r : Scoped}
    {σ τ : Session} (hr : (exec fetcher stage s).Yields σ r τ) : r.offset = s.start := by
  cases stage with
  | array elements =>
    obtain ⟨values, -, rfl⟩ := yields_array.mp hr
    rfl
  | call function arguments =>
    obtain ⟨values, ρ, v, -, -, rfl⟩ := yields_call.mp hr
    rfl
  | _ => cases h

theorem result_computed (hplan : q.operation = .ok (.pipe [.source id, stage, .subscript w] name))
    (hstage : stage.makesArray = true) {first : FetchResponse}
    (hfirst : fetcher 0 (FetchSpec.everything.applySubscript w) = .ok first)
    (h : Computes fetcher id stage w vs) :
    q.result fetcher = .ok (w.applied vs first.start).toJson := by
  obtain ⟨response, r, τ, hfetch, hvalue, hr⟩ := h
  obtain rfl : first = response := Except.ok.inj (hfirst.symm.trans hfetch)
  have hspec : FetchSpec.ofStages [stage, .subscript w] = FetchSpec.everything.applySubscript w := by
    have hproject := FetchSpec.project_of_hasConstraints
      (FetchSpec.isWindow_applySubscript .everything w).hasConstraints
    cases stage with
    | array _ | call _ _ => exact hproject
    | _ => cases hstage
  have hfoldable : ∀ o ∈ [stage, .subscript w], Local.isFoldable o = true := by
    simp only [List.forall_mem_cons]
    refine ⟨?_, rfl, fun _ h => nomatch h⟩
    cases stage with
    | array _ | call _ _ => rfl
    | _ => cases hstage
  have hsettled : (finish .root (FetchSpec.everything.applySubscript w)).Yields .empty
      (FetchSpec.everything.applySubscript w) .empty := by
    unfold finish
    rw [(FetchSpec.isWindow_applySubscript .everything w).filter]
    exact yields_pure.mpr ⟨rfl, rfl⟩
  have happly : (applyStages fetcher [stage, .subscript w]
      (.one (sourceScope id .root ⟨first.results.map Value.ofJson, first.start⟩)) .root).Yields
        (fetched .empty id (FetchSpec.everything.applySubscript w) first) (r.subscript w) τ := by
    have hone : applyStage fetcher stage (.one (sourceScope id .root
        ⟨first.results.map Value.ofJson, first.start⟩)) .root =
          exec fetcher stage (sourceScope id .root
            ⟨first.results.map Value.ofJson, first.start⟩) := by
      cases stage with
      | array _ | call _ _ => rfl
      | _ => cases hstage
    rw [applyStages_eq_bind, hone]
    exact yields_bind.mpr ⟨r, τ, hr, yields_pure.mpr ⟨rfl, rfl⟩⟩
  refine (result_eq_ok hplan).mpr ⟨r.subscript w, τ, yields_pipe.mpr ?_, ?_⟩
  · refine (yields_run_new rfl).mpr ⟨_, _, .empty, .empty, first, ?_, hsettled, hfetch, happly⟩
    rw [Local.compileStages_eq hfoldable, hspec]
    exact yields_pure.mpr ⟨rfl, rfl⟩
  · rw [Scoped.value_subscript hvalue, offset_of_makesArray hstage hr]
    rfl

/-- A stage that makes the same array of everything makes it of what was fetched. -/
theorem computes_of_isLocal (hlocal : stage.isLocal = true)
    (hvalue : ∀ items, Local.eval stage (.array items) = .ok (.array vs)) {response : FetchResponse}
    (hfetch : fetcher 0 (FetchSpec.everything.applySubscript w) = .ok response) :
    Computes fetcher id stage w vs := by
  refine ⟨response, _, _, hfetch, ?_, (Local.yields_exec hlocal).mpr ⟨rfl, _, hvalue _, rfl⟩⟩
  exact Local.value_scopeOf hlocal (hvalue _)

/-- **A window behind a computed array is shifted by what the fetch has left out in front.** In a
scope with a computed value the subscript still counts from where the scope starts. Behind a source
that is where the fetch begins: at the first document over a full scan and in a collection that does
not push down, and behind the skipped documents in one that does. -/
theorem window_behind_computed
    (hplan : q.operation = .ok (.pipe [.source id, stage, .subscript w] name))
    (hstage : stage.makesArray = true) (documents : List Json) (c : Collection) :
    (∀ (s : Scope) (vs : List Value),
      ((Scoped.one (s.withValue (.array vs))).subscript w).value = w.applied vs s.start) ∧
    (∀ vs, Computes (.fullScan documents) id stage w vs →
      q.result (.fullScan documents) = .ok (w.applied vs 0).toJson) ∧
    (∀ vs, Computes c.fetcher id stage w vs →
      q.result c.fetcher = .ok (w.applied vs (c.skipped w)).toJson) ∧
    ∀ vs, stage.isLocal = true → (∀ items, Local.eval stage (.array items) = .ok (.array vs)) →
      Computes (.fullScan documents) id stage w vs ∧ Computes c.fetcher id stage w vs := by
  obtain ⟨response, hfetch, hstart⟩ := c.fetch_subscript w
  have hfetch := Pushdown.fetcher_eq_ok hfetch 0
  have hscan : ∀ n, Fetcher.fullScan documents n (FetchSpec.everything.applySubscript w) =
      .ok (.ofResults documents) := fun _ => rfl
  refine ⟨fun s vs => Scoped.value_subscript rfl w, fun vs h => ?_, fun vs h => ?_,
    fun vs hlocal hvalue => ⟨?_, computes_of_isLocal hlocal hvalue hfetch⟩⟩
  · have hresult := result_computed hplan hstage (hscan 0) h
    exact hresult
  · rw [← hstart]
    exact result_computed hplan hstage hfetch h
  · exact computes_of_isLocal hlocal hvalue (hscan 0)

/-- The second of three numbers that take the place of three documents: a collection that pushes
down has skipped one document, and gives the first number. -/
theorem window_behind_computed_second : ∃ q : Query, ∃ c : Collection,
    ofDocuments true [.obj [("_id", .str "a")], .obj [("_id", .str "b")]] = .ok c ∧
    q.operation = .ok (.pipe [.source 1, .array [.literal (.int 10), .literal (.int 20),
      .literal (.int 30)], .subscript ⟨1, 2, true⟩] none) ∧
    (Operation.array [.literal (.int 10), .literal (.int 20), .literal (.int 30)]).makesArray = true ∧
    q.result (.fullScan [.obj [("_id", .str "a")], .obj [("_id", .str "b")]]) = .ok (.int 20) ∧
    q.result c.fetcher = .ok (.int 10) := by
  let q : Query := ⟨.pipe (.pipe .everything (.array [.integer 10, .integer 20, .integer 30]))
    (.subscript (.integer 1)), [], none⟩
  have hplan : q.operation = .ok (.pipe [.source 1, .array [.literal (.int 10), .literal (.int 20),
      .literal (.int 30)], .subscript ⟨1, 2, true⟩] none) := by
    with_unfolding_all rfl
  obtain ⟨c, hc⟩ : ∃ c, ofDocuments true [.obj [("_id", .str "a")], .obj [("_id", .str "b")]] = .ok c :=
    ⟨_, rfl⟩
  have hskipped : c.skipped ⟨1, 2, true⟩ = 1 := by
    cases hc
    rfl
  obtain ⟨-, hscan, hcollection, hlocal⟩ := window_behind_computed hplan rfl
    [.obj [("_id", .str "a")], .obj [("_id", .str "b")]] c
  obtain ⟨hall, hcut⟩ := hlocal [.int 10, .int 20, .int 30] rfl fun _ => rfl
  refine ⟨q, c, hc, hplan, rfl, hscan _ hall, ?_⟩
  have hresult := hcollection _ hcut
  rw [hskipped] at hresult
  exact hresult

/-- Over one document, a window of a computed array has another element with push-down than without. -/
theorem computed_window_shifted : ∃ c, ofDocuments true [.obj [("_id", .str "a")]] = .ok c ∧
    let q : Query := ⟨.pipe (.pipe .everything (.array [.integer 1, .integer 2, .integer 3]))
      (.subscript (.range (.integer 1) (.integer 2) false)), [], none⟩
    q.result (.fullScan [.obj [("_id", .str "a")]]) = .ok (.arr [.int 2]) ∧
      q.result c.fetcher = .ok (.arr [.int 1]) :=
  ⟨_, rfl, by with_unfolding_all rfl, by with_unfolding_all rfl⟩

end Query
end DocQuery
