import Mathlib.Data.List.Nodup
import Mathlib.Data.List.Pairwise
import DocQuery.Proofs.Query.Chain

/-!
# Projections that keep an invariant

A member that follows references fetches its sources once, for the first document that is projected,
and that serves all others. So what is known of the session changes from document to document and
from member to member; **a projection does with the fields what its members do whenever each of
these keeps what it relies on** (`yields_projection_of`). What is behind a reference is asked for
with the ids that it has in any of the documents around (`wantedIds`).
-/

set_option autoImplicit false

namespace DocQuery

/-- What is in no list twice is of one element. -/
theorem eq_of_nodup_flatMap {α β : Type} {f : α → List β} {xs : List α} (h : (xs.flatMap f).Nodup)
    {x y : α} (hx : x ∈ xs) (hy : y ∈ xs) {b : β} (hbx : b ∈ f x) (hby : b ∈ f y) : x = y := by
  have hsymm : Std.Symm (Function.onFun List.Disjoint f) := ⟨fun _ _ h _ hy hx => h hx hy⟩
  by_contra hne
  exact (List.nodup_flatMap.mp h).2.forall hx hy hne hbx hby

namespace Engine

open Run

variable {β : Type} {fetcher : Fetcher} {member : β → Member}
  {effect : β → Value → Fields Value → Fields Value} {σ : Session} {Inv : Session → Prop}
  {ms : List β}

theorem yields_assignment {name : String} {o : Operation} {s : Scope} {fs fs' : Fields Value}
    {τ : Session} : (execMembers fetcher [.assignment name o] s fs).Yields σ fs' τ ↔
      ∃ r, (exec fetcher o s).Yields σ r τ ∧ fs' = fs.assign [(name, r.value)] := by
  rw [execMembers_assignment]
  simp only [execMembers_nil, yields_bind, yields_pure]
  constructor
  · rintro ⟨r, _, hr, rfl, rfl⟩
    exact ⟨r, hr, rfl⟩
  · rintro ⟨r, hr, rfl⟩
    exact ⟨r, τ, hr, rfl, rfl⟩

/-- Members whose evaluation keeps an invariant of the session. -/
theorem yields_members_of {s : Scope} (h : ∀ m ∈ ms, ∀ σ fs, Inv σ →
      ∃ τ, (execMembers fetcher [member m] s fs).Yields σ (effect m s.value fs) τ ∧ Inv τ)
    (hσ : Inv σ) (fs : Fields Value) :
    ∃ τ, (execMembers fetcher (ms.map member) s fs).Yields σ
        (ms.foldl (fun fs m => effect m s.value fs) fs) τ ∧ Inv τ := by
  induction ms generalizing σ fs with
  | nil =>
    refine ⟨σ, ?_, hσ⟩
    rw [List.map_nil, execMembers_nil]
    exact yields_pure.mpr ⟨rfl, rfl⟩
  | cons m ms ih =>
    obtain ⟨ρ, hm, hρ⟩ := h m List.mem_cons_self σ fs hσ
    obtain ⟨τ, hτ, hinv⟩ := ih (fun m' hm' => h m' (List.mem_cons_of_mem m hm')) hρ
      (effect m s.value fs)
    refine ⟨τ, ?_, hinv⟩
    rw [List.map_cons, execMembers_cons]
    exact yields_bind.mpr ⟨_, ρ, hm, hτ⟩

/-- A projection of several values by such members. -/
theorem yields_projection_of {items : List Scope} {start : Nat} {base : Scope}
    (h : ∀ s ∈ items, ∀ m ∈ ms, ∀ σ fs, Inv σ →
      ∃ τ, (execMembers fetcher [member m] s fs).Yields σ (effect m s.value fs) τ ∧ Inv τ)
    (hσ : Inv σ) :
    ∃ r τ, (applyStages fetcher [.object (ms.map member)] (.many items start) base).Yields σ r τ ∧
      r.value = .array (items.map fun s =>
        .object (ms.foldl (fun fs m => effect m s.value fs) [])) := by
  obtain ⟨projected, τ, hrun, hvalues, -⟩ := @yields_mapM_of σ Scope Scope Value
    (fun s => exec fetcher (.object (ms.map member)) s >>= fun a => pure (a.collapse s)) (·.value)
    (fun s => .object (ms.foldl (fun fs m => effect m s.value fs) [])) Inv items (by
      intro s hs ρ hρ
      obtain ⟨τ, hτ, hinv⟩ := yields_members_of (h s hs) hρ []
      exact ⟨_, τ, yields_bind.mpr ⟨_, τ, yields_object.mpr ⟨_, hτ, rfl⟩,
        yields_pure.mpr ⟨rfl, rfl⟩⟩, rfl, hinv⟩) hσ
  refine ⟨.many projected start, τ, yields_applyStages_object.mpr ⟨.many projected start, τ, ?_, ?_⟩,
    congrArg Value.array hvalues⟩
  · exact yields_bind.mpr ⟨projected, τ, hrun, yields_pure.mpr ⟨rfl, rfl⟩⟩
  · rw [applyStages_nil]
    exact yields_pure.mpr ⟨rfl, rfl⟩

end Engine

namespace Pushdown

open Engine

variable {siblings : List Value}

/-- A document that is projected, as a scope. -/
structure IsProjected (siblings : List Value) (id : SourceId) (s : Scope) : Prop where
  mem : s.value ∈ siblings
  source : s.source = some id
  path : s.path = []
  computed : s.computed = false

/-- Documents as values: objects whose references are texts. -/
def Referring (siblings : List Value) : Prop :=
  ∀ v ∈ siblings, v.asArray? = none ∧ v.isNull = false ∧ v.hasTextRefs = true

theorem wantedIds_text (href : Referring siblings) (path : List String) :
    ∀ ref ∈ wantedIds path siblings, ref.isText = true := by
  intro ref hmem
  obtain ⟨hmem, hnull⟩ := List.mem_filter.mp hmem
  obtain ⟨v, hv, rfl⟩ := List.mem_map.mp hmem
  rcases Value.refAt_text (href v hv).2.2 path with h | h
  · rw [h] at hnull
    cases hnull
  · exact h

theorem mem_wantedIds (href : Referring siblings) (path : List String) {v : Value}
    (hv : v ∈ siblings) : v.refAt path = .null ∨ v.refAt path ∈ wantedIds path siblings := by
  rcases Value.refAt_text (href v hv).2.2 path with h | h
  · exact .inl h
  · refine .inr (List.mem_filter.mpr ⟨List.mem_map_of_mem hv, ?_⟩)
    obtain ⟨s, hs, -⟩ := Value.exists_of_isText h
    rw [hs]
    rfl

end Pushdown
end DocQuery
