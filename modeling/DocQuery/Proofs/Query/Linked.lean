import DocQuery.Proofs.Query.Projection
import DocQuery.Proofs.Query.Selection

/-!
# Members that fetch once

A member that follows references finds its sources fetched, or it is evaluated for the first document
that is projected and fetches them for all of these (`FetchesOnce`). Members have their sources apart
from each other, so what one of them fetches leaves the others where they were (`yields_linked`), and
**a query projects what it selects by such members** (`Query.result_linked`).
-/

set_option autoImplicit false

namespace DocQuery

open Engine

/-- A member of a projection with sources of its own: what it does with the fields so far, given a
document, once a session has what it asks for (`served`). -/
structure LinkedMember where
  member : Member
  sources : List SourceId
  effect : Value → Fields Value → Fields Value
  served : Session → Prop

namespace LinkedMember

/-- A member under a name, given the value that it has for a document. -/
def assigned (name : String) (operation : Operation) (sources : List SourceId)
    (value : Value → Value) (served : Session → Prop) : LinkedMember where
  member := .assignment name operation
  sources := sources
  effect v fs := fs.assign [(name, value v)]
  served := served

/-- The projection of a value. -/
def project (ms : List LinkedMember) (v : Value) : Value :=
  .object (ms.foldl (fun fs m => m.effect v fs) [])

end LinkedMember

namespace Pushdown

/-- A member that fetches what it asks for once, for all documents around, and from then on does its
part for those that are projected (`subjects`). What else its evaluation relies on is `keep`. -/
structure FetchesOnce (fetcher : Fetcher) (siblings subjects : List Value) (keep : Session → Prop)
    (m : LinkedMember) : Prop where
  congr : ∀ {σ τ : Session},
    (∀ k ∈ m.sources, τ.context.source? k = σ.context.source? k) → m.served σ → m.served τ
  fetches : ∀ {σ : Session} {s : Scope}, keep σ → (∀ k ∈ m.sources, σ.context.source? k = none) →
    Join.siblings? σ.context s = some siblings → s.value ∈ siblings →
      ∃ τ, keep τ ∧ m.served τ ∧
        (∀ k, k ∉ m.sources → τ.context.source? k = σ.context.source? k) ∧
        ∀ {fs fs' : Fields Value} {ρ : Session},
          (execMembers fetcher [m.member] s fs).Yields τ fs' ρ →
            (execMembers fetcher [m.member] s fs).Yields σ fs' ρ
  serves : ∀ {σ : Session} {s : Scope} (fs : Fields Value), keep σ → m.served σ → s.value ∈ subjects →
    ∃ τ, (execMembers fetcher [m.member] s fs).Yields σ (m.effect s.value fs) τ ∧ keep τ ∧
      ∀ k, τ.context.source? k = σ.context.source? k

/-- Whatever is fetched, something goes on to hold of the session. -/
def KeptByFetching (fetcher : Fetcher) (keep : Session → Prop) : Prop :=
  ∀ {σ : Session} (id : SourceId) {spec : FetchSpec} {response : FetchResponse},
    fetcher σ.fetches.length spec = .ok response → keep σ → keep (fetched σ id spec response)

/-- What a session has of the sources while documents are projected: those fetched along with them,
and of a member's sources nothing, or what it asks for. -/
structure Follows (siblings : List Value) (id : SourceId) (keep : Session → Prop)
    (ms : List LinkedMember) (σ : Session) : Prop where
  beside : ∃ start, σ.context.source? id = some ⟨siblings, start⟩
  kept : keep σ
  members : ∀ m ∈ ms, (∀ k ∈ m.sources, σ.context.source? k = none) ∨ m.served σ

variable {fetcher : Fetcher} {siblings subjects : List Value} {id : SourceId} {keep : Session → Prop}
  {ms : List LinkedMember} {m : LinkedMember} {σ τ : Session} {s : Scope}

/-- It is enough to say what the operation of a member under a name yields. -/
theorem fetchesOnce_assigned {name : String} {operation : Operation} {sources : List SourceId}
    {value : Value → Value} {served : Session → Prop}
    (hcongr : ∀ {σ τ : Session}, (∀ k ∈ sources, τ.context.source? k = σ.context.source? k) →
      served σ → served τ)
    (hfetches : ∀ {σ : Session} {s : Scope}, keep σ → (∀ k ∈ sources, σ.context.source? k = none) →
      Join.siblings? σ.context s = some siblings → s.value ∈ siblings →
        ∃ τ, keep τ ∧ served τ ∧ (∀ k, k ∉ sources → τ.context.source? k = σ.context.source? k) ∧
          ∀ {r : Scoped} {ρ : Session}, (exec fetcher operation s).Yields τ r ρ →
            (exec fetcher operation s).Yields σ r ρ)
    (hserves : ∀ {σ : Session} {s : Scope}, keep σ → served σ → s.value ∈ subjects →
      ∃ r τ, (exec fetcher operation s).Yields σ r τ ∧ r.value = value s.value ∧ keep τ ∧
        ∀ k, τ.context.source? k = σ.context.source? k) :
    FetchesOnce fetcher siblings subjects keep
      (.assigned name operation sources value served) where
  congr := hcongr
  fetches hkept hnew hsiblings hmem := by
    obtain ⟨τ, hkept, hserved, hsame, hstep⟩ := hfetches hkept hnew hsiblings hmem
    refine ⟨τ, hkept, hserved, hsame, fun hassigned => ?_⟩
    obtain ⟨r, hr, rfl⟩ := yields_assignment.mp hassigned
    exact yields_assignment.mpr ⟨r, hstep hr, rfl⟩
  serves fs hkept hserved hmem := by
    obtain ⟨r, τ, hr, hvalue, hkept, hsame⟩ := hserves hkept hserved hmem
    exact ⟨τ, yields_assignment.mpr ⟨r, hr, hvalue ▸ rfl⟩, hkept, hsame⟩

/-- Nothing is lost where all sources stay as they are. -/
theorem Follows.of_same (hσ : Follows siblings id keep ms σ)
    (honce : ∀ m ∈ ms, FetchesOnce fetcher siblings subjects keep m) (hkept : keep τ)
    (hsame : ∀ k, τ.context.source? k = σ.context.source? k) : Follows siblings id keep ms τ where
  beside := hσ.beside.imp fun _ h => (hsame id).trans h
  kept := hkept
  members m hm := (hσ.members m hm).imp (fun h k hk => (hsame k).trans (h k hk))
    ((honce m hm).congr fun k _ => hsame k)

/-- Nothing is lost where the sources of one member are fetched. -/
theorem Follows.of_fetched (hσ : Follows siblings id keep ms σ)
    (honce : ∀ m ∈ ms, FetchesOnce fetcher siblings subjects keep m)
    (hids : (id :: ms.flatMap (·.sources)).Nodup) (hm : m ∈ ms) (hkept : keep τ)
    (hserved : m.served τ)
    (hsame : ∀ k, k ∉ m.sources → τ.context.source? k = σ.context.source? k) :
    Follows siblings id keep ms τ := by
  obtain ⟨hid, hnodup⟩ := List.nodup_cons.mp hids
  refine ⟨?_, hkept, fun m' hm' => ?_⟩
  · rw [hsame id fun h => hid (List.mem_flatMap.mpr ⟨m, hm, h⟩)]
    exact hσ.beside
  · by_cases hshared : ∃ k ∈ m'.sources, k ∈ m.sources
    · obtain ⟨k, hk', hk⟩ := hshared
      obtain rfl := eq_of_nodup_flatMap hnodup hm hm' hk hk'
      exact .inr hserved
    · have hapart : ∀ k ∈ m'.sources, τ.context.source? k = σ.context.source? k :=
        fun k hk => hsame k fun h => hshared ⟨k, hk, h⟩
      exact (hσ.members m' hm').imp (fun h k hk => (hapart k hk).trans (h k hk))
        ((honce m' hm').congr hapart)

/-- A member does its part, whether or not it has been evaluated for another document. -/
theorem yields_linked (honce : ∀ m ∈ ms, FetchesOnce fetcher siblings subjects keep m)
    (hids : (id :: ms.flatMap (·.sources)).Nodup) (hwhole : ∀ v ∈ siblings, v.asArray? = none)
    (hs : IsProjected siblings id s) (hsubject : s.value ∈ subjects) (hm : m ∈ ms)
    (fs : Fields Value) (hσ : Follows siblings id keep ms σ) :
    ∃ τ, (execMembers fetcher [m.member] s fs).Yields σ (m.effect s.value fs) τ ∧
      Follows siblings id keep ms τ := by
  rcases hσ.members m hm with hnew | hserved
  · obtain ⟨start, hstart⟩ := hσ.beside
    have hsiblings : Join.siblings? σ.context s = some siblings :=
      siblings_eq hs.source hstart hs.computed hs.path hwhole
    obtain ⟨ρ, hkept, hserved, hsame, hstep⟩ := (honce m hm).fetches hσ.kept hnew hsiblings hs.mem
    obtain ⟨τ, hτ, hkept', hsame'⟩ := (honce m hm).serves fs hkept hserved hsubject
    exact ⟨τ, hstep hτ, (hσ.of_fetched honce hids hm hkept hserved hsame).of_same honce hkept' hsame'⟩
  · obtain ⟨τ, hτ, hkept, hsame⟩ := (honce m hm).serves fs hσ.kept hserved hsubject
    exact ⟨τ, hτ, hσ.of_same honce hkept hsame⟩

/-- Every document is projected by the members. -/
theorem yields_linked_projection (honce : ∀ m ∈ ms, FetchesOnce fetcher siblings subjects keep m)
    (hids : (id :: ms.flatMap (·.sources)).Nodup) (hwhole : ∀ v ∈ siblings, v.asArray? = none)
    {items : List Scope} (hitems : ∀ s ∈ items, IsProjected siblings id s ∧ s.value ∈ subjects)
    {start : Nat} {base : Scope} (hσ : Follows siblings id keep ms σ) :
    ∃ r τ, (applyStages fetcher [.object (ms.map LinkedMember.member)] (.many items start)
        base).Yields σ r τ ∧
      r.value = .array (items.map fun s => LinkedMember.project ms s.value) :=
  @yields_projection_of LinkedMember fetcher (·.member) (·.effect) σ (Follows siblings id keep ms) ms
    items start base (fun s hs _ hm _ fs hρ => yields_linked honce hids hwhole (hitems s hs).1
      (hitems s hs).2 hm fs hρ) hσ

end Pushdown

namespace Query

open Pushdown Local

/-- Whatever fetcher supplies the documents that a query selects, they are projected by its members, if
these fetch once what they ask for. -/
theorem result_linked {q : Query} {fetcher : Fetcher} {id : SourceId} {condition : Operation}
    {stages : List Operation} {name : Option String} {keep : Session → Prop} {kept : List Json}
    {start : Nat} {response : FetchResponse} {ms : List LinkedMember}
    (hplan : q.operation = .ok (.pipe (.source id ::
      (.filter condition :: stages ++ [.object (ms.map LinkedMember.member)])) name))
    (hlocal : ∀ stage ∈ .filter condition :: stages, stage.isLocalStage = true)
    (hids : (id :: ms.flatMap (·.sources)).Nodup)
    (hfetch : fetcher 0 (selectionSpec condition stages) = .ok response)
    (hsupplies : Supplies id condition stages kept start response)
    (hwhole : ∀ v ∈ response.results.map Value.ofJson, v.asArray? = none)
    (hkeep : keep (fetched .empty id (selectionSpec condition stages) response))
    (honce : ∀ m ∈ ms, FetchesOnce fetcher (response.results.map .ofJson) (kept.map .ofJson) keep m) :
    q.result fetcher = .ok (Value.array (kept.map fun d =>
      LinkedMember.project ms (.ofJson d))).toJson := by
  obtain ⟨hid, -⟩ := List.nodup_cons.mp hids
  have hfollows : Follows (response.results.map .ofJson) id keep ms
      (fetched .empty id (selectionSpec condition stages) response) := by
    refine ⟨⟨response.start, source?_store _ _ _⟩, hkeep, fun m hm => .inl fun k hk => ?_⟩
    refine source?_fetched_of_ne ?_ _ _
    rintro rfl
    exact hid (List.mem_flatMap.mpr ⟨m, hm, hk⟩)
  obtain ⟨r, τ, hrun, hvalue⟩ := @yields_linked_projection _ _ _ _ _ _ _ honce hids hwhole
    (kept.map (documentScope id .root)) (List.forall_mem_map.mpr fun d hd =>
      ⟨⟨hsupplies.mem d hd, rfl, rfl, rfl⟩, List.mem_map_of_mem hd⟩) start .root hfollows
  refine (result_eq_ok hplan).mpr
    ⟨r, τ, (yields_supplied hlocal hfetch hsupplies).mpr hrun, ?_⟩
  rw [hvalue, List.map_map]
  rfl

end Query
end DocQuery
