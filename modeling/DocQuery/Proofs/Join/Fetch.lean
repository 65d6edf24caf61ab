import DocQuery.Proofs.Engine.Nested
import DocQuery.Proofs.Join.Clause

/-!
# Fetching by widened filters

A nested pipeline with a join filter is fetched by what the filter is widened to
(`yields_finish_widened`), and a collection answers with all documents that the widened filter's
selector accepts (`fetch_filtered`). Among these are **all that the join filter keeps for any of the
siblings** (`fetch_widened`).
-/

set_option autoImplicit false

namespace DocQuery

open Operation Engine Run

/-! ## What is asked for -/

namespace Join

variable {siblings : List Value} {sign : Bool} {F G : Operation}

theorem outerOperand?_of_same {a b : Operation} {names : List String} (h : a.same b = true)
    (hb : b.outerOperand? = some names) : a.outerOperand? = some names := by
  obtain ⟨name, steps, rfl, hnames⟩ := exists_of_outerOperand? hb
  cases a with
  | accessor path =>
    have hpath : path = .parent :: .attr name :: steps := beq_iff_eq.mp h
    rw [hpath]
    exact hb
  | sortDirection term =>
    cases term
    exact absurd h Bool.false_ne_true
  | _ => exact absurd h Bool.false_ne_true

theorem not_same_outer {a b : Operation} {names : List String} (ha : a.isFree = true)
    (hb : b.outerOperand? = some names) : a.same b ≠ true := by
  intro h
  have houter := outerOperand?_of_same h hb
  rw [outerOperand?_of_isFree ha] at houter
  cases houter

theorem outerOperand?_of_sameAll {as bs : List Operation} (h : sameAll as bs = true)
    (has : ∀ a ∈ as, a.outerOperand? = none) : ∀ b ∈ bs, b.outerOperand? = none := by
  induction as generalizing bs with
  | nil =>
    cases bs with
    | nil => exact fun b hb => absurd hb List.not_mem_nil
    | cons b bs => cases h
  | cons a as ih =>
    cases bs with
    | nil => cases h
    | cons b bs =>
      obtain ⟨hab, hrest⟩ := Bool.and_eq_true_iff.mp h
      rw [List.forall_mem_cons]
      refine ⟨?_, ih hrest fun c hc => has c (List.mem_cons_of_mem a hc)⟩
      cases hb : b.outerOperand? with
      | none => rfl
      | some names =>
        have ha := has a List.mem_cons_self
        rw [outerOperand?_of_same hab hb] at ha
        cases ha

theorem widenArgument_eq_self {o : Operation} (h : o.outerOperand? = none) :
    widenArgument siblings o = [o] := by
  rw [widenArgument, h]

theorem outerOperand?_widenArgument {o p : Operation} (h : p ∈ widenArgument siblings o) :
    p.outerOperand? = none := by
  cases ho : o.outerOperand? with
  | none =>
    rw [widenArgument_eq_self ho] at h
    rw [List.mem_singleton.mp h]
    exact ho
  | some names =>
    rw [widenArgument, ho] at h
    obtain ⟨v, -, rfl⟩ := List.mem_map.mp h
    rfl

theorem exists_orMember (c o : Operation) (values : List Value) :
    values.foldl (orMember c) o = o ∨
      ∃ lhs rhs, values.foldl (orMember c) o = .binary .or lhs rhs := by
  induction values generalizing o with
  | nil => exact .inl rfl
  | cons v values ih =>
    rcases ih (orMember c o v) with h | h
    · exact .inr ⟨_, _, h⟩
    · exact .inr h

/-- Widening changes every comparison with the enclosing value. What it leaves as it was had none. -/
theorem eq_of_same (h : Widens siblings sign F G) (hsame : G.same F = true) : G = F := by
  induction h with
  | and _ _ left right | or _ _ left right =>
    simp only [same, Bool.and_eq_true] at hsame
    rw [left hsame.1.2, right hsame.2]
  | not _ operand => exact congrArg _ (operand hsame)
  | free _ => rfl
  | @eq _ c o names _ houter _ =>
    obtain ⟨_, _, rfl, -⟩ := exists_of_outerOperand? houter
    unfold widenEq at hsame
    split at hsame
    · cases hsame
    · simp [same] at hsame
    · cases hsame
  | @outerEq _ c o names hfree houter _ =>
    unfold widenEq at hsame
    split at hsame
    · cases hsame
    · simp only [same, Bool.and_eq_true] at hsame
      exact absurd hsame.1.2 (not_same_outer hfree houter)
    · cases hsame
  | @member _ c o names _ houter _ =>
    obtain ⟨_, _, rfl, -⟩ := exists_of_outerOperand? houter
    unfold widenMember at hsame
    dsimp only at hsame
    split at hsame
    · cases hsame
    · simp [same] at hsame
  | @outerMember _ c o names _ houter _ =>
    obtain ⟨_, _, rfl, -⟩ := exists_of_outerOperand? houter
    cases hvalues : valuesAt siblings names with
    | nil =>
      rw [hvalues] at hsame
      cases hsame
    | cons v values =>
      rw [hvalues] at hsame
      change ((values.foldl (orMember c) (.binary .member (.literal v) c)).same _) = true at hsame
      rcases exists_orMember c (.binary .member (.literal v) c) values with h | ⟨lhs, rhs, h⟩
      · rw [h] at hsame
        simp [same] at hsame
      · rw [h] at hsame
        cases hsame
  | @references _ arguments _ _ =>
    simp only [same, Bool.and_eq_true] at hsame
    have hnone := outerOperand?_of_sameAll hsame.2 fun o ho => by
      obtain ⟨a, -, ho⟩ := List.mem_flatMap.mp ho
      exact outerOperand?_widenArgument ho
    have hself : arguments.map (widenArgument siblings) = arguments.map fun o => [o] :=
      List.map_congr_left fun o ho => widenArgument_eq_self (hnone o ho)
    rw [List.flatMap, hself, ← List.flatMap, List.flatMap_singleton']

/-- What a specification becomes, by what its filter is widened to. -/
theorem run_finish {s : Scope} {σ : Session} {spec : FetchSpec} (hfilter : spec.filter = some F) :
    (finish s spec).run.run σ = ((generalize σ.context s F).map fun widened =>
      widened.elim .everything fun G => if G.same F then spec else .filtered G, σ) := by
  unfold finish
  rw [hfilter]
  show StateT.run (ExceptT.run (Run.ofExcept (generalize σ.context s F) >>= _)) σ = _
  rcases generalize σ.context s F with e | _ | G <;> rfl

theorem yields_finish_of_generalize {s : Scope} {σ : Session} {spec : FetchSpec}
    {widened : Option Operation} (hfilter : spec.filter = some F)
    (hgeneralize : generalize σ.context s F = .ok widened) :
    (finish s spec).Yields σ
      (widened.elim .everything fun G => if G.same F then spec else .filtered G) σ := by
  rw [Yields, run_finish hfilter, hgeneralize]
  rfl

theorem yields_finish_generalized {s : Scope} {σ : Session}
    (hgeneralize : generalize σ.context s F = .ok (some G)) :
    (finish s (.filtered F)).Yields σ (if G.same F then .filtered F else .filtered G) σ :=
  yields_finish_of_generalize rfl hgeneralize

/-- A pipeline with a join filter alone is fetched by the widened filter. -/
theorem yields_finish_widened {s : Scope} {σ : Session}
    (hgeneralize : generalize σ.context s F = .ok (some G)) (h : Widens siblings sign F G) :
    (finish s (.filtered F)).Yields σ (.filtered G) σ := by
  have hspec : (if G.same F then FetchSpec.filtered F else .filtered G) = .filtered G := by
    split
    · next hsame => rw [eq_of_same h hsame]
    · rfl
  exact hspec ▸ yields_finish_generalized hgeneralize

end Join

/-! ## What is given -/

namespace Pushdown

open Clause Collection

variable {documents : List Json} {f : Operation} {clause : Clause}

/-- An exact selector accepts what the filter keeps. -/
theorem accepted_eq_holds {document : Json} {outer v : Value} (hdocument : IsDocument document)
    (hfree : f.isFree = true) (hplain : f.isPlainFilter = true)
    (htranslated : ofFilter f = .ok clause) (hexact : clause.isExact = true)
    (heval : Correlated.eval outer f (.ofJson document) = .ok v) :
    accepted clause (storedOf document) = Correlated.holds outer f (.ofJson document) := by
  rw [accepted_eq_same (Join.describes_free hdocument hfree
    (isReadFilter_of_isPlainFilter hplain) htranslated heval) hexact,
    Bool.eq_iff_iff, Value.same_true, Correlated.holds_iff, heval, Except.ok.injEq]

/-- **A collection that is asked by a widened filter gives all documents that the filter keeps for
any of the siblings.** -/
theorem fetch_widened {siblings : List Value} {F G : Operation}
    (hdocuments : ∀ d ∈ documents, IsDocument d) (h : Join.Widens siblings true F G)
    (hread : ∀ v ∈ siblings, v.IsRead) (hjson : ∀ v ∈ siblings, v.isJson = true)
    (hplain : F.isPlainFilter = true) (htranslated : ∃ clause, ofFilter F = .ok clause)
    (pushdown : Bool) :
    ∃ (given : Json → Bool) (response : FetchResponse),
      (⟨pushdown, documents.map storedOf⟩ : Collection).fetch (.filtered G) = .ok response ∧
      response.results = documents.filter given ∧ ∀ d ∈ documents, ∀ p ∈ siblings,
        Correlated.holds p F (.ofJson d) = true → given d = true := by
  obtain ⟨clause, hclause⟩ := Join.translated_of_widens h htranslated
  refine ⟨fun d => accepted clause (storedOf d), _, fetch_filtered hdocuments
    (Join.isPlainFilter_of_widens h hjson hplain) hclause pushdown, ?_, ?_⟩
  · exact results_respond (fun d hd => hdocuments d (List.mem_filter.mp hd).1) 0
  · intro d hd p hp hholds
    exact Join.accepted_of_widens h hread hjson hplain hclause (hdocuments d hd) hp
      (Correlated.holds_iff.mp hholds)

end Pushdown
end DocQuery
