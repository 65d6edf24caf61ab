import DocQuery.Proofs.Query.Sifted

/-!
# Projections with filtered dereferences

A projection may have filtered dereferences `p[]->[g]` for members, beside chains of references and
what is computed from the document alone. Over all documents each element of `p` gives the document
that it refers to, or null, if `g` is `true` of that. Over a collection a document that the selector
of `g` turns away counts as missing. **Both give the same if `g` calls `references()` only for its
truth, or is not `true` of null** (`Query.result_links`); `not references(…)` is `true` of null, and
there they differ (`Query.result_links_negated`).
-/

set_option autoImplicit false

namespace DocQuery

open Engine Collection

/-! ## What a member leads to -/

/-- A member of a projection, by what it leads to: the end of a chain of references; the documents
that the elements at the end of a path refer to, as far as a filter keeps them; or nothing, since it
is computed from the document. -/
inductive Link where
  | chain (name : String) (c : Chain)
  | sieve (name : String) (path : List String) (filter : Operation)
  | computed (m : Member)

namespace Link

/-- What a member does with the fields so far, given where chains lead, and what references lead to
where a filter is asked about it. -/
def effect (leads : Chain → Value → Reached) (looks : Operation → Value → Value) :
    Link → Value → Fields Value → Fields Value
  | chain name c, v, fs => fs.assign [(name, (leads c v).value)]
  | sieve name path filter, v, fs => fs.assign [(name, Sieve.sifted (looks filter) path filter v)]
  | computed m, v, fs => (Correlated.evalMembers .null [m] v fs).toOption.getD fs

/-- The projection of a value. -/
def project (leads : Chain → Value → Reached) (looks : Operation → Value → Value)
    (members : List Link) (v : Value) : Value :=
  .object (members.foldl (fun fs m => m.effect leads looks v fs) [])

/-- The filter of a member asks for nothing but the document; a store reads it as the engine does;
and it has a value at null. A computed member asks for nothing but the document either. -/
def IsRead : Link → Prop
  | chain _ _ => True
  | sieve _ _ filter => filter.isFree = true ∧ filter.isReadFilter = true ∧
    (∃ clause, Clause.ofFilter filter = .ok clause) ∧
      ∃ w, Correlated.eval .null filter .null = .ok w
  | computed m => Operation.membersWithin Operation.isInner (fun _ => true) [m] = true

/-- The filter of a member has a value at whatever it is asked about, and so has what is computed. -/
def Decides (looks : Operation → Value → Value) (v : Value) : Link → Prop
  | chain _ _ => True
  | sieve _ path filter =>
    ∀ ref ∈ v.refsAt path, ∃ w, Correlated.eval .null filter (looks filter ref) = .ok w
  | computed m => ∃ fs, Correlated.evalMembers .null [m] v [] = .ok fs

/-- The references on the way to the end of a member's chain are also followed from another value. -/
def LeadsAlong (documents : List Value) (first v : Value) : Link → Prop
  | chain _ c => c.before.LeadsAlong documents first v
  | sieve _ _ _ | computed _ => True

/-- The filter of a member calls `references()` only for its truth, or is not `true` of null. -/
def SparesNull : Link → Prop
  | sieve _ _ filter => filter.seeksReferences true = true ∨
    Correlated.holds .null filter .null = false
  | chain _ _ | computed _ => True

theorem project_congr {leads leads' : Chain → Value → Reached}
    {looks looks' : Operation → Value → Value} {members : List Link} {v : Value}
    (h : ∀ m ∈ members, m.effect leads looks v = m.effect leads' looks' v) :
    project leads looks members v = project leads' looks' members v :=
  congrArg Value.object (List.foldl_ext _ _ _ fun fs m hm => congrFun (h m hm) fs)

end Link

/-! ## Computed members -/

/-- A member that is computed from a document alone. -/
def LinkedMember.computed (m : Member) : LinkedMember where
  member := m
  sources := []
  effect v fs := (Correlated.evalMembers .null [m] v fs).toOption.getD fs
  served _ := True

/-- What a member comes to does not depend on the fields so far. -/
theorem Correlated.exists_evalMembers {outer v : Value} {m : Member} {fs fs' : Fields Value}
    (h : evalMembers outer [m] v fs = .ok fs') (gs : Fields Value) :
    ∃ gs', evalMembers outer [m] v gs = .ok gs' := by
  cases m with
  | assignment name value =>
    obtain ⟨a, ha, -⟩ := exists_of_bind_eq_ok h
    rw [evalMembers, ha]
    exact ⟨_, rfl⟩
  | splat => exact ⟨_, rfl⟩

namespace Pushdown

open Run Operation

/-- A computed member fetches nothing. -/
theorem fetchesOnce_computed {fetcher : Fetcher} {documents : List Json}
    {siblings subjects : List Value} {m : Member} (htext : TextIds documents)
    (hdistinct : DistinctIds documents)
    (hfree : membersWithin isInner (fun _ => true) [m] = true)
    (hsubjects : ∀ v ∈ subjects, IsLookedUp documents v)
    (heval : ∀ v ∈ subjects, ∃ fs, Correlated.evalMembers .null [m] v [] = .ok fs) :
    FetchesOnce fetcher siblings subjects (fun σ => σ.context.KeepsAll documents) (.computed m) where
  congr _ _ := trivial
  fetches {σ _} hkept _ _ _ := ⟨σ, hkept, trivial, fun _ _ => rfl, fun h => h⟩
  serves {σ s} fs hkept _ hmem := by
    have hwithin : membersWithin isInnerOrOuter (fun _ => true) [m] = true :=
      membersWithin_of_membersWithin (fun _ hpath _ => Bool.or_eq_true_iff.mpr (.inl hpath))
        (fun _ _ _ => rfl) hfree hfree
    have hcomes := @Correlated.comesTo_execMembers fetcher _ s (fun _ => true)
      (fun _ => faithful_lookedUp htext hdistinct σ.context (hsubjects _ hmem)) [m] hwithin fs
    obtain ⟨fields, hfields⟩ := heval _ hmem
    obtain ⟨fs', hfs'⟩ := Correlated.exists_evalMembers hfields fs
    rw [Correlated.evalMembers_of_isFree (Correlated.outerOf s) .null hfree, hfs'] at hcomes
    have heffect : (LinkedMember.computed m).effect s.value fs = fs' :=
      congrArg (fun e : Except ExecError (Fields Value) => e.toOption.getD fs) hfs'
    obtain ⟨_, τ, hτ, rfl, hkept', hsame⟩ := hcomes.yields ⟨hkept, fun _ => rfl⟩
    exact ⟨τ, heffect.symm ▸ hτ, hkept', hsame⟩

end Pushdown

/-! ## In plans -/

/-- A member as it is planned. -/
inductive PlannedLink where
  | chain (m : ChainMember)
  | sieve (m : Sieve)
  | computed (m : Member)

namespace PlannedLink

def toMember : PlannedLink → Member
  | chain m => m.toMember
  | sieve m => .assignment m.name m.operation
  | computed m => m

def link : PlannedLink → Link
  | chain m => .chain m.name m.route.chain
  | sieve m => .sieve m.name m.path m.filter
  | computed m => .computed m

def linked (look : List Value → Value → Value) (looks : Operation → Value → Value)
    (siblings : List Value) : PlannedLink → LinkedMember
  | chain m => m.linked look siblings
  | sieve m => m.linked looks siblings
  | computed m => .computed m

def sources : PlannedLink → List SourceId
  | chain m => m.route.sources
  | sieve m => [m.source]
  | computed _ => []

/-- The sources that are asked for are among those of the projection. -/
theorem sublist_sourcesMembers (ms : List PlannedLink) :
    (ms.flatMap sources).Sublist (Operation.sourcesMembers (ms.map toMember)) := by
  induction ms with
  | nil => exact .slnil
  | cons m ms ih =>
    rw [List.map_cons, List.flatMap_cons]
    cases m with
    | chain m =>
      rw [toMember, ChainMember.toMember, Operation.sourcesMembers, Route.sources_operation]
      exact (List.Sublist.refl _).append ih
    | sieve m =>
      rw [toMember, Operation.sourcesMembers]
      exact (List.singleton_sublist.mpr List.mem_cons_self).append ih
    | computed m =>
      cases m with
      | assignment name value => exact ih.trans (List.sublist_append_right _ _)
      | splat => exact ih

end PlannedLink

namespace Node

/-- A filter behind the documents that the elements of an expression refer to. -/
def sifted (operand condition : Node) : Node :=
  .pipe (.postfixed .arrow (.pipe operand (.constraint none))) (.constraint (some condition))

open Planner in
/-- What a member of an object leads to. A filter that is planned alike whatever source comes next has
none of its own, and what is computed has none either. -/
inductive LinksTo (params : Params) : Node → Link → Prop
  | chain {node : Node} {name : String} {c : Chain} (h : node.chainMember? = some (name, c)) :
    LinksTo params node (.chain name c)
  | named {operand condition : Node} {path : List String} {filter : Operation} (name : String)
    (hpath : operand.path? = some path)
    (hfilter : ∀ n, Gives (compose params condition) n filter n) :
    LinksTo params (.binary .colon (.string name) (sifted operand condition))
      (.sieve name path filter)
  | unnamed {operand condition : Node} {name : String} {filter : Operation}
    (hpath : operand.path? = some [name])
    (hfilter : ∀ n, Gives (compose params condition) n filter n) :
    LinksTo params (sifted operand condition) (.sieve name [name] filter)
  | computed {node : Node} {o : Operation} {m : Member}
    (h : ∀ n, Gives (compose params node) n o n) (hmember : o.toMember = .ok m) :
    LinksTo params node (.computed m)

end Node

namespace Planner

variable {params : Params}

/-- A filtered dereference is planned as a join with a filter behind it. -/
theorem gives_sifted {operand condition : Node} {path : List String} {filter : Operation}
    (name : String) (hpath : operand.path? = some path)
    (hfilter : ∀ n, Gives (compose params condition) n filter n) (n : SourceId) :
    Gives (compose params (.sifted operand condition)) n (Sieve.operation ⟨name, path, n, filter⟩)
      (n + 1) := by
  obtain ⟨-, hjoin⟩ := @gives_dereference_open (.field path) trivial rfl n
  have hoperand : Gives (compose params operand) n (Route.field path).operation n :=
    gives_path hpath n
  have hopened := gives_pipe.mpr ⟨_, n, _, hoperand, gives_opening, rfl⟩
  exact gives_pipe.mpr ⟨_, n + 1, _, gives_postfixed.mpr ⟨_, n, hopened, hjoin⟩,
    gives_filter.mpr ⟨_, hfilter (n + 1), rfl⟩, rfl⟩

theorem gives_link {node : Node} {link : Link} (h : node.LinksTo params link) (n : SourceId) :
    ∃ (m : PlannedLink) (o : Operation) (n' : SourceId), m.link = link ∧
      Gives (compose params node) n o n' ∧ o.toMember = .ok m.toMember := by
  cases h with
  | chain h =>
    obtain ⟨m, o, n', hm, ho, hmember⟩ := @gives_chainMember params _ _ h n
    cases hm
    exact ⟨.chain m, o, n', rfl, ho, hmember⟩
  | @named operand condition path filter name hpath hfilter =>
    have hsifted := gives_sifted name hpath hfilter n
    refine ⟨.sieve ⟨name, path, n, filter⟩, .assignment name (Sieve.operation ⟨name, path, n, filter⟩),
      n + 1, rfl, ?_, rfl⟩
    exact gives_binary.mpr ⟨_, n, _, gives_string, hsifted, rfl⟩
  | @unnamed operand condition name filter hpath hfilter =>
    exact ⟨.sieve ⟨name, [name], n, filter⟩, _, n + 1, rfl, gives_sifted name hpath hfilter n, rfl⟩
  | @computed node o m h hmember => exact ⟨.computed m, o, n, rfl, h n, hmember⟩

end Planner

/-! ## Queries -/

namespace Query

open Planner Pushdown Local

variable {q : Query} {documents : List Json} {id : SourceId} {condition : Operation}
  {stages : List Operation} {nodes : List Node} {members : List Link}
  {name : Option String} {result : Json} {selected : Scoped}

theorem operation_links (hglobal : q.globalFilter = none)
    (hplan : q.operation = .ok (.pipe stages name))
    (hmembers : List.Forall₂ (Node.LinksTo q.params) nodes members) :
    ∃ ms : List PlannedLink, ms.map PlannedLink.link = members ∧
      (q.projected nodes).operation =
        .ok (.pipe (stages ++ [.object (ms.map PlannedLink.toMember)]) name) ∧
      (Operation.sourcesAll stages ++ ms.flatMap (·.sources)).Nodup := by
  obtain ⟨n, hprojected⟩ := @exists_projected q stages nodes name hglobal hplan
  obtain ⟨ms, n', hms, hobject⟩ := @gives_object q.params _ _ _ _ _ (fun _ _ h => gives_link h) _ _
    hmembers n
  obtain ⟨hoperation, hnodup⟩ := hprojected hobject
  exact ⟨ms, hms, hoperation,
    hnodup.sublist ((List.Sublist.refl _).append (PlannedLink.sublist_sourcesMembers ms))⟩

/-- Whatever fetcher supplies the documents that are selected and can be asked for others, they are
projected to what the members lead to. -/
theorem result_linked_members {fetcher : Fetcher} {look : List Value → Value → Value}
    {looks : Operation → Value → Value} {kept : List Json} {start : Nat} {response : FetchResponse}
    {ms : List PlannedLink} (hobjects : Objects documents) (htext : TextIds documents)
    (hdistinct : DistinctIds documents)
    (hplan : q.operation = .ok (.pipe (.source id ::
      (.filter condition :: stages ++ [.object (ms.map PlannedLink.toMember)])) name))
    (hlocal : ∀ stage ∈ .filter condition :: stages, stage.isLocalStage = true)
    (hsources : (id :: ms.flatMap (·.sources)).Nodup) (hlooks : Looks fetcher look)
    (hkeep : KeptByFetching fetcher fun σ => σ.context.KeepsAll documents)
    (hread : ∀ m ∈ ms, m.link.IsRead)
    (hsifts : ∀ filter, filter.isReadFilter = true →
      (∃ clause, Clause.ofFilter filter = .ok clause) →
        Sifts fetcher documents filter (looks filter))
    (hkept : ∀ d ∈ kept, d ∈ documents)
    (hdecides : ∀ d ∈ kept, ∀ m ∈ ms, m.link.Decides looks (.ofJson d))
    (hfetch : fetcher 0 (selectionSpec condition stages) = .ok response)
    (hsupplies : Supplies id condition stages kept start response)
    (href : Referring (response.results.map .ofJson)) :
    q.result fetcher = .ok (Value.array (kept.map fun d => Link.project
      (·.followed look (response.results.map .ofJson)) looks (ms.map PlannedLink.link)
        (.ofJson d))).toJson := by
  let linked := ms.map (PlannedLink.linked look looks (response.results.map .ofJson))
  have hmembers : linked.map LinkedMember.member = ms.map PlannedLink.toMember := by
    rw [List.map_map]
    exact List.map_congr_left fun m _ => by cases m <;> rfl
  have hall : linked.flatMap (·.sources) = ms.flatMap (·.sources) := by
    rw [List.flatMap_map]
    exact List.flatMap_congr fun m _ => by cases m <;> rfl
  rw [← hmembers] at hplan
  have hsubjects : ∀ v ∈ kept.map Value.ofJson, v ∈ response.results.map Value.ofJson :=
    List.forall_mem_map.mpr hsupplies.mem
  have honce : ∀ m ∈ linked, FetchesOnce fetcher (response.results.map .ofJson)
      (kept.map .ofJson) (fun σ => σ.context.KeepsAll documents) m := by
    refine List.forall_mem_map.mpr fun m hm => ?_
    cases m with
    | chain m =>
      exact fetchesOnce_chain hlooks hkeep href hsubjects
        ((List.nodup_flatMap.mp (List.nodup_cons.mp hsources).2).1 _ hm)
    | sieve m =>
      obtain ⟨hfree, hreadFilter, htranslated, -⟩ := hread _ hm
      exact fetchesOnce_sieve hobjects htext hdistinct (hsifts m.filter hreadFilter htranslated) hkeep
        hfree href hsubjects (List.forall_mem_map.mpr fun d hd => hdecides d hd _ hm)
    | computed m =>
      exact fetchesOnce_computed htext hdistinct (hread _ hm)
        (List.forall_mem_map.mpr fun d hd => .inr ⟨d, hkept d hd, rfl⟩)
        (List.forall_mem_map.mpr fun d hd => hdecides d hd _ hm)
  refine (result_linked hplan hlocal (hall ▸ hsources) hfetch hsupplies (fun v hv => (href v hv).1)
    (@hkeep .empty id _ _ hfetch (Context.keepsAll_empty documents)) honce).trans ?_
  refine congrArg (fun vs => Except.ok (Value.array vs).toJson) (List.map_congr_left fun d _ => ?_)
  rw [LinkedMember.project, Link.project, List.foldl_map, List.foldl_map]
  refine congrArg Value.object (List.foldl_ext _ _ _ fun fs m _ => ?_)
  cases m <;> rfl

/-- A filter that has a value at null, and at what an element refers to, has one at what it refers to
among the documents that the filter admits. -/
theorem decides_admitted (href : ∀ d ∈ documents, (Value.ofJson d).hasTextRefs = true)
    (htext : TextIds documents) (hdistinct : DistinctIds documents) {m : Link} (hread : m.IsRead)
    {d : Json} (hd : d ∈ documents)
    (h : m.Decides (fun _ => Value.firstWithId (documents.map .ofJson)) (.ofJson d)) :
    m.Decides (lookAdmitted documents) (.ofJson d) := by
  cases m with
  | chain name c => trivial
  | computed m => exact h
  | sieve name path filter =>
    intro ref hmem
    have hrefText := Value.refsAt_text (href d hd) path ref hmem
    rcases lookAdmitted_cases htext hdistinct filter hrefText with hsame | ⟨hmissing, -⟩
    · rw [hsame]
      exact h ref hmem
    · rw [hmissing]
      exact hread.2.2.2

/-- Over a collection a member does what it does over all documents. -/
theorem effect_admitted (hdocuments : ∀ d ∈ documents, IsDocument d) (htext : TextIds documents)
    (hdistinct : DistinctIds documents)
    (href : ∀ d ∈ documents, (Value.ofJson d).hasTextRefs = true) {m : Link} (hread : m.IsRead)
    (hspares : m.SparesNull) {subjects : List Value} {d : Json} (hd : d ∈ documents)
    (hmem : Value.ofJson d ∈ subjects)
    (halong : ∀ first ∈ subjects.head?, m.LeadsAlong (documents.map .ofJson) first (.ofJson d)) :
    m.effect (·.followed (Chain.lookAmong (documents.map .ofJson)) subjects)
        (lookAdmitted documents) (.ofJson d) =
      m.effect (·.reached (documents.map .ofJson))
        (fun _ => Value.firstWithId (documents.map .ofJson)) (.ofJson d) := by
  cases m with
  | computed m => rfl
  | chain name c =>
    exact congrArg (fun (r : Reached) (fs : Fields Value) => fs.assign [(name, r.value)])
      (Chain.followed_eq_reached hmem halong)
  | sieve name path filter =>
    obtain ⟨hfree, hreadFilter, -, -⟩ := hread
    refine congrArg (fun (w : Value) (fs : Fields Value) => fs.assign [(name, w)])
      (sifted_admitted hdocuments htext hdistinct hfree hreadFilter (fun e he hadmits => ?_)
        (href d hd) path)
    exact hspares.elim (fun hseeks => holds_null_of_admits (hdocuments e he) hreadFilter hseeks hadmits)
      fun hnull => hnull

/-- What a query keeps of all documents is projected over these, and over a collection of them. -/
theorem exists_projected_links (hdocuments : ∀ d ∈ documents, IsDocument d)
    (hdistinct : DistinctIds documents) (htext : TextIds documents)
    (href : ∀ d ∈ documents, (Value.ofJson d).hasTextRefs = true)
    (hglobal : q.globalFilter = none)
    (hplan : q.operation = .ok (.pipe (.source id :: .filter condition :: stages) name))
    (hselection : Selection documents id condition stages)
    (hmembers : List.Forall₂ (Node.LinksTo q.params) nodes members)
    (hread : ∀ m ∈ members, m.IsRead)
    (hselected : Steps (.filter condition :: stages)
      (.one (sourceScope id .root ⟨documents.map .ofJson, 0⟩)) selected) :
    ∃ kept : List Json, (∀ d ∈ kept, d ∈ documents) ∧
      q.result (.fullScan documents) = .ok (Value.array (kept.map .ofJson)).toJson ∧
      ((∀ d ∈ kept, ∀ m ∈ members,
          m.Decides (fun _ => Value.firstWithId (documents.map .ofJson)) (.ofJson d)) →
        (q.projected nodes).result (.fullScan documents) = .ok (Value.array (kept.map fun d =>
          Link.project (·.reached (documents.map .ofJson))
            (fun _ => Value.firstWithId (documents.map .ofJson)) members (.ofJson d))).toJson ∧
        ∀ pushdown, ∃ response, (⟨pushdown, documents.map storedOf⟩ : Collection).fetch
            (selectionSpec condition stages) = .ok response ∧
          (∀ d ∈ kept, Value.ofJson d ∈ response.results.map Value.ofJson) ∧
          (q.projected nodes).result (⟨pushdown, documents.map storedOf⟩ : Collection).fetcher =
            .ok (Value.array (kept.map fun d => Link.project
              (·.followed (Chain.lookAmong (documents.map .ofJson)) (response.results.map .ofJson))
                (lookAdmitted documents) members (.ofJson d))).toJson) := by
  obtain ⟨ms, rfl, hproject, hnodup⟩ := operation_links hglobal hplan hmembers
  have hsources : (id :: ms.flatMap (·.sources)).Nodup :=
    hnodup.sublist ((List.sublist_append_right _ _).cons_cons id)
  have hlocal := hselection.isLocal
  have hobjects := objects_of_documents hdocuments
  obtain ⟨kept, start, rfl, hkept, hall, hsupplied⟩ := hselection.exists_kept hdocuments hselected
  refine ⟨kept, hkept, result_selected hlocal hplan hselected, fun hdecides => ?_⟩
  have hreadAll : ∀ m ∈ ms, m.link.IsRead := fun m hm => hread _ (List.mem_map_of_mem hm)
  have hdecidesAll : ∀ d ∈ kept, ∀ m ∈ ms,
      m.link.Decides (fun _ => Value.firstWithId (documents.map .ofJson)) (.ofJson d) :=
    fun d hd m hm => hdecides d hd _ (List.mem_map_of_mem hm)
  have hbrute := result_linked_members hobjects htext hdistinct hproject hlocal hsources
    (looks_fullScan href) (keptByFetching_fullScan documents) hreadAll
    (fun filter _ _ => sifts_fullScan documents filter) hkept hdecidesAll rfl hall
    (referring_results hobjects href (answers_all (selectionSpec condition stages) documents))
  have hreached : (kept.map fun d => Link.project (·.followed
        (fun _ => Value.firstWithId (documents.map .ofJson))
          ((FetchResponse.ofResults documents).results.map .ofJson))
        (fun _ => Value.firstWithId (documents.map .ofJson)) (ms.map PlannedLink.link)
          (.ofJson d)) =
      kept.map fun d => Link.project (·.reached (documents.map .ofJson))
        (fun _ => Value.firstWithId (documents.map .ofJson)) (ms.map PlannedLink.link) (.ofJson d) := by
    refine List.map_congr_left fun d _ => Link.project_congr fun m _ => ?_
    cases m with
    | chain name c =>
      exact congrArg (fun (r : Reached) (fs : Fields Value) => fs.assign [(name, r.value)])
        (Chain.followed_all c)
    | sieve name path filter | computed m => rfl
  rw [hreached] at hbrute
  refine ⟨hbrute, fun pushdown => ?_⟩
  obtain ⟨response, hfetch, hanswers, hsupplies⟩ := hsupplied pushdown
  exact ⟨response, hfetch, hsupplies.mem, result_linked_members hobjects htext hdistinct hproject
    hlocal hsources (looks_collection hdocuments href pushdown)
    (keptByFetching_collection hdocuments htext hdistinct pushdown) hreadAll
    (fun filter hreadFilter htranslated =>
      sifts_collection hdocuments hreadFilter htranslated pushdown) hkept
    (fun d hd m hm => decides_admitted href htext hdistinct (hreadAll m hm) (hkept d hd)
      (hdecidesAll d hd m hm)) (fetcher_eq_ok hfetch 0) hsupplies
    (referring_results hobjects href hanswers)⟩

/-- **Filtered dereferences.** Let a query have a result over all documents, and let what it keeps be
projected along chains of references and filtered dereferences, beside members that are computed;
and let filters and computed members have a value wherever they are asked. Over all documents an
element of a dereferenced array gives what it refers to, or null, if the filter is `true` of that.
Over a collection it does so among the documents that the filter's selector accepts, the others
counting as missing. So both results are the same if every filter calls `references()` only for its
truth or is not `true` of null, and whatever is kept leads over references that the first fetched
document leads over too. -/
theorem result_links (hdocuments : ∀ d ∈ documents, IsDocument d)
    (hdistinct : DistinctIds documents) (htext : TextIds documents)
    (href : ∀ d ∈ documents, (Value.ofJson d).hasTextRefs = true)
    (hglobal : q.globalFilter = none)
    (hplan : q.operation = .ok (.pipe (.source id :: .filter condition :: stages) name))
    (hselection : Selection documents id condition stages)
    (hmembers : List.Forall₂ (Node.LinksTo q.params) nodes members)
    (hread : ∀ m ∈ members, m.IsRead)
    (hscan : q.result (.fullScan documents) = .ok result) :
    ∃ kept : List Json, (∀ d ∈ kept, d ∈ documents) ∧
      result = (Value.array (kept.map .ofJson)).toJson ∧
      ((∀ d ∈ kept, ∀ m ∈ members,
          m.Decides (fun _ => Value.firstWithId (documents.map .ofJson)) (.ofJson d)) →
        (q.projected nodes).result (.fullScan documents) = .ok (Value.array (kept.map fun d =>
          Link.project (·.reached (documents.map .ofJson))
            (fun _ => Value.firstWithId (documents.map .ofJson)) members (.ofJson d))).toJson ∧
        ∀ pushdown, ∃ c response, ofDocuments pushdown documents = .ok c ∧
          c.fetch (selectionSpec condition stages) = .ok response ∧
          (q.projected nodes).result c.fetcher = .ok (Value.array (kept.map fun d => Link.project
            (·.followed (Chain.lookAmong (documents.map .ofJson)) (response.results.map .ofJson))
              (lookAdmitted documents) members (.ofJson d))).toJson ∧
          ((∀ m ∈ members, m.SparesNull) →
            (∀ first ∈ response.results.head?, ∀ d ∈ kept, ∀ m ∈ members,
              m.LeadsAlong (documents.map .ofJson) (.ofJson first) (.ofJson d)) →
            (q.projected nodes).result c.fetcher =
              (q.projected nodes).result (.fullScan documents))) := by
  obtain ⟨selected, hselected⟩ := exists_selected hselection.isLocal hplan hscan
  obtain ⟨kept, hkept, hresult, hall⟩ := exists_projected_links hdocuments hdistinct htext href
    hglobal hplan hselection hmembers hread hselected
  refine ⟨kept, hkept, Except.ok.inj (hscan.symm.trans hresult), fun hdecides => ?_⟩
  obtain ⟨hbrute, hcollection⟩ := hall hdecides
  refine ⟨hbrute, fun pushdown => ?_⟩
  obtain ⟨response, hfetch, hmem, hprojected⟩ := hcollection pushdown
  refine ⟨_, response, ofDocuments_eq hdocuments hdistinct pushdown, hfetch, hprojected,
    fun hspares halong => ?_⟩
  rw [hprojected, hbrute]
  refine congrArg (fun vs => Except.ok (Value.array vs).toJson) (List.map_congr_left fun d hd => ?_)
  refine Link.project_congr fun m hm => effect_admitted hdocuments htext hdistinct href (hread m hm)
    (hspares m hm) (hkept d hd) (hmem d hd) fun v hv => ?_
  rw [List.head?_map] at hv
  obtain ⟨first, hfirst, rfl⟩ := Option.map_eq_some_iff.mp hv
  exact halong first hfirst d hd m hm

/-- Of two documents that are referred to one has the attribute that must not be there; a third one
does not exist. All attributes are kept beside them. -/
theorem result_links_undefined :
    ∃ (q : Query) (nodes : List Node) (documents : List Json),
      q.operation = .ok (.pipe [.source 1,
        .filter (.binary .eq (.attr "t") (.literal (.string "p")))] none) ∧
      List.Forall₂ (Node.LinksTo q.params) nodes
        [.computed .splat, .sieve "hit" ["refs"] (.not (.call .defined [.attr "x"]))] ∧
      documents = [
        .obj [("_id", .str "p"), ("refs", .arr [.obj [("_ref", .str "a")], .obj [("_ref", .str "b")],
          .obj [("_ref", .str "z")]]), ("t", .str "p")],
        .obj [("_id", .str "a"), ("x", .int 1)], .obj [("_id", .str "b")]] ∧
      ∀ pushdown, ∃ c, ofDocuments pushdown documents = .ok c ∧
        (q.projected nodes).result c.fetcher = .ok (.arr [.obj [("_id", .str "p"),
          ("hit", .arr [.obj [("_id", .str "b")], .null]),
          ("refs", .arr [.obj [("_ref", .str "a")], .obj [("_ref", .str "b")],
            .obj [("_ref", .str "z")]]), ("t", .str "p")]]) := by
  let p : Json := .obj [("_id", .str "p"), ("refs", .arr [.obj [("_ref", .str "a")],
    .obj [("_ref", .str "b")], .obj [("_ref", .str "z")]]), ("t", .str "p")]
  let documents : List Json := [p, .obj [("_id", .str "a"), ("x", .int 1)], .obj [("_id", .str "b")]]
  let q : Query := ⟨.filtered (.binary .equals (.attr "t") (.string "p")), [], none⟩
  let nodes : List Node := [.ellipsis, .binary .colon (.string "hit")
    (.sifted (.attr "refs") (.not (.functionCall "defined" [.attr "x"])))]
  let filter : Operation := .not (.call .defined [.attr "x"])
  have hplan : q.operation = .ok (.pipe [.source 1,
      .filter (.binary .eq (.attr "t") (.literal (.string "p")))] none) := by
    with_unfolding_all rfl
  have hmembers : List.Forall₂ (Node.LinksTo q.params) nodes
      [.computed .splat, .sieve "hit" ["refs"] filter] :=
    .cons (.computed (fun n => by with_unfolding_all rfl) rfl)
      (.cons (.named "hit" rfl fun n => by with_unfolding_all rfl) .nil)
  have heval : ∀ v, ∃ w, Correlated.eval .null filter v = .ok w := fun v => ⟨_, rfl⟩
  have hscan : q.result (.fullScan documents) = .ok (.arr [p]) := by
    with_unfolding_all rfl
  obtain ⟨kept, hkept, hresult, hall⟩ := result_links
    (by decide : ∀ d ∈ documents, IsDocument d) (by decide) (by decide) (by decide) rfl hplan
    (.of_filter documents 1 (by decide) (by decide) ⟨_, rfl⟩) hmembers
    (List.forall_mem_cons.mpr ⟨rfl,
      List.forall_mem_singleton.mpr ⟨by decide, by decide, ⟨_, rfl⟩, heval .null⟩⟩) hscan
  obtain ⟨hbrute, hcollection⟩ := hall fun d _ =>
    List.forall_mem_cons.mpr ⟨⟨_, rfl⟩, List.forall_mem_singleton.mpr fun ref _ => heval _⟩
  have hprojected := @map_kept documents kept [p] (by decide) hkept
    (List.forall_mem_singleton.mpr List.mem_cons_self) hresult
  refine ⟨q, nodes, documents, hplan, hmembers, rfl, fun pushdown => ?_⟩
  obtain ⟨c, response, hc, -, -, hagree⟩ := hcollection pushdown
  refine ⟨c, hc, (hagree (List.forall_mem_cons.mpr ⟨trivial,
    List.forall_mem_singleton.mpr (.inl (by decide))⟩) fun _ _ _ _ =>
      List.forall_mem_cons.mpr ⟨trivial, List.forall_mem_singleton.mpr trivial⟩).trans
        (hbrute.trans ?_)⟩
  rw [hprojected]
  with_unfolding_all rfl

/-- A document that refers to `k` is not admitted where `k` must not be referred to, and null takes
its place. -/
theorem result_links_negated :
    ∃ (q : Query) (nodes : List Node) (documents : List Json) (c : Collection),
      q.operation = .ok (.pipe [.source 1,
        .filter (.binary .eq (.attr "t") (.literal (.string "p")))] none) ∧
      List.Forall₂ (Node.LinksTo q.params) nodes
        [.sieve "hit" ["refs"] (.not (.call .references [.literal (.string "k")]))] ∧
      documents = [
        .obj [("_id", .str "p"), ("refs", .arr [.obj [("_ref", .str "a")], .obj [("_ref", .str "b")]]),
          ("t", .str "p")],
        .obj [("_id", .str "a")], .obj [("_id", .str "b"), ("r", .obj [("_ref", .str "k")])]] ∧
      (∀ d ∈ documents, IsDocument d) ∧ DistinctIds documents ∧ TextIds documents ∧
      (∀ d ∈ documents, (Value.ofJson d).hasTextRefs = true) ∧
      ofDocuments true documents = .ok c ∧
      (q.projected nodes).result (.fullScan documents) =
        .ok (.arr [.obj [("hit", .arr [.obj [("_id", .str "a")]])]]) ∧
      (q.projected nodes).result c.fetcher =
        .ok (.arr [.obj [("hit", .arr [.obj [("_id", .str "a")], .null])]]) := by
  let p : Json := .obj [("_id", .str "p"),
    ("refs", .arr [.obj [("_ref", .str "a")], .obj [("_ref", .str "b")]]), ("t", .str "p")]
  let documents : List Json := [p, .obj [("_id", .str "a")],
    .obj [("_id", .str "b"), ("r", .obj [("_ref", .str "k")])]]
  let q : Query := ⟨.filtered (.binary .equals (.attr "t") (.string "p")), [], none⟩
  let nodes : List Node := [.binary .colon (.string "hit")
    (.sifted (.attr "refs") (.not (.functionCall "references" [.string "k"])))]
  let filter : Operation := .not (.call .references [.literal (.string "k")])
  have hplan : q.operation = .ok (.pipe [.source 1,
      .filter (.binary .eq (.attr "t") (.literal (.string "p")))] none) := by
    with_unfolding_all rfl
  have hmembers : List.Forall₂ (Node.LinksTo q.params) nodes [.sieve "hit" ["refs"] filter] :=
    .cons (.named "hit" rfl fun n => by with_unfolding_all rfl) .nil
  have heval : ∀ v, ∃ w, Correlated.eval .null filter v = .ok w := fun v => ⟨_, rfl⟩
  have hscan : q.result (.fullScan documents) = .ok (.arr [p]) := by
    with_unfolding_all rfl
  have hselection : Selection documents 1 (.binary .eq (.attr "t") (.literal (.string "p"))) [] :=
    .of_filter documents 1 (by decide) (by decide) ⟨_, rfl⟩
  obtain ⟨selected, hselected⟩ := exists_selected hselection.isLocal hplan hscan
  obtain ⟨kept, hkept, hresult, hall⟩ := exists_projected_links
    (by decide : ∀ d ∈ documents, IsDocument d) (by decide) (by decide) (by decide) rfl hplan
    hselection hmembers
    (List.forall_mem_singleton.mpr ⟨by decide, by decide, ⟨_, rfl⟩, heval .null⟩) hselected
  obtain ⟨hbrute, hcollection⟩ := hall fun d _ =>
    List.forall_mem_singleton.mpr fun ref _ => heval _
  have hprojected := @map_kept documents kept [p] (by decide) hkept
    (List.forall_mem_singleton.mpr List.mem_cons_self) (Except.ok.inj (hscan.symm.trans hresult))
  obtain ⟨response, -, -, hadmitted⟩ := hcollection true
  refine ⟨q, nodes, documents, ⟨true, documents.map storedOf⟩, hplan, hmembers, rfl, by decide,
    by decide, by decide, by decide, rfl, hbrute.trans ?_, hadmitted.trans ?_⟩
  · rw [hprojected]
    with_unfolding_all rfl
  · rw [hprojected]
    with_unfolding_all rfl

end Query
end DocQuery
