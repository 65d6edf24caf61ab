import DocQuery.Proofs.Plan.Scoping
import DocQuery.Proofs.Plan.Sources

/-!
# What plans make use of

Four things in a query reach beyond the value that it is asked at: sources, map joins, the enclosing
value and `references()`. `Node.usesOnly` and `Operation.Conforms` say which of them a syntax tree
and a plan may use. A plan that conforms reads from sources **only at the head of its pipelines**;
which source may stand there, in front of which stages, is a parameter.

Planning brings nothing in: what a syntax tree does not use, its plan does not use
(`conforms_compose`), and no plan has a source anywhere but at the head of a pipeline. Putting a
filter behind every source keeps that up (`Conforms.restrict`).
-/

set_option autoImplicit false

namespace DocQuery

/-- Which of the things that reach beyond a value may be used. -/
structure Features where
  sources : Bool := true
  joins : Bool := true
  parents : Bool := true
  references : Bool := true

namespace Features

/-- None of them. -/
def closed : Features := ⟨false, false, false, false⟩

/-- What may be used under `f` may be used under `g`. -/
structure Below (f g : Features) : Prop where
  sources : f.sources = true → g.sources = true
  joins : f.joins = true → g.joins = true
  parents : f.parents = true → g.parents = true
  references : f.references = true → g.references = true

theorem Below.refl (f : Features) : f.Below f := ⟨id, id, id, id⟩

theorem closed_below (f : Features) : closed.Below f :=
  ⟨fun h => (nomatch h), fun h => (nomatch h), fun h => (nomatch h), fun h => (nomatch h)⟩

end Features

/-! ## Syntax trees -/

namespace Node

/-- Whether this is the path of an attribute. -/
def isAccessor : Node → Bool
  | attr _ | parent => true
  | dot lhs rhs => isAccessor lhs && isAccessor rhs
  | _ => false

/-- Whether this is a pipeline. -/
def isPipeline : Node → Bool
  | pipe _ _ | everything | postfixed .arrow _ => true
  | dot lhs rhs => !(isAccessor lhs && isAccessor rhs)
  | _ => false

/-- Whether this is a member of an object by itself: it says its name, or stands for all fields. -/
def isMember : Node → Bool
  | binary .colon _ _ | ellipsis => true
  | _ => false

/-- Whether an operand can be dereferenced: for an accessor that takes a source and the enclosing
value, and for a pipeline a map join on top. -/
def mayFollow (f : Features) (operand : Node) : Bool :=
  if operand.isAccessor then f.sources && f.parents
  else if operand.isPipeline then f.sources && f.joins && f.parents
  else true

mutual

/-- Whether a syntax tree uses nothing else. -/
def usesOnly (f : Features) : Node → Bool
  | pipe lhs rhs | dot lhs rhs | binary _ lhs rhs | range lhs rhs _ =>
    usesOnly f lhs && usesOnly f rhs
  | everything => f.sources
  | parent => f.parents
  | constraint none => true
  | constraint (some e) => usesOnly f e
  | not operand | subscript operand => usesOnly f operand
  | postfixed operator operand =>
    usesOnly f operand && (operator != .arrow || mayFollow f operand)
  | object members => usesOnlyAll f members
  | array elements => usesOnlyAll f elements
  | functionCall name arguments =>
    usesOnlyAll f arguments && (name != "references" || f.references)
  | attr _ | ellipsis | param _ | integer _ | float _ | string _ | bool _ | null => true

def usesOnlyAll (f : Features) : List Node → Bool
  | [] => true
  | node :: nodes => usesOnly f node && usesOnlyAll f nodes

end

end Node

/-! ## Plans -/

namespace Operation

mutual

/-- An operation that uses nothing else and begins pipelines only with sources that `reads` allows,
in front of the stages behind them. What is no expression has nothing to be kept to: it fails. -/
def Conforms (f : Features) (reads : SourceId → List Operation → Prop) : Operation → Prop
  | source _ => False
  | filter condition => Conforms f reads condition
  | binary _ lhs rhs => Conforms f reads lhs ∧ Conforms f reads rhs
  | not operand => Conforms f reads operand
  | accessor path => f.parents = true ∨ .parent ∉ path
  | literal _ | splat | subscript _ | range _ _ _ => True
  | object members => ConformsMembers f reads members
  | array elements => ConformsAll f reads elements
  | assignment _ value => Conforms f reads value
  | sortDirection (.mk e _) => Conforms f reads e
  | ordering terms => ConformsTerms f reads terms
  | call function arguments =>
    (function = .references → f.references = true) ∧ ConformsAll f reads arguments
  | pipe stages _ => ConformsStages f reads stages
  | mapJoin stages => f.joins = true ∧ f.parents = true ∧ ConformsStages f reads stages

def ConformsStages (f : Features) (reads : SourceId → List Operation → Prop) :
    List Operation → Prop
  | [] => True
  | first :: rest =>
    ((∃ id, first = source id ∧ f.sources = true ∧ reads id rest) ∨ Conforms f reads first) ∧
      ConformsAll f reads rest

def ConformsAll (f : Features) (reads : SourceId → List Operation → Prop) :
    List Operation → Prop
  | [] => True
  | o :: os => Conforms f reads o ∧ ConformsAll f reads os

def ConformsMembers (f : Features) (reads : SourceId → List Operation → Prop) :
    List Member → Prop
  | [] => True
  | .assignment _ value :: ms => Conforms f reads value ∧ ConformsMembers f reads ms
  | .splat :: ms => ConformsMembers f reads ms

def ConformsTerms (f : Features) (reads : SourceId → List Operation → Prop) :
    List SortTerm → Prop
  | [] => True
  | .mk e _ :: ts => Conforms f reads e ∧ ConformsTerms f reads ts

end

variable {f g : Features} {reads reads' : SourceId → List Operation → Prop}

/-- What conforms is no bare source. -/
theorem ConformsAll.noSource : ∀ {os : List Operation}, ConformsAll f reads os → NoSource os
  | [], _, _, hid => nomatch hid
  | o :: os, h, id, hid => by
    cases hid with
    | head => exact h.1
    | tail _ hid => exact ConformsAll.noSource h.2 id hid

theorem conformsAll_append {os os' : List Operation} :
    ConformsAll f reads (os ++ os') ↔ ConformsAll f reads os ∧ ConformsAll f reads os' := by
  induction os with
  | nil => simp [ConformsAll]
  | cons o os ih => exact (and_congr_right fun _ => ih).trans and_assoc.symm

/-! What is allowed may grow. -/

/-- What `f` and `reads` allow in a plan with these sources, `g` and `reads'` allow. The sources of a
pipeline are among those of its plan, in their order. -/
structure Grows (f g : Features) (reads reads' : SourceId → List Operation → Prop)
    (ids : List SourceId) : Prop where
  below : f.Below g
  reads : f.sources = true → ∀ id rest, (id :: sourcesAll rest).Sublist ids →
    ConformsAll f reads rest → reads id rest → reads' id rest

mutual

theorem Conforms.imp {ids : List SourceId} (h : Grows f g reads reads' ids) :
    ∀ {o : Operation}, o.sources.Sublist ids → Conforms f reads o → Conforms g reads' o
  | source _, _, ho => ho
  | filter condition, hsub, ho => Conforms.imp h (o := condition) hsub ho
  | binary _ _ _, hsub, ho =>
    ⟨Conforms.imp h ((List.sublist_append_left _ _).trans hsub) ho.1,
      Conforms.imp h ((List.sublist_append_right _ _).trans hsub) ho.2⟩
  | not operand, hsub, ho => Conforms.imp h (o := operand) hsub ho
  | accessor _, _, ho => Or.imp_left h.below.parents ho
  | literal _, _, _ | splat, _, _ | subscript _, _, _ | range _ _ _, _, _ => trivial
  | assignment _ value, hsub, ho => Conforms.imp h (o := value) hsub ho
  | sortDirection (.mk e _), hsub, ho => Conforms.imp h (o := e) hsub ho
  | object members, hsub, ho => ConformsMembers.imp h members hsub ho
  | array elements, hsub, ho => ConformsAll.imp h elements hsub ho
  | ordering terms, hsub, ho => ConformsTerms.imp h terms hsub ho
  | call _ arguments, hsub, ho =>
    ⟨fun hf => h.below.references (ho.1 hf), ConformsAll.imp h arguments hsub ho.2⟩
  | pipe stages _, hsub, ho => ConformsStages.imp h stages hsub ho
  | mapJoin stages, hsub, ho =>
    ⟨h.below.joins ho.1, h.below.parents ho.2.1, ConformsStages.imp h stages hsub ho.2.2⟩

theorem ConformsStages.imp {ids : List SourceId} (h : Grows f g reads reads' ids) :
    ∀ stages : List Operation, (sourcesAll stages).Sublist ids → ConformsStages f reads stages →
      ConformsStages g reads' stages
  | [], _, _ => trivial
  | first :: rest, hsub, hstages => by
    obtain ⟨hfirst, hrest⟩ := hstages
    have hrest' := ConformsAll.imp h rest ((List.sublist_append_right _ _).trans hsub) hrest
    rcases hfirst with ⟨id, rfl, hsources, hreads⟩ | hfirst
    · exact ⟨.inl ⟨id, rfl, h.below.sources hsources, h.reads hsources id rest hsub hrest hreads⟩, hrest'⟩
    · exact ⟨.inr (Conforms.imp h ((List.sublist_append_left _ _).trans hsub) hfirst), hrest'⟩

theorem ConformsAll.imp {ids : List SourceId} (h : Grows f g reads reads' ids) :
    ∀ os : List Operation, (sourcesAll os).Sublist ids → ConformsAll f reads os →
      ConformsAll g reads' os
  | [], _, _ => trivial
  | _ :: os, hsub, hos =>
    ⟨Conforms.imp h ((List.sublist_append_left _ _).trans hsub) hos.1,
      ConformsAll.imp h os ((List.sublist_append_right _ _).trans hsub) hos.2⟩

theorem ConformsMembers.imp {ids : List SourceId} (h : Grows f g reads reads' ids) :
    ∀ ms : List Member, (sourcesMembers ms).Sublist ids → ConformsMembers f reads ms →
      ConformsMembers g reads' ms
  | [], _, _ => trivial
  | .assignment _ _ :: ms, hsub, hms =>
    ⟨Conforms.imp h ((List.sublist_append_left _ _).trans hsub) hms.1,
      ConformsMembers.imp h ms ((List.sublist_append_right _ _).trans hsub) hms.2⟩
  | .splat :: ms, hsub, hms => ConformsMembers.imp h ms hsub hms

theorem ConformsTerms.imp {ids : List SourceId} (h : Grows f g reads reads' ids) :
    ∀ ts : List SortTerm, (sourcesTerms ts).Sublist ids → ConformsTerms f reads ts →
      ConformsTerms g reads' ts
  | [], _, _ => trivial
  | .mk _ _ :: ts, hsub, hts =>
    ⟨Conforms.imp h ((List.sublist_append_left _ _).trans hsub) hts.1,
      ConformsTerms.imp h ts ((List.sublist_append_right _ _).trans hsub) hts.2⟩

end

/-- Stages that read from every source but one. -/
def Avoids (f : Features) (id : SourceId) (stages : List Operation) : Prop :=
  ConformsAll f (fun other _ => other ≠ id) stages

/-- Where no source stands twice, none is read again behind itself. -/
theorem Conforms.fresh {o : Operation} (h : o.Conforms f reads) (hnodup : o.sources.Nodup) :
    o.Conforms f fun id rest => id ∈ o.sources ∧ Avoids f id rest := by
  refine h.imp ⟨.refl f, fun _ id rest hsub hrest _ => ⟨hsub.subset List.mem_cons_self, ?_⟩⟩ (.refl _)
  have hid : id ∉ sourcesAll rest := (List.nodup_cons.mp (hnodup.sublist hsub)).1
  refine ConformsAll.imp ⟨.refl f, fun _ other stages hother _ _ => ?_⟩ rest (.refl _) hrest
  rintro rfl
  exact hid (hother.subset List.mem_cons_self)

/-! ## Putting a filter behind every source -/

section

open Planner

/-- A filter that `g` and `reads'` allow, behind each source of what `f` and `reads` allow. -/
structure Restrains (condition : Operation) (f g : Features)
    (reads reads' : SourceId → List Operation → Prop) : Prop where
  below : f.Below g
  kept : condition.Conforms g reads'
  pipe : ∀ id rest, ConformsAll f reads rest → reads id rest →
    reads' id (.filter condition :: mapPipesAll (afterSources condition) rest)
  /-- The sources in map joins are left as they are. -/
  join : f.joins = true → ∀ id rest, ConformsAll f reads rest → reads id rest →
    reads' id (mapPipesAll (afterSources condition) rest)

variable {condition : Operation}

mutual

theorem Conforms.mapPipes (h : Restrains condition f g reads reads') :
    ∀ {o : Operation}, Conforms f reads o →
      Conforms g reads' (mapPipes (afterSources condition) o)
  | source _, ho => ho
  | filter inner, ho => Conforms.mapPipes h (o := inner) ho
  | binary _ _ _, ho => ⟨Conforms.mapPipes h ho.1, Conforms.mapPipes h ho.2⟩
  | not operand, ho => Conforms.mapPipes h (o := operand) ho
  | accessor _, ho => Or.imp_left h.below.parents ho
  | literal _, _ | splat, _ | subscript _, _ | range _ _ _, _ => trivial
  | assignment _ value, ho => Conforms.mapPipes h (o := value) ho
  | sortDirection (.mk e _), ho => Conforms.mapPipes h (o := e) ho
  | object members, ho => ConformsMembers.mapPipes h members ho
  | array elements, ho => ConformsAll.mapPipes h elements ho
  | ordering terms, ho => ConformsTerms.mapPipes h terms ho
  | call _ arguments, ho =>
    ⟨fun hf => h.below.references (ho.1 hf), ConformsAll.mapPipes h arguments ho.2⟩
  | pipe [] _, _ => trivial
  | pipe (first :: rest) name, ho => by
    obtain ⟨hfirst, hrest⟩ := ho
    have hrest' := ConformsAll.mapPipes h rest hrest
    rcases hfirst with ⟨id, rfl, hsources, hreads⟩ | hfirst
    · show ConformsStages g reads' (.source id :: .filter condition ::
        afterSources condition (mapPipesAll (afterSources condition) rest))
      rw [afterSources_of_noSource hrest'.noSource]
      exact ⟨.inl ⟨id, rfl, h.below.sources hsources, h.pipe id rest hrest hreads⟩, h.kept,
        hrest'⟩
    · have hall : ConformsAll g reads' (mapPipesAll (afterSources condition) (first :: rest)) :=
        ⟨Conforms.mapPipes h hfirst, hrest'⟩
      show ConformsStages g reads'
        (afterSources condition (mapPipesAll (afterSources condition) (first :: rest)))
      rw [afterSources_of_noSource hall.noSource]
      exact ⟨.inr hall.1, hall.2⟩
  | mapJoin [], ho => ⟨h.below.joins ho.1, h.below.parents ho.2.1, trivial⟩
  | mapJoin (first :: rest), ho => by
    obtain ⟨hjoins, hparents, hfirst, hrest⟩ := ho
    refine ⟨h.below.joins hjoins, h.below.parents hparents, ?_, ConformsAll.mapPipes h rest hrest⟩
    rcases hfirst with ⟨id, rfl, hsources, hreads⟩ | hfirst
    · exact .inl ⟨id, rfl, h.below.sources hsources, h.join hjoins id rest hrest hreads⟩
    · exact .inr (Conforms.mapPipes h hfirst)

theorem ConformsAll.mapPipes (h : Restrains condition f g reads reads') :
    ∀ os : List Operation, ConformsAll f reads os →
      ConformsAll g reads' (mapPipesAll (afterSources condition) os)
  | [], _ => trivial
  | _ :: os, hos => ⟨Conforms.mapPipes h hos.1, ConformsAll.mapPipes h os hos.2⟩

theorem ConformsMembers.mapPipes (h : Restrains condition f g reads reads') :
    ∀ ms : List Member, ConformsMembers f reads ms →
      ConformsMembers g reads' (mapPipesMembers (afterSources condition) ms)
  | [], _ => trivial
  | .assignment _ _ :: ms, hms =>
    ⟨Conforms.mapPipes h hms.1, ConformsMembers.mapPipes h ms hms.2⟩
  | .splat :: ms, hms => ConformsMembers.mapPipes h ms hms

theorem ConformsTerms.mapPipes (h : Restrains condition f g reads reads') :
    ∀ ts : List SortTerm, ConformsTerms f reads ts →
      ConformsTerms g reads' (mapPipesTerms (afterSources condition) ts)
  | [], _ => trivial
  | .mk _ _ :: ts, hts => ⟨Conforms.mapPipes h hts.1, ConformsTerms.mapPipes h ts hts.2⟩

end

/-- The pipelines of a restricted plan begin with the same sources, and the filter stands behind
them. -/
theorem Conforms.restrict {o : Operation} (ho : o.Conforms f reads)
    (h : Restrains condition f g reads reads') : (restrict condition o).Conforms g reads' := by
  rw [restrict_eq]
  exact ho.mapPipes h

end

end Operation

/-! ## Planning brings nothing in -/

namespace Operation

def isAccessor : Operation → Bool
  | accessor _ => true
  | _ => false

def isPipeline : Operation → Bool
  | pipe _ _ => true
  | _ => false

def isMember : Operation → Bool
  | assignment _ _ | splat => true
  | _ => false

end Operation

namespace Planner

open Operation

variable {params : Params} {f : Features} {n n' : SourceId} {o : Operation}

/-- The sources that a planned pipeline may begin with: any. -/
def anySource : SourceId → List Operation → Prop := fun _ _ => True

theorem isPipeline_pipeInto (lhs rhs : Operation) : (pipeInto lhs rhs).isPipeline = true := by
  cases lhs <;> rfl

theorem isAccessor_eq_false (h : o.isPipeline = true) : o.isAccessor = false := by
  cases o <;> first | rfl | cases h

theorem isMember_eq_false (h : o.isPipeline = true) : o.isMember = false := by
  cases o <;> first | rfl | cases h

/-- Accessors join, and everything else becomes a pipeline. -/
theorem access_cases (lhs rhs : Operation) :
    (∃ path rest, lhs = .accessor path ∧ rhs = .accessor rest ∧
      access lhs rhs = .accessor (path ++ rest)) ∨
    ((lhs.isAccessor && rhs.isAccessor) = false ∧ access lhs rhs = pipeInto lhs rhs) := by
  unfold access
  split
  · next path rest => exact .inl ⟨path, rest, rfl, rfl, rfl⟩
  · next hnot =>
    refine .inr ⟨?_, rfl⟩
    cases lhs <;> cases rhs <;> first | rfl | exact (hnot _ _ rfl rfl).elim

theorem shape_access (lhs rhs : Operation) :
    (access lhs rhs).isAccessor = (lhs.isAccessor && rhs.isAccessor) ∧
      (access lhs rhs).isPipeline = !(lhs.isAccessor && rhs.isAccessor) ∧
      (access lhs rhs).isMember = false := by
  rcases access_cases lhs rhs with ⟨path, rest, rfl, rfl, heq⟩ | ⟨hshape, heq⟩
  · rw [heq]
    exact ⟨rfl, rfl, rfl⟩
  · have hpipe := isPipeline_pipeInto lhs rhs
    rw [heq, hshape, hpipe, isAccessor_eq_false hpipe, isMember_eq_false hpipe]
    exact ⟨rfl, rfl, rfl⟩

/-- A dereference reads from a new source, behind an accessor by the enclosing value and behind a
pipeline by a map join. -/
theorem shape_dereference {operand : Operation} (h : Gives (dereference operand) n o n') :
    (∃ path, operand = .accessor path ∧ o = .pipe [.source n,
      .filter (.binary .eq (.accessor (.parent :: path ++ [.attr "_ref"])) (.attr "_id")),
      .subscript ⟨0, 1, true⟩] operand.memberName?) ∨
    (∃ stages name, operand = .pipe stages name ∧
      o = .pipe [.source n, .mapJoin (stages ++ [.attr "_ref"])] operand.memberName?) ∨
    o = .pipe [.literal .null] none := by
  unfold dereference at h
  cases operand with
  | accessor path =>
    simp only [gives_bind, gives_newSource, gives_pure] at h
    obtain ⟨_, _, ⟨rfl, -⟩, rfl, -⟩ := h
    exact .inl ⟨path, rfl, rfl⟩
  | pipe stages name =>
    simp only [gives_bind, gives_newSource, gives_pure] at h
    obtain ⟨_, _, ⟨rfl, -⟩, rfl, -⟩ := h
    exact .inr (.inl ⟨stages, name, rfl, rfl⟩)
  | _ => exact .inr (.inr (gives_pure.mp h).1)

/-- A window is what it says. -/
theorem shape_window {value : Node} (h : Gives (compose params (.subscript value)) n o n') :
    ∃ w, o = .subscript w := by
  rw [compose.eq_def] at h
  split at h
  all_goals try contradiction
  · next start stop inclusive heq =>
    cases inclusive <;>
      · simp only [reduceIte, Bool.false_eq_true, gives_bind, gives_pure, gives_lift] at h
        obtain ⟨_, _, -, _, _, -, _, _, -, _, _, -, _, _, -, rfl, -⟩ := h
        exact ⟨_, rfl⟩
  · simp only [gives_bind, gives_pure, gives_lift] at h
    obtain ⟨_, _, -, _, _, -, _, _, -, rfl, -⟩ := h
    exact ⟨_, rfl⟩

/-- What of an operation can be told in its syntax tree. -/
structure Shaped (node : Node) (o : Operation) : Prop where
  accessor : o.isAccessor = node.isAccessor
  pipeline : o.isPipeline = node.isPipeline
  member : o.isMember = node.isMember

theorem shape_compose : ∀ {node : Node} {n n' : SourceId} {o : Operation},
    Gives (compose params node) n o n' → Shaped node o
  | .pipe lhs rhs, n, n', o, h => by
    obtain ⟨l, m, r, -, -, rfl⟩ := gives_pipe.mp h
    have hpipe := isPipeline_pipeInto l r
    exact ⟨isAccessor_eq_false hpipe, hpipe, isMember_eq_false hpipe⟩
  | .dot lhs rhs, n, n', o, h => by
    obtain ⟨l, m, r, hl, hr, rfl⟩ := gives_dot.mp h
    have hshape := shape_access l r
    rw [(shape_compose hl).accessor, (shape_compose hr).accessor] at hshape
    exact ⟨hshape.1, hshape.2.1, hshape.2.2⟩
  | .everything, n, n', o, h => by
    obtain ⟨rfl, -⟩ := gives_everything.mp h
    exact ⟨rfl, rfl, rfl⟩
  | .constraint none, n, n', o, h | .attr _, n, n', o, h | .parent, n, n', o, h
  | .ellipsis, n, n', o, h | .integer _, n, n', o, h | .float _, n, n', o, h
  | .string _, n, n', o, h | .bool _, n, n', o, h | .null, n, n', o, h => by
    rw [compose, gives_pure] at h
    obtain ⟨rfl, rfl⟩ := h
    exact ⟨rfl, rfl, rfl⟩
  | .constraint (some _), n, n', o, h => by
    obtain ⟨_, -, rfl⟩ := gives_filter.mp h
    exact ⟨rfl, rfl, rfl⟩
  | .not _, n, n', o, h => by
    obtain ⟨_, -, rfl⟩ := gives_not.mp h
    exact ⟨rfl, rfl, rfl⟩
  | .array _, n, n', o, h => by
    obtain ⟨_, -, rfl⟩ := gives_array.mp h
    exact ⟨rfl, rfl, rfl⟩
  | .range _ _ _, n, n', o, h => by
    obtain ⟨_, _, _, -, -, rfl⟩ := gives_range.mp h
    exact ⟨rfl, rfl, rfl⟩
  | .binary operator lhs rhs, n, n', o, h => by
    obtain ⟨_, _, _, -, -, hbinary⟩ := gives_binary.mp h
    unfold binary at hbinary
    split at hbinary
    case h_11 =>
      split at hbinary <;> cases hbinary
      exact ⟨rfl, rfl, rfl⟩
    all_goals
      cases hbinary
      exact ⟨rfl, rfl, rfl⟩
  | .postfixed operator operand, n, n', o, h => by
    obtain ⟨c, m, -, h⟩ := gives_postfixed.mp h
    cases operator with
    | arrow =>
      rcases shape_dereference h with ⟨_, -, rfl⟩ | ⟨_, _, -, rfl⟩ | rfl <;> exact ⟨rfl, rfl, rfl⟩
    | _ =>
      obtain ⟨rfl, rfl⟩ := gives_pure.mp h
      exact ⟨rfl, rfl, rfl⟩
  | .object members, n, n', o, h => by
    obtain ⟨_, _, -, -, rfl⟩ := gives_members.mp h
    exact ⟨rfl, rfl, rfl⟩
  | .subscript value, n, n', o, h => by
    obtain ⟨w, rfl⟩ := shape_window h
    exact ⟨rfl, rfl, rfl⟩
  | .functionCall name arguments, n, n', o, h => by
    obtain ⟨_, -, hcall⟩ := gives_functionCall.mp h
    unfold call at hcall
    split at hcall
    · cases hcall
      exact ⟨rfl, rfl, rfl⟩
    · split at hcall
      · cases hcall
      · split at hcall <;> cases hcall
        exact ⟨rfl, rfl, rfl⟩
  | .param name, n, n', o, h => by
    obtain ⟨⟨v, rfl⟩, -⟩ := gives_param h
    exact ⟨rfl, rfl, rfl⟩

/-- A planned pipeline has a stage. -/
theorem Gives.pipe_ne_nil {node : Node} (h : Gives (compose params node) n o n')
    (name : Option String) : o ≠ .pipe [] name := by
  have hinto : ∀ lhs rhs : Operation, pipeInto lhs rhs ≠ .pipe [] name := by
    intro lhs rhs heq
    cases lhs with
    | pipe stages _ => simp [pipeInto] at heq
    | _ => cases heq
  rintro rfl
  have hshape : true = node.isPipeline := (shape_compose h).pipeline
  cases node with
  | pipe lhs rhs =>
    obtain ⟨l, m, r, -, -, heq⟩ := gives_pipe.mp h
    exact hinto l r heq.symm
  | dot lhs rhs =>
    obtain ⟨l, m, r, -, -, heq⟩ := gives_dot.mp h
    rcases access_cases l r with ⟨_, _, -, -, hjoined⟩ | ⟨-, hpipe⟩
    · cases heq.trans hjoined
    · exact hinto l r (heq.trans hpipe).symm
  | everything =>
    cases (gives_everything.mp h).1
  | postfixed operator operand =>
    obtain ⟨c, m, -, h⟩ := gives_postfixed.mp h
    cases operator with
    | arrow => rcases shape_dereference h with ⟨_, -, heq⟩ | ⟨_, _, -, heq⟩ | heq <;> cases heq
    | _ => cases hshape
  | _ => cases hshape

/-! Operators keep to what their operands keep to. -/

theorem conforms_pipeInto {lhs rhs : Operation} (hl : lhs.Conforms f anySource)
    (hr : rhs.Conforms f anySource) : (pipeInto lhs rhs).Conforms f anySource := by
  cases lhs with
  | pipe stages name =>
    cases stages with
    | nil => exact ⟨.inr hr, trivial⟩
    | cons first rest =>
      refine ⟨hl.1.imp_left ?_, conformsAll_append.mpr ⟨hl.2, hr, trivial⟩⟩
      rintro ⟨id, rfl, hsources, -⟩
      exact ⟨id, rfl, hsources, trivial⟩
  | _ => exact ⟨.inr hl, hr, trivial⟩

theorem conforms_access {lhs rhs : Operation} (hl : lhs.Conforms f anySource)
    (hr : rhs.Conforms f anySource) : (access lhs rhs).Conforms f anySource := by
  rcases access_cases lhs rhs with ⟨path, rest, rfl, rfl, heq⟩ | ⟨-, heq⟩ <;> rw [heq]
  · show f.parents = true ∨ .parent ∉ path ++ rest
    rw [List.mem_append, not_or]
    rcases hl with hparents | hpath
    · exact .inl hparents
    · exact hr.imp_right fun hrest => ⟨hpath, hrest⟩
  · exact conforms_pipeInto hl hr

theorem conforms_binary {operator : BinaryOperator} {lhs rhs : Operation}
    (h : binary operator lhs rhs = .ok o) (hl : lhs.Conforms f anySource)
    (hr : rhs.Conforms f anySource) : o.Conforms f anySource := by
  unfold binary at h
  split at h
  case h_11 =>
    split at h <;> cases h
    exact hr
  all_goals
    cases h
    exact ⟨hl, hr⟩

theorem conforms_sortTerm {e : Operation} (he : e.Conforms f anySource) (direction : Direction) :
    (sortTerm e direction).expression.Conforms f anySource := by
  unfold sortTerm
  split
  · exact .inr (by simp)
  · exact .inr (by simp)
  · exact he

theorem conforms_sortDirection {term : SortTerm} :
    (Operation.sortDirection term).Conforms f anySource ↔
      term.expression.Conforms f anySource := by
  cases term
  exact Iff.rfl

theorem conforms_orderTerm {e : Operation} (he : e.Conforms f anySource) :
    (orderTerm e).expression.Conforms f anySource := by
  unfold orderTerm
  split
  · exact conforms_sortDirection.mp he
  · exact conforms_sortTerm he .asc

theorem conformsTerms_orderTerm {os : List Operation} (h : ConformsAll f anySource os) :
    ConformsTerms f anySource (os.map orderTerm) := by
  induction os with
  | nil => trivial
  | cons o os ih =>
    have ho := conforms_orderTerm h.1
    rw [List.map_cons]
    cases hterm : orderTerm o with
    | mk e d =>
      rw [hterm] at ho
      exact ⟨ho, ih h.2⟩

theorem conforms_call {name : String} {os : List Operation} (h : call name os = .ok o)
    (hname : name = "references" → f.references = true) (hos : ConformsAll f anySource os) :
    o.Conforms f anySource := by
  unfold call at h
  split at h
  · cases h
    exact conformsTerms_orderTerm hos
  · split at h
    · cases h
    · next function hfunction =>
      split at h <;> cases h
      refine ⟨?_, hos⟩
      rintro rfl
      have hfound := List.find?_some hfunction
      exact hname (beq_iff_eq.mp hfound).symm

theorem conformsMembers_toMember {os : List Operation} {members : List Member}
    (h : os.mapM Operation.toMember = .ok members) (hos : ConformsAll f anySource os) :
    ConformsMembers f anySource members := by
  induction os generalizing members with
  | nil =>
    cases h
    trivial
  | cons o os ih =>
    rw [List.mapM_cons] at h
    obtain ⟨m, hmember, h⟩ := exists_of_bind_eq_ok h
    obtain ⟨ms, hrest, h⟩ := exists_of_bind_eq_ok h
    cases h
    have hms := ih hrest hos.2
    unfold Operation.toMember at hmember
    split at hmember
    · cases hmember
      exact ⟨hos.1, hms⟩
    · cases hmember
      exact hms
    · split at hmember <;> cases hmember
      exact ⟨hos.1, hms⟩

theorem conforms_dereference {node : Node} {operand : Operation}
    (hshape : Shaped node operand) (hfollow : node.mayFollow f = true)
    (hoperand : operand.Conforms f anySource) (h : Gives (dereference operand) n o n') :
    o.Conforms f anySource := by
  unfold Node.mayFollow at hfollow
  rw [← hshape.accessor, ← hshape.pipeline] at hfollow
  rcases shape_dereference h with ⟨path, rfl, rfl⟩ | ⟨stages, name, rfl, rfl⟩ | rfl
  · obtain ⟨hsources, hparents⟩ := Bool.and_eq_true_iff.mp hfollow
    exact ⟨.inl ⟨n, rfl, hsources, trivial⟩, ⟨.inl hparents, .inl hparents⟩, trivial, trivial⟩
  · obtain ⟨hjoin, hparents⟩ := Bool.and_eq_true_iff.mp hfollow
    obtain ⟨hsources, hjoins⟩ := Bool.and_eq_true_iff.mp hjoin
    have hids : (pipeInto (.pipe stages name) (.attr "_ref")).Conforms f anySource :=
      conforms_pipeInto hoperand (.inl hparents)
    exact ⟨.inl ⟨n, rfl, hsources, trivial⟩, ⟨hjoins, hparents, hids⟩, trivial⟩
  · exact ⟨.inr trivial, trivial⟩

mutual

/-- **What a syntax tree does not use, its plan does not use**, and the sources of the plan stand at
the heads of its pipelines. -/
theorem conforms_compose : ∀ {node : Node} {n n' : SourceId} {o : Operation},
    node.usesOnly f = true → Gives (compose params node) n o n' → o.Conforms f anySource
  | .pipe lhs rhs, n, n', o, hnode, h => by
    obtain ⟨hlhs, hrhs⟩ := Bool.and_eq_true_iff.mp hnode
    obtain ⟨l, m, r, hl, hr, rfl⟩ := gives_pipe.mp h
    exact conforms_pipeInto (conforms_compose hlhs hl) (conforms_compose hrhs hr)
  | .dot lhs rhs, n, n', o, hnode, h => by
    obtain ⟨hlhs, hrhs⟩ := Bool.and_eq_true_iff.mp hnode
    obtain ⟨l, m, r, hl, hr, rfl⟩ := gives_dot.mp h
    exact conforms_access (conforms_compose hlhs hl) (conforms_compose hrhs hr)
  | .binary operator lhs rhs, n, n', o, hnode, h => by
    obtain ⟨hlhs, hrhs⟩ := Bool.and_eq_true_iff.mp hnode
    obtain ⟨l, m, r, hl, hr, hbinary⟩ := gives_binary.mp h
    exact conforms_binary hbinary (conforms_compose hlhs hl) (conforms_compose hrhs hr)
  | .range start stop inclusive, n, n', o, _, h => by
    obtain ⟨l, m, r, hl, hr, rfl⟩ := gives_range.mp h
    trivial
  | .everything, n, n', o, hnode, h => by
    obtain ⟨rfl, rfl⟩ := gives_everything.mp h
    exact ⟨.inl ⟨n, rfl, hnode, trivial⟩, trivial⟩
  | .parent, n, n', o, hnode, h => by
    rw [compose, gives_pure] at h
    obtain ⟨rfl, rfl⟩ := h
    exact .inl hnode
  | .attr name, n, n', o, _, h => by
    rw [compose, gives_pure] at h
    obtain ⟨rfl, rfl⟩ := h
    exact .inr (by simp)
  | .constraint none, n, n', o, _, h | .ellipsis, n, n', o, _, h | .integer _, n, n', o, _, h
  | .float _, n, n', o, _, h | .string _, n, n', o, _, h | .bool _, n, n', o, _, h
  | .null, n, n', o, _, h => by
    rw [compose, gives_pure] at h
    obtain ⟨rfl, rfl⟩ := h
    trivial
  | .constraint (some operand), n, n', o, hnode, h => by
    have hoperand : operand.usesOnly f = true := hnode
    obtain ⟨c, hc, rfl⟩ := gives_filter.mp h
    have hconforms := conforms_compose hoperand hc
    exact hconforms
  | .not operand, n, n', o, hnode, h => by
    have hoperand : operand.usesOnly f = true := hnode
    obtain ⟨c, hc, rfl⟩ := gives_not.mp h
    have hconforms := conforms_compose hoperand hc
    exact hconforms
  | .postfixed operator operand, n, n', o, hnode, h => by
    obtain ⟨hoperand, hfollow⟩ := Bool.and_eq_true_iff.mp hnode
    obtain ⟨c, m, hc, h⟩ := gives_postfixed.mp h
    have hconforms := conforms_compose hoperand hc
    cases operator with
    | arrow => exact conforms_dereference (shape_compose hc) hfollow hconforms h
    | asc | desc =>
      obtain ⟨rfl, rfl⟩ := gives_pure.mp h
      exact conforms_sortDirection.mpr (conforms_sortTerm hconforms _)
  | .object members, n, n', o, hnode, h => by
    obtain ⟨os, ms, hos, hms, rfl⟩ := gives_members.mp h
    exact conformsMembers_toMember hms (conformsAll_composeAll hnode hos)
  | .array elements, n, n', o, hnode, h => by
    obtain ⟨os, hos, rfl⟩ := gives_array.mp h
    exact conformsAll_composeAll hnode hos
  | .subscript value, n, n', o, _, h => by
    obtain ⟨w, rfl⟩ := shape_window h
    trivial
  | .functionCall name arguments, n, n', o, hnode, h => by
    obtain ⟨harguments, hname⟩ := Bool.and_eq_true_iff.mp hnode
    obtain ⟨os, hos, hcall⟩ := gives_functionCall.mp h
    refine conforms_call hcall ?_ (conformsAll_composeAll harguments hos)
    rintro rfl
    exact hname
  | .param name, n, n', o, _, h => by
    obtain ⟨⟨v, rfl⟩, -⟩ := gives_param h
    trivial

theorem conformsAll_composeAll : ∀ {nodes : List Node} {n n' : SourceId} {os : List Operation},
    Node.usesOnlyAll f nodes = true → Gives (composeAll params nodes) n os n' →
      ConformsAll f anySource os
  | [], n, n', os, _, h => by
    rw [composeAll, gives_pure] at h
    obtain ⟨rfl, rfl⟩ := h
    trivial
  | node :: nodes, n, n', os, hnodes, h => by
    obtain ⟨hnode, hrest⟩ := Bool.and_eq_true_iff.mp hnodes
    obtain ⟨o, m, os', ho, hos, rfl⟩ := gives_cons.mp h
    exact ⟨conforms_compose hnode ho, conformsAll_composeAll hrest hos⟩

end

end Planner
end DocQuery
