import DocQuery.Plan.Traversal

/-!
# Plans by their pipelines

A transformation that touches pipelines only is a map over them (`mapPipes`), and a property of a
plan that looks at its lists of stages is one that holds of all of them (`Everywhere`). The two
kinds of list are told apart: those of pipelines and those inside map joins, since **a map of the
pipelines leaves the list inside a map join as it is**, up to what is inside its stages.
-/

set_option autoImplicit false

namespace DocQuery
namespace Operation

/-! ## Maps -/

mutual

/-- Change the stages of every pipeline, innermost first. -/
def mapPipes (f : List Operation → List Operation) : Operation → Operation
  | source id => source id
  | filter condition => filter (mapPipes f condition)
  | binary op lhs rhs => binary op (mapPipes f lhs) (mapPipes f rhs)
  | not operand => not (mapPipes f operand)
  | accessor path => accessor path
  | literal value => literal value
  | object members => object (mapPipesMembers f members)
  | array elements => array (mapPipesAll f elements)
  | assignment name value => assignment name (mapPipes f value)
  | splat => splat
  | subscript window => subscript window
  | range start stop inclusive => range (mapPipes f start) (mapPipes f stop) inclusive
  | ordering terms => ordering (mapPipesTerms f terms)
  | sortDirection (.mk e d) => sortDirection (.mk (mapPipes f e) d)
  | call function arguments => call function (mapPipesAll f arguments)
  | pipe stages name => pipe (f (mapPipesAll f stages)) name
  | mapJoin stages => mapJoin (mapPipesAll f stages)

def mapPipesAll (f : List Operation → List Operation) : List Operation → List Operation
  | [] => []
  | o :: os => mapPipes f o :: mapPipesAll f os

def mapPipesMembers (f : List Operation → List Operation) : List Member → List Member
  | [] => []
  | .assignment name value :: ms => .assignment name (mapPipes f value) :: mapPipesMembers f ms
  | .splat :: ms => .splat :: mapPipesMembers f ms

def mapPipesTerms (f : List Operation → List Operation) : List SortTerm → List SortTerm
  | [] => []
  | .mk e d :: ts => .mk (mapPipes f e) d :: mapPipesTerms f ts

end

/-- What a map does to one operation whose parts are done. -/
def onPipe (f : List Operation → List Operation) : Operation → Operation
  | pipe stages name => pipe (f stages) name
  | o => o

variable {f g : List Operation → List Operation}

/-! A transformation by `onPipe f` is the map by `f`. -/

mutual

theorem transform_onPipe : ∀ o : Operation,
    Id.run (transform (m := Id) (fun o => pure (onPipe f o)) o) = mapPipes f o
  | source _ | accessor _ | literal _ | splat | subscript _ => rfl
  | filter condition => by
    rw [mapPipes, ← transform_onPipe condition]
    rfl
  | binary op lhs rhs => by
    rw [mapPipes, ← transform_onPipe lhs, ← transform_onPipe rhs]
    rfl
  | not operand => by
    rw [mapPipes, ← transform_onPipe operand]
    rfl
  | object members => by
    rw [mapPipes, ← transformMembers_onPipe members]
    rfl
  | array elements => by
    rw [mapPipes, ← transformAll_onPipe elements]
    rfl
  | assignment name value => by
    rw [mapPipes, ← transform_onPipe value]
    rfl
  | range start stop inclusive => by
    rw [mapPipes, ← transform_onPipe start, ← transform_onPipe stop]
    rfl
  | ordering terms => by
    rw [mapPipes, ← transformTerms_onPipe terms]
    rfl
  | sortDirection (.mk e d) => by
    rw [mapPipes, ← transform_onPipe e]
    rfl
  | call function arguments => by
    rw [mapPipes, ← transformAll_onPipe arguments]
    rfl
  | pipe stages name => by
    rw [mapPipes, ← transformAll_onPipe stages]
    rfl
  | mapJoin stages => by
    rw [mapPipes, ← transformAll_onPipe stages]
    rfl

theorem transformAll_onPipe : ∀ os : List Operation,
    Id.run (transformAll (m := Id) (fun o => pure (onPipe f o)) os) = mapPipesAll f os
  | [] => rfl
  | o :: os => by
    rw [mapPipesAll, ← transform_onPipe o, ← transformAll_onPipe os]
    rfl

theorem transformMembers_onPipe : ∀ ms : List Member,
    Id.run (transformMembers (m := Id) (fun o => pure (onPipe f o)) ms) = mapPipesMembers f ms
  | [] => rfl
  | .assignment name value :: ms => by
    rw [mapPipesMembers, ← transform_onPipe value, ← transformMembers_onPipe ms]
    rfl
  | .splat :: ms => by
    rw [mapPipesMembers, ← transformMembers_onPipe ms]
    rfl

theorem transformTerms_onPipe : ∀ ts : List SortTerm,
    Id.run (transformTerms (m := Id) (fun o => pure (onPipe f o)) ts) = mapPipesTerms f ts
  | [] => rfl
  | .mk e d :: ts => by
    rw [mapPipesTerms, ← transform_onPipe e, ← transformTerms_onPipe ts]
    rfl

end

/-! A map that is undone on every list of stages is undone. -/

mutual

theorem mapPipes_mapPipes (h : ∀ stages, g (mapPipesAll g (f stages)) = mapPipesAll g stages) :
    ∀ o : Operation, mapPipes g (mapPipes f o) = o
  | source _ | accessor _ | literal _ | splat | subscript _ => rfl
  | filter condition => by rw [mapPipes, mapPipes, mapPipes_mapPipes h condition]
  | binary op lhs rhs => by
    rw [mapPipes, mapPipes, mapPipes_mapPipes h lhs, mapPipes_mapPipes h rhs]
  | not operand => by rw [mapPipes, mapPipes, mapPipes_mapPipes h operand]
  | object members => by rw [mapPipes, mapPipes, mapPipesMembers_mapPipesMembers h members]
  | array elements => by rw [mapPipes, mapPipes, mapPipesAll_mapPipesAll h elements]
  | assignment name value => by rw [mapPipes, mapPipes, mapPipes_mapPipes h value]
  | range start stop inclusive => by
    rw [mapPipes, mapPipes, mapPipes_mapPipes h start, mapPipes_mapPipes h stop]
  | ordering terms => by rw [mapPipes, mapPipes, mapPipesTerms_mapPipesTerms h terms]
  | sortDirection (.mk e d) => by rw [mapPipes, mapPipes, mapPipes_mapPipes h e]
  | call function arguments => by rw [mapPipes, mapPipes, mapPipesAll_mapPipesAll h arguments]
  | pipe stages name => by rw [mapPipes, mapPipes, h, mapPipesAll_mapPipesAll h stages]
  | mapJoin stages => by rw [mapPipes, mapPipes, mapPipesAll_mapPipesAll h stages]

theorem mapPipesAll_mapPipesAll
    (h : ∀ stages, g (mapPipesAll g (f stages)) = mapPipesAll g stages) :
    ∀ os : List Operation, mapPipesAll g (mapPipesAll f os) = os
  | [] => rfl
  | o :: os => by
    rw [mapPipesAll, mapPipesAll, mapPipes_mapPipes h o, mapPipesAll_mapPipesAll h os]

theorem mapPipesMembers_mapPipesMembers
    (h : ∀ stages, g (mapPipesAll g (f stages)) = mapPipesAll g stages) :
    ∀ ms : List Member, mapPipesMembers g (mapPipesMembers f ms) = ms
  | [] => rfl
  | .assignment name value :: ms => by
    rw [mapPipesMembers, mapPipesMembers, mapPipes_mapPipes h value,
      mapPipesMembers_mapPipesMembers h ms]
  | .splat :: ms => by
    rw [mapPipesMembers, mapPipesMembers, mapPipesMembers_mapPipesMembers h ms]

theorem mapPipesTerms_mapPipesTerms
    (h : ∀ stages, g (mapPipesAll g (f stages)) = mapPipesAll g stages) :
    ∀ ts : List SortTerm, mapPipesTerms g (mapPipesTerms f ts) = ts
  | [] => rfl
  | .mk e d :: ts => by
    rw [mapPipesTerms, mapPipesTerms, mapPipes_mapPipes h e, mapPipesTerms_mapPipesTerms h ts]

end

/-! ## Properties of the lists of stages -/

mutual

/-- `pipes` holds of the stages of every pipeline, and `joins` of those of every map join. -/
def Everywhere (pipes joins : List Operation → Prop) : Operation → Prop
  | source _ | accessor _ | literal _ | splat | subscript _ => True
  | filter condition => Everywhere pipes joins condition
  | binary _ lhs rhs => Everywhere pipes joins lhs ∧ Everywhere pipes joins rhs
  | not operand => Everywhere pipes joins operand
  | object members => EverywhereMembers pipes joins members
  | array elements => EverywhereAll pipes joins elements
  | assignment _ value => Everywhere pipes joins value
  | range start stop _ => Everywhere pipes joins start ∧ Everywhere pipes joins stop
  | ordering terms => EverywhereTerms pipes joins terms
  | sortDirection (.mk e _) => Everywhere pipes joins e
  | call _ arguments => EverywhereAll pipes joins arguments
  | pipe stages _ => pipes stages ∧ EverywhereAll pipes joins stages
  | mapJoin stages => joins stages ∧ EverywhereAll pipes joins stages

def EverywhereAll (pipes joins : List Operation → Prop) : List Operation → Prop
  | [] => True
  | o :: os => Everywhere pipes joins o ∧ EverywhereAll pipes joins os

def EverywhereMembers (pipes joins : List Operation → Prop) : List Member → Prop
  | [] => True
  | .assignment _ value :: ms =>
    Everywhere pipes joins value ∧ EverywhereMembers pipes joins ms
  | .splat :: ms => EverywhereMembers pipes joins ms

def EverywhereTerms (pipes joins : List Operation → Prop) : List SortTerm → Prop
  | [] => True
  | .mk e _ :: ts => Everywhere pipes joins e ∧ EverywhereTerms pipes joins ts

end

variable {pipes joins pipes' joins' : List Operation → Prop}

mutual

theorem Everywhere.imp (hpipes : ∀ stages, pipes stages → pipes' stages)
    (hjoins : ∀ stages, joins stages → joins' stages) :
    ∀ {o : Operation}, Everywhere pipes joins o → Everywhere pipes' joins' o
  | source _, _ | accessor _, _ | literal _, _ | splat, _ | subscript _, _ => trivial
  | filter condition, h => Everywhere.imp hpipes hjoins (o := condition) h
  | binary _ _ _, h => ⟨Everywhere.imp hpipes hjoins h.1, Everywhere.imp hpipes hjoins h.2⟩
  | not operand, h => Everywhere.imp hpipes hjoins (o := operand) h
  | object members, h => EverywhereMembers.imp hpipes hjoins members h
  | array elements, h => EverywhereAll.imp hpipes hjoins elements h
  | assignment _ value, h => Everywhere.imp hpipes hjoins (o := value) h
  | range _ _ _, h => ⟨Everywhere.imp hpipes hjoins h.1, Everywhere.imp hpipes hjoins h.2⟩
  | ordering terms, h => EverywhereTerms.imp hpipes hjoins terms h
  | sortDirection (.mk e _), h => Everywhere.imp hpipes hjoins (o := e) h
  | call _ arguments, h => EverywhereAll.imp hpipes hjoins arguments h
  | pipe stages _, h => ⟨hpipes stages h.1, EverywhereAll.imp hpipes hjoins stages h.2⟩
  | mapJoin stages, h => ⟨hjoins stages h.1, EverywhereAll.imp hpipes hjoins stages h.2⟩

theorem EverywhereAll.imp (hpipes : ∀ stages, pipes stages → pipes' stages)
    (hjoins : ∀ stages, joins stages → joins' stages) :
    ∀ os : List Operation, EverywhereAll pipes joins os → EverywhereAll pipes' joins' os
  | [], _ => trivial
  | _ :: os, h => ⟨Everywhere.imp hpipes hjoins h.1, EverywhereAll.imp hpipes hjoins os h.2⟩

theorem EverywhereMembers.imp (hpipes : ∀ stages, pipes stages → pipes' stages)
    (hjoins : ∀ stages, joins stages → joins' stages) :
    ∀ ms : List Member, EverywhereMembers pipes joins ms → EverywhereMembers pipes' joins' ms
  | [], _ => trivial
  | .assignment _ _ :: ms, h =>
    ⟨Everywhere.imp hpipes hjoins h.1, EverywhereMembers.imp hpipes hjoins ms h.2⟩
  | .splat :: ms, h => EverywhereMembers.imp hpipes hjoins ms h

theorem EverywhereTerms.imp (hpipes : ∀ stages, pipes stages → pipes' stages)
    (hjoins : ∀ stages, joins stages → joins' stages) :
    ∀ ts : List SortTerm, EverywhereTerms pipes joins ts → EverywhereTerms pipes' joins' ts
  | [], _ => trivial
  | .mk _ _ :: ts, h =>
    ⟨Everywhere.imp hpipes hjoins h.1, EverywhereTerms.imp hpipes hjoins ts h.2⟩

end

mutual

theorem everywhere_of_forall (hpipes : ∀ stages, pipes stages) (hjoins : ∀ stages, joins stages) :
    ∀ o : Operation, Everywhere pipes joins o
  | source _ | accessor _ | literal _ | splat | subscript _ => trivial
  | filter condition => everywhere_of_forall hpipes hjoins condition
  | binary _ lhs rhs =>
    ⟨everywhere_of_forall hpipes hjoins lhs, everywhere_of_forall hpipes hjoins rhs⟩
  | not operand => everywhere_of_forall hpipes hjoins operand
  | object members => everywhereMembers_of_forall hpipes hjoins members
  | array elements => everywhereAll_of_forall hpipes hjoins elements
  | assignment _ value => everywhere_of_forall hpipes hjoins value
  | range start stop _ =>
    ⟨everywhere_of_forall hpipes hjoins start, everywhere_of_forall hpipes hjoins stop⟩
  | ordering terms => everywhereTerms_of_forall hpipes hjoins terms
  | sortDirection (.mk e _) => everywhere_of_forall hpipes hjoins e
  | call _ arguments => everywhereAll_of_forall hpipes hjoins arguments
  | pipe stages _ => ⟨hpipes stages, everywhereAll_of_forall hpipes hjoins stages⟩
  | mapJoin stages => ⟨hjoins stages, everywhereAll_of_forall hpipes hjoins stages⟩

theorem everywhereAll_of_forall (hpipes : ∀ stages, pipes stages)
    (hjoins : ∀ stages, joins stages) : ∀ os : List Operation, EverywhereAll pipes joins os
  | [] => trivial
  | o :: os => ⟨everywhere_of_forall hpipes hjoins o, everywhereAll_of_forall hpipes hjoins os⟩

theorem everywhereMembers_of_forall (hpipes : ∀ stages, pipes stages)
    (hjoins : ∀ stages, joins stages) : ∀ ms : List Member, EverywhereMembers pipes joins ms
  | [] => trivial
  | .assignment _ value :: ms =>
    ⟨everywhere_of_forall hpipes hjoins value, everywhereMembers_of_forall hpipes hjoins ms⟩
  | .splat :: ms => everywhereMembers_of_forall hpipes hjoins ms

theorem everywhereTerms_of_forall (hpipes : ∀ stages, pipes stages)
    (hjoins : ∀ stages, joins stages) : ∀ ts : List SortTerm, EverywhereTerms pipes joins ts
  | [] => trivial
  | .mk e _ :: ts =>
    ⟨everywhere_of_forall hpipes hjoins e, everywhereTerms_of_forall hpipes hjoins ts⟩

end

/-! A map that changes no pipeline of an operation leaves the operation alone. -/

mutual

theorem mapPipes_eq_self (h : ∀ stages, pipes stages → f stages = stages) :
    ∀ {o : Operation}, Everywhere pipes joins o → mapPipes f o = o
  | source _, _ | accessor _, _ | literal _, _ | splat, _ | subscript _, _ => rfl
  | filter condition, ho => congrArg filter (mapPipes_eq_self (o := condition) h ho)
  | binary op lhs rhs, ho => by
    rw [mapPipes, mapPipes_eq_self h ho.1, mapPipes_eq_self h ho.2]
  | not operand, ho => congrArg Operation.not (mapPipes_eq_self (o := operand) h ho)
  | object members, ho => congrArg object (mapPipesMembers_eq_self h members ho)
  | array elements, ho => congrArg array (mapPipesAll_eq_self h elements ho)
  | assignment name value, ho =>
    congrArg (assignment name) (mapPipes_eq_self (o := value) h ho)
  | range start stop inclusive, ho => by
    rw [mapPipes, mapPipes_eq_self h ho.1, mapPipes_eq_self h ho.2]
  | ordering terms, ho => congrArg ordering (mapPipesTerms_eq_self h terms ho)
  | sortDirection (.mk e d), ho => by
    have he : mapPipes f e = e := mapPipes_eq_self (o := e) h ho
    rw [mapPipes, he]
  | call function arguments, ho => congrArg (call function) (mapPipesAll_eq_self h arguments ho)
  | pipe stages name, ho => by
    rw [mapPipes, mapPipesAll_eq_self h stages ho.2, h stages ho.1]
  | mapJoin stages, ho => congrArg mapJoin (mapPipesAll_eq_self h stages ho.2)

theorem mapPipesAll_eq_self (h : ∀ stages, pipes stages → f stages = stages) :
    ∀ os : List Operation, EverywhereAll pipes joins os → mapPipesAll f os = os
  | [], _ => rfl
  | o :: os, ho => by
    rw [mapPipesAll, mapPipes_eq_self h ho.1, mapPipesAll_eq_self h os ho.2]

theorem mapPipesMembers_eq_self (h : ∀ stages, pipes stages → f stages = stages) :
    ∀ ms : List Member, EverywhereMembers pipes joins ms → mapPipesMembers f ms = ms
  | [], _ => rfl
  | .assignment name value :: ms, ho => by
    rw [mapPipesMembers, mapPipes_eq_self h ho.1, mapPipesMembers_eq_self h ms ho.2]
  | .splat :: ms, ho => congrArg (Member.splat :: ·) (mapPipesMembers_eq_self h ms ho)

theorem mapPipesTerms_eq_self (h : ∀ stages, pipes stages → f stages = stages) :
    ∀ ts : List SortTerm, EverywhereTerms pipes joins ts → mapPipesTerms f ts = ts
  | [], _ => rfl
  | .mk e d :: ts, ho => by
    rw [mapPipesTerms, mapPipes_eq_self h ho.1, mapPipesTerms_eq_self h ts ho.2]

end

/-- A map that gives the stages of every pipeline a property, whatever they were, and neither takes
one away from the lists inside map joins nor gives it to them. -/
structure Establishes (f : List Operation → List Operation) (pipes joins : List Operation → Prop) :
    Prop where
  pipe : ∀ stages, pipes (f stages)
  parts : ∀ stages, EverywhereAll pipes joins (f stages) ↔ EverywhereAll pipes joins stages
  join : ∀ stages, joins (mapPipesAll f stages) ↔ joins stages

mutual

theorem everywhere_mapPipes (h : Establishes f pipes joins) : ∀ o : Operation,
    Everywhere pipes joins (mapPipes f o) ↔ Everywhere (fun _ => True) joins o
  | source _ | accessor _ | literal _ | splat | subscript _ => Iff.rfl
  | filter condition => everywhere_mapPipes h condition
  | binary _ lhs rhs => and_congr (everywhere_mapPipes h lhs) (everywhere_mapPipes h rhs)
  | not operand => everywhere_mapPipes h operand
  | object members => everywhereMembers_mapPipes h members
  | array elements => everywhereAll_mapPipes h elements
  | assignment _ value => everywhere_mapPipes h value
  | range start stop _ => and_congr (everywhere_mapPipes h start) (everywhere_mapPipes h stop)
  | ordering terms => everywhereTerms_mapPipes h terms
  | sortDirection (.mk e _) => everywhere_mapPipes h e
  | call _ arguments => everywhereAll_mapPipes h arguments
  | pipe stages name => by
    rw [mapPipes, Everywhere, Everywhere, h.parts, everywhereAll_mapPipes h stages]
    exact and_congr_left fun _ => iff_true_intro (h.pipe _)
  | mapJoin stages => and_congr (h.join stages) (everywhereAll_mapPipes h stages)

theorem everywhereAll_mapPipes (h : Establishes f pipes joins) : ∀ os : List Operation,
    EverywhereAll pipes joins (mapPipesAll f os) ↔ EverywhereAll (fun _ => True) joins os
  | [] => Iff.rfl
  | o :: os => and_congr (everywhere_mapPipes h o) (everywhereAll_mapPipes h os)

theorem everywhereMembers_mapPipes (h : Establishes f pipes joins) : ∀ ms : List Member,
    EverywhereMembers pipes joins (mapPipesMembers f ms) ↔
      EverywhereMembers (fun _ => True) joins ms
  | [] => Iff.rfl
  | .assignment _ value :: ms =>
    and_congr (everywhere_mapPipes h value) (everywhereMembers_mapPipes h ms)
  | .splat :: ms => everywhereMembers_mapPipes h ms

theorem everywhereTerms_mapPipes (h : Establishes f pipes joins) : ∀ ts : List SortTerm,
    EverywhereTerms pipes joins (mapPipesTerms f ts) ↔ EverywhereTerms (fun _ => True) joins ts
  | [] => Iff.rfl
  | .mk e _ :: ts => and_congr (everywhere_mapPipes h e) (everywhereTerms_mapPipes h ts)

end

end Operation
end DocQuery
