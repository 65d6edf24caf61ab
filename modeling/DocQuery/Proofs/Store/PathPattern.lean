import DocQuery.Proofs.Pattern.Matching
import DocQuery.Proofs.Store.Filter
import DocQuery.Proofs.Text.Dotted

/-!
# Path patterns as regular expressions

A store knows nothing of path patterns. Membership in one is sent to it as a regular expression on
the dotted text, with the literal segments escaped and the wildcard that ends the pattern turned into
"no further dot" or into nothing. **The expression occurs exactly in the texts that the pattern
contains** (`occursIn_path`), so the selector of such a membership describes it
(`describes_memberOfPath`).

The expression may be too large to be compiled, and then the store has no answer; `pathCompiles` says
that it is not.
-/

set_option autoImplicit false

namespace DocQuery

namespace Pattern

open Clause Reader

/-! ## The pattern of a path -/

/-- All characters but the dot, as they are written in a class. -/
def noDot : CharSet := (CharSet.none.union (.single '.')).compl

/-- The sequence that a path pattern is written as. -/
def ofPath : List String → List Pattern
  | [] => []
  | segment :: rest =>
    if segment = "**" then []
    else if segment = "*" then [.repeated (.char noDot) 0 none, .anchor .textEnd]
    else (segment.toList ++ ['.']).map literal ++ ofPath rest

/-- The expressions of that sequence, as they are read. -/
def expressionsOf : List String → List Expr
  | [] => []
  | segment :: rest =>
    if segment = "**" then []
    else if segment = "*" then
      [⟨.repeated (.char noDot) 0 none, 2, true⟩, ⟨.anchor .textEnd, 0, true⟩]
    else (segment.toList ++ ['.']).map (fun c => ⟨literal c, 0, true⟩) ++ expressionsOf rest

theorem pattern_expressionsOf (segments : List String) :
    (expressionsOf segments).map (·.pattern) = ofPath segments := by
  induction segments with
  | nil => rfl
  | cons segment rest ih =>
    rw [expressionsOf, ofPath]
    split
    · rfl
    · split
      · rfl
      · rw [List.map_append, ih, List.map_map]
        rfl

/-- A class, its repetition and the end of the text. -/
theorem reaches_lastSegment {st : State} (hflags : st.flags = plainFlags) :
    Reaches st "[^.]*$".toList (st.pushAll (expressionsOf ["*"])) [] := by
  obtain ⟨flags, stack, branches, groups, names⟩ := st
  obtain rfl : flags = plainFlags := hflags
  have hclass : Reaches ⟨plainFlags, stack, branches, groups, names⟩ "[^.]*$".toList
      (State.push ⟨plainFlags, stack, branches, groups, names⟩ ⟨.char noDot, 1, true⟩) "*$".toList :=
    reaches_step rfl (by decide)
  have hrepeated : Reaches
      (State.push ⟨plainFlags, stack, branches, groups, names⟩ ⟨.char noDot, 1, true⟩) "*$".toList
      (State.push ⟨plainFlags, stack, branches, groups, names⟩
        ⟨.repeated (.char noDot) 0 none, 2, true⟩) "$".toList :=
    reaches_step rfl (by decide)
  have hend : Reaches (State.push ⟨plainFlags, stack, branches, groups, names⟩
        ⟨.repeated (.char noDot) 0 none, 2, true⟩) "$".toList
      (State.push (State.push ⟨plainFlags, stack, branches, groups, names⟩
        ⟨.repeated (.char noDot) 0 none, 2, true⟩) ⟨.anchor .textEnd, 0, true⟩) [] :=
    reaches_step rfl (by decide)
  exact (hclass.trans hrepeated).trans hend

theorem reaches_path : ∀ {segments : List String} {regex : List Char} {st : State},
    pathRegex? segments = some regex → st.flags = plainFlags →
      Reaches st regex (st.pushAll (expressionsOf segments)) []
  | [], _, _, h, _ => by cases h
  | segment :: rest, regex, st, h, hflags => by
    rw [pathRegex?] at h
    rw [expressionsOf]
    split at h
    · next hany =>
      cases h
      rw [if_pos hany]
      exact .refl _ _
    · next hany =>
      rw [if_neg hany]
      split at h
      · next hone =>
        cases h
        rw [if_pos hone]
        exact reaches_lastSegment hflags
      · next hone =>
        rw [if_neg hone]
        obtain ⟨later, hlater, rfl⟩ := Option.map_eq_some_iff.mp h
        have hescape : escape segment.toList ++ "\\.".toList = escape (segment.toList ++ ['.']) := by
          rw [escape, escape, List.flatMap_append]
          rfl
        rw [hescape, State.pushAll_append]
        exact (reaches_escapedAll (segment.toList ++ ['.']) later hflags).trans
          (reaches_path hlater ((State.flags_pushAll st _).trans hflags))

/-- What the reader has read of the expression of a path: its beginning and the path. -/
def readPath (segments : List String) : State :=
  ((State.start plainFlags).push ⟨.anchor .textStart, 0, true⟩).pushAll (expressionsOf segments)

theorem reaches_readPath {segments : List String} {regex : List Char}
    (h : pathRegex? segments = some regex) :
    Reaches (.start plainFlags) ('^' :: regex) (readPath segments) [] :=
  (reaches_step rfl (Nat.le_refl _)).trans (reaches_path h rfl)

theorem hasRead_readPath (segments : List String) :
    (readPath segments).HasRead (.anchor .textStart :: ofPath segments) := by
  have hread := ((State.HasRead.start plainFlags).push ⟨.anchor .textStart, 0, true⟩).pushAll
    (expressionsOf segments)
  rwa [pattern_expressionsOf] at hread

/-- The expression that is sent to the store holds the path at the beginning of a text. -/
theorem exists_read_start {segments : List String} {regex : List Char}
    (h : pathRegex? segments = some regex) :
    ∃ st, Reaches (.start plainFlags) ('^' :: regex) st [] ∧
      st.HasRead (.anchor .textStart :: ofPath segments) :=
  ⟨readPath segments, reaches_readPath h, hasRead_readPath segments⟩

theorem contains_noDot {c : Char} : noDot.contains c = true ↔ c ≠ '.' := by
  have hsingle := contains_single (c := '.') (d := c)
  unfold noDot
  rw [CharSet.contains, CharSet.contains, CharSet.contains, Bool.false_or, Bool.not_eq_true',
    ← Bool.not_eq_true, hsingle]

theorem follows_lastSegment (cs : List Char) :
    Follows [.repeated (.char noDot) 0 none, .anchor .textEnd] cs
      ((Text.splitDots cs).map String.ofList).tail.isEmpty := by
  intro n before
  have hend : (endsSeq [.repeated (.char noDot) 0 none, .anchor .textEnd]
      [⟨n, before, cs⟩]).isEmpty = false ↔ '.' ∉ cs := by
    rw [List.isEmpty_eq_false_iff_exists_mem]
    show (∃ s, s ∈ (ends (.repeated (.char noDot) 0 none) [⟨n, before, cs⟩]).filter
      (·.satisfies .textEnd)) ↔ _
    simp only [List.mem_filter, Place.satisfies, List.isEmpty_iff]
    rw [ends_repeated_iff]
    simp only [contains_noDot]
    exact ⟨fun h hmem => h '.' hmem rfl, fun h c hc heq => h (heq ▸ hc)⟩
  rw [Bool.eq_iff_iff, ← Bool.not_eq_false, hend, Bool.not_eq_true', ← Bool.not_eq_true]
  refine not_congr ?_
  rcases Text.splitDots_cases cs with ⟨hdot, hsplit⟩ | ⟨p, rest, hp, rfl, hsplit⟩
  · rw [hsplit]
    simp [hdot]
  · rw [hsplit]
    have hne := Text.splitDots_ne_nil rest
    simp [hne]

/-- The pattern of a path can be followed along the texts that the path contains. -/
theorem follows_ofPath : ∀ {segments : List String} (cs : List Char),
    (∀ segment ∈ segments, '.' ∉ segment.toList) → (pathRegex? segments).isSome = true →
      Follows (ofPath segments) cs (Path.covers segments ((Text.splitDots cs).map String.ofList))
  | [], _, _, h => by cases h
  | segment :: rest, cs, hdots, h => by
    obtain ⟨hsegment, hrest⟩ := List.forall_mem_cons.mp hdots
    rw [pathRegex?] at h
    rw [ofPath, Path.covers.eq_def]
    dsimp only
    split
    · exact fun _ _ => rfl
    · next hany =>
      rw [if_neg hany] at h
      split
      · exact follows_lastSegment cs
      · next hone =>
        rw [if_neg hone, Option.isSome_map] at h
        rcases Text.splitDots_cases cs with ⟨hdot, hsplit⟩ | ⟨p, later, hp, rfl, hsplit⟩
        · -- no dot, so the segment does not end
          rw [hsplit]
          have hprefix : ¬segment.toList ++ ['.'] <+: cs := fun hprefix =>
            hdot (List.IsPrefix.subset hprefix (List.mem_append_right _ List.mem_cons_self))
          simpa using follows_literals_of_not_prefix hprefix
        · rw [hsplit]
          have hfirst : (segment == String.ofList p) = decide (segment.toList = p) := by
            rw [Bool.eq_iff_iff, beq_iff_eq, decide_eq_true_eq, ← String.toList_inj, String.toList_ofList]
          rw [List.map_cons]
          dsimp only
          rw [hfirst]
          by_cases heq : segment.toList = p
          · subst heq
            have hlater : Follows _ ((segment.toList ++ ['.']) ++ later) _ :=
              (follows_ofPath later hrest h).literals
            rw [List.append_assoc] at hlater
            have hne : rest.isEmpty = false := by
              cases rest with
              | nil => cases h
              | cons _ _ => rfl
            have hne' : (Text.splitDots later).isEmpty = false :=
              List.isEmpty_eq_false_iff.mpr (Text.splitDots_ne_nil later)
            simpa [hne, hne'] using hlater
          · -- a piece ends where its dot is
            have hprefix : ¬segment.toList ++ ['.'] <+: p ++ '.' :: later := by
              rintro ⟨tail, htail⟩
              rw [List.append_assoc] at htail
              have hsplit := congrArg Text.splitDots htail
              rw [List.singleton_append, Text.splitDots_append_dot hsegment,
                Text.splitDots_append_dot hp] at hsplit
              exact heq (List.cons.inj hsplit).1
            simpa [heq] using follows_literals_of_not_prefix hprefix

/-- The regular expression of a path pattern occurs in the texts that the pattern contains. -/
theorem occursIn_path {pattern text : String} {regex : List Char} {p : Pattern}
    (h : pathRegex? (Path.parse pattern).segments = some regex)
    (hp : parse? (String.ofList ('^' :: regex)) false = some p) :
    p.occursIn text = (Path.parse pattern).contains (Path.parse text) := by
  have hdots : ∀ segment ∈ (Path.parse pattern).segments, '.' ∉ segment.toList := by
    intro segment hsegment
    obtain ⟨piece, hpiece, rfl⟩ := List.mem_map.mp hsegment
    rw [String.toList_ofList]
    exact Text.not_mem_of_mem_splitDots hpiece
  obtain ⟨st, hreaches, hread⟩ := exists_read_start h
  have hends := ends_parse hp (by rwa [String.toList_ofList]) hread (places text.toList)
  have hfollows := follows_ofPath text.toList hdots (Option.isSome_iff_exists.mpr ⟨_, h⟩) 0 none
  rw [occursIn, hends]
  show (!(endsSeq (ofPath (Path.parse pattern).segments)
    (ends (.anchor .textStart) (places text.toList))).isEmpty) = _
  rw [ends_textStart, hfollows, Bool.not_not]
  rfl

/-- What has no wildcard contains nothing. -/
theorem covers_of_none : ∀ {segments : List String} (candidate : List String),
    pathRegex? segments = none → Path.covers segments candidate = false
  | [], _, _ => rfl
  | segment :: rest, candidate, h => by
    rw [pathRegex?] at h
    split at h
    · cases h
    · next hany =>
      split at h
      · cases h
      · next hone =>
        have hrest := Option.map_eq_none_iff.mp h
        rw [Path.covers.eq_def]
        dsimp only
        rw [if_neg hany, if_neg hone]
        cases candidate with
        | nil => rfl
        | cons c cs =>
          dsimp only
          rw [covers_of_none cs hrest, Bool.and_false]

end Pattern

/-! ## Path patterns as selectors -/

namespace Clause

open Selector (reserved)

variable {lhs : Operation} {document : Json} {a v : Value} {field pattern : String}

/-- Whether the regular expression of a path pattern, if it has one, keeps to the limit. -/
def pathCompiles (pattern : Path) : Bool :=
  (pathRegex? pattern.segments).all fun regex =>
    (Pattern.compile? (String.ofList ('^' :: regex)) false).isSome

/-- What a field has to be for the selector of a path pattern. What is no string is for the engine
to refuse. -/
def mayBeInPath (pattern : String) : Option Json → Bool
  | none => false
  | some (.str text) => (Path.parse pattern).contains (Path.parse text)
  | some _ => true

theorem hasType_string (value : Option Json) :
    ∃ x, Selector.hasType value (.str "string") = .ok x := by
  cases value with
  | none => exact ⟨false, rfl⟩
  | some j => exact ⟨_, rfl⟩

/-- A regular expression that keeps to the limit has an answer. -/
theorem hasPattern_eq {regex : String} {p : Pattern} (hp : Pattern.compile? regex false = some p)
    (value : Option Json) : ∃ y, Selector.hasPattern value (.str regex) none = .ok y ∧
      (∀ text, value = some (.str text) → y = p.occursIn text) ∧ (value = none → y = false) := by
  have hignore : ((none : Option String).getD "").contains 'i' = false := by simp
  unfold Selector.hasPattern
  dsimp only [Option.bind_none]
  rw [hignore, hp]
  refine ⟨_, rfl, ?_, ?_⟩
  · rintro text rfl
    rfl
  · rintro rfl
    rfl

theorem accepts_fieldInPath (hfield : field ∉ reserved)
    (hcompiles : pathCompiles (Path.parse pattern) = true) (document : Json) :
    Selector.accepts (fieldInPath field (Path.parse pattern)) document =
      .ok (mayBeInPath pattern (Selector.lookup document field)) := by
  obtain ⟨x, hx⟩ := hasType_string (Selector.lookup document field)
  have hother := accepts_otherThan hfield hx
  unfold fieldInPath
  cases hregex : pathRegex? (Path.parse pattern).segments with
  | none =>
    dsimp only
    rw [hother]
    have hnever : ∀ text, (Path.parse pattern).contains (Path.parse text) = false := fun text =>
      Pattern.covers_of_none _ hregex
    cases hvalue : Selector.lookup document field with
    | none => rfl
    | some j =>
      rw [hvalue] at hx
      cases hx
      cases j with
      | str text => exact congrArg Except.ok (hnever text).symm
      | _ => rfl
  | some regex =>
    dsimp only
    rw [pathCompiles, hregex] at hcompiles
    obtain ⟨p, hp⟩ := Option.isSome_iff_exists.mp hcompiles
    have hparse := (Option.filter_eq_some_iff.mp hp).1
    obtain ⟨y, hy, htext, hnone⟩ := hasPattern_eq hp (Selector.lookup document field)
    have hregexp : Selector.accepts (on field (on "$regex" (.str (String.ofList ('^' :: regex)))))
        document = .ok y := (Selector.accepts_on hfield _ _).trans (Selector.meets_regex.trans hy)
    rw [Selector.accepts_or, Selector.acceptsAny_pair hregexp hother]
    cases hvalue : Selector.lookup document field with
    | none =>
      rw [hnone hvalue]
      rfl
    | some j =>
      rw [hvalue] at hx
      cases hx
      cases j with
      | str text =>
        rw [htext text hvalue, Pattern.occursIn_path hregex hparse]
        exact congrArg Except.ok (Bool.or_false _)
      | _ => exact congrArg Except.ok (Bool.or_true _)

theorem judge_memberOfPath (hl : lhs.isPlainOperand = true)
    (hcompiles : pathCompiles (Path.parse pattern) = true) (document : Json) :
    ∃ x, (memberOfPath lhs (Path.parse pattern)).judge document = .ok x := by
  unfold memberOfPath
  cases hlhs : Operand.ofOperation lhs with
  | field l =>
    have hname := Operation.not_mem_reserved hl (Operand.field_of_ofOperation hlhs)
    exact ⟨_, accepts_fieldInPath hname hcompiles document⟩
  | value w =>
    cases w with
    | string candidate => exact ⟨_, judge_const _ document⟩
    | _ => exact ⟨true, rfl⟩
  | other => exact ⟨true, rfl⟩

theorem describes_memberOfPath (hl : lhs.isPlainOperand = true)
    (hcompiles : pathCompiles (Path.parse pattern) = true) (ha : lhs.Reads document a)
    (hv : Operator.apply .member a (.path (Path.parse pattern)) = .ok v) :
    (memberOfPath lhs (Path.parse pattern)).Describes document v := by
  unfold memberOfPath
  cases hlhs : Operand.ofOperation lhs with
  | field l =>
    have hfield := Operand.field_of_ofOperation hlhs
    refine describes_atLeast fun htrue => ?_
    rw [accepts_fieldInPath (Operation.not_mem_reserved hl hfield) hcompiles]
    rw [ha.field hfield, htrue] at hv
    cases hvalue : Selector.lookup document l with
    | none =>
      rw [hvalue] at hv
      cases hv
    | some j =>
      rw [hvalue] at hv
      cases j with
      | str text =>
        change (Except.ok (Value.bool ((Path.parse pattern).contains (Path.parse text))) :
          Except ExecError Value) = .ok (.bool true) at hv
        exact congrArg Except.ok (Value.bool.inj (Except.ok.inj hv))
      | _ => rfl
  | value w =>
    cases w with
    | string candidate =>
      rw [ha.literal (Operand.literal_of_ofOperation hlhs)] at hv
      cases hv
      exact describes_const _ document
    | _ => exact describes_unknown document v
  | other => exact describes_unknown document v

end Clause

end DocQuery
