import DocQuery.Proofs.Store.PathPattern

/-!
# Containment as a regular expression

A path pattern contains a path by a walk over both lists of segments; the expression that stands for
the pattern in a selector looks at the dotted text. **The two are the same test**
(`pathRegex?_contains`): whatever the pattern, its expression can be read, and it occurs exactly in
the texts that the pattern contains; and a pattern is without an expression exactly if it contains
nothing.

That the expression can be read is a matter of its depth: it is flat however long the pattern is
(`exists_parse_path`). That it would be found in some text says that the pattern is not written as
an expression in vain (`exists_covered`).
-/

set_option autoImplicit false

namespace DocQuery

namespace Pattern

open Clause Reader

variable {segments : List String} {regex : List Char}

/-! ## The expression can be read -/

theorem depth_expressionsOf : ∀ {segments : List String}, ∀ e ∈ expressionsOf segments, e.depth ≤ 2
  | [], _, h => by cases h
  | segment :: rest, e, h => by
    rw [expressionsOf] at h
    split at h
    · cases h
    · split at h
      · rcases List.mem_cons.mp h with rfl | h
        · exact Nat.le_refl 2
        · obtain rfl := List.mem_singleton.mp h
          exact Nat.zero_le 2
      · rcases List.mem_append.mp h with h | h
        · obtain ⟨c, -, rfl⟩ := List.mem_map.mp h
          exact Nat.zero_le 2
        · exact depth_expressionsOf e h

/-- The expression of a path can be read, however long it is. -/
theorem exists_parse_path (h : pathRegex? segments = some regex) :
    ∃ p, parse? (String.ofList ('^' :: regex)) false = some p := by
  refine exists_parse (reaches_readPath h) (hasRead_readPath segments) (n := 2) (by decide)
    fun e he => ?_
  rw [readPath, State.items_pushAll] at he
  rcases List.mem_append.mp he with he | he
  · exact depth_expressionsOf e (List.mem_reverse.mp he)
  · obtain rfl := List.mem_singleton.mp he
    exact Nat.zero_le 2

/-! ## Something is contained -/

/-- A pattern with an expression covers names that can be written with dots. -/
theorem exists_covered : ∀ {segments : List String} {regex : List Char},
    segments.all Path.isSegment = true → pathRegex? segments = some regex →
      ∃ names, names ≠ [] ∧ names.all Path.isSegment = true ∧ Path.covers segments names = true
  | [], _, _, h => by cases h
  | segment :: rest, _, hdots, h => by
    obtain ⟨hsegment, hrest⟩ := Bool.and_eq_true_iff.mp hdots
    rw [pathRegex?] at h
    split at h
    · next hany =>
      refine ⟨[""], List.cons_ne_nil _ _, rfl, ?_⟩
      rw [Path.covers, if_pos hany]
    · next hany =>
      split at h
      · next hone =>
        refine ⟨[""], List.cons_ne_nil _ _, rfl, ?_⟩
        rw [Path.covers, if_neg hany, if_pos hone]
        rfl
      · next hone =>
        obtain ⟨later, hlater, -⟩ := Option.map_eq_some_iff.mp h
        obtain ⟨names, hne, hnames, hcovers⟩ := exists_covered hrest hlater
        refine ⟨segment :: names, List.cons_ne_nil _ _, ?_, ?_⟩
        · rw [List.all_cons, hsegment, hnames]
          rfl
        · have hmore : rest.isEmpty = false := by
            cases rest with
            | nil => cases hlater
            | cons _ _ => rfl
          rw [Path.covers, if_neg hany, if_neg hone]
          simp [hmore, hne, hcovers]

theorem isSegment_parse (pattern : String) :
    (Path.parse pattern).segments.all Path.isSegment = true := by
  refine List.all_eq_true.mpr fun segment hsegment => ?_
  obtain ⟨piece, hpiece, rfl⟩ := List.mem_map.mp hsegment
  have hdot := Text.not_mem_of_mem_splitDots hpiece
  simpa [Path.isSegment] using hdot

/-! ## The same test -/

/-- **A path pattern is written as an expression exactly if it contains anything, and that
expression occurs exactly in the texts that it contains.** What a store compiles of the expression,
unless it is too large for it, is the pattern that is read here. -/
theorem pathRegex?_contains (pattern : String) :
    (∀ regex, pathRegex? (Path.parse pattern).segments = some regex →
      ∃ p, parse? (String.ofList ('^' :: regex)) false = some p ∧
        (∀ compiled, compile? (String.ofList ('^' :: regex)) false = some compiled → compiled = p) ∧
        ∀ text, p.occursIn text = true ↔
          (Path.parse pattern).contains (Path.parse text) = true) ∧
    (pathRegex? (Path.parse pattern).segments = none ↔
      ∀ text, (Path.parse pattern).contains (Path.parse text) = false) := by
  refine ⟨fun regex hregex => ?_, fun hnone text => covers_of_none _ hnone, fun hnever => ?_⟩
  · obtain ⟨p, hp⟩ := exists_parse_path hregex
    refine ⟨p, hp, fun compiled hcompiled => ?_, fun text => ?_⟩
    · have hparse := (Option.filter_eq_some_iff.mp hcompiled).1
      exact Option.some.inj (hparse.symm.trans hp)
    · rw [occursIn_path hregex hp]
  · cases hregex : pathRegex? (Path.parse pattern).segments with
    | none => rfl
    | some regex =>
      obtain ⟨names, hne, hnames, hcovers⟩ := exists_covered (isSegment_parse pattern) hregex
      have hcontains := hnever (String.intercalate "." names)
      rw [Path.contains, Path.segments_parse_intercalate hne hnames, hcovers] at hcontains
      cases hcontains

/-- `a.*` contains `a.b` and not `a.b.c`. What stands behind a wildcard does not count, so `a.*.c`
contains `a.b` as well and has an expression. -/
theorem pathRegex?_contains_star :
    (∃ p, parse? "^a\\.[^.]*$" false = some p ∧ p.occursIn "a.b" = true ∧
      ¬p.occursIn "a.b.c" = true) ∧ pathRegex? (Path.parse "a.*.c").segments ≠ none := by
  have hregex : pathRegex? (Path.parse "a.*").segments = some "a\\.[^.]*$".toList := by decide
  obtain ⟨p, hp, -, hoccurs⟩ := (pathRegex?_contains "a.*").1 _ hregex
  refine ⟨⟨p, hp, (hoccurs "a.b").mpr (by decide), fun h => ?_⟩, fun hnone => ?_⟩
  · exact absurd ((hoccurs "a.b.c").mp h) (by decide)
  · exact absurd ((pathRegex?_contains "a.*.c").2.mp hnone "a.b") (by decide)

end Pattern
end DocQuery
