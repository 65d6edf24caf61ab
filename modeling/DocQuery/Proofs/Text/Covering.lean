import DocQuery.Path

/-!
# What a path pattern covers

A pattern is walked together with a candidate, and the first wildcard ends the walk. **So a pattern
is its segments in front of the first wildcard, and that wildcard** (`covers_split`): the candidate
has to begin with these segments and to go on behind them, for `*` by exactly one segment. What
stands behind the wildcard is never looked at (`Path.contains_wildcard`).
-/

set_option autoImplicit false

namespace DocQuery
namespace Path

/-- Whether a segment of a pattern is a wildcard. -/
def isWildcard (segment : String) : Bool := segment == "*" || segment == "**"

variable {before candidate : List String} {wildcard segment : String}

theorem covers_step (h : isWildcard segment = false) (ps : List String) (c : String)
    (cs : List String) : covers (segment :: ps) (c :: cs) = true ↔
      segment = c ∧ ps ≠ [] ∧ cs ≠ [] ∧ covers ps cs = true := by
  have hplain : segment ≠ "*" ∧ segment ≠ "**" := by simpa [isWildcard] using h
  rw [covers, if_neg hplain.2, if_neg hplain.1]
  simp [and_assoc]

/-- Without a wildcard nothing is covered. -/
theorem covers_plain {pattern : List String} (h : ∀ segment ∈ pattern, isWildcard segment = false)
    (candidate : List String) : covers pattern candidate = false := by
  induction pattern generalizing candidate with
  | nil => rfl
  | cons segment rest ih =>
    obtain ⟨hsegment, hrest⟩ := List.forall_mem_cons.mp h
    cases candidate with
    | nil =>
      have hplain : segment ≠ "*" ∧ segment ≠ "**" := by simpa [isWildcard] using hsegment
      rw [covers, if_neg hplain.2, if_neg hplain.1]
    | cons c cs =>
      rw [← Bool.not_eq_true, covers_step hsegment]
      rintro ⟨-, -, -, hcovers⟩
      rw [ih hrest] at hcovers
      cases hcovers

/-- A wildcard in front covers every candidate, or every single segment. -/
theorem covers_wildcard (h : isWildcard wildcard = true) (after : List String) (c : String)
    (cs : List String) :
    covers (wildcard :: after) (c :: cs) = true ↔ wildcard = "**" ∨ cs = [] := by
  rw [covers]
  split
  · next hany => simp [hany]
  · next hany =>
    have hone : wildcard = "*" := by simpa [isWildcard, hany] using h
    simp [hone]

/-- What is covered begins with the segments in front of the first wildcard and goes on. -/
theorem covers_split (hbefore : ∀ segment ∈ before, isWildcard segment = false)
    (hwildcard : isWildcard wildcard = true) (after : List String) (hne : candidate ≠ []) :
    covers (before ++ wildcard :: after) candidate = true ↔
      ∃ c cs, candidate = before ++ c :: cs ∧ (wildcard = "**" ∨ cs = []) := by
  induction before generalizing candidate with
  | nil =>
    obtain ⟨c, cs, rfl⟩ := List.exists_cons_of_ne_nil hne
    rw [List.nil_append, covers_wildcard hwildcard]
    constructor
    · exact fun hlast => ⟨c, cs, rfl, hlast⟩
    · rintro ⟨d, ds, heq, hlast⟩
      obtain ⟨rfl, rfl⟩ := List.cons.inj heq
      exact hlast
  | cons segment before ih =>
    obtain ⟨hsegment, hrest⟩ := List.forall_mem_cons.mp hbefore
    obtain ⟨c, cs, rfl⟩ := List.exists_cons_of_ne_nil hne
    rw [List.cons_append, covers_step hsegment]
    constructor
    · rintro ⟨rfl, -, hcs, hcovers⟩
      obtain ⟨d, ds, rfl, hlast⟩ := (ih hrest hcs).mp hcovers
      exact ⟨d, ds, rfl, hlast⟩
    · rintro ⟨d, ds, heq, hlast⟩
      obtain ⟨rfl, rfl⟩ := List.cons.inj heq
      have hcs : before ++ d :: ds ≠ [] := by simp
      exact ⟨rfl, by simp, hcs, (ih hrest hcs).mpr ⟨d, ds, rfl, hlast⟩⟩

/-- A list that begins with `before` and goes on. -/
theorem exists_append_cons_iff {k : Nat} (hk : before.length = k) :
    (∃ c cs, candidate = before ++ c :: cs ∧ (wildcard = "**" ∨ cs = [])) ↔
      k < candidate.length ∧ candidate.take k = before ∧
        (wildcard = "**" ∨ candidate.length = k + 1) := by
  subst hk
  constructor
  · rintro ⟨c, cs, rfl, hlast⟩
    refine ⟨by simp, List.take_left, hlast.imp_right ?_⟩
    rintro rfl
    simp
  · rintro ⟨hlt, htake, hlast⟩
    have hsplit := List.take_append_drop before.length candidate
    rw [htake, ← List.getElem_cons_drop hlt] at hsplit
    refine ⟨_, _, hsplit.symm, hlast.imp_right fun hlength => ?_⟩
    exact List.drop_eq_nil_of_le (by omega)

/-- Up to its first wildcard a pattern says what it covers. -/
theorem covers_iff {pattern : List String} {k : Nat} (hk : pattern.findIdx? isWildcard = some k)
    (hne : candidate ≠ []) (after : List String) :
    covers (pattern.take (k + 1) ++ after) candidate = true ↔
      k < candidate.length ∧ candidate.take k = pattern.take k ∧
        (pattern[k]? = some "**" ∨ candidate.length = k + 1) := by
  obtain ⟨hlt, hwildcard, hfirst⟩ := List.findIdx?_eq_some_iff_getElem.mp hk
  have hplain : ∀ segment ∈ pattern.take k, isWildcard segment = false := by
    intro segment hmem
    obtain ⟨i, hi, rfl⟩ := List.mem_take_iff_getElem.mp hmem
    exact Bool.not_eq_true _ ▸ hfirst i (by omega)
  have hlength : (pattern.take k).length = k := List.length_take_of_le (Nat.le_of_lt hlt)
  have hsplit : pattern.take (k + 1) ++ after = pattern.take k ++ pattern[k] :: after := by
    rw [List.take_add_one, List.getElem?_eq_getElem hlt, Option.toList_some, List.append_assoc,
      List.singleton_append]
  rw [hsplit, covers_split hplain hwildcard after hne, exists_append_cons_iff hlength,
    List.getElem?_eq_getElem hlt, Option.some_inj]

/-- **A pattern contains a candidate exactly if it has a wildcard, the candidate agrees with it up to
the first one, and goes on**: by exactly one segment where that wildcard is `*`. Whatever stands
behind it could be anything else. -/
theorem contains_wildcard {pattern candidate : Path} (h : candidate.segments ≠ []) :
    (pattern.contains candidate = true ↔ ∃ k, pattern.segments.findIdx? isWildcard = some k ∧
      k < candidate.segments.length ∧
      candidate.segments.take k = pattern.segments.take k ∧
      (pattern.segments[k]? = some "**" ∨ candidate.segments.length = k + 1)) ∧
    ∀ k, pattern.segments.findIdx? isWildcard = some k → ∀ after,
      (Path.mk (pattern.segments.take (k + 1) ++ after)).contains candidate =
        pattern.contains candidate := by
  have hwhole : ∀ k, pattern.segments.findIdx? isWildcard = some k →
      (pattern.contains candidate = true ↔ k < candidate.segments.length ∧
        candidate.segments.take k = pattern.segments.take k ∧
        (pattern.segments[k]? = some "**" ∨ candidate.segments.length = k + 1)) := by
    intro k hk
    have hcovers := covers_iff hk h (pattern.segments.drop (k + 1))
    rwa [List.take_append_drop] at hcovers
  refine ⟨?_, fun k hk after => ?_⟩
  · cases hfirst : pattern.segments.findIdx? isWildcard with
    | none =>
      have hnever : pattern.contains candidate = false :=
        covers_plain (List.findIdx?_eq_none_iff.mp hfirst) _
      simp [hnever]
    | some k =>
      rw [hwhole k hfirst]
      simp
  · rw [Bool.eq_iff_iff, hwhole k hk, contains, covers_iff hk h after]

/-- `a.*.c` contains `a.b`, as `a.*` does. -/
theorem contains_wildcard_within : (parse "a.b").segments ≠ [] ∧
    (parse "a.*.c").segments.findIdx? isWildcard = some 1 ∧
    (parse "a.*.c").contains (parse "a.b") = true ∧
    (Path.mk ["a", "*"]).contains (parse "a.b") = true := by
  have hfirst : (parse "a.*.c").segments.findIdx? isWildcard = some 1 := by decide
  obtain ⟨hcontains, hbehind⟩ := @contains_wildcard (parse "a.*.c") (parse "a.b") (by decide)
  have hwithin := hcontains.mpr ⟨1, hfirst, by decide, by decide, .inr (by decide)⟩
  exact ⟨by decide, hfirst, hwithin, (hbehind 1 hfirst []).trans hwithin⟩

end Path
end DocQuery
