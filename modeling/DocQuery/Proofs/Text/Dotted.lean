import DocQuery.Path

/-!
# Dotted texts

Names are joined with dots on one side and split at dots on the other. A text is what its pieces are
joined to (`text_parse`). Names that are joined come back as the pieces of each of them
(`segments_intercalate`), so they come back as they were exactly when there is one at least and none
of them holds a dot (`segments_parse_intercalate`).
-/

set_option autoImplicit false

namespace DocQuery
namespace Text

theorem splitDots_ne_nil (cs : List Char) : splitDots cs ≠ [] := by
  cases cs with
  | nil => exact List.cons_ne_nil _ _
  | cons c cs =>
    rw [splitDots]
    split
    · exact List.cons_ne_nil _ _
    · split <;> exact List.cons_ne_nil _ _

theorem not_mem_of_mem_splitDots {cs piece : List Char} (h : piece ∈ splitDots cs) : '.' ∉ piece := by
  induction cs generalizing piece with
  | nil =>
    rw [List.mem_singleton.mp h]
    exact List.not_mem_nil
  | cons c cs ih =>
    rw [splitDots] at h
    split at h
    · rcases List.mem_cons.mp h with rfl | h
      · exact List.not_mem_nil
      · exact ih h
    · next hc =>
      have hfirst : ∀ p, '.' ∉ p → '.' ∉ c :: p := fun p hp hmem =>
        (List.mem_cons.mp hmem).elim (fun heq => hc heq.symm) hp
      split at h
      · rw [List.mem_singleton.mp h]
        exact hfirst [] List.not_mem_nil
      · next p ps hsplit =>
        rw [hsplit] at ih
        rcases List.mem_cons.mp h with rfl | h
        · exact hfirst p (ih List.mem_cons_self)
        · exact ih (List.mem_cons_of_mem p h)

theorem splitDots_eq_singleton {cs : List Char} (h : '.' ∉ cs) : splitDots cs = [cs] := by
  induction cs with
  | nil => rfl
  | cons c cs ih =>
    simp only [List.mem_cons, not_or] at h
    obtain ⟨hc, hcs⟩ := h
    rw [splitDots, if_neg (Ne.symm hc), ih hcs]

/-- A dot between two texts keeps their pieces apart. -/
theorem splitDots_append (cs rest : List Char) :
    splitDots (cs ++ '.' :: rest) = splitDots cs ++ splitDots rest := by
  induction cs with
  | nil => rfl
  | cons c cs ih =>
    rw [List.cons_append, splitDots, splitDots, ih]
    split
    · rfl
    · cases hsplit : splitDots cs with
      | nil => exact absurd hsplit (splitDots_ne_nil cs)
      | cons p ps => rfl

theorem splitDots_append_dot {cs : List Char} (h : '.' ∉ cs) (rest : List Char) :
    splitDots (cs ++ '.' :: rest) = cs :: splitDots rest := by
  rw [splitDots_append, splitDots_eq_singleton h]
  rfl

/-- A text has one piece, or a first piece that ends at a dot. -/
theorem splitDots_cases (cs : List Char) : '.' ∉ cs ∧ splitDots cs = [cs] ∨
    ∃ p rest, '.' ∉ p ∧ cs = p ++ '.' :: rest ∧ splitDots cs = p :: splitDots rest := by
  by_cases hdot : '.' ∈ cs
  · obtain ⟨p, rest, rfl, hp⟩ := List.eq_append_cons_of_mem hdot
    exact .inr ⟨p, rest, hp, rfl, splitDots_append_dot hp rest⟩
  · exact .inl ⟨hdot, splitDots_eq_singleton hdot⟩

end Text

namespace Path

/-- A name that is one segment of a dotted text. -/
def isSegment (name : String) : Bool := !name.toList.contains '.'

theorem not_mem_of_isSegment {name : String} (h : isSegment name = true) : '.' ∉ name.toList := by
  simpa [isSegment] using h

theorem toList_append_dot (a b : String) : (a ++ "." ++ b).toList = a.toList ++ '.' :: b.toList := by
  simp

theorem segments_parse_self {name : String} (h : isSegment name = true) :
    (parse name).segments = [name] := by
  show (Text.splitDots name.toList).map String.ofList = [name]
  rw [Text.splitDots_eq_singleton (not_mem_of_isSegment h)]
  simp

/-- Joined names have the segments of each of them. -/
theorem segments_intercalate {names : List String} (hne : names ≠ []) :
    (parse (String.intercalate "." names)).segments = names.flatMap fun n => (parse n).segments := by
  induction names with
  | nil => exact absurd rfl hne
  | cons name names ih =>
    cases names with
    | nil => rw [String.intercalate_singleton, List.flatMap_singleton]
    | cons other names =>
      rw [List.flatMap_cons, ← ih (List.cons_ne_nil _ _), String.intercalate_cons_cons]
      show (Text.splitDots (name ++ "." ++ _).toList).map String.ofList = _
      rw [toList_append_dot, Text.splitDots_append, List.map_append]
      rfl

theorem segments_parse_intercalate {names : List String} (hne : names ≠ [])
    (h : names.all isSegment = true) : (parse (String.intercalate "." names)).segments = names := by
  have hself : names.map (fun n => (parse n).segments) = names.map fun n => [n] :=
    List.map_congr_left fun n hn => segments_parse_self (List.all_eq_true.mp h n hn)
  rw [segments_intercalate hne, List.flatMap, hself, ← List.flatMap, List.flatMap_singleton']

/-- What a joined text begins with is put before the first of its pieces. -/
theorem append_intercalate (sep first name : String) (names : List String) :
    first ++ String.intercalate sep (name :: names) =
      String.intercalate sep ((first ++ name) :: names) := by
  cases names with
  | nil => rw [String.intercalate_singleton, String.intercalate_singleton]
  | cons other names =>
    rw [String.intercalate_cons_cons, String.intercalate_cons_cons]
    simp only [String.append_assoc]

theorem intercalate_splitDots (cs : List Char) :
    String.intercalate "." ((Text.splitDots cs).map String.ofList) = String.ofList cs := by
  induction cs with
  | nil => rfl
  | cons c cs ih =>
    rw [Text.splitDots]
    cases hsplit : Text.splitDots cs with
    | nil => exact absurd hsplit (Text.splitDots_ne_nil cs)
    | cons p ps =>
      have hfirst : String.ofList (c :: cs) = String.ofList [c] ++ String.ofList cs :=
        @String.ofList_append [c] cs
      rw [hsplit] at ih
      rw [hfirst, ← ih]
      split
      · next hdot =>
        rw [hdot, List.map_cons, List.map_cons, String.intercalate_cons_cons]
        rfl
      · rw [List.map_cons, List.map_cons, append_intercalate, ← String.ofList_append]
        rfl

/-- A text is what its pieces are joined to. -/
theorem text_parse (s : String) : (parse s).text = s := by
  show String.intercalate "." ((Text.splitDots s.toList).map String.ofList) = s
  rw [intercalate_splitDots, String.ofList_toList]

end Path
end DocQuery
