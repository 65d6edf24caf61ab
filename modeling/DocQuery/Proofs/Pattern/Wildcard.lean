import DocQuery.Proofs.Pattern.Matching
import DocQuery.Proofs.Text.Words

/-!
# Texts with wildcards

A text in which every star stands for any characters of one line, and every other character for its
variants in letter case. `Covers` says which texts it stands for. **Its pattern is found wherever such
a text stands in another one** (`occursIn_wildcards`).

A pattern leads from all places of a text at once, so it has to be seen that no place is lost on the
way: sets of places stay in order (`Ordered`), merging and thinning out lose no place of such sets, and
a repetition has rounds enough to come to an end (`next?_mem_closure`).
-/

set_option autoImplicit false

namespace DocQuery
namespace Pattern

/-! ## Places of one text -/

variable {set : CharSet} {s t : Place} {S T : List Place} {n : Nat} {before : Option Char}
  {text cs : List Char}

theorem mem_placesFrom_self (n : Nat) (before : Option Char) (cs : List Char) :
    ⟨n, before, cs⟩ ∈ placesFrom n before cs := by
  cases cs <;> exact List.mem_cons_self

theorem position_add_of_mem (h : s ∈ placesFrom n before cs) :
    s.position + s.after.length = n + cs.length := by
  induction cs generalizing n before with
  | nil =>
    obtain rfl := List.mem_singleton.mp h
    rfl
  | cons c cs ih =>
    rcases List.mem_cons.mp h with rfl | h
    · rfl
    · rw [ih h, List.length_cons]
      omega

theorem le_position_of_mem (h : s ∈ placesFrom n before cs) : n ≤ s.position := by
  induction cs generalizing n before with
  | nil => exact Nat.le_of_eq (congrArg Place.position (List.mem_singleton.mp h)).symm
  | cons c cs ih =>
    rcases List.mem_cons.mp h with rfl | h
    · exact Nat.le_refl n
    · exact Nat.le_of_succ_le (ih h)

theorem sorted_placesFrom (n : Nat) (before : Option Char) (cs : List Char) :
    (placesFrom n before cs).Pairwise (·.position < ·.position) := by
  induction cs generalizing n before with
  | nil => exact List.pairwise_singleton _ _
  | cons c cs ih => exact List.pairwise_cons.mpr ⟨fun _ h => le_position_of_mem h, ih _ _⟩

/-- Places of one text are the same if their positions are. -/
theorem eq_of_position (hs : s ∈ placesFrom n before cs) (ht : t ∈ placesFrom n before cs)
    (h : s.position = t.position) : s = t := by
  induction cs generalizing n before with
  | nil => rw [List.mem_singleton.mp hs, List.mem_singleton.mp ht]
  | cons c cs ih =>
    rcases List.mem_cons.mp hs with rfl | hs <;> rcases List.mem_cons.mp ht with rfl | ht
    · rfl
    · exact absurd h (Nat.ne_of_lt (le_position_of_mem ht))
    · exact absurd h.symm (Nat.ne_of_lt (le_position_of_mem hs))
    · exact ih hs ht

theorem next?_eq_some : s.next? set = some t ↔
    ∃ c cs, s.after = c :: cs ∧ set.contains c = true ∧ t = ⟨s.position + 1, some c, cs⟩ := by
  unfold Place.next?
  split
  · next hafter => simp [hafter]
  · next c cs hafter =>
    rw [hafter]
    constructor
    · intro h
      split at h
      · next hc => exact ⟨c, cs, rfl, hc, (Option.some.inj h).symm⟩
      · cases h
    · rintro ⟨d, ds, heq, hd, rfl⟩
      obtain ⟨rfl, rfl⟩ := List.cons.inj heq
      exact if_pos hd

theorem next?_mem_placesFrom (hs : s ∈ placesFrom n before cs) (h : s.next? set = some t) :
    t ∈ placesFrom n before cs := by
  obtain ⟨c, rest, hafter, -, rfl⟩ := next?_eq_some.mp h
  induction cs generalizing n before with
  | nil =>
    obtain rfl := List.mem_singleton.mp hs
    cases hafter
  | cons d cs ih =>
    rcases List.mem_cons.mp hs with rfl | hs
    · obtain ⟨rfl, rfl⟩ := List.cons.inj hafter
      exact List.mem_cons_of_mem _ (mem_placesFrom_self _ _ _)
    · exact List.mem_cons_of_mem _ (ih hs)

/-! ## Sets in order -/

/-- Places of one text, in its order. -/
structure Ordered (text : List Char) (S : List Place) : Prop where
  among : ∀ s ∈ S, s ∈ places text
  sorted : S.Pairwise (·.position < ·.position)

namespace Ordered

theorem places (text : List Char) : Ordered text (places text) :=
  ⟨fun _ h => h, sorted_placesFrom 0 none text⟩

theorem sublist (h : Ordered text T) (hST : S.Sublist T) : Ordered text S :=
  ⟨fun s hs => h.among s (hST.subset hs), h.sorted.sublist hST⟩

/-- A step over one character. -/
theorem next (h : Ordered text S) (set : CharSet) : Ordered text (ends (.char set) S) := by
  refine ⟨fun t ht => ?_, ?_⟩
  · obtain ⟨s, hs, hnext⟩ := List.mem_filterMap.mp ht
    exact next?_mem_placesFrom (h.among s hs) hnext
  · refine h.sorted.filterMap _ fun s s' hlt t ht t' ht' => ?_
    obtain ⟨c, cs, -, -, rfl⟩ := next?_eq_some.mp ht
    obtain ⟨c', cs', -, -, rfl⟩ := next?_eq_some.mp ht'
    exact Nat.succ_lt_succ hlt

end Ordered

/-! ## Nothing is lost -/

theorem lt_of_mem_dropWhile {m : Nat} (h : S.Pairwise (·.position < ·.position))
    (hs : s ∈ S.dropWhile (·.position ≤ m)) : m < s.position := by
  induction S with
  | nil => cases hs
  | cons p S ih =>
    obtain ⟨hp, hS⟩ := List.pairwise_cons.mp h
    rw [List.dropWhile_cons] at hs
    split at hs
    · exact ih hS hs
    · next hfirst =>
      have hlt : m < p.position := by simpa using hfirst
      rcases List.mem_cons.mp hs with rfl | hs
      · exact hlt
      · exact Nat.lt_trans hlt (hp s hs)

theorem mem_takeWhile_of_lt {m : Nat} (h : S.Pairwise (·.position < ·.position)) (hs : s ∈ S)
    (hlt : s.position < m) : s ∈ S.takeWhile (·.position < m) := by
  induction S with
  | nil => cases hs
  | cons p S ih =>
    obtain ⟨hp, hS⟩ := List.pairwise_cons.mp h
    rcases List.mem_cons.mp hs with rfl | hs
    · rw [List.takeWhile_cons, if_pos (by simpa using hlt)]
      exact List.mem_cons_self
    · have hfirst : p.position < m := Nat.lt_trans (hp s hs) hlt
      rw [List.takeWhile_cons, if_pos (by simpa using hfirst)]
      exact List.mem_cons_of_mem p (ih hS hs)

theorem sorted_merge (hS : S.Pairwise (·.position < ·.position))
    (hT : T.Pairwise (·.position < ·.position)) :
    (merge S T).Pairwise (·.position < ·.position) := by
  induction S generalizing T with
  | nil => exact hT
  | cons p S ih =>
    obtain ⟨hp, hS⟩ := List.pairwise_cons.mp hS
    have hlater : ∀ t ∈ merge S (T.dropWhile (·.position ≤ p.position)), p.position < t.position :=
      fun t ht => (mem_merge ht).elim (hp t) (lt_of_mem_dropWhile hT)
    rw [merge, List.pairwise_append]
    refine ⟨hT.sublist (List.takeWhile_sublist _), ?_, fun s hs t ht => ?_⟩
    · exact List.pairwise_cons.mpr ⟨hlater, ih hS (hT.sublist (List.dropWhile_sublist _))⟩
    · have hbefore : s.position < p.position := by
        simpa using List.all_eq_true.mp List.all_takeWhile s hs
      rcases List.mem_cons.mp ht with rfl | ht
      · exact hbefore
      · exact Nat.lt_trans hbefore (hlater t ht)

/-- Merging drops a place only for another one in the same position. -/
theorem mem_merge_right (hT : T.Pairwise (·.position < ·.position)) (ht : t ∈ T) :
    t ∈ merge S T ∨ ∃ s ∈ S, s.position = t.position := by
  induction S generalizing T with
  | nil => exact .inl ht
  | cons p S ih =>
    rw [merge]
    rcases Nat.lt_trichotomy t.position p.position with hlt | heq | hgt
    · exact .inl (List.mem_append_left _ (mem_takeWhile_of_lt hT ht hlt))
    · exact .inr ⟨p, List.mem_cons_self, heq.symm⟩
    · have hkept : t ∈ T.dropWhile (·.position ≤ p.position) := by
        rw [← List.takeWhile_append_dropWhile (p := (·.position ≤ p.position)) (l := T)] at ht
        refine (List.mem_append.mp ht).resolve_left fun htaken => ?_
        have hle : t.position ≤ p.position := by
          simpa using List.all_eq_true.mp List.all_takeWhile t htaken
        exact Nat.not_lt_of_le hle hgt
      rcases ih (hT.sublist (List.dropWhile_sublist _)) hkept with hmem | ⟨s, hs, heq⟩
      · exact .inl (List.mem_append_right _ (List.mem_cons_of_mem p hmem))
      · exact .inr ⟨s, List.mem_cons_of_mem p hs, heq⟩

theorem sublist_without (S T : List Place) : (without S T).Sublist S := by
  induction S, T using without.induct with
  | case1 T => exact .refl _
  | case2 p S T hdrop =>
    simp [without, hdrop]
  | case3 p S T t T' hdrop hsame ih =>
    rw [without, hdrop]
    dsimp only
    rw [if_pos hsame]
    exact ih.cons p
  | case4 p S T t T' hdrop hsame ih =>
    rw [without, hdrop]
    dsimp only
    rw [if_neg hsame]
    exact ih.cons_cons p

/-- Thinning out drops a place only for another one in the same position. -/
theorem mem_without_of_mem (hs : s ∈ S) : s ∈ without S T ∨ ∃ t ∈ T, t.position = s.position := by
  induction S, T using without.induct with
  | case1 T => cases hs
  | case2 p S T hdrop =>
    rw [without, hdrop]
    exact .inl hs
  | case3 p S T t T' hdrop hsame ih =>
    have hT : t :: T' ⊆ T := fun u hu => (List.dropWhile_sublist _).subset (hdrop ▸ hu)
    rw [without, hdrop]
    dsimp only
    rw [if_pos hsame]
    rcases List.mem_cons.mp hs with rfl | hs
    · exact .inr ⟨t, hT List.mem_cons_self, hsame⟩
    · rcases ih hs with hmem | ⟨u, hu, heq⟩
      · exact .inl hmem
      · exact .inr ⟨u, hT (List.mem_cons_of_mem t hu), heq⟩
  | case4 p S T t T' hdrop hsame ih =>
    have hT : t :: T' ⊆ T := fun u hu => (List.dropWhile_sublist _).subset (hdrop ▸ hu)
    rw [without, hdrop]
    dsimp only
    rw [if_neg hsame]
    rcases List.mem_cons.mp hs with rfl | hs
    · exact .inl List.mem_cons_self
    · rcases ih hs with hmem | ⟨u, hu, heq⟩
      · exact .inl (List.mem_cons_of_mem p hmem)
      · exact .inr ⟨u, hT hu, heq⟩

namespace Ordered

theorem merge (hS : Ordered text S) (hT : Ordered text T) : Ordered text (merge S T) :=
  ⟨fun s hs => (mem_merge hs).elim (hS.among s) (hT.among s), sorted_merge hS.sorted hT.sorted⟩

/-- Of places of one text none is lost by merging. -/
theorem mem_merge_right (hS : Ordered text S) (hT : Ordered text T) (ht : t ∈ T) :
    t ∈ Pattern.merge S T := by
  rcases Pattern.mem_merge_right (S := S) hT.sorted ht with hmem | ⟨s, hs, heq⟩
  · exact hmem
  · exact mem_merge_left (eq_of_position (hS.among s hs) (hT.among t ht) heq ▸ hs)

theorem mem_without_or (hS : Ordered text S) (hT : Ordered text T) (hs : s ∈ S) :
    s ∈ without S T ∨ s ∈ T :=
  (mem_without_of_mem hs).imp_right fun ⟨t, ht, heq⟩ =>
    eq_of_position (hT.among t ht) (hS.among s hs) heq ▸ ht

end Ordered

/-! ## Repeated characters -/

section

variable {rounds : Nat} {seen newest : List Place}

theorem Ordered.closure (hseen : Ordered text seen) (hnewest : Ordered text newest) :
    Ordered text (closure (fun S => ends (.char set) S) rounds seen newest) := by
  induction rounds generalizing seen newest with
  | zero => exact hseen
  | succ rounds ih =>
    rw [Pattern.closure]
    split
    · exact hseen
    · have hfresh := (hnewest.next set).sublist (sublist_without _ seen)
      exact ih (hseen.merge hfresh) hfresh

/-- A closure with rounds enough is closed: only the newest places have yet to be followed, and each
round takes them one character further. -/
theorem next?_mem_closure (hseen : Ordered text seen) (hnewest : Ordered text newest)
    (hclosed : ∀ s ∈ seen, ∀ t, s.next? set = some t → t ∈ seen ∨ s ∈ newest)
    (hrounds : ∀ s ∈ newest, s.after.length < rounds)
    (hs : s ∈ closure (fun S => ends (.char set) S) rounds seen newest)
    (h : s.next? set = some t) : t ∈ closure (fun S => ends (.char set) S) rounds seen newest := by
  induction rounds generalizing seen newest with
  | zero => exact (hclosed s hs t h).resolve_right fun hnew => Nat.not_lt_zero _ (hrounds s hnew)
  | succ rounds ih =>
    have hfresh := (hnewest.next set).sublist (sublist_without _ seen)
    -- what the newest places lead to is fresh or seen
    have hfollowed : ∀ s ∈ newest, ∀ t, s.next? set = some t →
        t ∈ without (ends (.char set) newest) seen ∨ t ∈ seen := fun s hs t h =>
      (hnewest.next set).mem_without_or hseen (List.mem_filterMap.mpr ⟨s, hs, h⟩)
    rw [closure] at hs ⊢
    split at hs
    · next hempty =>
      rw [if_pos hempty]
      refine (hclosed s hs t h).elim id fun hnew => (hfollowed s hnew t h).resolve_left fun hmem => ?_
      rw [List.isEmpty_iff.mp hempty] at hmem
      cases hmem
    · next hempty =>
      rw [if_neg hempty]
      refine ih (hseen.merge hfresh) hfresh (fun s hs t h => ?_) (fun t ht => ?_) hs
      · rcases mem_merge hs with hs | hs
        · rcases hclosed s hs t h with hmem | hnew
          · exact .inl (mem_merge_left hmem)
          · refine .inl ((hfollowed s hnew t h).elim (hseen.mem_merge_right hfresh) mem_merge_left)
        · exact .inr hs
      · obtain ⟨s, hs, hnext⟩ := List.mem_filterMap.mp (mem_without ht)
        obtain ⟨c, cs, hafter, -, rfl⟩ := next?_eq_some.mp hnext
        have hlt := hrounds s hs
        rw [hafter] at hlt
        exact Nat.lt_of_succ_lt_succ hlt

end

theorem ends_repeated (set : CharSet) (S : List Place) : ends (.repeated (.char set) 0 none) S =
    closure (fun S => ends (.char set) S) (enoughRounds S) S S := by
  rw [ends]
  rfl

/-- No place of a set is further from the end than the first. -/
theorem Ordered.length_lt_enoughRounds (h : Ordered text S) (hs : s ∈ S) :
    s.after.length < enoughRounds S := by
  cases S with
  | nil => cases hs
  | cons p S =>
    have hp := position_add_of_mem (h.among p List.mem_cons_self)
    have hsum := position_add_of_mem (h.among s hs)
    have hle : p.position ≤ s.position := by
      rcases List.mem_cons.mp hs with rfl | hs
      · exact Nat.le_refl _
      · exact Nat.le_of_lt ((List.pairwise_cons.mp h.sorted).1 s hs)
    show s.after.length < p.after.length + 1
    omega

/-! ## Following a text with wildcards -/

/-- A set in order with a place in front of a text. -/
structure Stands (text : List Char) (S : List Place) (cs : List Char) : Prop where
  ordered : Ordered text S
  here : ∃ s ∈ S, s.after = cs

namespace Stands

theorem char {c : Char} (h : Stands text S (c :: cs)) (hc : set.contains c = true) :
    Stands text (ends (.char set) S) cs := by
  obtain ⟨s, hs, hafter⟩ := h.here
  have hnext : s.next? set = some ⟨s.position + 1, some c, cs⟩ :=
    next?_eq_some.mpr ⟨c, cs, hafter, hc, rfl⟩
  exact ⟨h.ordered.next set, _, List.mem_filterMap.mpr ⟨s, hs, hnext⟩, rfl⟩

theorem repeated {skipped : List Char} (h : Stands text S (skipped ++ cs))
    (hskipped : ∀ c ∈ skipped, set.contains c = true) :
    Stands text (ends (.repeated (.char set) 0 none) S) cs := by
  rw [ends_repeated]
  refine ⟨h.ordered.closure h.ordered, ?_⟩
  have hordered := h.ordered
  have hstart : ∃ s ∈ closure (fun S => ends (.char set) S) (enoughRounds S) S S,
      s.after = skipped ++ cs := h.here.imp fun s hs => hs.imp_left mem_closure_of_mem
  clear h
  obtain ⟨s, hmem, hafter⟩ := hstart
  induction skipped generalizing s with
  | nil => exact ⟨s, hmem, hafter⟩
  | cons c skipped ih =>
    obtain ⟨hc, hlater⟩ := List.forall_mem_cons.mp hskipped
    have hnext : s.next? set = some ⟨s.position + 1, some c, skipped ++ cs⟩ :=
      next?_eq_some.mpr ⟨c, skipped ++ cs, hafter, hc, rfl⟩
    exact ih hlater _ (next?_mem_closure hordered hordered (fun _ hs _ _ => .inr hs)
      (fun _ hs => hordered.length_lt_enoughRounds hs) hmem hnext) rfl

end Stands

/-- The texts that a text with wildcards stands for: letters of either case for each letter, and any
characters of a line for each star. -/
inductive Covers : List Char → List Char → Prop
  | nil : Covers [] []
  | char {c d : Char} {cs ds : List Char} (hstar : c ≠ '*') (hsame : c ∈ Text.variants d)
      (hlater : Covers cs ds) : Covers (c :: cs) (d :: ds)
  | star {skipped cs ds : List Char} (hline : '\n' ∉ skipped) (hlater : Covers cs ds) :
      Covers ('*' :: cs) (skipped ++ ds)

theorem Covers.append {cs ds cs' ds' : List Char} (h : Covers cs ds) (h' : Covers cs' ds') :
    Covers (cs ++ cs') (ds ++ ds') := by
  induction h with
  | nil => exact h'
  | char hstar hsame _ ih => exact .char hstar hsame ih
  | star hline _ ih =>
    rw [List.append_assoc]
    exact .star hline ih

/-- The flags of a pattern that ignores letter case. -/
def caselessFlags : Reader.Flags := ⟨true, false, false⟩

/-- What a character of a text with wildcards is as a pattern. -/
def wildcard (c : Char) : Pattern :=
  if c = '*' then .repeated (.char .notNewline) 0 none else Reader.charPattern caselessFlags c

theorem contains_notNewline {c : Char} : CharSet.notNewline.contains c = true ↔ c ≠ '\n' := by
  have hsingle := contains_single (c := '\n') (d := c)
  unfold CharSet.notNewline
  rw [CharSet.contains, Bool.not_eq_true', ← Bool.not_eq_true, hsingle]

theorem contains_folded_single {c d : Char} (h : c ∈ Text.variants d) :
    (CharSet.folded (.single c)).contains d = true :=
  List.any_eq_true.mpr ⟨c, h, contains_single.mpr rfl⟩

theorem Stands.covers {cs ds rest : List Char} (hcovers : Covers cs ds)
    (h : Stands text S (ds ++ rest)) : Stands text (endsSeq (cs.map wildcard) S) rest := by
  induction hcovers generalizing S with
  | nil => exact h
  | @char c d cs ds hstar hsame _ ih =>
    have hwildcard : wildcard c = .char (.folded (.single c)) := if_neg hstar
    rw [List.map_cons, endsSeq, hwildcard]
    exact ih (h.char (contains_folded_single hsame))
  | @star skipped cs ds hline _ ih =>
    rw [List.append_assoc] at h
    exact ih (h.repeated fun c hc => contains_notNewline.mpr fun heq => hline (heq ▸ hc))

theorem exists_place (n : Nat) (before : Option Char) (passed rest : List Char) :
    ∃ s ∈ placesFrom n before (passed ++ rest), s.after = rest := by
  induction passed generalizing n before with
  | nil => exact ⟨_, mem_placesFrom_self n before rest, rfl⟩
  | cons c passed ih =>
    obtain ⟨s, hs, hafter⟩ := ih (n + 1) (some c)
    exact ⟨s, List.mem_cons_of_mem _ hs, hafter⟩

/-! ## Reading a text with wildcards -/

/-- The pattern text of a text with wildcards. -/
def wildcardText (cs : List Char) : List Char :=
  cs.flatMap fun c => if c = '*' then ".*?".toList else escape [c]

namespace Reader

/-- The expression that a character of a text with wildcards is read as. -/
def wildcardExpr (c : Char) : Expr := ⟨wildcard c, if c = '*' then 1 else 0, true⟩

theorem reaches_star {st : State} (hflags : st.flags = caselessFlags) (rest : List Char) :
    Reaches st (".*?".toList ++ rest) (st.push (wildcardExpr '*')) rest := by
  obtain ⟨flags, stack, branches, groups, names⟩ := st
  obtain rfl : flags = caselessFlags := hflags
  have hany : Reaches ⟨caselessFlags, stack, branches, groups, names⟩ (".*?".toList ++ rest)
      (State.push ⟨caselessFlags, stack, branches, groups, names⟩ ⟨.char .notNewline, 0, true⟩)
      ("*?".toList ++ rest) := reaches_step rfl (Nat.le_refl _)
  have hrepeated : Reaches
      (State.push ⟨caselessFlags, stack, branches, groups, names⟩ ⟨.char .notNewline, 0, true⟩)
      ("*?".toList ++ rest)
      (State.push ⟨caselessFlags, stack, branches, groups, names⟩ (wildcardExpr '*')) rest :=
    reaches_step rfl (Nat.le_succ _)
  exact hany.trans hrepeated

theorem reaches_wildcards (cs : List Char) {st : State} (hflags : st.flags = caselessFlags) :
    Reaches st (wildcardText cs) (st.pushAll (cs.map wildcardExpr)) [] := by
  induction cs generalizing st with
  | nil => exact .refl _ _
  | cons c cs ih =>
    have hfirst : Reaches st (wildcardText (c :: cs)) (st.push (wildcardExpr c))
        (wildcardText cs) := by
      unfold wildcardText
      rw [List.flatMap_cons]
      split
      · next hstar =>
        rw [hstar]
        exact reaches_star hflags _
      · next hstar =>
        have hexpr : wildcardExpr c = ⟨charPattern caselessFlags c, 0, true⟩ := by
          rw [wildcardExpr, wildcard, if_neg hstar, if_neg hstar]
        rw [hexpr]
        exact reaches_escaped hflags c _
    exact hfirst.trans (ih hflags)

theorem hasRead_wildcards (cs : List Char) :
    ((State.start caselessFlags).pushAll (cs.map wildcardExpr)).HasRead (cs.map wildcard) := by
  have hread := (State.HasRead.start caselessFlags).pushAll (cs.map wildcardExpr)
  rwa [List.map_map] at hread

end Reader

/-- The pattern of a text with wildcards can be read, however long it is. -/
theorem exists_parse_wildcards (cs : List Char) :
    ∃ p, parse? (String.ofList (wildcardText cs)) true = some p := by
  refine Reader.exists_parse (Reader.reaches_wildcards cs rfl) (Reader.hasRead_wildcards cs)
    (n := 1) (by decide) fun e he => ?_
  rw [Reader.State.items_pushAll] at he
  rcases List.mem_append.mp he with he | he
  · obtain ⟨c, -, rfl⟩ := List.mem_map.mp (List.mem_reverse.mp he)
    rw [Reader.wildcardExpr]
    split
    · exact Nat.le_refl 1
    · exact Nat.zero_le 1
  · cases he

/-- A text with wildcards is found in every text in which one stands that it covers. -/
theorem occursIn_wildcards {text : String} {p : Pattern} {cs ds : List Char}
    (hp : parse? (String.ofList (wildcardText cs)) true = some p) (hcovers : Covers cs ds)
    (hwithin : ds <:+: text.toList) : p.occursIn text = true := by
  obtain ⟨passed, rest, heq⟩ := hwithin
  have hstands : Stands text.toList (places text.toList) (ds ++ rest) := by
    refine ⟨.places text.toList, ?_⟩
    rw [← heq, List.append_assoc]
    exact exists_place 0 none passed (ds ++ rest)
  obtain ⟨s, hs, -⟩ := (hstands.covers hcovers).here
  have hends := Reader.ends_parse hp (by
    rw [String.toList_ofList]
    exact Reader.reaches_wildcards cs rfl) (Reader.hasRead_wildcards cs) (places text.toList)
  rw [occursIn, hends, Bool.not_eq_true', List.isEmpty_eq_false_iff_exists_mem]
  exact ⟨s, hs⟩

end Pattern
end DocQuery
