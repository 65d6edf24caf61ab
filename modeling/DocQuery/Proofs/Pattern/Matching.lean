import DocQuery.Pattern.Reader

/-!
# Matching

What patterns made of literals come to. Sets of places are merged, thinned out and closed under
steps; of a closure it matters what it holds, and that the rounds over a class of characters get to
the end of a text that has no others (`ends_repeated_iff`). An escaped text is read as the characters
of the text (`exists_read_escaped`), and these lead behind it exactly if it is there
(`Follows.literals`, `follows_literals_of_not_prefix`).

A reader outside of all groups keeps its expressions in one sequence. `Reaches` follows it without
its count of rounds, which the length of the text always covers.
-/

set_option autoImplicit false

namespace DocQuery
namespace Pattern

/-! ## Places -/

variable {set : CharSet} {s : Place} {S T : List Place}

theorem mem_merge (h : s ∈ merge S T) : s ∈ S ∨ s ∈ T := by
  induction S generalizing T with
  | nil => exact .inr h
  | cons p S ih =>
    rw [merge] at h
    rcases List.mem_append.mp h with h | h
    · exact .inr ((List.takeWhile_sublist _).subset h)
    · rcases List.mem_cons.mp h with rfl | h
      · exact .inl List.mem_cons_self
      · exact (ih h).imp (List.mem_cons_of_mem p) fun h => (List.dropWhile_sublist _).subset h

theorem mem_merge_left (h : s ∈ S) : s ∈ merge S T := by
  induction S generalizing T with
  | nil => cases h
  | cons p S ih =>
    rw [merge]
    refine List.mem_append_right _ ?_
    rcases List.mem_cons.mp h with rfl | h
    · exact List.mem_cons_self
    · exact List.mem_cons_of_mem p (ih h)

/-- A place beyond all of a set comes last. -/
theorem merge_of_lt (h : ∀ t ∈ S, t.position < s.position) : merge S [s] = S ++ [s] := by
  induction S with
  | nil => rfl
  | cons p S ih =>
    obtain ⟨hp, hS⟩ := List.forall_mem_cons.mp h
    have hbefore : ¬s.position < p.position := Nat.not_lt_of_lt hp
    have hbehind : ¬s.position ≤ p.position := Nat.not_le_of_lt hp
    rw [merge, List.takeWhile_cons, List.dropWhile_cons, if_neg (by simpa using hbefore),
      if_neg (by simpa using hbehind), ih hS]
    rfl

theorem mem_without (h : s ∈ without S T) : s ∈ S := by
  induction S, T using without.induct with
  | case1 T => cases h
  | case2 T p S hdrop =>
    rw [without, hdrop] at h
    exact h
  | case3 p S T t T' hdrop hsame ih =>
    rw [without, hdrop] at h
    dsimp only at h
    rw [if_pos hsame] at h
    exact List.mem_cons_of_mem p (ih h)
  | case4 p S T t T' hdrop hsame ih =>
    rw [without, hdrop] at h
    dsimp only at h
    rw [if_neg hsame] at h
    rcases List.mem_cons.mp h with rfl | h
    · exact List.mem_cons_self
    · exact List.mem_cons_of_mem p (ih h)

/-- A place beyond all of a set is not in it. -/
theorem without_of_lt (h : ∀ t ∈ T, t.position < s.position) : without [s] T = [s] := by
  have hdrop : T.dropWhile (·.position < s.position) = [] := by
    induction T with
    | nil => rfl
    | cons t T ih =>
      obtain ⟨ht, hT⟩ := List.forall_mem_cons.mp h
      rw [List.dropWhile_cons, if_pos (decide_eq_true ht)]
      exact ih hT
  rw [without, hdrop]

section

variable {step : List Place → List Place} {rounds : Nat} {seen newest : List Place}

theorem mem_closure_of_mem (h : s ∈ seen) : s ∈ closure step rounds seen newest := by
  induction rounds generalizing seen newest with
  | zero => exact h
  | succ rounds ih =>
    rw [closure]
    split
    · exact h
    · exact ih (mem_merge_left h)

/-- What steps keep, all places of a closure have. -/
theorem closure_keeps {P : Place → Prop}
    (hstep : ∀ S, (∀ s ∈ S, P s) → ∀ s ∈ step S, P s) 
    (hseen : ∀ s ∈ seen, P s) (hnewest : ∀ s ∈ newest, P s) :
    ∀ s ∈ closure step rounds seen newest, P s := by
  induction rounds generalizing seen newest with
  | zero => exact hseen
  | succ rounds ih =>
    rw [closure]
    split
    · exact hseen
    · have hfresh : ∀ s ∈ without (step newest) seen, P s := fun s hs =>
        hstep newest hnewest s (mem_without hs)
      exact ih (fun s hs => (mem_merge hs).elim (hseen s) (hfresh s)) hfresh

end

/-! ## Repeated characters -/

/-- The rounds over a class go through all characters that are in it. -/
theorem exists_closure_end {cs : List Char} (hall : ∀ c ∈ cs, set.contains c = true) {n rounds : Nat}
    (hrounds : cs.length ≤ rounds) {before : Option Char} {seen : List Place}
    (hseen : ∀ s ∈ seen, s.position ≤ n) (hmem : ⟨n, before, cs⟩ ∈ seen) :
    ∃ s ∈ closure (fun S => ends (.char set) S) rounds seen [⟨n, before, cs⟩], s.after = [] := by
  induction cs generalizing rounds n before seen with
  | nil => exact ⟨_, mem_closure_of_mem hmem, rfl⟩
  | cons c cs ih =>
    cases rounds with
    | zero => cases hrounds
    | succ rounds =>
      obtain ⟨hc, hcs⟩ := List.forall_mem_cons.mp hall
      have hstep : ends (.char set) [⟨n, before, c :: cs⟩] = [⟨n + 1, some c, cs⟩] := by
        simp [ends, Place.next?, hc]
      have hbeyond : ∀ t ∈ seen, t.position < n + 1 := fun t ht => Nat.lt_succ_of_le (hseen t ht)
      have hfresh := without_of_lt (s := ⟨n + 1, some c, cs⟩) hbeyond
      have hmerge := merge_of_lt (s := ⟨n + 1, some c, cs⟩) hbeyond
      rw [closure, hstep, hfresh, hmerge]
      refine ih hcs (Nat.le_of_succ_le_succ hrounds) (fun s hs => ?_) ?_
      · rcases List.mem_append.mp hs with hs | hs
        · exact Nat.le_succ_of_le (hseen s hs)
        · exact Nat.le_of_eq (congrArg Place.position (List.mem_singleton.mp hs))
      · exact List.mem_append_right _ List.mem_cons_self

/-- A class can be repeated up to the end of a text that has no other characters. -/
theorem ends_repeated_iff {n : Nat} {before : Option Char} {cs : List Char} :
    (∃ s ∈ ends (.repeated (.char set) 0 none) [⟨n, before, cs⟩], s.after = []) ↔
      ∀ c ∈ cs, set.contains c = true := by
  have hends : ends (.repeated (.char set) 0 none) [⟨n, before, cs⟩] =
      closure (fun S => ends (.char set) S) (cs.length + 1) [⟨n, before, cs⟩] [⟨n, before, cs⟩] := by
    rw [ends]
    rfl
  rw [hends]
  constructor
  · rintro ⟨s, hs, hafter⟩
    have hpassed : ∃ passed, cs = passed ++ s.after ∧ ∀ c ∈ passed, set.contains c = true := by
      have hstart : ∀ t ∈ [(⟨n, before, cs⟩ : Place)],
          ∃ passed, cs = passed ++ t.after ∧ ∀ c ∈ passed, set.contains c = true := by
        intro t ht
        obtain rfl := List.mem_singleton.mp ht
        exact ⟨[], rfl, fun _ h => nomatch h⟩
      refine closure_keeps (fun S hS t ht => ?_) hstart hstart s hs
      rw [ends] at ht
      obtain ⟨u, hu, hnext⟩ := List.mem_filterMap.mp ht
      obtain ⟨passed, hcs, hall⟩ := hS u hu
      unfold Place.next? at hnext
      split at hnext
      · cases hnext
      · next c rest hrest =>
        split at hnext
        · next hc =>
          cases hnext
          refine ⟨passed ++ [c], by rw [hcs, hrest, List.append_assoc]; rfl, fun d hd => ?_⟩
          rcases List.mem_append.mp hd with hd | hd
          · exact hall d hd
          · exact List.mem_singleton.mp hd ▸ hc
        · cases hnext
    obtain ⟨passed, hcs, hall⟩ := hpassed
    rw [hafter, List.append_nil] at hcs
    exact hcs ▸ hall
  · intro hall
    refine exists_closure_end hall (Nat.le_succ _) (fun s hs => ?_) List.mem_cons_self
    exact Nat.le_of_eq (congrArg Place.position (List.mem_singleton.mp hs))

/-! ## The beginning of a text -/

theorem before_of_mem_placesFrom {n : Nat} {before : Option Char} {cs : List Char}
    (h : s ∈ placesFrom n before cs) : s = ⟨n, before, cs⟩ ∨ s.before.isSome = true := by
  induction cs generalizing n before with
  | nil => exact .inl (List.mem_singleton.mp h)
  | cons c cs ih =>
    rcases List.mem_cons.mp h with h | h
    · exact .inl h
    · rcases ih h with rfl | h
      · exact .inr rfl
      · exact .inr h

/-- Only one place is at the beginning. -/
theorem ends_textStart (text : List Char) :
    ends (.anchor .textStart) (places text) = [⟨0, none, text⟩] := by
  have hlater : ∀ cs n c, (placesFrom n (some c) cs).filter (·.satisfies .textStart) = [] := by
    intro cs n c
    rw [List.filter_eq_nil_iff]
    intro t ht
    rcases before_of_mem_placesFrom ht with rfl | hbefore
    · exact Bool.false_ne_true
    · rw [Place.satisfies, Option.isNone_eq_false_iff.mpr hbefore]
      exact Bool.false_ne_true
  rw [ends, places]
  cases text with
  | nil => rfl
  | cons c cs =>
    rw [placesFrom, List.filter_cons, hlater]
    rfl

/-! ## Sequences -/

mutual

/-- Nothing is reached from nowhere. -/
theorem ends_nil : ∀ p : Pattern, ends p [] = []
  | .char _ | .anchor _ => rfl
  | .seq ps => endsSeq_nil ps
  | .alt ps => endsAlt_nil ps
  | .repeated p least most => by
    have hexactly : exactly (fun S => ends p S) least [] = [] := by
      cases least with
      | zero => rfl
      | succ n =>
        rw [exactly, ends_nil p]
        rfl
    have hclosure : ∀ rounds, closure (fun S => ends p S) rounds [] [] = [] := by
      intro rounds
      cases rounds with
      | zero => rfl
      | succ n =>
        rw [closure, ends_nil p]
        rfl
    show closure (fun S => ends p S) _ (exactly (fun S => ends p S) least [])
      (exactly (fun S => ends p S) least []) = []
    rw [hexactly]
    exact hclosure _
  | .group _ p => ends_nil p

theorem endsSeq_nil : ∀ ps : List Pattern, endsSeq ps [] = []
  | [] => rfl
  | p :: ps => by
    rw [endsSeq, ends_nil p, endsSeq_nil ps]

theorem endsAlt_nil : ∀ ps : List Pattern, endsAlt ps [] = []
  | [] => rfl
  | p :: ps => by
    rw [endsAlt, ends_nil p, endsAlt_nil ps]
    rfl

end

/-! ## Literals -/

/-- Whether a sequence can be followed from the place in front of a text. -/
def Follows (ps : List Pattern) (cs : List Char) (found : Bool) : Prop :=
  ∀ n before, (endsSeq ps [⟨n, before, cs⟩]).isEmpty = !found

/-- A character that stands for itself. -/
def literal (c : Char) : Pattern := .char (.single c)

theorem contains_single {c d : Char} : (CharSet.single c).contains d = true ↔ d = c := by
  unfold CharSet.single CharSet.contains
  rw [Bool.and_eq_true, decide_eq_true_eq, decide_eq_true_eq]
  constructor
  · rintro ⟨hle, hge⟩
    exact Char.ext (UInt32.toNat_inj.mp (Nat.le_antisymm hge hle))
  · rintro rfl
    exact ⟨Nat.le_refl _, Nat.le_refl _⟩

variable {ps : List Pattern} {text cs : List Char} {found : Bool}

theorem Follows.literals (h : Follows ps cs found) :
    Follows (text.map literal ++ ps) (text ++ cs) found := by
  induction text with
  | nil => exact h
  | cons c text ih =>
    intro n before
    have hnext : ends (literal c) [⟨n, before, c :: (text ++ cs)⟩] = [⟨n + 1, some c, text ++ cs⟩] := by
      simp [literal, ends, Place.next?, contains_single]
    show (endsSeq (text.map literal ++ ps) (ends (literal c) _)).isEmpty = _
    rw [List.cons_append, hnext]
    exact ih (n + 1) (some c)

theorem follows_literals_of_not_prefix (h : ¬text <+: cs) :
    Follows (text.map literal ++ ps) cs false := by
  induction text generalizing cs with
  | nil => exact absurd (List.nil_prefix) h
  | cons c text ih =>
    intro n before
    show (endsSeq (text.map literal ++ ps) (ends (literal c) _)).isEmpty = _
    cases cs with
    | nil =>
      show (endsSeq _ []).isEmpty = _
      rw [endsSeq_nil]
      rfl
    | cons d cs =>
      by_cases hd : d = c
      · subst hd
        have hnext : ends (literal d) [⟨n, before, d :: cs⟩] = [⟨n + 1, some d, cs⟩] := by
          simp [literal, ends, Place.next?, contains_single]
        rw [hnext]
        exact ih (fun hprefix => h (List.cons_prefix_cons.mpr ⟨rfl, hprefix⟩)) (n + 1) (some d)
      · have hnext : ends (literal c) [⟨n, before, d :: cs⟩] = [] := by
          simp [literal, ends, Place.next?, contains_single, hd]
        rw [hnext, endsSeq_nil]
        rfl

namespace Reader

/-! ## Reading -/

/-- The flags that a pattern begins with. -/
def plainFlags : Flags := ⟨false, false, false⟩

variable {st st' st'' : State} {rest rest' : List Char} {e : Expr}

/-- From one state the reader comes to another one, in front of the rest of the text. -/
def Reaches (st : State) (cs : List Char) (st' : State) (rest : List Char) : Prop :=
  ∀ fuel, cs.length ≤ fuel → ∃ fuel', rest.length ≤ fuel' ∧
    expression fuel st cs = expression fuel' st' rest

theorem Reaches.refl (st : State) (cs : List Char) : Reaches st cs st cs :=
  fun fuel hfuel => ⟨fuel, hfuel, rfl⟩

theorem Reaches.trans (h : Reaches st cs st' rest) (h' : Reaches st' rest st'' rest') :
    Reaches st cs st'' rest' := by
  intro fuel hfuel
  obtain ⟨fuel', hfuel', heq⟩ := h fuel hfuel
  obtain ⟨fuel'', hfuel'', heq'⟩ := h' fuel' hfuel'
  exact ⟨fuel'', hfuel'', heq.trans heq'⟩

theorem reaches_step {c : Char} (h : step st c cs = some (st', rest))
    (hlength : rest.length ≤ cs.length) : Reaches st (c :: cs) st' rest := by
  intro fuel hfuel
  cases fuel with
  | zero => cases hfuel
  | succ fuel =>
    refine ⟨fuel, Nat.le_trans hlength (Nat.le_of_succ_le_succ hfuel), ?_⟩
    rw [expression, h]
    rfl

/-- The state with one more expression behind the others. -/
def State.push (st : State) (e : Expr) : State := { st with branches := st.branches.push e }

/-- The state with more expressions behind the others. -/
def State.pushAll (st : State) (es : List Expr) : State := es.foldl State.push st

theorem State.pushAll_append (st : State) (es es' : List Expr) :
    st.pushAll (es ++ es') = (st.pushAll es).pushAll es' :=
  List.foldl_append

theorem State.flags_pushAll (st : State) (es : List Expr) : (st.pushAll es).flags = st.flags := by
  induction es generalizing st with
  | nil => rfl
  | cons e es ih => exact ih (st.push e)

theorem State.items_pushAll (st : State) (es : List Expr) :
    (st.pushAll es).branches.items = es.reverse ++ st.branches.items := by
  induction es generalizing st with
  | nil => rfl
  | cons e es ih =>
    rw [List.reverse_cons, List.append_assoc]
    exact ih (st.push e)

/-- A state outside of all groups that has read a sequence of patterns. -/
structure State.HasRead (st : State) (ps : List Pattern) : Prop where
  stack : st.stack = []
  alternatives : st.branches.alternatives = []
  items : st.branches.items.reverse.map (·.pattern) = ps

namespace State.HasRead

theorem start (flags : Flags) : (State.start flags).HasRead [] := ⟨rfl, rfl, rfl⟩

theorem push (h : st.HasRead ps) (e : Expr) : (st.push e).HasRead (ps ++ [e.pattern]) := by
  refine ⟨h.stack, h.alternatives, ?_⟩
  show (e :: st.branches.items).reverse.map (·.pattern) = _
  rw [List.reverse_cons, List.map_append, h.items]
  rfl

theorem pushAll (h : st.HasRead ps) (es : List Expr) :
    (st.pushAll es).HasRead (ps ++ es.map (·.pattern)) := by
  induction es generalizing st ps with
  | nil => rwa [List.map_nil, List.append_nil]
  | cons e es ih =>
    have hrest := ih (h.push e)
    rwa [List.append_assoc] at hrest

theorem close_eq (h : st.HasRead ps) : st.branches.close = Expr.join .seq st.branches.items := by
  show Expr.join .alt (Expr.join .seq st.branches.items :: st.branches.alternatives) = _
  rw [h.alternatives]
  rfl

/-- What has been read leads where a sequence does. -/
theorem ends_close (h : st.HasRead ps) (S : List Place) :
    st.branches.close.pattern.ends S = endsSeq ps S := by
  rw [h.close_eq]
  obtain ⟨-, -, rfl⟩ := h
  cases st.branches.items with
  | nil => rfl
  | cons e items => cases items <;> rfl

end State.HasRead

/-- What the reader makes of a text that it comes to the end of: it only looks at the depth. -/
theorem parse?_reached {text : String} {ignoreCase : Bool}
    (hreaches : Reaches (.start ⟨ignoreCase, false, false⟩) text.toList st [])
    (hstack : st.stack = []) : parse? text ignoreCase =
      if st.branches.close.depth ≤ greatestDepth then some st.branches.close.pattern else none := by
  obtain ⟨fuel, -, hexpression⟩ := hreaches text.toList.length (Nat.le_refl _)
  have hend : expression fuel st [] = some st.branches.close := by
    rw [expression, hstack]
    rfl
  unfold parse?
  show (do
    let e ← expression text.toList.length (.start ⟨ignoreCase, false, false⟩) text.toList
    guard (decide (e.depth ≤ greatestDepth))
    return e.pattern : Option Pattern) = _
  rw [hexpression, hend]
  show (do
    guard (decide (st.branches.close.depth ≤ greatestDepth))
    return st.branches.close.pattern : Option Pattern) = _
  by_cases hdepth : st.branches.close.depth ≤ greatestDepth
  · rw [if_pos hdepth, decide_eq_true hdepth]
    rfl
  · rw [if_neg hdepth, decide_eq_false hdepth]
    rfl

/-- Expressions that are joined are one level deeper than the deepest of them. -/
theorem depth_join_le {combine : List Pattern → Pattern} {es : List Expr} {n : Nat}
    (h : ∀ e ∈ es, e.depth ≤ n) : (Expr.join combine es).depth ≤ n + 1 := by
  have hfold : ∀ (es : List Expr) (m : Nat), m ≤ n → (∀ e ∈ es, e.depth ≤ n) →
      es.foldl (fun m e => max m e.depth) m ≤ n := by
    intro es
    induction es with
    | nil => exact fun m hm _ => hm
    | cons e es ih =>
      intro m hm hes
      obtain ⟨he, hes⟩ := List.forall_mem_cons.mp hes
      exact ih _ (Nat.max_le.mpr ⟨hm, he⟩) hes
  have hnesting := hfold es 0 (Nat.zero_le n) h
  unfold Expr.join
  split
  · exact Nat.le_succ_of_le (h _ List.mem_cons_self)
  · dsimp only
    split
    · exact Nat.zero_le _
    · exact Nat.succ_le_succ hnesting

/-- A text can be read if the reader comes to its end through expressions that are not too deep. -/
theorem exists_parse {cs : List Char} {ignoreCase : Bool} {n : Nat}
    (hreaches : Reaches (.start ⟨ignoreCase, false, false⟩) cs st []) (hread : st.HasRead ps)
    (hn : n < greatestDepth) (hshallow : ∀ e ∈ st.branches.items, e.depth ≤ n) :
    ∃ p, parse? (String.ofList cs) ignoreCase = some p := by
  have hdepth : st.branches.close.depth ≤ greatestDepth := by
    rw [hread.close_eq]
    exact Nat.le_trans (depth_join_le hshallow) hn
  rw [← String.toList_ofList (l := cs)] at hreaches
  exact ⟨_, (parse?_reached hreaches hread.stack).trans (if_pos hdepth)⟩

/-- A pattern that can be read is what has been read. -/
theorem parse?_eq {text : String} {ignoreCase : Bool} {p : Pattern}
    (h : parse? text ignoreCase = some p)
    (hreaches : Reaches (.start ⟨ignoreCase, false, false⟩) text.toList st [])
    (hstack : st.stack = []) : p = st.branches.close.pattern := by
  rw [parse?_reached hreaches hstack] at h
  split at h
  · exact (Option.some.inj h).symm
  · cases h

/-- A pattern that can be read leads where the sequence does that has been read. -/
theorem ends_parse {text : String} {ignoreCase : Bool} {p : Pattern}
    (h : parse? text ignoreCase = some p)
    (hreaches : Reaches (.start ⟨ignoreCase, false, false⟩) text.toList st [])
    (hread : st.HasRead ps) (S : List Place) : p.ends S = endsSeq ps S := by
  rw [parse?_eq h hreaches hread.stack]
  exact hread.ends_close S

theorem reaches_escaped {flags : Flags} (hflags : st.flags = flags) (c : Char)
    (rest : List Char) :
    Reaches st (escape [c] ++ rest) (st.push ⟨charPattern flags c, 0, true⟩) rest := by
  obtain ⟨inForce, stack, branches, groups, names⟩ := st
  obtain rfl : inForce = flags := hflags
  cases hmeta : isMeta c with
  | true =>
    have hescape : escape [c] = ['\\', c] := by simp [escape, hmeta]
    rw [hescape]
    refine reaches_step ?_ (Nat.le_succ _)
    unfold isMeta at hmeta
    simp only [List.contains_cons, List.contains_nil, Bool.or_false, Bool.or_eq_true, beq_iff_eq]
      at hmeta
    rcases hmeta with rfl | rfl | rfl | rfl | rfl | rfl | rfl | rfl | rfl | rfl | rfl | rfl | rfl |
      rfl | rfl | rfl | rfl | rfl <;> rfl
  | false =>
    have hescape : escape [c] = [c] := by simp [escape, hmeta]
    have hne : ∀ {d}, isMeta d = true → c ≠ d := by
      rintro d hd rfl
      rw [hmeta] at hd
      cases hd
    have hatom : atom inForce (c :: rest) = some (⟨charPattern inForce c, 0, true⟩, rest) := by
      rw [atom] <;> first | rfl | exact hne rfl
    rw [hescape, List.singleton_append]
    refine reaches_step ?_ (Nat.le_refl _)
    unfold step
    rw [if_neg (hne rfl), if_neg (hne rfl), if_neg (hne rfl), if_neg (hne rfl), if_neg (hne rfl),
      if_neg (hne rfl), if_neg (hne rfl)]
    dsimp only
    rw [hatom]
    rfl

/-- An escaped text is read as one expression for each of its characters. -/
theorem reaches_escapedAll (text rest : List Char) (hflags : st.flags = plainFlags) :
    Reaches st (escape text ++ rest) (st.pushAll (text.map fun c => ⟨literal c, 0, true⟩)) rest := by
  induction text generalizing st with
  | nil => exact .refl _ _
  | cons c text ih =>
    have hescape : escape (c :: text) ++ rest = escape [c] ++ (escape text ++ rest) := by
      simp [escape]
    rw [hescape]
    exact (reaches_escaped hflags c _).trans (ih hflags)

end Reader
end Pattern
end DocQuery
