import DocQuery.Match
import Mathlib.Data.List.GetD

/-!
# The search for a word

A term that looks for a word may send other terms to other words on the way. What matters of the
state are the words that the attempt has not seen yet, here called free: the search reads and changes
the owners of no others (`Gains.kept`).

**A search that succeeds adds the term to those that hold a free word, and takes none away; one that
fails changes no owner, and has seen every word that the term, or the holder of a word it has seen,
could take** (`claim_outcome`). The second half is why a failure is final: the terms met in such a
search have no words left but those they hold already.
-/

set_option autoImplicit false

namespace DocQuery
namespace Match

/-- Whether a term accepts a word, both by their numbers. -/
def Accepts (terms : List Term) (words : List (List Char)) (t w : Nat) : Prop :=
  ∃ term word, terms[t]? = some term ∧ words[w]? = some word ∧ term.accepts word = true

/-- Whether a term holds a word. -/
def Owns (owners : Owners) (t w : Nat) : Prop := owners.getD w none = some t

/-- Whether there is a word that an attempt has not tried. -/
def Free (seen : Seen) (w : Nat) : Prop := seen.getD w true = false

/-- Whether a term holds one of some words. -/
def Placed (free : Nat → Prop) (owners : Owners) (t : Nat) : Prop := ∃ w, free w ∧ Owns owners t w

/-- Of some words, each is accepted by its holder, and no two have the same one. -/
structure Valid (terms : List Term) (words : List (List Char)) (free : Nat → Prop)
    (owners : Owners) : Prop where
  accepts : ∀ {t w}, free w → Owns owners t w → Accepts terms words t w
  once : ∀ {t w w'}, free w → free w' → Owns owners t w → Owns owners t w' → w = w'

/-- A change of owners that gives a term one of the free words. -/
structure Gains (terms : List Term) (words : List (List Char)) (free : Nat → Prop) (term : Nat)
    (owners owners' : Owners) : Prop where
  length : owners'.length = owners.length
  valid : Valid terms words free owners'
  kept : ∀ w, ¬free w → owners'.getD w none = owners.getD w none
  placed : ∀ t, Placed free owners' t ↔ t = term ∨ Placed free owners t

/-- A search for a word from a number on that has found nothing: it has seen what the term could take,
and with each word what its holder could take. -/
structure Stuck (terms : List Term) (words : List (List Char)) (owners : Owners) (term index : Nat)
    (seen seen' : Seen) : Prop where
  length : seen'.length = seen.length
  count : seen'.count false ≤ seen.count false
  shrinks : ∀ w, Free seen' w → Free seen w
  tried : ∀ w, index ≤ w → Accepts terms words term w → ¬Free seen' w
  closed : ∀ w, Free seen w → ¬Free seen' w →
    ∃ t, Owns owners t w ∧ ∀ w', Accepts terms words t w' → ¬Free seen' w'

variable {terms : List Term} {words : List (List Char)} {owners owners' : Owners}
  {seen seen' seen'' : Seen} {free free' : Nat → Prop} {t term other index w : Nat}

theorem Owns.unique (h : Owns owners t w) (h' : Owns owners other w) : t = other :=
  Option.some.inj (h.symm.trans h')

/-! ## Trying a word -/

theorem free_of_lt (h : Free seen w) : w < seen.length := by
  refine Nat.lt_of_not_le fun hge => ?_
  unfold Free at h
  rw [List.getD_eq_default _ _ hge] at h
  cases h

/-- A word that has been tried is the only one that is no longer free. -/
theorem free_set (hindex : Free seen index) :
    Free (seen.set index true) w ↔ Free seen w ∧ w ≠ index := by
  have hlt := free_of_lt hindex
  unfold Free at hindex ⊢
  rw [List.getD_eq_getElem?_getD, List.getD_eq_getElem?_getD, List.getElem?_set]
  by_cases heq : index = w
  · subst heq
    simp [hlt]
  · simp [heq, Ne.symm heq]

theorem count_set (hindex : Free seen index) :
    (seen.set index true).count false + 1 = seen.count false := by
  have hlt := free_of_lt hindex
  have hfalse : seen[index] = false := by
    unfold Free at hindex
    rwa [List.getD_eq_getElem _ _ hlt] at hindex
  have hmem : 0 < seen.count false := List.count_pos_iff.mpr (hfalse ▸ List.getElem_mem hlt)
  rw [List.count_set hlt, hfalse]
  simp
  omega

/-- A term holds the word that is tried, or one of the others. -/
theorem placed_iff (hindex : Free seen index) : Placed (Free seen) owners t ↔
    Owns owners t index ∨ Placed (Free (seen.set index true)) owners t := by
  constructor
  · rintro ⟨w, hw, howns⟩
    by_cases heq : w = index
    · exact .inl (heq ▸ howns)
    · exact .inr ⟨w, (free_set hindex).mpr ⟨hw, heq⟩, howns⟩
  · rintro (howns | ⟨w, hw, howns⟩)
    · exact ⟨index, hindex, howns⟩
    · exact ⟨w, ((free_set hindex).mp hw).1, howns⟩

theorem owns_set (hindex : index < owners.length) :
    Owns (owners.set index (some term)) t w ↔ if w = index then t = term else Owns owners t w := by
  unfold Owns
  rw [List.getD_eq_getElem?_getD, List.getD_eq_getElem?_getD, List.getElem?_set]
  by_cases heq : index = w
  · subst heq
    simp [hindex, eq_comm]
  · simp [heq, Ne.symm heq]

/-! ## Success -/

theorem Valid.restrict (h : Valid terms words free owners) (hsub : ∀ w, free' w → free w) :
    Valid terms words free' owners where
  accepts hw := h.accepts (hsub _ hw)
  once hw hw' := h.once (hsub _ hw) (hsub _ hw')

/-- A term takes a word that is free, or that was so until its holder found another one. The terms
placed on the other free words are by then those that were placed before. -/
theorem Gains.take {moved : Owners} (hindex : free index) (hlt : index < owners.length)
    (haccepts : Accepts terms words term index) (hnew : ¬Placed free owners term)
    (hrest : ∀ {w}, free' w ↔ free w ∧ w ≠ index) (hlength : moved.length = owners.length)
    (hvalid : Valid terms words free' moved)
    (hkept : ∀ w, ¬free' w → moved.getD w none = owners.getD w none)
    (hplaced : ∀ t, Placed free' moved t ↔ Placed free owners t) :
    Gains terms words free term owners (moved.set index (some term)) := by
  have hset : ∀ t w, Owns (moved.set index (some term)) t w ↔
      if w = index then t = term else Owns moved t w := fun t w => owns_set (hlength ▸ hlt)
  have hfresh : ∀ w, free' w → ¬Owns moved term w := fun w hw howns =>
    hnew ((hplaced term).mp ⟨w, hw, howns⟩)
  refine ⟨by rw [List.length_set, hlength], ⟨?_, ?_⟩, ?_, ?_⟩
  · intro t w hw howns
    rw [hset] at howns
    split at howns
    · next heq =>
      subst heq howns
      exact haccepts
    · next hne => exact hvalid.accepts (hrest.mpr ⟨hw, hne⟩) howns
  · intro t w w' hw hw' howns howns'
    rw [hset] at howns howns'
    by_cases heq : w = index <;> by_cases heq' : w' = index
    · exact heq.trans heq'.symm
    · rw [if_pos heq] at howns
      rw [if_neg heq'] at howns'
      exact absurd (howns ▸ howns') (hfresh w' (hrest.mpr ⟨hw', heq'⟩))
    · rw [if_neg heq] at howns
      rw [if_pos heq'] at howns'
      exact absurd (howns' ▸ howns) (hfresh w (hrest.mpr ⟨hw, heq⟩))
    · rw [if_neg heq] at howns
      rw [if_neg heq'] at howns'
      exact hvalid.once (hrest.mpr ⟨hw, heq⟩) (hrest.mpr ⟨hw', heq'⟩) howns howns'
  · intro w hw
    have hne : index ≠ w := by
      rintro rfl
      exact hw hindex
    have hw' : ¬free' w := fun h => hw (hrest.mp h).1
    rw [← hkept w hw', List.getD_eq_getElem?_getD, List.getD_eq_getElem?_getD,
      List.getElem?_set_ne hne]
  · intro t
    rw [← hplaced t]
    constructor
    · rintro ⟨w, hw, howns⟩
      rw [hset] at howns
      split at howns
      · exact .inl howns
      · next hne => exact .inr ⟨w, hrest.mpr ⟨hw, hne⟩, howns⟩
    · rintro (rfl | ⟨w, hw, howns⟩)
      · exact ⟨index, hindex, (hset t index).mpr (by rw [if_pos rfl])⟩
      · obtain ⟨hfree, hne⟩ := hrest.mp hw
        exact ⟨w, hfree, (hset t w).mpr (by rwa [if_neg hne])⟩

/-- What was gained among fewer words was gained among all of them. -/
theorem Gains.widen (h : Gains terms words free' term owners owners')
    (hsub : ∀ w, free' w → free w) (hvalid : Valid terms words free owners)
    (hnew : ¬Placed free owners term) : Gains terms words free term owners owners' := by
  -- outside the fewer words the owners are those from before
  have hold : ∀ {t w}, ¬free' w → (Owns owners' t w ↔ Owns owners t w) := by
    intro t w hw
    unfold Owns
    rw [h.kept w hw]
  have hapart : ∀ {t w w'}, free' w → free w' → ¬free' w' → Owns owners' t w →
      ¬Owns owners t w' := by
    intro t w w' hw hfree hw' howns howns'
    rcases (h.placed t).mp ⟨w, hw, howns⟩ with rfl | ⟨v, hv, howner⟩
    · exact hnew ⟨w', hfree, howns'⟩
    · obtain rfl := hvalid.once (hsub v hv) hfree howner howns'
      exact hw' hv
  refine ⟨h.length, ⟨?_, ?_⟩, fun w hw => h.kept w fun hw' => hw (hsub w hw'), ?_⟩
  · intro t w hw howns
    by_cases hw' : free' w
    · exact h.valid.accepts hw' howns
    · exact hvalid.accepts hw ((hold hw').mp howns)
  · intro t w w' hw hw' howns howns'
    by_cases hin : free' w <;> by_cases hin' : free' w'
    · exact h.valid.once hin hin' howns howns'
    · exact absurd ((hold hin').mp howns') (hapart hin hw' hin' howns)
    · exact absurd ((hold hin).mp howns) (hapart hin' hw hin howns')
    · exact hvalid.once hw hw' ((hold hin).mp howns) ((hold hin').mp howns')
  · intro t
    constructor
    · rintro ⟨w, hw, howns⟩
      by_cases hin : free' w
      · exact ((h.placed t).mp ⟨w, hin, howns⟩).imp_right fun ⟨v, hv, howner⟩ => ⟨v, hsub v hv, howner⟩
      · exact .inr ⟨w, hw, (hold hin).mp howns⟩
    · intro ht
      have hinside : t = term ∨ Placed free' owners t → Placed free owners' t := fun ht =>
        let ⟨w, hw, howns⟩ := (h.placed t).mpr ht
        ⟨w, hsub w hw, howns⟩
      rcases ht with rfl | ⟨w, hw, howns⟩
      · exact hinside (.inl rfl)
      · by_cases hin : free' w
        · exact hinside (.inr ⟨w, hin, howns⟩)
        · exact ⟨w, hw, (hold hin).mpr howns⟩

/-! ## Failure -/

/-- A word that the term does not accept, or that was tried before, can be passed over. -/
theorem Stuck.skip (h : Stuck terms words owners term (index + 1) seen seen')
    (hhere : Accepts terms words term index → ¬Free seen index) :
    Stuck terms words owners term index seen seen' where
  length := h.length
  count := h.count
  shrinks := h.shrinks
  closed := h.closed
  tried w hw haccepts hfree := by
    rcases Nat.eq_or_lt_of_le hw with rfl | hlt
    · exact hhere haccepts (h.shrinks _ hfree)
    · exact h.tried w hlt haccepts hfree

theorem Stuck.shrinks_set {first : Nat} (hindex : Free seen index)
    (h : Stuck terms words owners other first (seen.set index true) seen') (hw : Free seen' w) :
    Free seen w :=
  ((free_set hindex).mp (h.shrinks w hw)).1

/-- A word whose holder finds no other one can be passed over. -/
theorem Stuck.pass (hother : Owns owners other index) (hindex : Free seen index)
    (h : Stuck terms words owners other 0 (seen.set index true) seen')
    (hrest : Stuck terms words owners term (index + 1) seen' seen'') :
    Stuck terms words owners term index seen seen'' := by
  have hgone : ¬Free seen'' index := fun hfree =>
    ((free_set hindex).mp (h.shrinks _ (hrest.shrinks _ hfree))).2 rfl
  have hlater : ∀ {w}, ¬Free seen' w → ¬Free seen'' w := fun hw hfree => hw (hrest.shrinks _ hfree)
  refine ⟨?_, ?_, ?_, ?_, ?_⟩
  · rw [hrest.length, h.length, List.length_set]
  · have hcount := count_set hindex
    have := h.count
    have := hrest.count
    omega
  · exact fun w hw => h.shrinks_set hindex (hrest.shrinks w hw)
  · intro w hw haccepts
    rcases Nat.eq_or_lt_of_le hw with rfl | hlt
    · exact hgone
    · exact hrest.tried w hlt haccepts
  · intro w hw hw''
    by_cases heq : w = index
    · subst heq
      exact ⟨other, hother, fun w' haccepts => hlater (h.tried w' (Nat.zero_le _) haccepts)⟩
    · by_cases hw' : Free seen' w
      · exact hrest.closed w hw' hw''
      · obtain ⟨t, howns, htried⟩ := h.closed w ((free_set hindex).mpr ⟨hw, heq⟩) hw'
        exact ⟨t, howns, fun w' haccepts => hlater (htried w' haccepts)⟩

/-! ## The search -/

/-- What an attempt comes to. -/
def Outcome (terms : List Term) (words : List (List Char)) (term index : Nat) (owners : Owners)
    (seen : Seen) : Bool × Owners × Seen → Prop
  | (true, owners', _) => Gains terms words (Free seen) term owners owners'
  | (false, owners', seen') => owners' = owners ∧ Stuck terms words owners term index seen seen'

/-- Before an attempt: the tables have a place for each word, the fuel covers the words that are
free, and the term holds none of these. -/
structure Ready (terms : List Term) (words : List (List Char)) (fuel term : Nat) (owners : Owners)
    (seen : Seen) : Prop where
  owners_length : owners.length = words.length
  seen_length : seen.length = words.length
  fuel : seen.count false < fuel
  valid : Valid terms words (Free seen) owners
  new : ¬Placed (Free seen) owners term

namespace Ready

variable {fuel : Nat}

/-- The holder of a word that is tried is ready to look for another one. -/
theorem holder (h : Ready terms words (fuel + 1) term owners seen) (hindex : Free seen index)
    (hother : Owns owners other index) :
    Ready terms words fuel other owners (seen.set index true) where
  owners_length := h.owners_length
  seen_length := by rw [List.length_set, h.seen_length]
  fuel := by
    have hcount := count_set hindex
    have hfuel := h.fuel
    omega
  valid := h.valid.restrict fun w hw => ((free_set hindex).mp hw).1
  new := by
    rintro ⟨w, hw, howns⟩
    obtain ⟨hfree, hne⟩ := (free_set hindex).mp hw
    exact hne (h.valid.once hfree hindex howns hother)

/-- After the holder of a word has found no other one, the term is still ready. -/
theorem again (h : Ready terms words fuel term owners seen) (hindex : Free seen index)
    (hstuck : Stuck terms words owners other 0 (seen.set index true) seen') :
    Ready terms words fuel term owners seen' where
  owners_length := h.owners_length
  seen_length := by rw [hstuck.length, List.length_set, h.seen_length]
  fuel := by
    have hcount := count_set hindex
    have hless := hstuck.count
    have hfuel := h.fuel
    omega
  valid := h.valid.restrict fun w hw => hstuck.shrinks_set hindex hw
  new := fun ⟨w, hw, howns⟩ => h.new ⟨w, hstuck.shrinks_set hindex hw, howns⟩

theorem lt (h : Ready terms words fuel term owners seen) (hindex : Free seen index) :
    index < owners.length := by
  rw [h.owners_length, ← h.seen_length]
  exact free_of_lt hindex

end Ready

/-- The test by which a word is passed over. -/
theorem skip_iff {word : List Char} (hword : words[index]? = some word) :
    (seen.getD index true || !((terms[term]?).any (·.accepts word))) = true ↔
      ¬(Free seen index ∧ Accepts terms words term index) := by
  have haccepts : Accepts terms words term index ↔
      (terms[term]?).any (·.accepts word) = true := by
    rw [Option.any_eq_true]
    constructor
    · rintro ⟨t, word', ht, hword', haccepts⟩
      obtain rfl : word = word' := Option.some.inj (hword.symm.trans hword')
      exact ⟨t, ht, haccepts⟩
    · rintro ⟨t, ht, haccepts⟩
      exact ⟨t, word, ht, hword, haccepts⟩
  rw [haccepts, Free, Bool.or_eq_true, not_and_or, Bool.not_eq_false, Bool.not_eq_true,
    Bool.not_eq_true']

theorem Outcome.skip {r : Bool × Owners × Seen}
    (h : Outcome terms words term (index + 1) owners seen r)
    (hhere : Accepts terms words term index → ¬Free seen index) :
    Outcome terms words term index owners seen r := by
  obtain ⟨found, owners', seen'⟩ := r
  cases found with
  | true => exact h
  | false => exact ⟨h.1, h.2.skip hhere⟩

theorem Outcome.pass {r : Bool × Owners × Seen} (hindex : Free seen index)
    (hother : Owns owners other index)
    (hstuck : Stuck terms words owners other 0 (seen.set index true) seen')
    (hvalid : Valid terms words (Free seen) owners) (hnew : ¬Placed (Free seen) owners term)
    (h : Outcome terms words term (index + 1) owners seen' r) :
    Outcome terms words term index owners seen r := by
  obtain ⟨found, owners', seen''⟩ := r
  cases found with
  | true => exact Gains.widen h (fun w hw => hstuck.shrinks_set hindex hw) hvalid hnew
  | false => exact ⟨h.1, .pass hother hindex hstuck h.2⟩

theorem claim_outcome {fuel : Nat} {rest : List (List Char)} (hrest : words.drop index = rest)
    (h : Ready terms words fuel term owners seen) :
    Outcome terms words term index owners seen
      (claim terms words fuel term rest index owners seen) := by
  induction fuel, term, rest, index, owners, seen using claim.induct terms words with
  | case1 fuel term index owners seen =>
    -- no word is left to try
    rw [claim]
    refine ⟨rfl, rfl, Nat.le_refl _, fun w hw => hw, ?_, fun w hw hw' => absurd hw hw'⟩
    rintro w hw ⟨-, word, -, hword, -⟩
    have hlength := List.drop_eq_nil_iff.mp hrest
    have hlt := (List.getElem?_eq_some_iff.mp hword).1
    omega
  | case2 term rest index owners seen hne => exact absurd h.fuel (Nat.not_lt_zero _)
  | case3 fuel term word rest index owners seen hskip ih =>
    have hword : words[index]? = some word := by rw [← List.head?_drop, hrest, List.head?_cons]
    have hnext : words.drop (index + 1) = rest := by rw [← List.tail_drop, hrest, List.tail_cons]
    rw [claim, if_pos hskip]
    refine (ih hnext h).skip fun haccepts hfree => ?_
    exact (skip_iff hword).mp hskip ⟨hfree, haccepts⟩
  | case4 fuel term word rest index owners seen htry hnone =>
    have hword : words[index]? = some word := by rw [← List.head?_drop, hrest, List.head?_cons]
    obtain ⟨hfree, haccepts⟩ := not_not.mp (mt (skip_iff hword).mpr htry)
    rw [claim, if_neg htry]
    dsimp only
    rw [hnone]
    have hplaced : ∀ t, Placed (Free (seen.set index true)) owners t ↔ Placed (Free seen) owners t := by
      intro t
      rw [placed_iff hfree, or_iff_right]
      intro howns
      cases hnone.symm.trans howns
    exact Gains.take hfree (h.lt hfree) haccepts h.new (free_set hfree) rfl
      (h.valid.restrict fun w hw => ((free_set hfree).mp hw).1) (fun _ _ => rfl) hplaced
  | case5 fuel term word rest index owners seen htry seen₁ other hother owners₁ seen₂ hfound ih =>
    have hword : words[index]? = some word := by rw [← List.head?_drop, hrest, List.head?_cons]
    obtain ⟨hfree, haccepts⟩ := not_not.mp (mt (skip_iff hword).mpr htry)
    rw [claim, if_neg htry]
    dsimp only
    rw [hother]
    dsimp only
    rw [hfound]
    have hgains := ih rfl (h.holder hfree hother)
    rw [hfound] at hgains
    -- the holder of the word is placed elsewhere, so no term has lost its place
    have hplaced : ∀ t, Placed (Free seen₁) owners₁ t ↔ Placed (Free seen) owners t := by
      intro t
      rw [hgains.placed, placed_iff hfree]
      refine or_congr_left ⟨?_, fun howns => howns.unique hother⟩
      rintro rfl
      exact hother
    exact Gains.take hfree (h.lt hfree) haccepts h.new (free_set hfree) hgains.length hgains.valid
      hgains.kept hplaced
  | case6 fuel term word rest index owners seen htry seen₁ other hother owners₁ seen₂ hfailed ih
      ihrest =>
    have hword : words[index]? = some word := by rw [← List.head?_drop, hrest, List.head?_cons]
    have hnext : words.drop (index + 1) = rest := by rw [← List.tail_drop, hrest, List.tail_cons]
    obtain ⟨hfree, -⟩ := not_not.mp (mt (skip_iff hword).mpr htry)
    rw [claim, if_neg htry]
    dsimp only
    rw [hother]
    dsimp only
    rw [hfailed]
    dsimp only
    have hstuck := ih rfl (h.holder hfree hother)
    rw [hfailed] at hstuck
    obtain ⟨rfl, hstuck⟩ := hstuck
    have hrest := ihrest hnext (h.again hfree hstuck)
    exact .pass hfree hother hstuck h.valid h.new hrest

end Match
end DocQuery
