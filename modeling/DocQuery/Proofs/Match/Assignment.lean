import DocQuery.Proofs.Match.Search
import Mathlib.Data.List.Perm.Subperm
import Mathlib.Data.Finset.Card
import Mathlib.Data.Fintype.Card

/-!
# Texts that match have an assignment

**A text matches a list of terms exactly when its words can be given to the terms, every term a word
of its own that suits it** (`matchesText_iff_assignable`); so neither the order of the terms nor the
order of the words matters.

The terms are placed one after the other, and each search leaves the terms before it placed, perhaps
on other words (`assignAll_iff`). A search that fails has seen more terms than words: all words it has
seen are held, and its own term and their holders can take no others (`Stuck.not_assigns`).
-/

set_option autoImplicit false

namespace DocQuery
namespace Match

/-! ## Assignments -/

/-- Whether a word suits a term: it is the term, trimmed and in lower case, or begins with what
stands before a final star. -/
def Term.Suits (term : String) (word : List Char) : Prop :=
  word = Text.lower (Text.trim term.toList) ∨
    ∃ stem, Text.lower (Text.trim term.toList) = stem ++ ['*'] ∧ stem <+: word

/-- Whether all items of a list can be given words of their own that fit them. -/
def Assignable {α : Type} (Fits : α → List Char → Prop) (items : List α)
    (words : List (List Char)) : Prop :=
  ∃ assignment : Fin items.length → Fin words.length,
    Function.Injective assignment ∧ ∀ i, Fits items[i] words[assignment i]

/-- A choice of words for some of the terms, no two the same. -/
structure Assigns (terms : List Term) (words : List (List Char)) (chosen : Nat → Prop)
    (word : Nat → Nat) : Prop where
  accepts : ∀ {t}, chosen t → Accepts terms words t (word t)
  once : ∀ {t t'}, chosen t → chosen t' → word t = word t' → t = t'

variable {terms : List Term} {words : List (List Char)} {owners : Owners} {seen' : Seen}
  {chosen : Nat → Prop} {term w : Nat}

theorem Accepts.lt (h : Accepts terms words term w) : w < words.length := by
  obtain ⟨-, word, -, hword, -⟩ := h
  exact (List.getElem?_eq_some_iff.mp hword).1

/-- The order of the items and the order of the words do not matter. -/
theorem Assignable.perm {α : Type} [DecidableEq α] {Fits : α → List Char → Prop}
    {items items' : List α} {words words' : List (List Char)} (hitems : items'.Perm items)
    (hwords : words.Perm words') (h : Assignable Fits items words) :
    Assignable Fits items' words' := by
  obtain ⟨assignment, hinjective, hfits⟩ := h
  refine ⟨fun i => hwords.idxBij (assignment (hitems.idxBij i)), ?_, fun i => ?_⟩
  · intro i j hij
    exact hitems.subperm.idxInj_injective (hinjective (hwords.subperm.idxInj_injective hij))
  · have hitem := hitems.getElem_idxBij_eq_getElem i
    have hword := hwords.getElem_idxBij_eq_getElem (assignment (hitems.idxBij i))
    have hfit := hfits (hitems.idxBij i)
    simp only [Fin.getElem_fin] at hfit ⊢
    rwa [hword, ← hitem]

theorem Term.accepts_iff (s : String) (word : List Char) :
    (Term.ofString s).accepts word = true ↔ Term.Suits s word := by
  unfold Term.ofString Term.Suits Term.accepts
  generalize Text.lower (Text.trim s.toList) = cs
  dsimp only
  split
  · next hstar =>
    obtain ⟨stem, rfl⟩ := List.getLast?_eq_some_iff.mp hstar
    rw [if_pos rfl, List.dropLast_concat, List.isPrefixOf_iff_prefix]
    constructor
    · exact fun hprefix => .inr ⟨stem, rfl, hprefix⟩
    · rintro (rfl | ⟨stem', heq, hprefix⟩)
      · exact List.prefix_append stem _
      · rwa [List.append_cancel_right heq]
  · next hstar =>
    rw [if_neg Bool.false_ne_true, beq_iff_eq, or_iff_left]
    rintro ⟨stem, rfl, -⟩
    exact hstar (List.getLast?_concat)

/-! ## One term after the other -/

/-- The words of a text, by their numbers. -/
abbrev Word (words : List (List Char)) (w : Nat) : Prop := w < words.length

theorem free_unseen : Free (words.map fun _ => false) w ↔ Word words w := by
  unfold Free
  rw [List.getD_eq_getElem?_getD, List.getElem?_map]
  by_cases hw : w < words.length <;> simp [hw]

/-- **A search that fails, fails for a reason**: its term and the terms that are placed cannot all
have words of their own. -/
theorem Stuck.not_assigns {seen : Seen} (h : Stuck terms words owners term 0 seen seen')
    (hseen : ∀ w, Free seen w ↔ Word words w) (hvalid : Valid terms words (Word words) owners)
    (hnew : ¬Placed (Word words) owners term) (f : Nat → Nat) :
    ¬Assigns terms words (fun t => t = term ∨ Placed (Word words) owners t) f := by
  intro hf
  -- the words that the search has seen, and for each its holder
  let tried : Finset Nat := (Finset.range words.length).filter fun w => seen'.getD w true = true
  have htried : ∀ {w}, w ∈ tried ↔ Word words w ∧ ¬Free seen' w := by
    intro w
    rw [Finset.mem_filter, Finset.mem_range, Free, Bool.not_eq_false]
  have hheld : ∀ w, w ∈ tried →
      ∃ t, Owns owners t w ∧ ∀ w', Accepts terms words t w' → ¬Free seen' w' := fun w hw =>
    h.closed w ((hseen w).mpr (htried.mp hw).1) (htried.mp hw).2
  choose! holder howns hclosed using hheld
  have hplaced : ∀ {w}, w ∈ tried → Placed (Word words) owners (holder w) := fun hw =>
    ⟨_, (htried.mp hw).1, howns _ hw⟩
  -- what the holders are given are again such words, and all of them
  have hmaps : Set.MapsTo (fun w => f (holder w)) tried tried := by
    intro w hw
    have haccepts := hf.accepts (.inr (hplaced hw))
    exact htried.mpr ⟨haccepts.lt, hclosed w hw _ haccepts⟩
  have hinjective : Set.InjOn (fun w => f (holder w)) tried := by
    intro w hw w' hw' heq
    have hsame := hf.once (.inr (hplaced hw)) (.inr (hplaced hw')) heq
    exact hvalid.once (htried.mp hw).1 (htried.mp hw').1 (howns w hw) (hsame ▸ howns w' hw')
  have hsurjective := Finset.surjOn_of_injOn_of_card_le _ hmaps hinjective (Nat.le_refl _)
  -- so the word for the term itself is also that of a holder
  have haccepts := hf.accepts (.inl rfl)
  have hmem : f term ∈ tried := htried.mpr ⟨haccepts.lt, h.tried _ (Nat.zero_le _) haccepts⟩
  obtain ⟨w, hw, heq⟩ := hsurjective hmem
  exact hnew (hf.once (.inr (hplaced hw)) (.inl rfl) heq ▸ hplaced hw)

/-- Terms that hold words have an assignment. -/
theorem Valid.assigns (hvalid : Valid terms words (Word words) owners) :
    ∃ f, Assigns terms words (Placed (Word words) owners) f := by
  have hword : ∀ t, Placed (Word words) owners t → ∃ w, Word words w ∧ Owns owners t w :=
    fun t ht => ht
  choose! f hf howns using hword
  refine ⟨f, fun {t} ht => hvalid.accepts (hf t ht) (howns t ht), fun {t t'} ht ht' heq => ?_⟩
  exact (heq ▸ howns t ht).unique (howns t' ht')

theorem Assigns.congr {chosen' : Nat → Prop} {f : Nat → Nat} (h : ∀ t, chosen t ↔ chosen' t) :
    Assigns terms words chosen f ↔ Assigns terms words chosen' f := by
  rw [funext fun t => propext (h t)]

/-- All terms of a list are placed, beside those that hold words already, exactly when these
together can be assigned. -/
theorem assignAll_iff {rest : List Nat} (hnodup : rest.Nodup)
    (hlength : owners.length = words.length) (hvalid : Valid terms words (Word words) owners)
    (hnew : ∀ t ∈ rest, ¬Placed (Word words) owners t) :
    assignAll terms words rest owners = true ↔
      ∃ f, Assigns terms words (fun t => t ∈ rest ∨ Placed (Word words) owners t) f := by
  induction rest generalizing owners with
  | nil => simp [assignAll, hvalid.assigns]
  | cons term rest ih =>
    obtain ⟨hterm, hrest⟩ := List.nodup_cons.mp hnodup
    have hfree : Free (words.map fun _ => false) = Word words :=
      funext fun w => propext free_unseen
    have hready : Ready terms words (words.length + 1) term owners (words.map fun _ => false) := by
      refine ⟨hlength, List.length_map _, ?_, hfree ▸ hvalid, hfree ▸ hnew term List.mem_cons_self⟩
      exact Nat.lt_succ_of_le (List.count_le_length.trans (Nat.le_of_eq (List.length_map _)))
    have houtcome := claim_outcome (List.drop_zero (l := words)) hready
    rw [assignAll]
    split
    · next owners' _ hclaim =>
      rw [hclaim, Outcome, hfree] at houtcome
      have hnew' : ∀ t ∈ rest, ¬Placed (Word words) owners' t := by
        intro t ht hplaced
        rcases (houtcome.placed t).mp hplaced with rfl | hplaced
        · exact hterm ht
        · exact hnew t (List.mem_cons_of_mem _ ht) hplaced
      rw [ih hrest (houtcome.length.trans hlength) houtcome.valid hnew']
      refine exists_congr fun f => Assigns.congr fun t => ?_
      rw [houtcome.placed, List.mem_cons, or_left_comm, or_assoc]
    · next hclaim =>
      rw [hclaim, Outcome] at houtcome
      refine iff_of_false Bool.false_ne_true ?_
      rintro ⟨f, hf⟩
      refine houtcome.2.not_assigns (fun w => free_unseen) hvalid (hnew term List.mem_cons_self) f ?_
      have hamong : ∀ {t}, t = term ∨ Placed (Word words) owners t →
          t ∈ term :: rest ∨ Placed (Word words) owners t := by
        rintro t (rfl | hplaced)
        · exact .inl List.mem_cons_self
        · exact .inr hplaced
      exact ⟨fun ht => hf.accepts (hamong ht), fun ht ht' => hf.once (hamong ht) (hamong ht')⟩

/-! ## Texts -/

/-- A choice of words for all terms, by their numbers, is an assignment. -/
theorem assigns_iff_assignable :
    (∃ f, Assigns terms words (fun t => t < terms.length) f) ↔
      Assignable (fun term word => term.accepts word = true) terms words := by
  constructor
  · rintro ⟨f, hf⟩
    refine ⟨fun i => ⟨f i, (hf.accepts i.isLt).lt⟩, fun i j hij => ?_, fun i => ?_⟩
    · exact Fin.ext (hf.once i.isLt j.isLt (Fin.mk.inj_iff.mp hij))
    · obtain ⟨term, word, hterm, hword, haccepts⟩ := hf.accepts i.isLt
      obtain ⟨_, rfl⟩ := List.getElem?_eq_some_iff.mp hterm
      obtain ⟨_, rfl⟩ := List.getElem?_eq_some_iff.mp hword
      exact haccepts
  · rintro ⟨assignment, hinjective, haccepts⟩
    refine ⟨fun t => if h : t < terms.length then assignment ⟨t, h⟩ else 0, ?_, ?_⟩
    · intro t ht
      rw [dif_pos ht]
      exact ⟨_, _, List.getElem?_eq_getElem ht, List.getElem?_eq_getElem (assignment ⟨t, ht⟩).isLt,
        haccepts ⟨t, ht⟩⟩
    · intro t t' ht ht' heq
      rw [dif_pos ht, dif_pos ht'] at heq
      exact Fin.mk.inj_iff.mp (hinjective (Fin.ext heq))

theorem matchesText_iff {text : String} (hterms : terms ≠ []) : matchesText text terms = true ↔
    Assignable (fun term word => term.accepts word = true) terms (wordsOf text) := by
  unfold matchesText
  dsimp only
  rw [if_neg (by simpa using hterms)]
  split
  · next hshort =>
    refine iff_of_false Bool.false_ne_true ?_
    rintro ⟨assignment, hinjective, -⟩
    have hcard := Fintype.card_le_of_injective assignment hinjective
    rw [Fintype.card_fin, Fintype.card_fin] at hcard
    exact absurd hcard (Nat.not_le_of_lt hshort)
  · have hnone : ∀ {t w}, ¬Owns ((wordsOf text).map fun _ => none) t w := by
      intro t w howns
      unfold Owns at howns
      rw [List.getD_eq_getElem?_getD, List.getElem?_map] at howns
      cases h : (wordsOf text)[w]? <;> simp [h] at howns
    have hvacant : ∀ {t}, ¬Placed (Word (wordsOf text)) ((wordsOf text).map fun _ => none) t :=
      fun ⟨_, _, howns⟩ => hnone howns
    rw [assignAll_iff List.nodup_range (List.length_map _)
      ⟨fun _ h => absurd h hnone, fun _ _ h => absurd h hnone⟩ (fun t _ => hvacant),
      ← assigns_iff_assignable]
    refine exists_congr fun f => Assigns.congr fun t => ?_
    rw [List.mem_range, or_iff_left hvacant]

theorem assignable_ofString {items : List String} :
    Assignable (fun term word => term.accepts word = true) (items.map Term.ofString) words ↔
      Assignable Term.Suits items words := by
  have hlength : (items.map Term.ofString).length = items.length := List.length_map _
  constructor
  · rintro ⟨assignment, hinjective, hfits⟩
    refine ⟨fun i => assignment (i.cast hlength.symm), fun i j hij => ?_, fun i => ?_⟩
    · exact Fin.cast_injective _ (hinjective hij)
    · have hfit := hfits (i.cast hlength.symm)
      simp only [Fin.getElem_fin, Fin.val_cast, List.getElem_map, Term.accepts_iff] at hfit
      exact hfit
  · rintro ⟨assignment, hinjective, hfits⟩
    refine ⟨fun i => assignment (i.cast hlength), fun i j hij => ?_, fun i => ?_⟩
    · exact Fin.cast_injective _ (hinjective hij)
    · simp only [Fin.getElem_fin, List.getElem_map, Term.accepts_iff]
      exact hfits (i.cast hlength)

/-- **A text matches terms exactly when they can be given words of their own that suit them**; the
order of the terms and that of the words play no part. -/
theorem matchesText_iff_assignable (text : String) (terms : List String) (hterms : terms ≠ []) :
    (matchesText text (terms.map Term.ofString) = true ↔
      ∃ assignment : Fin terms.length → Fin (wordsOf text).length,
        Function.Injective assignment ∧
          ∀ i, Term.Suits terms[i] (wordsOf text)[assignment i]) ∧
    ∀ (text' : String) (terms' : List String), terms'.Perm terms →
      (wordsOf text').Perm (wordsOf text) →
        matchesText text' (terms'.map Term.ofString) =
          matchesText text (terms.map Term.ofString) := by
  have hiff : ∀ (text : String) (terms : List String), terms ≠ [] →
      (matchesText text (terms.map Term.ofString) = true ↔
        Assignable Term.Suits terms (wordsOf text)) := by
    intro text terms hterms
    rw [matchesText_iff (by simpa using hterms), assignable_ofString]
  refine ⟨hiff text terms hterms, fun text' terms' hitems hwords => ?_⟩
  have hterms' : terms' ≠ [] := fun h => hterms (List.nil_perm.mp (h ▸ hitems))
  rw [Bool.eq_iff_iff, hiff text terms hterms, hiff text' terms' hterms']
  exact ⟨.perm hitems.symm hwords, .perm hitems hwords.symm⟩

/-- The prefix `hel*` comes first and takes `hello`, then moves to `help` for the sake of the other
term. -/
theorem matchesText_reassigned :
    matchesText "hello help" (["hel*", "hello"].map Term.ofString) = true := by
  have hwords : wordsOf "hello help" = ["hello".toList, "help".toList] := by decide
  refine (matchesText_iff_assignable "hello help" ["hel*", "hello"] (List.cons_ne_nil _ _)).1.mpr ?_
  change Assignable Term.Suits ["hel*", "hello"] (wordsOf "hello help")
  rw [hwords]
  refine ⟨Fin.rev, Fin.rev_injective, fun i => ?_⟩
  cases i using Fin.cases with
  | zero => exact .inr ⟨"hel".toList, by decide, by decide⟩
  | succ i =>
    obtain rfl : i = ⟨0, Nat.zero_lt_one⟩ := Fin.fin_one_eq_zero i
    exact .inl (by decide)

end Match
end DocQuery
