import DocQuery.Text.Blank
import DocQuery.Text.Case

/-!
# Words and letter case

A word stands in its text and holds no blank (`infix_of_mem_words`). In ASCII, lower case is folding,
character by character (`lower_eq_map_fold`), and characters that fold alike are variants of each
other (`mem_variants`).
-/

set_option autoImplicit false

namespace DocQuery.Text

variable {c d : Char} {cs w : List Char}

/-! ## ASCII -/

/-- Whether a text is in ASCII. -/
def isAscii (cs : List Char) : Bool := cs.all (·.toNat < 0x80)

theorem isAscii_iff : isAscii cs = true ↔ ∀ c ∈ cs, c.toNat < 0x80 := by
  simp [isAscii]

theorem isAscii_of_subset {ds : List Char} (hsubset : cs ⊆ ds) (h : isAscii ds = true) :
    isAscii cs = true :=
  isAscii_iff.mpr fun c hc => isAscii_iff.mp h c (hsubset hc)

/-- Folding takes the small letter of a capital one and keeps what is no capital letter. -/
theorem toNat_fold (hc : c.toNat < 0x80) : (fold c).toNat =
    if isAsciiUpper c then c.toNat + 32 else c.toNat := by
  have hvalid : (c.toNat + 32).isValidChar := .inl (by omega)
  rw [fold, if_pos hc]
  split
  · rw [Char.ofNat, dif_pos hvalid]
    rfl
  · rfl

theorem lower_eq_map_fold (h : isAscii cs = true) : lower cs = cs.map fold := by
  have hfrom : ∀ before, lowerFrom before cs = cs.map fold := by
    induction cs with
    | nil => exact fun _ => rfl
    | cons c cs ih =>
      intro before
      obtain ⟨hc, hcs⟩ := List.forall_mem_cons.mp (isAscii_iff.mp h)
      have hsigma : ¬c.toNat = 0x3A3 := by omega
      rw [lowerFrom, if_neg hsigma, lowerChar, if_pos hc, ih (isAscii_iff.mpr hcs), List.map_cons,
        fold, if_pos hc]
      rfl
  exact hfrom []

/-- What folds to a character is that character, or a capital letter of which it is the small one. -/
theorem eq_or_eq_upper (hc : c.toNat < 0x80) : c = fold c ∨
    isAsciiLower (fold c) = true ∧ c = Char.ofNat ((fold c).toNat - 32) := by
  have hfold := toNat_fold hc
  by_cases hupper : isAsciiUpper c = true
  · rw [if_pos hupper] at hfold
    refine .inr ⟨?_, ?_⟩
    · unfold isAsciiUpper at hupper
      unfold isAsciiLower
      simp only [Bool.and_eq_true, decide_eq_true_eq, Char.reduceToNat] at hupper ⊢
      omega
    · rw [hfold, Nat.add_sub_cancel, Char.ofNat_toNat]
  · rw [fold, if_pos hc, if_neg hupper]
    exact .inl rfl

/-- A character is among the variants of each one that folds like it. -/
theorem mem_variants (hc : c.toNat < 0x80) (h : fold c = fold d) : c ∈ variants d := by
  unfold variants
  dsimp only
  rw [← h]
  refine List.mem_append_left _ ?_
  rcases eq_or_eq_upper hc with heq | ⟨hlower, heq⟩
  · exact heq ▸ List.mem_cons_self
  · rw [if_pos hlower]
    exact List.mem_cons_of_mem _ (List.mem_singleton.mpr heq)

/-- Only the star folds to a star. -/
theorem eq_star_of_fold (hc : c.toNat < 0x80) (h : fold c = '*') : c = '*' := by
  rcases eq_or_eq_upper hc with heq | ⟨hlower, -⟩
  · exact heq.trans h
  · rw [h] at hlower
    cases hlower

/-! ## Words -/

theorem trim_subset (cs : List Char) : trim cs ⊆ cs := by
  intro c hc
  have hleading := (List.dropWhile_sublist _).subset (List.mem_reverse.mp hc)
  exact (List.dropWhile_sublist _).subset (List.mem_reverse.mp hleading)

/-- Inside of a word the first word of the rest is what begins the rest. -/
theorem wordsFrom_true (cs : List Char) : ∃ w ws, wordsFrom true cs = w :: ws ∧ w <+: cs := by
  induction cs with
  | nil => exact ⟨[], [], rfl, List.nil_prefix⟩
  | cons c cs ih =>
    obtain ⟨w, ws, hwords, hprefix⟩ := ih
    rw [wordsFrom]
    split
    · exact ⟨[], _, rfl, List.nil_prefix⟩
    · exact ⟨c :: w, ws, by rw [hwords]; rfl, List.cons_prefix_cons.mpr ⟨rfl, hprefix⟩⟩

theorem infix_of_mem_wordsFrom {inWord : Bool} (h : w ∈ wordsFrom inWord cs) :
    w <:+: cs ∧ ∀ c ∈ w, isBlank c = false := by
  induction cs generalizing inWord w with
  | nil =>
    cases inWord with
    | false => cases h
    | true =>
      obtain rfl := List.mem_singleton.mp h
      exact ⟨List.nil_infix, fun _ hc => nomatch hc⟩
  | cons c cs ih =>
    have hlater : ∀ {w inWord}, w ∈ wordsFrom inWord cs →
        w <:+: c :: cs ∧ ∀ c ∈ w, isBlank c = false := fun hw =>
      ⟨(ih hw).1.trans (List.suffix_cons c cs).isInfix, (ih hw).2⟩
    rw [wordsFrom] at h
    split at h
    · split at h
      · rcases List.mem_cons.mp h with rfl | h
        · exact ⟨List.nil_infix, fun _ hc => nomatch hc⟩
        · exact hlater h
      · exact hlater h
    · next hc =>
      obtain ⟨first, others, hwords, hprefix⟩ := wordsFrom_true cs
      rw [hwords] at h
      rcases List.mem_cons.mp h with rfl | h
      · refine ⟨(List.cons_prefix_cons.mpr ⟨rfl, hprefix⟩).isInfix, ?_⟩
        refine List.forall_mem_cons.mpr ⟨Bool.eq_false_iff.mpr hc, ?_⟩
        exact (ih (hwords ▸ List.mem_cons_self)).2
      · exact hlater (hwords ▸ List.mem_cons_of_mem first h)

/-- A word stands in its text and holds no blank. -/
theorem infix_of_mem_words (h : w ∈ words cs) : w <:+: cs ∧ ∀ c ∈ w, isBlank c = false :=
  infix_of_mem_wordsFrom h

end DocQuery.Text
