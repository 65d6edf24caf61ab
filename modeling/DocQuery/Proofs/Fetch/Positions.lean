import DocQuery.Proofs.Fetch.Overflow
import Mathlib.Data.List.Basic

/-!
# Positions in a window

What a window keeps of a cut collection is kept together with its position: the one that it has in
the window. **So windows within windows select by position, however many they are and wherever the
collection was cut before** (`Window.zipIdx_narrowAll`), and what a window says of the items at hand
(`Window.bounds_positions`) stays within these and is computed in 64 bits.
-/

set_option autoImplicit false

namespace DocQuery

namespace Subscript

/-- The position in a window of what is at position `p` of the collection, if that is in the
window. -/
def within? (w : Subscript) (p : Nat) : Option Nat :=
  if w.start ≤ p ∧ p < w.stop then some (p - w.start.toNat) else none

/-- The position in the innermost of several windows, each of the one before. -/
def withinAll? : List Subscript → Nat → Option Nat
  | [], p => some p
  | w :: ws, p => (w.within? p).bind (withinAll? ws)

/-- A window with bounds that count from the front. -/
structure FromFront (w : Subscript) : Prop where
  start : 0 ≤ w.start
  stop : 0 ≤ w.stop

end Subscript

namespace Window

variable {α : Type} {len offset : Nat} {start stop index : Int}

/-! ## Within the items at hand -/

theorem clamp_le (len : Nat) (bound : Int) : clamp len bound ≤ len := by
  unfold clamp
  split <;> omega

theorem slice_le (len : Nat) (start stop : Int) :
    (slice len start stop).1 ≤ (slice len start stop).2 ∧ (slice len start stop).2 ≤ len :=
  ⟨Nat.le_max_left _ _, Nat.max_le.mpr ⟨clamp_le len start, clamp_le len stop⟩⟩

theorem bounds_le (len offset : Nat) (start stop : Int) :
    (bounds len offset start stop).1 ≤ (bounds len offset start stop).2.1 ∧
      (bounds len offset start stop).2.1 ≤ len :=
  slice_le len (shift offset start) (shift offset stop)

theorem element?_lt {j : Nat} (h : element? len index = some j) : j < len := by
  unfold element? at h
  dsimp only at h
  generalize (if index < 0 then len + index else index) = position at h
  split at h
  · cases h
    omega
  · cases h

theorem index?_lt {j : Nat} (h : index? len offset index = some j) : j < len := by
  unfold index? at h
  split at h
  · cases h
  · exact element?_lt h

/-- An index from the front finds the item at that position. -/
theorem index?_front (hoffset : (offset : Int) ≤ maxInt64) (hindex : 0 ≤ index) (len j : Nat) :
    index? len offset index = some j ↔ (offset : Int) + j = index ∧ j < len := by
  unfold index? element?
  rw [signed_eq hoffset]
  have hneg : ¬index < 0 := by omega
  rw [if_neg hneg]
  by_cases hbefore : index < offset
  · rw [if_pos ⟨hindex, hbefore⟩]
    exact ⟨nofun, by omega⟩
  · have hpos : ¬index - offset < 0 := by omega
    rw [if_neg fun h => hbefore h.2]
    dsimp only
    rw [if_neg hpos]
    split
    · rw [Option.some_inj]
      omega
    · exact ⟨nofun, by omega⟩

/-! ## Windows within windows -/

/-- What is left of a collection, and the position of the first, after some windows. -/
def narrowAll : List Subscript → List α → Nat → List α × Nat
  | [], items, offset => (items, offset)
  | w :: ws, items, offset => narrowAll ws (narrow w items offset).1 (narrow w items offset).2

/-- What a cut keeps is in the window, and where it says. The items begin before the window or
within it. -/
theorem zipIdx_cut (items : List α) (offset start stop : Nat) :
    (cut items (start - offset) (stop - offset)).zipIdx (offset - start) =
      (items.zipIdx offset).filterMap fun x =>
        if start ≤ x.2 ∧ x.2 < stop then some (x.1, x.2 - start) else none := by
  induction items generalizing offset with
  | nil => simp [cut]
  | cons item items ih =>
    have hrest := ih (offset + 1)
    rw [List.zipIdx_cons, List.filterMap_cons]
    by_cases hbefore : offset < start
    · obtain ⟨low, hlow⟩ : ∃ low, start - offset = low + 1 := ⟨start - offset - 1, by omega⟩
      have hout : ¬(start ≤ offset ∧ offset < stop) := by omega
      have hcut : cut (item :: items) (low + 1) (stop - offset) =
          cut items (start - (offset + 1)) (stop - (offset + 1)) := by
        have hnext : low = start - (offset + 1) := by omega
        rw [cut, cut, List.drop_succ_cons, hnext]
        congr 1
        omega
      have hfirst : offset - start = offset + 1 - start := by omega
      rw [if_neg hout, hlow, hcut, hfirst, hrest]
    · have hlow : start - offset = 0 := by omega
      have hlow' : start - (offset + 1) = 0 := by omega
      rw [hlow'] at hrest
      by_cases hbehind : stop ≤ offset
      · have hout : ¬(start ≤ offset ∧ offset < stop) := by omega
        rw [cut_eq_nil (by omega)] at hrest
        rw [if_neg hout, ← hrest, cut_eq_nil (by omega)]
        rfl
      · obtain ⟨high, hhigh⟩ : ∃ high, stop - offset = high + 1 := ⟨stop - offset - 1, by omega⟩
        have hhigh' : stop - (offset + 1) = high := by omega
        have hfirst : offset + 1 - start = offset - start + 1 := by omega
        rw [hhigh', hfirst] at hrest
        rw [if_pos (by omega), ← hrest, hlow, hhigh]
        rfl

/-- **A window keeps what is in it, and the positions that this has there.** -/
theorem zipIdx_narrow {w : Subscript} (hw : w.FromFront) (hoffset : (offset : Int) ≤ maxInt64)
    (items : List α) : (narrow w items offset).1.zipIdx (narrow w items offset).2 =
      (items.zipIdx offset).filterMap fun x => (w.within? x.2).map (x.1, ·) := by
  obtain ⟨start, stop, first⟩ := w
  obtain ⟨hstart, hstop⟩ := hw
  have hwithin : ∀ p : Nat, (start ≤ p ∧ (p : Int) < stop) ↔ start.toNat ≤ p ∧ p < stop.toNat := by
    intro p
    omega
  rw [narrow_eq hoffset hstart hstop, zipIdx_cut]
  refine List.filterMap_congr fun x _ => ?_
  unfold Subscript.within?
  simp only [hwithin]
  split <;> rfl

/-- Windows within windows keep what is in all of them. -/
theorem zipIdx_narrowAll {ws : List Subscript} (hws : ∀ w ∈ ws, w.FromFront)
    (hoffset : (offset : Int) ≤ maxInt64) (items : List α) :
    (narrowAll ws items offset).1.zipIdx (narrowAll ws items offset).2 =
      (items.zipIdx offset).filterMap fun x => (Subscript.withinAll? ws x.2).map (x.1, ·) := by
  induction ws generalizing items offset with
  | nil => simp [narrowAll, Subscript.withinAll?]
  | cons w ws ih =>
    obtain ⟨hw, hrest⟩ := List.forall_mem_cons.mp hws
    have hremaining := narrow_remaining_le w items hoffset
    rw [narrowAll, ih hrest (by omega), zipIdx_narrow hw hoffset, List.filterMap_filterMap]
    refine List.filterMap_congr fun x _ => ?_
    rw [Subscript.withinAll?]
    cases w.within? x.2 with
    | none => rfl
    | some p => rfl

/-- **Windows stay within the items at hand and select by position.** Nothing overflows in 64 bits,
ranges and indices lie within the items, and what counts from the front means positions in the
collection: an item is in the range exactly if its position is in the window, the first one kept has
its position in the window, so that any further windows select by positions of their own, and an
index finds the item at its position. -/
theorem bounds_positions (hlen : (len : Int) ≤ maxInt64) (hoffset : (offset : Int) ≤ maxInt64)
    (hstart : fitsInt64 start = true) (hstop : fitsInt64 stop = true)
    (hindex : fitsInt64 index = true) :
    (Checked.slice len start stop = some (slice len start stop) ∧
      Checked.bounds len offset start stop = some (bounds len offset start stop) ∧
      Checked.index len offset index = some (index? len offset index)) ∧
    ((slice len start stop).1 ≤ (slice len start stop).2 ∧ (slice len start stop).2 ≤ len) ∧
    ((bounds len offset start stop).1 ≤ (bounds len offset start stop).2.1 ∧
      (bounds len offset start stop).2.1 ≤ len) ∧
    (∀ j, index? len offset index = some j → j < len) ∧
    (0 ≤ start → 0 ≤ stop →
      (∀ j < len, ((bounds len offset start stop).1 ≤ j ∧ j < (bounds len offset start stop).2.1) ↔
        start ≤ (offset + j : Int) ∧ (offset + j : Int) < stop) ∧
      (bounds len offset start stop).2.2 = max start offset - start ∧
      ((bounds len offset start stop).1 < (bounds len offset start stop).2.1 →
        ((bounds len offset start stop).2.2 : Int) =
          offset + (bounds len offset start stop).1 - start) ∧
      ∀ (further : List Subscript), (∀ w ∈ further, w.FromFront) → ∀ (α : Type) (items : List α),
        items.length = len → ∀ first kept remaining,
          narrowAll (⟨start, stop, first⟩ :: further) items offset = (kept, remaining) →
          kept.zipIdx remaining = (items.zipIdx offset).filterMap fun x =>
            (Subscript.withinAll? (⟨start, stop, first⟩ :: further) x.2).map (x.1, ·)) ∧
    (0 ≤ index → ∀ j, index? len offset index = some j ↔ (offset : Int) + j = index ∧ j < len) := by
  have hslice := Checked.slice_eq hlen (of_decide_eq_true hstart).1 (of_decide_eq_true hstop).1
  refine ⟨⟨hslice, Checked.bounds_eq hlen hoffset hstart hstop,
    Checked.index_eq hlen hoffset hindex⟩, slice_le len start stop, bounds_le len offset start stop,
    fun j => index?_lt, fun hfront hfront' => ?_, fun hfront => index?_front hoffset hfront len⟩
  rw [bounds_front hoffset hfront hfront']
  refine ⟨fun j hj => ?_, ?_, fun hkept => ?_,
    fun further hfurther α items _ first kept remaining h => ?_⟩
  · dsimp only
    omega
  · dsimp only
    omega
  · dsimp only at hkept ⊢
    omega
  · have hws : ∀ w ∈ (⟨start, stop, first⟩ : Subscript) :: further, w.FromFront :=
      List.forall_mem_cons.mpr ⟨⟨hfront, hfront'⟩, hfurther⟩
    have hall := zipIdx_narrowAll hws hoffset items
    rwa [h] at hall

/-- The third and the fourth of a collection, and a window within a window: the fourth is at position
2 of the first one and at position 0 of the second. -/
theorem bounds_positions_nested :
    bounds 2 2 1 5 = (0, 2, 1) ∧ index? 2 2 3 = some 1 ∧
    (∀ j < 2, (0 ≤ j ∧ j < 2) ↔ (1 : Int) ≤ (2 : Nat) + (j : Nat) ∧ ((2 : Nat) + j : Int) < 5) ∧
    [("d", 0)] = [("c", 2), ("d", 3)].filterMap fun x =>
      (Subscript.withinAll? [⟨1, 5, false⟩, ⟨2, 9, false⟩] x.2).map (x.1, ·) := by
  obtain ⟨-, -, -, -, hfront, hindex⟩ :=
    @bounds_positions 2 2 1 5 3 (by decide) (by decide) rfl rfl rfl
  obtain ⟨hrange, -, -, hnested⟩ := hfront (by decide) (by decide)
  have hinner : ∀ w ∈ [(⟨2, 9, false⟩ : Subscript)], w.FromFront := by
    rintro w hw
    obtain rfl := List.mem_singleton.mp hw
    exact ⟨by decide, by decide⟩
  exact ⟨by decide, (hindex (by decide) 1).mpr ⟨by decide, by decide⟩, hrange,
    hnested _ hinner String ["c", "d"] rfl false ["d"] 0 rfl⟩

end Window
end DocQuery
