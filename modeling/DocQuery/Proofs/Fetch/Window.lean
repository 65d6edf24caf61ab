import DocQuery.Proofs.Fetch.Spec
import DocQuery.Scope

/-!
# Cutting what has been cut already

A subscript with bounds that count from the front, on items whose first one is at position `offset`
of their collection: it cuts at the bounds less the offset (`narrow_eq`, `pick?_eq`). A window within
a window is one window of the collection (`cut_cut`).

So **a window that a fetch has applied already is applied once more without harm**: what was cut for
a window or an index gives the same as all items (`narrow_given`, `pick?_given`), and what was cut
for two windows in a row is what the second one asks for of the first (`narrow_within`).
-/

set_option autoImplicit false

namespace DocQuery
namespace Window

variable {α β : Type} {items : List α} {a b c d : Nat}

theorem mem_of_mem_cut {x : α} (h : x ∈ cut items a b) : x ∈ items :=
  List.mem_of_mem_drop (List.mem_of_mem_take h)

theorem cut_sublist (items : List α) (a b : Nat) : (cut items a b).Sublist items :=
  (List.take_sublist _ _).trans (List.drop_sublist _ _)

theorem map_cut (f : α → β) (items : List α) (a b : Nat) :
    (cut items a b).map f = cut (items.map f) a b := by
  simp [cut]

theorem length_cut_le (items : List α) (a b : Nat) : (cut items a b).length ≤ b - a := by
  simp only [cut, List.length_take]
  omega

theorem cut_eq_nil (h : b ≤ a) : cut items a b = [] := by
  rw [cut, Nat.sub_eq_zero_of_le h, List.take_zero]

/-- A window within a window. -/
theorem cut_cut (items : List α) (a b c d : Nat) :
    cut (cut items a b) c d = cut items (a + c) (min b (a + d)) := by
  simp only [cut, List.drop_take, List.drop_drop, List.take_take]
  congr 1
  omega

/-- A window of what is left of a collection after the same window, or one that reaches as far. -/
theorem cut_again {offset : Nat} (hlength : items.length ≤ b - a)
    (h : items ≠ [] → offset = a) :
    cut items (c - offset) (b - offset) = items.drop (c - offset) := by
  cases items with
  | nil => simp [cut]
  | cons x xs =>
    obtain rfl := h (by simp)
    rw [cut, List.take_of_length_le]
    simp only [List.length_drop]
    omega

theorem cut_clamp (items : List α) (a b : Nat) :
    cut items (min a items.length) (max (min a items.length) (min b items.length)) =
      cut items a b := by
  unfold cut
  by_cases ha : a ≤ items.length
  · rw [Nat.min_eq_left ha]
    by_cases hb : b ≤ items.length
    · rw [Nat.min_eq_left hb]
      congr 1
      omega
    · rw [List.take_of_length_le (by simp only [List.length_drop]; omega),
        List.take_of_length_le (by simp only [List.length_drop]; omega)]
  · rw [List.drop_eq_nil_of_le (by omega), List.drop_eq_nil_of_le (by omega), List.take_nil,
      List.take_nil]

/-! ## Subscripts -/

theorem signed_eq {offset : Nat} (h : (offset : Int) ≤ maxInt64) : signed offset = offset := by
  rw [signed, if_pos h]

theorem clamp_shift {offset : Nat} (h : (offset : Int) ≤ maxInt64) {bound : Int} (hb : 0 ≤ bound)
    (len : Nat) : clamp len (shift offset bound) = min (bound.toNat - offset) len := by
  have hneg : ¬bound < 0 := by omega
  unfold shift clamp
  rw [signed_eq h, if_neg hneg, if_neg (by omega)]
  omega

/-! ## Narrowing -/

/-- The items of a window, and the position within the window of the first of them. The first of the
given items is at position `offset` of the collection that the window is of. -/
def narrow (w : Subscript) (items : List α) (offset : Nat) : List α × Nat :=
  let (low, high, remaining) := bounds items.length offset w.start w.stop
  (cut items low high, remaining)

/-- The item at an index of that collection. -/
def pick? (w : Subscript) (items : List α) (offset : Nat) : Option α :=
  (index? items.length offset w.start).bind (items[·]?)

section

variable {given : List α} {offset : Nat} {start stop : Int} {first : Bool}

/-- A window from the front is one of the items at hand, moved by what these lack in front. -/
theorem bounds_front (hoffset : (offset : Int) ≤ maxInt64) (hstart : 0 ≤ start) (hstop : 0 ≤ stop)
    (len : Nat) : bounds len offset start stop =
      (min (start.toNat - offset) len,
        max (min (start.toNat - offset) len) (min (stop.toNat - offset) len),
        offset - start.toNat) := by
  unfold bounds slice
  rw [clamp_shift hoffset hstart, clamp_shift hoffset hstop, signed_eq hoffset]
  have hneg : ¬start < 0 := by omega
  simp only [if_neg hneg, Prod.mk.injEq, true_and]
  omega

theorem narrow_eq (hoffset : (offset : Int) ≤ maxInt64) (hstart : 0 ≤ start) (hstop : 0 ≤ stop) :
    narrow ⟨start, stop, first⟩ items offset =
      (cut items (start.toNat - offset) (stop.toNat - offset), offset - start.toNat) := by
  show (cut items (bounds items.length offset start stop).1
    (bounds items.length offset start stop).2.1, (bounds items.length offset start stop).2.2) = _
  rw [bounds_front hoffset hstart hstop]
  exact congrArg (·, _) (cut_clamp items _ _)

/-- Nothing of a window of all items is left out in front. -/
theorem narrow_remaining (w : Subscript) (items : List α) : (narrow w items 0).2 = 0 := by
  have hsigned : signed 0 = 0 := rfl
  show (bounds items.length 0 w.start w.stop).2.2 = 0
  unfold bounds
  rw [hsigned]
  dsimp only
  split <;> omega

theorem length_narrow_le (w : Subscript) (items : List α) (offset : Nat) :
    (narrow w items offset).1.length ≤ items.length :=
  (cut_sublist items _ _).length_le

/-- What a window leaves out in front of its items is no more than was left out before. -/
theorem narrow_remaining_le (w : Subscript) (items : List α) {offset : Nat}
    (hoffset : (offset : Int) ≤ maxInt64) : (narrow w items offset).2 ≤ offset := by
  show (bounds items.length offset w.start w.stop).2.2 ≤ offset
  unfold bounds
  rw [signed_eq hoffset]
  dsimp only
  split <;> omega

theorem pick?_eq (hoffset : (offset : Int) ≤ maxInt64) (hstart : 0 ≤ start) :
    pick? ⟨start, stop, first⟩ items offset =
      if start.toNat < offset then none else items[start.toNat - offset]? := by
  unfold pick? index?
  rw [signed_eq hoffset]
  dsimp only
  by_cases hlt : start.toNat < offset
  · rw [if_pos (by omega), if_pos hlt]
    rfl
  · have hneg : ¬start < 0 := by omega
    rw [if_neg (by omega), if_neg hlt, if_neg hneg]
    unfold element?
    have hpos : ¬start - offset < 0 := by omega
    dsimp only
    rw [if_neg hpos]
    have hnat : (start - (offset : Int)).toNat = start.toNat - offset := by omega
    split
    · rw [hnat]
      rfl
    · rw [List.getElem?_eq_none (by omega)]
      rfl

/-! ## What has been cut for a window

`given` are the items that a fetch has cut for a window, `offset` is the position of the first. -/

/-- An index finds the one item that was cut out for it. -/
theorem pick?_given (hstart : 0 ≤ start) (hmax : start ≤ maxInt64)
    (hgiven : given = cut items start.toNat (start + 1).toNat) (front : offset ≤ start.toNat)
    (hfirst : given ≠ [] → offset = start.toNat) :
    pick? ⟨start, stop, first⟩ given offset = pick? ⟨start, stop, first⟩ items 0 := by
  have hzero : ((0 : Nat) : Int) ≤ maxInt64 := by decide
  rw [pick?_eq (by omega) hstart, pick?_eq hzero hstart, if_neg (by omega), if_neg (by omega)]
  have hget : given[0]? = items[start.toNat]? := by
    have hone : (start + 1).toNat - start.toNat = 1 := by omega
    rw [hgiven, cut, hone, List.getElem?_take_of_lt (by omega), List.getElem?_drop]
    rfl
  cases hempty : given with
  | nil =>
    rw [hempty] at hget
    rw [List.getElem?_nil, Nat.sub_zero, ← hget]
    rfl
  | cons x rest =>
    have hoffset := hfirst (by simp [hempty])
    rw [hoffset, Nat.sub_self, Nat.sub_zero, ← hget, hempty]

/-- A window is applied once more to what was cut for it. -/
theorem narrow_given (hstart : 0 ≤ start) (hstop : 0 ≤ stop) (hmax : start ≤ maxInt64)
    (hgiven : given = cut items start.toNat stop.toNat) (front : offset ≤ start.toNat)
    (hfirst : given ≠ [] → offset = start.toNat) :
    narrow ⟨start, stop, first⟩ given offset = narrow ⟨start, stop, first⟩ items 0 := by
  have hzero : ((0 : Nat) : Int) ≤ maxInt64 := by decide
  have hlength : given.length ≤ stop.toNat - start.toNat := by
    rw [hgiven]
    exact length_cut_le ..
  rw [narrow_eq (by omega) hstart hstop, narrow_eq hzero hstart hstop, cut_again hlength hfirst,
    Nat.sub_zero, Nat.sub_zero, ← hgiven]
  have hdrop : given.drop (start.toNat - offset) = given := by
    cases hempty : given with
    | nil => exact List.drop_nil
    | cons x rest =>
      rw [hfirst (by simp [hempty]), Nat.sub_self, List.drop_zero]
  rw [hdrop]
  congr 1
  omega

/-- A window within a window, as a specification keeps it. Where a bound would not fit the window
is empty either way. -/
theorem cut_saturate (items : List α) {a b c d : Int} (ha : 0 ≤ a) (hb : b ≤ maxInt64)
    (hc : 0 ≤ c) (hd : 0 ≤ d) (hb' : 0 ≤ b) :
    cut items (FetchSpec.saturate (a + c)).toNat (min (FetchSpec.saturate (d + a)) b).toNat =
      cut (cut items a.toNat b.toNat) c.toNat d.toNat := by
  rw [cut_cut]
  unfold FetchSpec.saturate
  by_cases hfits : a + c ≤ maxInt64
  · congr 1 <;> omega
  · rw [cut_eq_nil (by omega), cut_eq_nil (by omega)]

/-- A window behind which another one is asked for: what was cut for both of them is left as it is.
It is that other window of this one, and this one leaves out in front what the other one does. -/
theorem narrow_within {a b : Int} (first : Bool) (hstart : 0 ≤ start) (hstop : 0 ≤ stop)
    (hmax : start ≤ maxInt64) (hmax' : stop ≤ maxInt64) (ha : FetchSpec.IsBound a)
    (hb : FetchSpec.IsBound b)
    (hgiven : given = cut items (FetchSpec.saturate (start + a)).toNat
      (min (FetchSpec.saturate (b + start)) stop).toNat)
    (front : offset ≤ (FetchSpec.saturate (start + a)).toNat)
    (hfirst : given ≠ [] → offset = (FetchSpec.saturate (start + a)).toNat) :
    narrow ⟨start, stop, first⟩ given offset = (given, offset - start.toNat) ∧
      given = cut (cut items start.toNat stop.toNat) a.toNat b.toNat ∧
      offset - start.toNat ≤ a.toNat ∧ (given ≠ [] → offset - start.toNat = a.toNat) := by
  obtain ⟨ha, ha'⟩ := ha
  obtain ⟨hb, hb'⟩ := hb
  have hsaturate : (FetchSpec.saturate (start + a)).toNat =
      min (start.toNat + a.toNat) maxInt64.toNat := by
    unfold FetchSpec.saturate
    omega
  have hnested := cut_saturate items hstart hmax' ha hb hstop
  rw [← hgiven] at hnested
  have hlength : given.length ≤ stop.toNat - offset := by
    cases hempty : given with
    | nil => exact Nat.zero_le _
    | cons x rest =>
      have hle := length_cut_le items (FetchSpec.saturate (start + a)).toNat
        (min (FetchSpec.saturate (b + start)) stop).toNat
      rw [← hgiven, hempty] at hle
      have hoffset := hfirst (by simp [hempty])
      omega
  have hagain : cut given (start.toNat - offset) (stop.toNat - offset) = given := by
    cases hempty : given with
    | nil => simp [cut]
    | cons x rest =>
      have hoffset := hfirst (by simp [hempty])
      have hbelow : start.toNat - offset = 0 := by omega
      rw [hbelow, cut, List.drop_zero, List.take_of_length_le]
      rw [← hempty]
      omega
  refine ⟨?_, hnested, by omega, fun hne => ?_⟩
  · rw [narrow_eq (by omega) hstart hstop, hagain]
  · have hoffset := hfirst hne
    -- a bound that does not fit leaves nothing, so this one did
    have hfits : start + a ≤ maxInt64 := by
      refine Int.not_lt.mp fun hlarge => hne ?_
      rw [hgiven]
      refine cut_eq_nil ?_
      unfold FetchSpec.saturate
      omega
    omega

end

end Window

namespace Scoped

open Window

variable {items : List Scope} {offset : Nat} {start stop : Int}

theorem subscript_many_slice {w : Subscript} (h : w.first = false) :
    (many items offset).subscript w =
      many (narrow w items offset).1 (narrow w items offset).2 := by
  unfold subscript
  rw [h]
  rfl

theorem subscript_many_index {w : Subscript} (h : w.first = true) :
    (many items offset).subscript w =
      one ((pick? w items offset).getD (Scope.detached .null)) := by
  unfold subscript
  rw [h]
  rfl

/-- The window of an array is reached through the subscript. -/
theorem subscript_one_slice {w : Subscript} (h : w.first = false) {s : Scope} {vs : List Value}
    (hvalue : s.value = .array vs) : (one s).subscript w =
      one (s.narrowed (.array (narrow w vs s.start).1) ⟨w.start, w.stop, false⟩
        (narrow w vs s.start).2) := by
  rw [subscript, h]
  show one (s.slice w.start w.stop) = _
  rw [Scope.slice, hvalue]
  rfl

/-- So is an element; it is null where there is none. -/
theorem subscript_one_index {w : Subscript} (h : w.first = true) {s : Scope} {vs : List Value}
    (hvalue : s.value = .array vs) : (one s).subscript w =
      one (s.narrowed ((pick? w vs s.start).getD .null)
        ⟨w.start, min (w.start + 1) maxInt64, true⟩ 0) := by
  rw [subscript, h]
  show one (s.first w.start) = _
  rw [Scope.first, hvalue]
  rfl

theorem subscript_index (hoffset : (offset : Int) ≤ maxInt64) (hstart : 0 ≤ start) :
    (many items offset).subscript ⟨start, stop, true⟩ =
      one ((if start.toNat < offset then none else items[start.toNat - offset]?).getD
        (Scope.detached .null)) := by
  rw [subscript_many_index rfl, pick?_eq hoffset hstart]

end Scoped
end DocQuery
