import DocQuery.Proofs.Fetch.Window

/-!
# Window arithmetic in 64 bits

Positions are numbers without bounds here; a program computes them with signed numbers of 64 bits.
`Window.Checked` is the same arithmetic in 64 bits: it gives nothing where a sum or a difference
does not fit.

**Every sum and difference fits** as long as the collection and its offset are no longer than the
largest such number (`Checked.bounds_eq`, `Checked.index_eq`), whatever the bounds are. Windows keep
a collection that short (`Scoped.Sized.subscript`), so nothing overflows in a whole nest of them
(`Scoped.Sized.inRange`).
-/

set_option autoImplicit false

namespace DocQuery
namespace Window
namespace Checked

/-- A number of 64 bits. -/
def fit? (n : Int) : Option Int := if fitsInt64 n then some n else none

def clamp (len : Nat) (bound : Int) : Option Nat :=
  if bound < 0 then (fit? (signed len + bound)).map (·.toNat) else some (min bound.toNat len)

def slice (len : Nat) (start stop : Int) : Option (Nat × Nat) := do
  let low ← clamp len start
  let high ← clamp len stop
  return (low, max low high)

def element (len : Nat) (index : Int) : Option (Option Nat) := do
  let index ← if index < 0 then fit? (signed len + index) else some index
  return if 0 ≤ index ∧ index < signed len then some index.toNat else none

def shift (offset : Nat) (bound : Int) : Option Int :=
  if bound < 0 then some bound else (fit? (bound - signed offset)).map (max 0)

def remaining (offset : Nat) (start : Int) : Option Nat :=
  if start < 0 then some 0 else (fit? (signed offset - start)).map (·.toNat)

def bounds (len offset : Nat) (start stop : Int) : Option (Nat × Nat × Nat) := do
  let (low, high) ← slice len (← shift offset start) (← shift offset stop)
  return (low, high, ← remaining offset start)

def index (len offset : Nat) (index : Int) : Option (Option Nat) :=
  if 0 ≤ index ∧ index < signed offset then some none
  else do element len (← if index < 0 then some index else fit? (index - signed offset))

/-! ## Each step fits -/

theorem fit?_eq {n : Int} (h : minInt64 ≤ n) (h' : n ≤ maxInt64) : fit? n = some n := by
  rw [fit?, fitsInt64, if_pos (decide_eq_true ⟨h, h'⟩)]

variable {len offset : Nat} {bound start stop : Int}

theorem clamp_eq (hlen : (len : Int) ≤ maxInt64) (hbound : minInt64 ≤ bound) :
    clamp len bound = some (Window.clamp len bound) := by
  unfold clamp Window.clamp
  rw [signed_eq hlen]
  split
  · rw [fit?_eq (by omega) (by omega), Option.map_some]
  · rfl

theorem slice_eq (hlen : (len : Int) ≤ maxInt64) (hstart : minInt64 ≤ start)
    (hstop : minInt64 ≤ stop) : slice len start stop = some (Window.slice len start stop) := by
  unfold slice
  rw [clamp_eq hlen hstart, clamp_eq hlen hstop]
  rfl

theorem element_eq (hlen : (len : Int) ≤ maxInt64) (hbound : minInt64 ≤ bound) :
    element len bound = some (Window.element? len bound) := by
  unfold element Window.element?
  rw [signed_eq hlen]
  by_cases hneg : bound < 0
  · rw [if_pos hneg, if_pos hneg, fit?_eq (by omega) (by omega)]
    rfl
  · rw [if_neg hneg, if_neg hneg]
    rfl

/-- A difference of numbers that are not negative fits. -/
theorem fit?_sub {m n : Int} (hm : 0 ≤ m) (hm' : m ≤ maxInt64) (hn : 0 ≤ n) (hn' : n ≤ maxInt64) :
    fit? (m - n) = some (m - n) := by
  refine fit?_eq ?_ (by omega)
  unfold minInt64
  unfold maxInt64 at hn'
  omega

theorem shift_eq (hoffset : (offset : Int) ≤ maxInt64) (hbound : bound ≤ maxInt64) :
    shift offset bound = some (Window.shift offset bound) := by
  unfold shift Window.shift
  rw [signed_eq hoffset]
  split
  · rfl
  · rw [fit?_sub (by omega) hbound (by omega) hoffset, Option.map_some]

theorem remaining_eq (hoffset : (offset : Int) ≤ maxInt64) (hstart : start ≤ maxInt64) :
    remaining offset start =
      some (if start < 0 then 0 else (signed offset - start).toNat) := by
  unfold remaining
  rw [signed_eq hoffset]
  split
  · rfl
  · rw [fit?_sub (by omega) hoffset (by omega) hstart, Option.map_some]

theorem le_shift (hbound : minInt64 ≤ bound) : minInt64 ≤ Window.shift offset bound := by
  have hmin : minInt64 ≤ 0 := by decide
  unfold Window.shift
  split <;> omega

/-! ## Windows and indices -/

/-- The positions of a window are computed without overflow. -/
theorem bounds_eq (hlen : (len : Int) ≤ maxInt64) (hoffset : (offset : Int) ≤ maxInt64)
    (hstart : fitsInt64 start = true) (hstop : fitsInt64 stop = true) :
    bounds len offset start stop = some (Window.bounds len offset start stop) := by
  obtain ⟨hmin, hmax⟩ := of_decide_eq_true hstart
  obtain ⟨hmin', hmax'⟩ := of_decide_eq_true hstop
  unfold bounds
  rw [shift_eq hoffset hmax, shift_eq hoffset hmax', remaining_eq hoffset hmax, Option.bind_eq_bind,
    Option.bind_some, Option.bind_eq_bind, Option.bind_some,
    slice_eq hlen (le_shift hmin) (le_shift hmin')]
  rfl

/-- The position of an index is computed without overflow. -/
theorem index_eq (hlen : (len : Int) ≤ maxInt64) (hoffset : (offset : Int) ≤ maxInt64)
    (hbound : fitsInt64 bound = true) :
    index len offset bound = some (Window.index? len offset bound) := by
  obtain ⟨hmin, hmax⟩ := of_decide_eq_true hbound
  have hzero : minInt64 ≤ 0 := by decide
  unfold index Window.index?
  rw [signed_eq hoffset]
  by_cases hbefore : 0 ≤ bound ∧ bound < (offset : Int)
  · rw [if_pos hbefore, if_pos hbefore]
  · rw [if_neg hbefore, if_neg hbefore]
    by_cases hneg : bound < 0
    · rw [if_pos hneg, if_pos hneg]
      exact element_eq hlen hmin
    · rw [if_neg hneg, if_neg hneg, fit?_sub (by omega) hmax (by omega) hoffset]
      exact element_eq hlen (by omega)

end Checked

end Window

/-! ## Subscripts -/

/-- A subscript with bounds of 64 bits, an index with the window of one item. -/
structure Subscript.Fits (w : Subscript) : Prop where
  start : fitsInt64 w.start = true
  stop : fitsInt64 w.stop = true
  index : w.first = true → w.stop = w.start + 1

theorem Subscript.Fits.isPlanned {w : Subscript} (h : w.Fits) : w.IsPlanned :=
  ⟨(of_decide_eq_true h.start).2, (of_decide_eq_true h.stop).2, h.index⟩

/-- Subscripts one behind the other: windows, and at most the last one an index. -/
def Subscript.Nested : List Subscript → Prop
  | [] => True
  | w :: ws => w.Fits ∧ (w.first = true → ws = []) ∧ Nested ws

namespace Scoped

/-- How many items a subscript finds, and the position of the first; none in what is no
collection. -/
def extent? : Scoped → Option (Nat × Nat)
  | many items start => some (items.length, start)
  | one s => s.value.asArray?.map fun items => (items.length, s.start)

/-- What a subscript computes on a result does not overflow. -/
def Computes (r : Scoped) (w : Subscript) : Prop :=
  ∀ len offset, r.extent? = some (len, offset) →
    if w.first then
      Window.Checked.index len offset w.start = some (Window.index? len offset w.start)
    else
      Window.Checked.bounds len offset w.start w.stop =
        some (Window.bounds len offset w.start w.stop)

/-- Nothing overflows while subscripts are applied one after the other. -/
def InRange : List Subscript → Scoped → Prop
  | [], _ => True
  | w :: ws, r => r.Computes w ∧ InRange ws (r.subscript w)

/-- A collection is no longer than the largest number of 64 bits, nor is what it lacks in front. -/
def Sized (r : Scoped) : Prop :=
  ∀ len offset, r.extent? = some (len, offset) →
    (len : Int) ≤ maxInt64 ∧ (offset : Int) ≤ maxInt64

variable {r : Scoped} {w : Subscript}

theorem Sized.computes (h : r.Sized) (hw : w.Fits) : r.Computes w := by
  intro len offset hextent
  obtain ⟨hlen, hoffset⟩ := h len offset hextent
  split
  · exact Window.Checked.index_eq hlen hoffset hw.start
  · exact Window.Checked.bounds_eq hlen hoffset hw.start hw.stop

theorem sized_many {items : List Scope} {offset : Nat} (h : (items.length : Int) ≤ maxInt64)
    (h' : (offset : Int) ≤ maxInt64) : (many items offset).Sized := by
  intro len start hextent
  cases hextent
  exact ⟨h, h'⟩

theorem sized_one {s : Scope} {items : List Value} (hvalue : s.value = .array items)
    (h : (items.length : Int) ≤ maxInt64) (h' : (s.start : Int) ≤ maxInt64) : (one s).Sized := by
  intro len offset hextent
  rw [extent?, hvalue] at hextent
  cases hextent
  exact ⟨h, h'⟩

/-- A window of a collection is no longer than the collection, and lacks no more in front. -/
theorem Sized.subscript (h : r.Sized) (hslice : w.first = false) : (r.subscript w).Sized := by
  cases r with
  | many items offset =>
    obtain ⟨hlen, hoffset⟩ := h _ _ rfl
    have hshorter := Window.length_narrow_le w items offset
    have hremaining := Window.narrow_remaining_le w items hoffset
    rw [subscript_many_slice hslice]
    exact sized_many (by omega) (by omega)
  | one s =>
    cases hvalue : s.value with
    | array items =>
      obtain ⟨hlen, hoffset⟩ := h items.length s.start (by rw [extent?, hvalue]; rfl)
      have hshorter := Window.length_narrow_le w items s.start
      have hremaining := Window.narrow_remaining_le w items hoffset
      rw [subscript_one_slice hslice hvalue]
      refine sized_one rfl (by omega) ?_
      show ((Window.narrow w items s.start).2 : Int) ≤ maxInt64
      omega
    | _ =>
      intro len offset hextent
      rw [Scoped.subscript, hslice] at hextent
      change (one (s.slice w.start w.stop)).extent? = some (len, offset) at hextent
      rw [Scope.slice, hvalue] at hextent
      cases hextent

/-- **No nest of windows overflows.** -/
theorem Sized.inRange {ws : List Subscript} (hws : Subscript.Nested ws) {r : Scoped}
    (h : r.Sized) : InRange ws r := by
  induction ws generalizing r with
  | nil => trivial
  | cons w rest ih =>
    obtain ⟨hw, hlast, hrest⟩ := hws
    refine ⟨h.computes hw, ?_⟩
    cases hfirst : w.first with
    | true =>
      rw [hlast hfirst]
      trivial
    | false => exact ih hrest (h.subscript hfirst)

end Scoped
end DocQuery
