import DocQuery.Proofs.Fetch.Window

/-!
# Windows within windows

What a fetcher may give for the window of a specification in place of all items (`FetchSpec.Cuts`):
all of them; or those in the window, with the position of the first of them.

**A subscript in front of that window makes the same of it as of all items** (`Cuts.pick?`), or
leaves what the windows behind it may be given (`Cuts.narrow`): so what was cut once, for a whole
nest of windows, comes out the same when every window of the nest is applied to it again. A bound
that counts from the end makes the specification ask for everything, and then nothing was cut.
-/

set_option autoImplicit false

namespace DocQuery
namespace FetchSpec

variable {α : Type}

/-- The part of a list that is in the window. -/
def windowed (spec : FetchSpec) (items : List α) : List α :=
  match spec.start, spec.stop with
  | some a, some b => Window.cut items a.toNat b.toNat
  | _, _ => items

/-- How many items the window leaves out in front. -/
def offset (spec : FetchSpec) : Nat := (spec.start.getD 0).toNat

theorem windowed_sublist (spec : FetchSpec) (items : List α) :
    (spec.windowed items).Sublist items := by
  unfold windowed
  split
  · exact Window.cut_sublist ..
  · exact .refl _

theorem map_windowed {β : Type} (spec : FetchSpec) (f : α → β) (items : List α) :
    (spec.windowed items).map f = spec.windowed (items.map f) := by
  unfold windowed
  split
  · exact Window.map_cut ..
  · rfl

variable {spec : FetchSpec} {items given : List α} {offset : Nat}

/-- A window that is not empty starts among the items. -/
theorem offset_le_length (hbounds : spec.HasBounds) (hne : spec.windowed items ≠ []) :
    spec.offset ≤ items.length := by
  rcases hbounds with ⟨hstart, -⟩ | ⟨a, b, hstart, hstop, -, -⟩
  · rw [FetchSpec.offset, hstart]
    exact Nat.zero_le _
  · refine Nat.le_of_not_lt fun hlt => hne ?_
    have hoffset : spec.offset = a.toNat := by
      rw [FetchSpec.offset, hstart]
      rfl
    rw [hoffset] at hlt
    rw [windowed, hstart, hstop]
    show (items.drop a.toNat).take _ = []
    rw [List.drop_eq_nil_of_le (Nat.le_of_lt hlt), List.take_nil]

/-! ## A subscript in front of a specification -/

theorem project_of_hasConstraints (h : spec.hasConstraints = false) : spec.project = spec := by
  rw [project, h]
  rfl

/-- A bound that counts from the end leaves nothing to fetch by. -/
theorem applySubscript_of_negative {w : Subscript} (h : w.start < 0 ∨ w.stop < 0) :
    spec.applySubscript w = .everything := by
  unfold applySubscript applyWindow
  rw [if_pos h]

/-- An index is the window of one item, whatever comes behind it. -/
theorem applySubscript_index {start stop : Int} (hstart : 0 ≤ start) (hstop : 0 ≤ stop) :
    spec.applySubscript ⟨start, stop, true⟩ = ⟨none, some start, some stop, []⟩ := by
  have hneg : ¬(start < 0 ∨ stop < 0) := by omega
  unfold applySubscript applyWindow
  rw [if_neg hneg]
  rfl

/-- A window behind which nothing is cut. -/
theorem applySubscript_slice_of_none {start stop : Int} (hstart : 0 ≤ start) (hstop : 0 ≤ stop)
    (hnone : spec.project.start = none) :
    spec.applySubscript ⟨start, stop, false⟩ =
      { spec.project with start := some start, stop := some stop } := by
  have hneg : ¬(start < 0 ∨ stop < 0) := by omega
  unfold applySubscript applyWindow
  rw [if_neg hneg]
  change (match spec.project.start, spec.project.stop with
    | some a, some b => { spec.project with
        start := some (saturate (start + a))
        stop := some (min (saturate (b + start)) stop) }
    | _, _ => { spec.project with start := some start, stop := some stop }) = _
  rw [hnone]

/-- A window behind which another one is cut, relative to it. -/
theorem applySubscript_slice_of_some {start stop a b : Int} (hstart : 0 ≤ start) (hstop : 0 ≤ stop)
    (ha : spec.project.start = some a) (hb : spec.project.stop = some b) :
    spec.applySubscript ⟨start, stop, false⟩ =
      { spec.project with
        start := some (saturate (start + a))
        stop := some (min (saturate (b + start)) stop) } := by
  have hneg : ¬(start < 0 ∨ stop < 0) := by omega
  unfold applySubscript applyWindow
  rw [if_neg hneg]
  change (match spec.project.start, spec.project.stop with
    | some a, some b => { spec.project with
        start := some (saturate (start + a))
        stop := some (min (saturate (b + start)) stop) }
    | _, _ => { spec.project with start := some start, stop := some stop }) = _
  rw [ha, hb]

/-! ## What is given for a window -/

/-- What may be given for the window of a specification: all items, or those in it with the position
of the first of them. Where there are none the position may be any one up to the window. -/
def Cuts (spec : FetchSpec) (items given : List α) (offset : Nat) : Prop :=
  given = items ∧ offset = 0 ∨
    given = spec.windowed items ∧ offset ≤ spec.offset ∧ (given ≠ [] → offset = spec.offset)

theorem Cuts.eq_of_everything (h : everything.Cuts items given offset) :
    given = items ∧ offset = 0 := by
  rcases h with hall | ⟨hgiven, hoffset, -⟩
  · exact hall
  · exact ⟨hgiven, Nat.le_zero.mp hoffset⟩

/-- Behind an index nothing is left of the difference. -/
theorem Cuts.pick? {w : Subscript} (hw : w.IsPlanned) (hindex : w.first = true)
    (h : (spec.applySubscript w).Cuts items given offset) :
    Window.pick? w given offset = Window.pick? w items 0 := by
  by_cases hneg : w.start < 0 ∨ w.stop < 0
  · rw [applySubscript_of_negative hneg] at h
    obtain ⟨rfl, rfl⟩ := h.eq_of_everything
    rfl
  · rcases h with ⟨rfl, rfl⟩ | ⟨hgiven, front, hfirst⟩
    · rfl
    · obtain ⟨start, stop, first⟩ := w
      obtain rfl : first = true := hindex
      obtain rfl : stop = start + 1 := hw.index rfl
      dsimp only at hneg
      rw [applySubscript_index (by omega) (by omega)] at hgiven front hfirst
      exact Window.pick?_given (by omega) hw.start_le hgiven front hfirst

/-- Behind a window either nothing is left of the difference, or what is given is cut for the
windows that follow. -/
theorem Cuts.narrow {w : Subscript} (hw : w.IsPlanned) (hslice : w.first = false)
    (hbounds : spec.HasBounds) (h : (spec.applySubscript w).Cuts items given offset) :
    spec.project.Cuts (Window.narrow w items 0).1 (Window.narrow w given offset).1
      (Window.narrow w given offset).2 := by
  have hsame : Window.narrow w given offset = Window.narrow w items 0 →
      spec.project.Cuts (Window.narrow w items 0).1 (Window.narrow w given offset).1
        (Window.narrow w given offset).2 := by
    intro heq
    rw [heq]
    exact .inl ⟨rfl, Window.narrow_remaining w items⟩
  by_cases hneg : w.start < 0 ∨ w.stop < 0
  · rw [applySubscript_of_negative hneg] at h
    obtain ⟨rfl, rfl⟩ := h.eq_of_everything
    exact hsame rfl
  · rcases h with ⟨rfl, rfl⟩ | ⟨hgiven, front, hfirst⟩
    · exact hsame rfl
    · obtain ⟨start, stop, first⟩ := w
      obtain rfl : first = false := hslice
      dsimp only at hneg
      have hstart : 0 ≤ start := by omega
      have hstop : 0 ≤ stop := by omega
      have hmax : start ≤ maxInt64 := hw.start_le
      have hmax' : stop ≤ maxInt64 := hw.stop_le
      rcases hbounds.project with ⟨hnone, -⟩ | ⟨a, b, ha, hb, hab, hbb⟩
      · rw [applySubscript_slice_of_none hstart hstop hnone] at hgiven front hfirst
        exact hsame (Window.narrow_given hstart hstop hmax hgiven front hfirst)
      · rw [applySubscript_slice_of_some hstart hstop ha hb] at hgiven front hfirst
        obtain ⟨hnarrow, hnested, hfront, hfirst'⟩ :=
          Window.narrow_within false hstart hstop hmax hmax' hab hbb hgiven front hfirst
        have hoffset : spec.project.offset = a.toNat := by
          rw [FetchSpec.offset, ha]
          rfl
        have hzero : ((0 : Nat) : Int) ≤ maxInt64 := by decide
        rw [hnarrow, Window.narrow_eq hzero hstart hstop]
        refine .inr ⟨?_, ?_, ?_⟩
        · rw [windowed, ha, hb]
          exact hnested
        · rw [hoffset]
          exact hfront
        · rw [hoffset]
          exact hfirst'

end FetchSpec
end DocQuery
