import Pacer.Core.F64
import Mathlib.Logic.Function.Basic

set_option autoImplicit false

/-! # The announcement table

One slot per thread for the timestamp of the snapshot it holds, `0` when it holds none. The
table has `maxThreads` slots; indexing beyond them panics, which is `none` here.
-/

namespace Pacer

def maxThreads : Nat := 256

structure AnnouncementTable where
  slots : Nat → Nat
  activeCount : Nat

namespace AnnouncementTable

def new : AnnouncementTable := ⟨fun _ => 0, 0⟩

/-- `self.slots[i].active_ts.load()` -/
def load (tbl : AnnouncementTable) (i : Nat) : Option Nat :=
  if i < maxThreads then some (tbl.slots i) else none

/-- `self.slots[i].active_ts.store(ts)` -/
def store (tbl : AnnouncementTable) (i ts : Nat) : Option AnnouncementTable :=
  if i < maxThreads then some { tbl with slots := Function.update tbl.slots i ts } else none

/-- The counter is incremented before the bound is checked, so a failed registration leaves
it incremented. -/
def register (tbl : AnnouncementTable) : AnnouncementTable × Option Nat :=
  let tid := tbl.activeCount
  ({ tbl with activeCount := tbl.activeCount + 1 }, if tid < maxThreads then some tid else none)

def announce (tbl : AnnouncementTable) (tid ts : Nat) : Option AnnouncementTable :=
  tbl.store tid ts

def release (tbl : AnnouncementTable) (tid : Nat) : Option AnnouncementTable :=
  tbl.store tid 0

/-- One round of the scan: the minimum after slot value `ts`. -/
def scanMin (min ts : Nat) : Nat := if ts ≠ 0 ∧ ts < min then ts else min

def minActiveTs (tbl : AnnouncementTable) : Option Nat :=
  (List.range tbl.activeCount).foldlM
    (fun min i => (tbl.load i).map (scanMin min)) u64Max

theorem scanMin_le_left (min ts : Nat) : scanMin min ts ≤ min := by
  unfold scanMin; split <;> omega

theorem scanMin_le_right (min : Nat) {ts : Nat} (h : ts ≠ 0) : scanMin min ts ≤ ts := by
  unfold scanMin; split <;> omega

theorem scanMin_zero (min : Nat) : scanMin min 0 = min := by simp [scanMin]

/-- The scan over registered slots does not panic. -/
theorem minActiveTs_eq_foldl (tbl : AnnouncementTable) (h : tbl.activeCount ≤ maxThreads) :
    tbl.minActiveTs
      = some ((List.range tbl.activeCount).foldl (fun m i => scanMin m (tbl.slots i)) u64Max) := by
  have key : ∀ (l : List Nat) (m : Nat), (∀ i ∈ l, i < maxThreads) →
      l.foldlM (fun min i => (tbl.load i).map (scanMin min)) m
        = some (l.foldl (fun m i => scanMin m (tbl.slots i)) m) := by
    intro l
    induction l with
    | nil => intro m _; rfl
    | cons i l ih =>
        intro m hl
        have hi : tbl.load i = some (tbl.slots i) := by
          simp [load, hl i (List.mem_cons_self)]
        simp only [List.foldlM_cons, hi, Option.map_some, Option.bind_eq_bind, Option.bind_some,
          List.foldl_cons]
        exact ih _ (fun j hj => hl j (List.mem_cons_of_mem _ hj))
  exact key _ _ (fun i hi => lt_of_lt_of_le (List.mem_range.mp hi) h)

/-- A scan that does not panic stays inside the table. -/
theorem count_le_of_minActiveTs {tbl : AnnouncementTable} {m : Nat}
    (hm : tbl.minActiveTs = some m) : tbl.activeCount ≤ maxThreads := by
  by_contra hgt
  have key : ∀ (l : List Nat) (m : Nat), maxThreads ∈ l →
      l.foldlM (fun min i => (tbl.load i).map (scanMin min)) m = none := by
    intro l
    induction l with
    | nil => intro m h; cases h
    | cons i l ih =>
        intro m h
        rw [List.foldlM_cons]
        cases hl : tbl.load i with
        | none => rfl
        | some v =>
            have hi : maxThreads ≠ i := by
              rintro rfl
              simp [load] at hl
            exact ih _ (by simpa [hi] using h)
  rw [minActiveTs, key _ _ (List.mem_range.mpr (by omega))] at hm
  cases hm

theorem foldl_scanMin_le (slots : Nat → Nat) (l : List Nat) (m : Nat) :
    l.foldl (fun m i => scanMin m (slots i)) m ≤ m := by
  induction l generalizing m with
  | nil => exact le_rfl
  | cons i l ih => exact le_trans (ih _) (scanMin_le_left _ _)

theorem foldl_scanMin_le_slot (slots : Nat → Nat) {l : List Nat} {i : Nat} (hi : i ∈ l)
    (h : slots i ≠ 0) (m : Nat) :
    l.foldl (fun m i => scanMin m (slots i)) m ≤ slots i := by
  induction l generalizing m with
  | nil => cases hi
  | cons j l ih =>
      rcases List.mem_cons.mp hi with rfl | hl
      · rw [List.foldl_cons]
        exact le_trans (foldl_scanMin_le _ _ _) (scanMin_le_right _ h)
      · exact ih hl _

/-- **The scan is a lower bound** of the nonzero slots. -/
theorem minActiveTs_le {tbl : AnnouncementTable} {m i : Nat} (hm : tbl.minActiveTs = some m)
    (hi : i < tbl.activeCount) (h : tbl.slots i ≠ 0) : m ≤ tbl.slots i := by
  rw [minActiveTs_eq_foldl tbl (count_le_of_minActiveTs hm), Option.some.injEq] at hm
  exact hm ▸ foldl_scanMin_le_slot _ (List.mem_range.mpr hi) h _

/-- Nothing is announced: the scan returns `u64::MAX`. -/
theorem minActiveTs_of_idle {tbl : AnnouncementTable} {m : Nat} (hm : tbl.minActiveTs = some m)
    (h : ∀ i < tbl.activeCount, tbl.slots i = 0) : m = u64Max := by
  rw [minActiveTs_eq_foldl tbl (count_le_of_minActiveTs hm), Option.some.injEq] at hm
  have key : ∀ (l : List Nat) (m : Nat), (∀ i ∈ l, tbl.slots i = 0) →
      l.foldl (fun m i => scanMin m (tbl.slots i)) m = m := by
    intro l
    induction l with
    | nil => intro m _; rfl
    | cons i l ih =>
        intro m hl
        rw [List.foldl_cons, hl i (List.mem_cons_self), scanMin_zero]
        exact ih _ (fun j hj => hl j (List.mem_cons_of_mem _ hj))
  rw [← hm]
  exact key _ _ (fun i hi => h i (List.mem_range.mp hi))

end AnnouncementTable

end Pacer
