import Pacer.Core.AnnouncementTable
import Pacer.Lib.Run

set_option autoImplicit false

/-! # The atomic steps of the announcement table

Any number of threads call `register`, `announce`, `release` and `min_active_ts` on one table.
The first three are one atomic instruction each; `min_active_ts` loads `active_count` and then
one slot after the other. A `register` call that finds the table full panics in its caller,
which may go on; an index beyond the table ends the call.

`ids` records the slots that `register` has returned to a thread, latest first.
-/

namespace Pacer.Atomic

open Machine

/-- The next atomic instruction of a thread. -/
inductive TablePc where
  | idle
  | panicked
  /-- `min_active_ts`: the loop over the `n` slots, at slot `i` -/
  | scanSlot (n i min : Nat)
  deriving DecidableEq

inductive TableAction (T : Type) where
  | register (t : T)
  | announce (t : T) (tid ts : Nat)
  | release (t : T) (tid : Nat)
  /-- `min_active_ts`: `active_count.load()` -/
  | minActiveTs (t : T)
  /-- Thread `t` performs its next instruction. -/
  | run (t : T)
  deriving DecidableEq

structure TableState (T : Type) where
  tbl : AnnouncementTable
  ids : T → List Nat
  pc : T → TablePc

/-- `active_count.fetch_add(1)`: the counter is a `u32` and wraps. -/
def registerU32 (tbl : AnnouncementTable) : AnnouncementTable × Option Nat :=
  let r := tbl.register
  ({ r.1 with activeCount := r.1.activeCount % 2 ^ 32 }, r.2)

@[simp] theorem registerU32_activeCount (tbl : AnnouncementTable) :
    (registerU32 tbl).1.activeCount = (tbl.activeCount + 1) % 2 ^ 32 := rfl

theorem registerU32_eq_some_iff {tbl : AnnouncementTable} {tid : Nat} :
    (registerU32 tbl).2 = some tid ↔ tbl.activeCount = tid ∧ tid < maxThreads := by
  simp only [registerU32, AnnouncementTable.register]
  split
  · rename_i hlt
    rw [Option.some.injEq]
    exact ⟨fun h => ⟨h, h ▸ hlt⟩, fun h => h.1⟩
  · rename_i hge
    simp only [reduceCtorEq, false_iff, not_and]
    exact fun h hlt => hge (h ▸ hlt)

namespace TableState

variable {T : Type} [DecidableEq T]

def init (T : Type) : TableState T :=
  { tbl := AnnouncementTable.new, ids := fun _ => [], pc := fun _ => .idle }

/-- The state after a store to a slot. -/
def stored (s : TableState T) (t : T) : Option AnnouncementTable → TableState T
  | some tbl => { s with tbl := tbl }
  | none => { s with pc := Function.update s.pc t .panicked }

/-- One round of the loop of `min_active_ts`. -/
def scanStep (s : TableState T) (n i min : Nat) : TablePc :=
  if i < n then
    match s.tbl.load i with
    | none => .panicked
    | some ts => .scanSlot n (i + 1) (AnnouncementTable.scanMin min ts)
  else .idle

def step (s : TableState T) : TableAction T → Option (TableState T)
  | .register t =>
      if s.pc t = .idle then
        let r := registerU32 s.tbl
        some { s with tbl := r.1, ids := Function.update s.ids t (r.2.toList ++ s.ids t) }
      else none
  | .announce t tid ts =>
      -- a thread announces in its own slot, and a timestamp is a `u64`
      if s.pc t = .idle ∧ tid ∈ s.ids t ∧ ts ≤ u64Max then
        some (s.stored t (s.tbl.announce tid ts))
      else none
  | .release t tid =>
      if s.pc t = .idle ∧ tid ∈ s.ids t then some (s.stored t (s.tbl.release tid)) else none
  | .minActiveTs t =>
      if s.pc t = .idle then
        some { s with pc := Function.update s.pc t (.scanSlot s.tbl.activeCount 0 u64Max) }
      else none
  | .run t =>
      match s.pc t with
      | .scanSlot n i min => some { s with pc := Function.update s.pc t (s.scanStep n i min) }
      | .idle | .panicked => none

/-- **What a step can do**: a thread registers, stores to one of its slots, begins a scan, or
goes on with it. -/
theorem step_cases {s s' : TableState T} {a : TableAction T} (h : step s a = some s') :
    (∃ t, a = .register t ∧ s.pc t = .idle
        ∧ s' = { s with
            tbl := (registerU32 s.tbl).1
            ids := Function.update s.ids t ((registerU32 s.tbl).2.toList ++ s.ids t) })
      ∨ (∃ t tid ts, (a = .announce t tid ts ∨ a = .release t tid) ∧ s.pc t = .idle
        ∧ tid ∈ s.ids t ∧ ts ≤ u64Max ∧ s' = s.stored t (s.tbl.store tid ts))
      ∨ (∃ t, a = .minActiveTs t ∧ s.pc t = .idle
        ∧ s' = { s with
            pc := Function.update s.pc t (.scanSlot s.tbl.activeCount 0 u64Max) })
      ∨ (∃ t n i min, a = .run t ∧ s.pc t = .scanSlot n i min
        ∧ s' = { s with pc := Function.update s.pc t (s.scanStep n i min) }) := by
  cases a with
  | register t =>
      obtain ⟨hp, h⟩ := Option.ite_none_right_eq_some.mp h
      exact Or.inl ⟨t, rfl, hp, (Option.some.inj h).symm⟩
  | announce t tid ts =>
      obtain ⟨⟨hp, hid, hts⟩, h⟩ := Option.ite_none_right_eq_some.mp h
      exact Or.inr (Or.inl ⟨t, tid, ts, Or.inl rfl, hp, hid, hts, (Option.some.inj h).symm⟩)
  | release t tid =>
      obtain ⟨⟨hp, hid⟩, h⟩ := Option.ite_none_right_eq_some.mp h
      exact Or.inr (Or.inl ⟨t, tid, 0, Or.inr rfl, hp, hid, Nat.zero_le _,
        (Option.some.inj h).symm⟩)
  | minActiveTs t =>
      obtain ⟨hp, h⟩ := Option.ite_none_right_eq_some.mp h
      exact Or.inr (Or.inr (Or.inl ⟨t, rfl, hp, (Option.some.inj h).symm⟩))
  | run t =>
      simp only [step] at h
      cases hp : s.pc t with
      | idle | panicked => rw [hp] at h; cases h
      | scanSlot n i min =>
          rw [hp] at h
          exact Or.inr (Or.inr (Or.inr ⟨t, n, i, min, rfl, hp, (Option.some.inj h).symm⟩))

/-! ## What the calls do -/

/-- The transition in which a `register` call of `t` returns `tid`. -/
def Registers (x : Trans (TableState T) (TableAction T)) (t : T) (tid : Nat) : Prop :=
  x.act = .register t ∧ (registerU32 x.pre.tbl).2 = some tid

/-- The transition is a `register` call, whether it returns or panics. -/
def isRegister (x : Trans (TableState T) (TableAction T)) : Bool :=
  match x.act with
  | .register _ => true
  | _ => false

/-- The transition stores to a slot. -/
def Stores (x : Trans (TableState T) (TableAction T)) : Prop :=
  ∃ t tid, x.act = .release t tid ∨ ∃ ts, x.act = .announce t tid ts

/-- The transition in which a `min_active_ts` call of `t` loads `active_count`. -/
def StartsScan (x : Trans (TableState T) (TableAction T)) (t : T) : Prop :=
  x.act = .minActiveTs t

/-- The transition in which a `min_active_ts` call of `t` returns `m`. -/
def Returns (x : Trans (TableState T) (TableAction T)) (t : T) (m : Nat) : Prop :=
  x.act = .run t ∧ ∃ n i, x.pre.pc t = .scanSlot n i m ∧ ¬ i < n

/-- The transition is an instruction of `t` inside `min_active_ts`. -/
def isRun (t : T) (x : Trans (TableState T) (TableAction T)) : Bool :=
  decide (x.act = .run t)

/-! ## Registrations -/

/-- What is known of a state reached by `k` calls of `register`, failed ones included. -/
structure IdsInv (k : Nat) (s : TableState T) : Prop where
  count : s.tbl.activeCount = k % 2 ^ 32
  ids_lt : ∀ t, ∀ j ∈ s.ids t, j < maxThreads ∧ j < k
  /-- the first calls of all have been given the slots in order -/
  mem_ids : ∀ j < k, j < maxThreads → ∃ t, j ∈ s.ids t
  slot_le : ∀ j, s.tbl.slots j ≤ u64Max
  slot_ids : ∀ j, s.tbl.slots j ≠ 0 → ∃ t, j ∈ s.ids t

omit [DecidableEq T] in
theorem idsInv_init : IdsInv 0 (init T) where
  count := rfl
  ids_lt := fun t j hj => by simp [init] at hj
  mem_ids := fun j hj => by omega
  slot_le := fun j => Nat.zero_le _
  slot_ids := fun j hj => absurd rfl hj

/-- A store to a slot of the table does not panic. -/
theorem stored_store (s : TableState T) (t : T) {tid : Nat} (h : tid < maxThreads) (ts : Nat) :
    s.stored t (s.tbl.store tid ts)
      = { s with tbl := { s.tbl with slots := Function.update s.tbl.slots tid ts } } := by
  simp only [AnnouncementTable.store, if_pos h, stored]

/-- A `register` call keeps the invariant: it returns the number of the calls before it, or the
table is full. -/
theorem idsInv_register {k : Nat} {s : TableState T} (h : IdsInv k s) (t : T) :
    IdsInv (k + 1) { s with
      tbl := (registerU32 s.tbl).1
      ids := Function.update s.ids t ((registerU32 s.tbl).2.toList ++ s.ids t) } := by
  have hids : ∀ u j, j ∈ Function.update s.ids t ((registerU32 s.tbl).2.toList ++ s.ids t) u
      ↔ (u = t ∧ k % 2 ^ 32 = j ∧ j < maxThreads) ∨ j ∈ s.ids u := by
    intro u j
    by_cases hu : u = t
    · subst hu
      rw [Function.update_self, List.mem_append, Option.mem_toList, registerU32_eq_some_iff,
        h.count]
      simp
    · simp [hu]
  refine ⟨?_, ?_, ?_, h.slot_le, fun j hj => ?_⟩
  · rw [registerU32_activeCount, h.count]
    omega
  · intro u j hj
    rcases (hids u j).mp hj with ⟨-, hk, hlt⟩ | hj
    · have := Nat.mod_le k (2 ^ 32)
      exact ⟨hlt, by omega⟩
    · exact ⟨(h.ids_lt u j hj).1, Nat.lt_succ_of_lt (h.ids_lt u j hj).2⟩
  · intro j hj hlt
    by_cases hk : j = k
    · -- the counter is still small, so this call returns `j`
      refine ⟨t, (hids t j).mpr (Or.inl ⟨rfl, ?_, hlt⟩)⟩
      simp only [maxThreads] at hlt
      omega
    · obtain ⟨u, hu⟩ := h.mem_ids j (by omega) hlt
      exact ⟨u, (hids u j).mpr (Or.inr hu)⟩
  · obtain ⟨u, hu⟩ := h.slot_ids j hj
    exact ⟨u, (hids u j).mpr (Or.inr hu)⟩

/-- **The step lemma.** -/
theorem idsInv_step {k : Nat} {s s' : TableState T} {a : TableAction T} (h : IdsInv k s)
    (hs : step s a = some s') : IdsInv (k + if isRegister ⟨s, a, s'⟩ then 1 else 0) s' := by
  rcases step_cases hs with ⟨t, rfl, -, rfl⟩ | ⟨t, tid, ts, ha, -, hid, hts, rfl⟩
    | ⟨t, rfl, -, rfl⟩ | ⟨t, n, i, min, rfl, -, rfl⟩
  · exact idsInv_register h t
  · rw [stored_store s t (h.ids_lt t tid hid).1]
    have hk : ∀ s'', isRegister (⟨s, a, s''⟩ : Trans (TableState T) (TableAction T)) = false :=
      fun s'' => by rcases ha with rfl | rfl <;> rfl
    simp only [hk, Bool.false_eq_true, if_false, Nat.add_zero]
    refine ⟨h.count, h.ids_lt, h.mem_ids, fun j => ?_, fun j hj => ?_⟩
    · by_cases hj : j = tid
      · rw [hj]; simpa using hts
      · simpa [hj] using h.slot_le j
    · by_cases hjt : j = tid
      · exact ⟨t, hjt ▸ hid⟩
      · exact h.slot_ids j (by simpa [hjt] using hj)
  · exact ⟨h.count, h.ids_lt, h.mem_ids, h.slot_le, h.slot_ids⟩
  · exact ⟨h.count, h.ids_lt, h.mem_ids, h.slot_le, h.slot_ids⟩

/-- **The run lemma.** -/
theorem exists_idsInv {k : Nat} {s₀ s : TableState T}
    {tr : List (Trans (TableState T) (TableAction T))} (h : Run step s₀ tr s)
    (h₀ : IdsInv k s₀) : ∃ k', IdsInv k' s := by
  refine h.invariant (I := fun r => ∃ k, IdsInv k r) ⟨k, h₀⟩ ?_
  intro r a r' hI hs
  obtain ⟨k', hk'⟩ := hI
  exact ⟨_, idsInv_step hk' hs⟩

omit [DecidableEq T] in
/-- Until the counter wraps, every slot that `register` has returned is below it. -/
theorem IdsInv.lt_activeCount {k : Nat} {s : TableState T} (h : IdsInv k s) (hk : k < 2 ^ 32)
    {t : T} {j : Nat} (hj : j ∈ s.ids t) : j < s.tbl.activeCount := by
  rw [h.count, Nat.mod_eq_of_lt hk]
  exact (h.ids_lt t j hj).2

theorem idsInv_of_run {s : TableState T} {tr : List (Trans (TableState T) (TableAction T))}
    (h : Run step (init T) tr s) : IdsInv (tr.countP isRegister) s := by
  induction h with
  | nil => exact idsInv_init
  | snoc _ hs ih =>
      rw [List.countP_append, List.countP_singleton]
      exact idsInv_step ih hs

end TableState

end Pacer.Atomic
