import Pacer.Reclaimer.GracePeriod
import Mathlib.Tactic.MkIffOfInductiveProp

set_option autoImplicit false

/-! # Which record types are drained

The record manager calls `startOp` on the reclaimer of the first record type only. The rotation
in it goes through the reclaimers of all types, the hand-over to the pool concerns the bags of
the first. Outside ConservativeHold a `startOp` takes one node from the `deamortizedFreeables` of
that type when it has one, and none from those of the others (`takes_iff_first`,
`gone_iff_first`). All types are drained only when there is one (`types_drained_iff`): a node of
another type comes into its `deamortizedFreeables` in some run, with any number of types
(`exists_left_behind`).
-/

namespace Pacer.Reclaimer

open Machine

section

variable {F P : Type} [F64 F] [DecidableEq P] {N : Nat} {m : Nat}

/-- `deamortizedFreeables` of thread `i` in the reclaimer of record type `j`. -/
def State.freeables (s : State F P N) (i : Fin N) (j : Nat) : Multiset (Node P N) :=
  (s.bags i j).deamortizedFreeables

/-- The transition in which a `startOp` of thread `i` selects its mode. -/
def Selects (x : Trans (State F P N) (Action P N)) (i : Fin N) : Prop :=
  x.act = .run i ∧ x.pre.pc i = .select

/-- The transition in which a `startOp` of thread `i` returns. -/
def endsStartOp (i : Fin N) (x : Trans (State F P N) (Action P N)) : Bool :=
  match x.act, x.pre.pc i with
  | .run u, .drain _ => decide (u = i)
  | _, _ => false

/-- The transition in which thread `i` rotates the bags of a record type. -/
def Rotates (x : Trans (State F P N) (Action P N)) (i : Fin N) : Prop :=
  ∃ moved, x.act = .rotate i moved

/-- The action rotates bags of thread `i`. -/
def Action.rotatesBags (a : Action P N) (i : Fin N) : Bool :=
  match a with
  | .rotate u _ => decide (u = i)
  | _ => false

omit [F64 F] [DecidableEq P] in
theorem rotates_iff (x : Trans (State F P N) (Action P N)) (i : Fin N) :
    Rotates x i ↔ x.act.rotatesBags i = true := by
  unfold Rotates Action.rotatesBags
  cases x.act <;> simp

/-- The transition in which `e` goes from the `deamortizedFreeables` of record type `j` to the
pool. -/
def HandsOver (x : Trans (State F P N) (Action P N)) (i : Fin N) (j : Nat) (e : Node P N) : Prop :=
  x.act = .poolAdd i e ∧ e ∈ x.pre.freeables i j
    ∧ x.post.freeables i j = (x.pre.freeables i j).erase e

/-- The `startOp` of thread `i` that selects its mode here, if any, is not held back. -/
def Drains (i : Fin N) (x : Trans (State F P N) (Action P N)) : Prop :=
  Selects x i → (x.post.threadData i).gcMode ≠ .conservativeHold

instance (x : Trans (State F P N) (Action P N)) (i : Fin N) : Decidable (Selects x i) :=
  inferInstanceAs (Decidable (_ ∧ _))

instance (x : Trans (State F P N) (Action P N)) (i : Fin N) : Decidable (Rotates x i) :=
  decidable_of_iff _ (rotates_iff x i).symm

instance (x : Trans (State F P N) (Action P N)) (i : Fin N) : Decidable (Drains i x) :=
  inferInstanceAs (Decidable (_ → _))

theorem ThreadData.select_snd {td : ThreadData F}
    (h : td.select.1.gcMode ≠ .conservativeHold) : td.select.2 = 1 := by
  unfold ThreadData.select at h ⊢
  dsimp only at h ⊢
  cases hm : pacerSelectModeHyst td.spiEma td.gcMode with
  | conservativeHold =>
      rw [hm] at h
      dsimp only at h
      split at h <;> exact absurd rfl h
  | aggressiveEbr | amortisedFree => rfl

/-! ## One step -/

/-- What a step does to the freeables of thread `i` and to its `startOp`, one constructor for each
outcome. -/
inductive DrainStep (x : Trans (State F P N) (Action P N)) (i : Fin N) : Prop where
  /-- a step of another thread, or of `i` outside the hand-over -/
  | frame (hend : endsStartOp i x = false)
      (hfree : ∀ j, x.post.freeables i j = x.pre.freeables i j)
      (hpc : x.post.pc i = x.pre.pc i
        ∨ (∀ k, x.pre.pc i ≠ .drain k) ∧ ∀ k, x.post.pc i ≠ .drain k)
  | select (hsel : Selects x i) (hend : endsStartOp i x = false)
      (hfree : ∀ j, x.post.freeables i j = x.pre.freeables i j)
      (hpc : (x.post.threadData i).gcMode ≠ .conservativeHold → x.post.pc i = .drain 1)
  | rotate (h : Rotates x i) (hend : endsStartOp i x = false)
      (hpc : (∀ k, x.pre.pc i ≠ .drain k) ∧ ∀ k, x.post.pc i ≠ .drain k)
  | handOver (k : Nat) (e : Node P N) (hand : HandsOver x i 0 e) (hend : endsStartOp i x = false)
      (hpre : x.pre.pc i = .drain (k + 1)) (hpost : x.post.pc i = .drain k)
      (hfree : ∀ j, j ≠ 0 → x.post.freeables i j = x.pre.freeables i j)
  | ends (k : Nat) (hend : endsStartOp i x = true) (hpre : x.pre.pc i = .drain k)
      (hpost : x.post.pc i = .body) (hdone : k = 0 ∨ x.pre.freeables i 0 = 0)
      (hfree : ∀ j, x.post.freeables i j = x.pre.freeables i j)

theorem rotateFrom_ne_drain (m j k : Nat) : rotateFrom m j ≠ .drain k := by
  unfold rotateFrom
  split <;> simp

/-- The hand-over ends when it has used up its bound or the bag is empty. -/
theorem drain_done {s s' : State F P N} {i : Fin N} {k : Nat}
    (h : step m s (.run i) = some s') (hpc : s.pc i = .drain k) :
    k = 0 ∨ s.freeables i 0 = 0 := by
  simp only [step, hpc, runStep] at h
  split at h
  · assumption
  · cases h

/-- **Inversion of a step for one thread.** -/
theorem drainStep_of_step {x : Trans (State F P N) (Action P N)}
    (h : step m x.pre x.act = some x.post) (i : Fin N) : DrainStep x i := by
  obtain ⟨s, a, s'⟩ := x
  have hs : Stepped m s a s' := step_cases h
  by_cases hi : i = a.thread
  · cases hs with
    | receive u readOnly hpc ht =>
        obtain rfl : i = u := hi
        refine .frame rfl (fun _ => rfl) (Or.inr ⟨by simp [hpc], fun k => ?_⟩)
        simp [State.begin, State.advance]
    | start u readOnly hpc ht =>
        obtain rfl : i = u := hi
        refine .frame rfl (fun _ => rfl) (Or.inr ⟨by simp [hpc], fun k => ?_⟩)
        simp [State.begin, State.advance]
    | clear u hpc =>
        obtain rfl : i = u := hi
        refine .frame (by simp [endsStartOp, hpc]) (fun _ => rfl)
          (Or.inr ⟨by simp [hpc], fun k => ?_⟩)
        simp [State.advance]
    | pass u hpc =>
        obtain rfl : i = u := hi
        refine .frame (by simp [endsStartOp, hpc]) (fun _ => rfl)
          (Or.inr ⟨by simp [hpc], fun k => ?_⟩)
        simpa using rotateFrom_ne_drain m 0 k
    | rotate u j moved hpc hm =>
        obtain rfl : i = u := hi
        refine .rotate ⟨moved, rfl⟩ (by simp [endsStartOp]) ⟨by simp [hpc], fun k => ?_⟩
        simpa using rotateFrom_ne_drain m (j + 1) k
    | select u hpc =>
        obtain rfl : i = u := hi
        refine .select ⟨rfl, hpc⟩ (by simp [endsStartOp, hpc]) (fun _ => rfl) (fun hmode => ?_)
        simp only [State.advance, Function.update_self] at hmode ⊢
        rw [ThreadData.select_snd hmode]
    | poolAdd u k e hpc he =>
        obtain rfl : i = u := hi
        refine .handOver k e ⟨rfl, he, ?_⟩ (by simp [endsStartOp]) hpc
          (Function.update_self ..) (fun j hj => ?_)
        · simp [State.freeables, setBags_self, Bags.remove]
        · simp only [State.freeables, setBags_of_ne s _ (fun _ => hj)]
    | enter u k hpc =>
        obtain rfl : i = u := hi
        exact .ends k (by simp [endsStartOp, hpc]) hpc (Function.update_self ..)
          (drain_done h hpc) (fun _ => rfl)
    | retire u j ptr hpc =>
        refine .frame rfl (fun k => ?_) (Or.inl rfl)
        simp only [State.freeables]
        by_cases hjk : i = u ∧ k = j
        · obtain ⟨rfl, rfl⟩ := hjk
          rw [setBags_self]
          rfl
        · rw [setBags_of_ne s _ (fun hu hk => hjk ⟨hu, hk⟩)]
    | endOp u hpc =>
        obtain rfl : i = u := hi
        exact .frame rfl (fun _ => rfl) (Or.inr ⟨by simp [hpc], by simp⟩)
  · obtain ⟨hbags, hpc, -⟩ := step_other hs hi
    refine .frame ?_ (fun j => by simp only [State.freeables, hbags j]) (Or.inl hpc)
    unfold endsStartOp
    split
    · rename_i u k ha _
      obtain rfl : a = .run u := ha
      exact decide_eq_false (fun h => hi h.symm)
    · rfl

/-! ## One startOp -/

/-- Only nodes of the first record type go to the pool. -/
theorem handsOver_first {x : Trans (State F P N) (Action P N)} {i : Fin N} {j : Nat}
    {e : Node P N} (hs : step m x.pre x.act = some x.post) (h : HandsOver x i j e) : j = 0 := by
  obtain ⟨s, a, s'⟩ := x
  obtain ⟨rfl, he, hfree⟩ := h
  by_contra hj
  have hsame : s'.freeables i j = s.freeables i j := by
    have hstep : Stepped m s (.poolAdd i e) s' := step_cases hs
    cases hstep with
    | poolAdd _ k _ hpc _ => simp only [State.freeables, setBags_of_ne s _ (fun _ => hj)]
  have hlt := Multiset.card_erase_lt_of_mem he
  rw [← hfree] at hlt
  exact absurd (congrArg Multiset.card hsame) (ne_of_lt hlt)

/-- In the hand-over of a `startOp` that may take one node: it has taken none yet, or one. -/
theorem draining_run {s₁ s₂ : State F P N} {tr : List (Trans (State F P N) (Action P N))}
    (h : Run (step m) s₁ tr s₂) {i : Fin N} (h₁ : s₁.pc i = .drain 1)
    (hno : ∀ z ∈ tr, endsStartOp i z = false) :
    (s₂.pc i = .drain 1 ∧ s₂.freeables i 0 = s₁.freeables i 0)
      ∨ (s₂.pc i = .drain 0 ∧ ∃ z ∈ tr, ∃ e, HandsOver z i 0 e) := by
  induction h with
  | nil => exact Or.inl ⟨h₁, rfl⟩
  | snoc hr hs ih =>
      rename_i s s' a tr
      have hlast : endsStartOp i ⟨s, a, s'⟩ = false := hno _ (by simp)
      have hold := ih (fun z hz => hno z (List.mem_append_left _ hz))
      -- the thread is in the hand-over, so its step is one of the hand-over
      obtain ⟨k, hk⟩ : ∃ k, s.pc i = .drain k := by
        rcases hold with ⟨hp, -⟩ | ⟨hp, -⟩
        · exact ⟨1, hp⟩
        · exact ⟨0, hp⟩
      have hstep : DrainStep ⟨s, a, s'⟩ i := drainStep_of_step hs i
      cases hstep with
      | frame hend hfree hpc =>
          rcases hpc with hpc | ⟨hpc, -⟩
          · rcases hold with ⟨hp, hf⟩ | ⟨hp, z, hz, hand⟩
            · exact Or.inl ⟨hpc.trans hp, (hfree 0).trans hf⟩
            · exact Or.inr ⟨hpc.trans hp, z, List.mem_append_left _ hz, hand⟩
          · exact absurd hk (hpc k)
      | select hsel => exact absurd (hsel.2.symm.trans hk) (by simp)
      | rotate _ _ hpc => exact absurd hk (hpc.1 k)
      | handOver k' e hand hend hpre hpost =>
          rcases hold with ⟨hp, -⟩ | ⟨hp, -⟩
          · obtain rfl : k' = 0 := by simpa using hpre.symm.trans hp
            exact Or.inr ⟨hpost, _, by simp, e, hand⟩
          · exact absurd (hpre.symm.trans hp) (by simp)
      | ends k' hend => exact absurd (hend.symm.trans hlast) (by simp)

/-- The hand-over that follows the selection of a mode other than ConservativeHold. -/
theorem select_post {x : Trans (State F P N) (Action P N)} {i : Fin N}
    (hs : step m x.pre x.act = some x.post) (hsel : Selects x i)
    (hmode : (x.post.threadData i).gcMode ≠ .conservativeHold) :
    x.post.pc i = .drain 1 ∧ x.post.freeables i 0 = x.pre.freeables i 0 := by
  obtain ⟨s, a, s'⟩ := x
  obtain ⟨rfl, hpc⟩ := hsel
  have hstep : Stepped m s (.run i) s' := step_cases hs
  cases hstep with
  | select _ _ =>
      simp only [State.advance, Function.update_self] at hmode ⊢
      rw [ThreadData.select_snd hmode]
      exact ⟨rfl, rfl⟩
  | clear _ hpc' | pass _ hpc' | enter _ _ hpc' => exact absurd (hpc.symm.trans hpc') (by simp)

/-- **One startOp**: between the selection of a mode other than ConservativeHold and the return,
a nonempty bag of the first record type loses a node to the pool. -/
theorem exists_handsOver {x y : Trans (State F P N) (Action P N)}
    {tr : List (Trans (State F P N) (Action P N))} {i : Fin N}
    (hx : step m x.pre x.act = some x.post) (h : Run (step m) x.post tr y.pre)
    (hy : step m y.pre y.act = some y.post) (hsel : Selects x i)
    (hmode : (x.post.threadData i).gcMode ≠ .conservativeHold)
    (hno : ∀ z ∈ tr, endsStartOp i z = false) (hend : endsStartOp i y = true)
    (hne : x.pre.freeables i 0 ≠ 0) : ∃ z ∈ tr, ∃ e, HandsOver z i 0 e := by
  have hpost := select_post hx hsel hmode
  rcases draining_run h hpost.1 hno with ⟨hp, hf⟩ | ⟨-, hand⟩
  · -- the bag is not empty and the bound is not used up, so the call cannot return
    exfalso
    cases drainStep_of_step hy i with
    | ends k _ hpre _ hdone =>
        obtain rfl : k = 1 := by simpa using hpre.symm.trans hp
        rcases hdone with h0 | hempty
        · cases h0
        · exact hne (hpost.2.symm.trans (hf.symm.trans hempty))
    | frame hend' | select _ hend' | rotate _ hend' | handOver _ _ _ hend' =>
        exact absurd (hend'.symm.trans hend) (by simp)
  · exact hand

/-! ## A run of startOps without a rotation -/

/-- The freeables of the first record type, with the node that the current `startOp` has already
taken. -/
def State.owed (s : State F P N) (i : Fin N) : Nat :=
  (s.freeables i 0).card + if s.pc i = .drain 0 then 1 else 0

/-- The bound of the hand-over is at most one. -/
def Single (s : State F P N) (i : Fin N) : Prop := ∀ k, s.pc i = .drain k → k ≤ 1

/-- **The step lemma**: without rotations and outside ConservativeHold, what is owed falls by
one with each `startOp` that returns, as long as there is something. -/
theorem owed_step {x : Trans (State F P N) (Action P N)} {i : Fin N}
    (hs : step m x.pre x.act = some x.post) (h : Single x.pre i) (hrot : ¬ Rotates x i)
    (hdrains : Drains i x) :
    Single x.post i
      ∧ x.post.owed i = x.pre.owed i - if endsStartOp i x = true then 1 else 0 := by
  cases drainStep_of_step hs i with
  | frame hend hfree hpc =>
      rw [hend]
      rcases hpc with hpc | ⟨hpre, hpost⟩
      · refine ⟨fun k hk => h k (hpc.symm.trans hk), ?_⟩
        simp [State.owed, hfree 0, hpc]
      · refine ⟨fun k hk => absurd hk (hpost k), ?_⟩
        simp [State.owed, hfree 0, hpre 0, hpost 0]
  | select hsel hend hfree hpc =>
      rw [hend]
      have hpost := hpc (hdrains hsel)
      refine ⟨fun k hk => ?_, ?_⟩
      · obtain rfl : 1 = k := by simpa using hpost.symm.trans hk
        exact le_rfl
      · simp [State.owed, hfree 0, hpost, hsel.2]
  | rotate hr => exact absurd hr hrot
  | handOver k e hand hend hpre hpost =>
      rw [hend]
      have hk := h _ hpre
      obtain rfl : k = 0 := by omega
      refine ⟨fun k hk => ?_, ?_⟩
      · obtain rfl : 0 = k := by simpa using hpost.symm.trans hk
        exact Nat.zero_le 1
      · -- the node taken moves from the bag to the second summand
        have hcard := Multiset.card_erase_add_one hand.2.1
        rw [← hand.2.2] at hcard
        simpa [State.owed, hpre, hpost] using hcard
  | ends k hend hpre hpost hdone hfree =>
      rw [hend]
      refine ⟨fun k hk => absurd (hpost.symm.trans hk) (by simp), ?_⟩
      have hk := h _ hpre
      rcases hdone with rfl | hempty
      · simp [State.owed, hfree 0, hpre, hpost]
      · have hle : x.pre.owed i ≤ 1 := by
          rw [State.owed, hempty, Multiset.card_zero]
          split <;> omega
        have hzero : x.post.owed i = 0 := by
          rw [State.owed, hfree 0, hempty, hpost]
          rfl
        rw [hzero, if_pos rfl]
        omega

/-- **The run lemma.** -/
theorem owed_run {s₁ s₂ : State F P N} {tr : List (Trans (State F P N) (Action P N))}
    (h : Run (step m) s₁ tr s₂) {i : Fin N} (h₁ : Single s₁ i) (hrot : ∀ x ∈ tr, ¬ Rotates x i)
    (hdrains : ∀ x ∈ tr, Drains i x) :
    Single s₂ i ∧ s₂.owed i = s₁.owed i - tr.countP (endsStartOp i) := by
  induction h with
  | nil => exact ⟨h₁, rfl⟩
  | snoc hr hs ih =>
      rename_i s s' a tr
      obtain ⟨hsingle, howed⟩ := ih (fun x hx => hrot x (List.mem_append_left _ hx))
        (fun x hx => hdrains x (List.mem_append_left _ hx))
      obtain ⟨hsingle', howed'⟩ := owed_step (x := ⟨s, a, s'⟩) hs hsingle (hrot _ (by simp))
        (hdrains _ (by simp))
      refine ⟨hsingle', ?_⟩
      rw [List.countP_append, List.countP_singleton, ← Nat.sub_sub, ← howed]
      exact howed'

/-- Without rotations nothing happens to the freeables of the other record types. -/
theorem freeables_const {s₁ s₂ : State F P N} {tr : List (Trans (State F P N) (Action P N))}
    (h : Run (step m) s₁ tr s₂) {i : Fin N} {j : Nat} (hj : j ≠ 0)
    (hrot : ∀ x ∈ tr, ¬ Rotates x i) : s₂.freeables i j = s₁.freeables i j := by
  refine h.invariant_of (I := fun s => s.freeables i j = s₁.freeables i j)
    (C := fun x => ¬ Rotates x i) hrot rfl (fun s a s' hI hs hC => ?_)
  have hstep : DrainStep ⟨s, a, s'⟩ i := drainStep_of_step hs i
  cases hstep with
  | frame _ hfree | select _ _ hfree | ends _ _ _ _ _ hfree => exact (hfree j).trans hI
  | rotate hr => exact absurd hr hC
  | handOver _ _ _ _ _ _ hfree => exact (hfree j hj).trans hI

/-! ## The record types that are drained -/

/-- A `startOp` of thread `i` outside ConservativeHold: it selects its mode in `x`, takes the steps
`tr` and returns in `y`. -/
@[mk_iff]
structure UnheldStartOp (i : Fin N) (x : Trans (State F P N) (Action P N))
    (tr : List (Trans (State F P N) (Action P N))) (y : Trans (State F P N) (Action P N)) :
    Prop where
  selects : Selects x i
  mode : (x.post.threadData i).gcMode ≠ .conservativeHold
  running : ∀ z ∈ tr, endsStartOp i z = false
  returns : endsStartOp i y = true

instance (i : Fin N) (x : Trans (State F P N) (Action P N))
    (tr : List (Trans (State F P N) (Action P N))) (y : Trans (State F P N) (Action P N)) :
    Decidable (UnheldStartOp i x tr y) :=
  decidable_of_iff _ (unheldStartOp_iff i x tr y).symm

/-- The transitions hand a node of record type `j` to the pool. -/
def TakesOne (tr : List (Trans (State F P N) (Action P N))) (i : Fin N) (j : Nat) : Prop :=
  ∃ z ∈ tr, ∃ e, HandsOver z i j e

/-- A run of as many `startOp`s of thread `i` outside ConservativeHold as there were freeables of
record type `j`, without a rotation. -/
@[mk_iff]
structure DrainRun (s : State F P N) (tr : List (Trans (State F P N) (Action P N))) (i : Fin N)
    (j : Nat) : Prop where
  outside : s.pc i = .idle ∨ s.pc i = .body
  steady : ∀ x ∈ tr, ¬ Rotates x i
  unheld : ∀ x ∈ tr, Drains i x
  enough : (s.freeables i j).card ≤ tr.countP (endsStartOp i)

instance (s : State F P N) (tr : List (Trans (State F P N) (Action P N))) (i : Fin N) (j : Nat) :
    Decidable (DrainRun s tr i j) :=
  decidable_of_iff _ (drainRun_iff s tr i j).symm

/-- A `startOp` outside ConservativeHold that finds freeables of type `j` hands one over exactly
when `j` is the first type. -/
theorem takes_iff_first {s₁ s₂ : State F P N}
    {tr₁ tr₂ tr₃ : List (Trans (State F P N) (Action P N))}
    {x y : Trans (State F P N) (Action P N)} {i : Fin N} {j : Nat}
    (h : Run (step m) s₁ (tr₁ ++ x :: (tr₂ ++ y :: tr₃)) s₂) (hop : UnheldStartOp i x tr₂ y)
    (hne : x.pre.freeables i j ≠ 0) : TakesOne tr₂ i j ↔ j = 0 := by
  obtain ⟨-, hx, hrest⟩ := h.split
  obtain ⟨h₂, hy, -⟩ := hrest.split
  constructor
  · rintro ⟨z, hz, e, hand⟩
    obtain ⟨-, -, -, hs⟩ := h₂.of_mem hz
    exact handsOver_first hs hand
  · rintro rfl
    exact exists_handsOver hx h₂ hy hop.selects hop.mode hop.running hop.returns hne

/-- After as many `startOp`s as there were freeables of type `j`, these are gone exactly when `j`
is the first type, or there were none. -/
theorem gone_iff_first {s₁ s₂ : State F P N} {tr : List (Trans (State F P N) (Action P N))}
    {i : Fin N} {j : Nat} (h : Run (step m) s₁ tr s₂) (hd : DrainRun s₁ tr i j) :
    s₂.freeables i j = 0 ↔ j = 0 ∨ s₁.freeables i j = 0 := by
  by_cases hj : j = 0
  · subst hj
    refine iff_of_true ?_ (Or.inl rfl)
    have hsingle : Single s₁ i := fun k hk => by
      rcases hd.outside with hp | hp <;> rw [hp] at hk <;> cases hk
    have hstart : s₁.owed i = (s₁.freeables i 0).card := by
      rcases hd.outside with hp | hp <;> simp [State.owed, hp]
    have howed := (owed_run h hsingle hd.steady hd.unheld).2
    rw [hstart, Nat.sub_eq_zero_of_le hd.enough] at howed
    exact Multiset.card_eq_zero.mp (Nat.eq_zero_of_add_eq_zero_right howed)
  · rw [freeables_const h hj hd.steady]
    simp [hj]

/-- In a run, each `startOp` of thread `i` outside ConservativeHold that finds freeables of record
type `j` hands one over, and as many of them as there were freeables leave none. -/
structure DrainedAlong (s₁ s₂ : State F P N) (tr : List (Trans (State F P N) (Action P N)))
    (i : Fin N) (j : Nat) : Prop where
  takes : ∀ tr₁ x tr₂ y tr₃, tr = tr₁ ++ x :: (tr₂ ++ y :: tr₃) → UnheldStartOp i x tr₂ y →
    x.pre.freeables i j ≠ 0 → TakesOne tr₂ i j
  gone : DrainRun s₁ tr i j → s₂.freeables i j = 0

end

/-- **Record type `j` is drained**, of `m`: it is in every run of the machine. -/
def Drained (m j : Nat) : Prop :=
  ∀ (F P : Type) [F64 F] [DecidableEq P] (N : Nat) (i : Fin N) (s₁ s₂ : State F P N)
    (tr₀ tr : List (Trans (State F P N) (Action P N))),
    Run (step m) (init F P N) tr₀ s₁ → Run (step m) s₁ tr s₂ → DrainedAlong s₁ s₂ tr i j

theorem drained_first (m : Nat) : Drained m 0 := by
  intro F P _ _ N i s₁ s₂ tr₀ tr _ h
  constructor
  · rintro tr₁ x tr₂ y tr₃ rfl hop hne
    exact (takes_iff_first h hop hne).mpr rfl
  · exact fun hd => (gone_iff_first h hd).mpr (Or.inl rfl)

/-! ## A node of another record type -/

/-- The data of a thread that has counted writes only. -/
structure ThreadData.Light (td : ThreadData ℚ) : Prop where
  snaps : td.winSnaps = 0
  spi : td.spiEma = 0
  mode : td.gcMode = .aggressiveEbr

namespace ThreadData

theorem light_new (tid : Nat) : (ThreadData.new tid : ThreadData ℚ).Light := ⟨rfl, rfl, rfl⟩

theorem Light.countOp {td : ThreadData ℚ} (h : td.Light) : (td.countOp false).Light :=
  ⟨h.snaps, h.spi, h.mode⟩

theorem Light.resample {td : ThreadData ℚ} (h : td.Light) : td.resample.Light := by
  unfold ThreadData.resample
  dsimp only
  split
  · exact ⟨rfl, by simp [h.snaps, h.spi], h.mode⟩
  · exact h

theorem Light.selectMode {td : ThreadData ℚ} (h : td.Light) :
    pacerSelectModeHyst td.spiEma td.gcMode = .aggressiveEbr := by
  rw [h.spi, h.mode]
  decide +kernel

theorem Light.select {td : ThreadData ℚ} (h : td.Light) : td.select.1.Light := by
  simp only [ThreadData.select, h.selectMode]
  exact ⟨h.snaps, h.spi, rfl⟩

end ThreadData

/-- The only thread is at `q`, has the token and has counted writes only; its bags of record type
`j` are `b`, those of the other types are empty. -/
structure Calm (j : Nat) (b : Bags (Node ℕ 1)) (q : Pc) (s : State ℚ ℕ 1) : Prop where
  pc : s.pc 0 = q
  token : (s.threadData 0).token ≠ 0
  light : (s.threadData 0).Light
  own : s.bags 0 j = b
  other : ∀ k, k ≠ j → s.bags 0 k = Bags.empty

section

variable {m j : Nat} {b : Bags (Node ℕ 1)} {s : State ℚ ℕ 1}

theorem rotateEpochBags_empty : (Bags.empty : Bags (Node ℕ 1)).rotateEpochBags 0 = Bags.empty := by
  simp [Bags.rotateEpochBags, Bags.empty]

/-- The rotation of record type `k`. -/
theorem Calm.rotate {k : Nat} {moved : Multiset (Node ℕ 1)} (h : Calm j b (.rotate k) s)
    (hm : k = j → moved ≤ b.last) :
    ∃ s', step m s (.rotate 0 (if k = j then moved else 0)) = some s'
      ∧ Calm j (if k = j then b.rotateEpochBags moved else b) (rotateFrom m (k + 1)) s' := by
  by_cases hk : k = j
  · subst hk
    rw [if_pos rfl, if_pos rfl]
    refine ⟨_, by simp only [step, h.pc, h.own, if_pos (hm rfl)]; rfl, ?_⟩
    refine { pc := by simp, token := h.token, light := h.light, own := setBags_self s 0 k _
             other := fun k' hk' => ?_ }
    show s.setBags 0 k _ 0 k' = _
    rw [setBags_of_ne s _ (fun _ => hk'), h.other k' hk']
  · rw [if_neg hk, if_neg hk]
    refine ⟨_, by simp only [step, h.pc, if_pos (Multiset.zero_le _)]; rfl, ?_⟩
    refine { pc := by simp, token := h.token, light := h.light, own := ?_
             other := fun k' hk' => ?_ }
    · show s.setBags 0 k _ 0 j = b
      rw [setBags_of_ne s _ (fun _ => Ne.symm hk), h.own]
    · show s.setBags 0 k _ 0 k' = Bags.empty
      by_cases hkk : k' = k
      · subst hkk
        rw [setBags_self, h.other k' hk', rotateEpochBags_empty]
      · rw [setBags_of_ne s _ (fun _ => hkk), h.other k' hk']

/-- The rotations of the record types from `k` on, where that of type `j` moves `moved`. -/
theorem Calm.rotations {k : Nat} {moved : Multiset (Node ℕ 1)} (hj : j < m) (hk : k ≤ m)
    (h : Calm j b (rotateFrom m k) s) (hm : k ≤ j → moved ≤ b.last) :
    ∃ tr s', Run (step m) s tr s'
      ∧ Calm j (if k ≤ j then b.rotateEpochBags moved else b) .select s' := by
  induction hd : m - k generalizing k b s with
  | zero =>
      obtain rfl : k = m := by omega
      rw [rotateFrom, if_neg (lt_irrefl k)] at h
      exact ⟨[], s, Run.nil, by rwa [if_neg (by omega)]⟩
  | succ d ih =>
      have hkm : k < m := by omega
      rw [rotateFrom, if_pos hkm] at h
      obtain ⟨s', hs, hcalm⟩ := h.rotate (m := m) (fun hkj => hm hkj.le)
      by_cases hkj : k = j
      · -- the other types after `j` have nothing to move
        subst hkj
        rw [if_pos rfl] at hs hcalm
        obtain ⟨tr, s'', hrun, hend⟩ := ih hkm hcalm (fun h => absurd h (by omega)) (by omega)
        rw [if_neg (by omega)] at hend
        exact ⟨_, s'', Run.cons hs hrun, by rwa [if_pos le_rfl]⟩
      · rw [if_neg hkj] at hs hcalm
        obtain ⟨tr, s'', hrun, hend⟩ := ih hkm hcalm (fun h => hm (by omega)) (by omega)
        refine ⟨_, s'', Run.cons hs hrun, ?_⟩
        have hiff : k + 1 ≤ j ↔ k ≤ j := by omega
        simpa only [hiff] using hend

/-- The beginning of an operation: the thread receives its token, stores it again and rotates. -/
theorem Calm.receipt {moved : Multiset (Node ℕ 1)} (hj : j < m) (h : Calm j b .idle s)
    (hm : moved ≤ b.last) :
    ∃ tr s', Run (step m) s tr s' ∧ Calm j (b.rotateEpochBags moved) .select s' := by
  have hstart : step m s (.startOp 0 false) = some (s.begin 0 false .clearToken) := by
    simp only [step, if_pos h.pc, if_pos h.token]
    rfl
  generalize hs₁ : s.begin 0 false .clearToken = s₁ at hstart
  have hpc₁ : s₁.pc 0 = .clearToken := by simp [← hs₁, State.begin, State.advance]
  have hlight₁ : (s₁.threadData 0).Light := by
    simpa [← hs₁, State.begin, State.advance] using h.light.countOp
  have hbags₁ : s₁.bags = s.bags := by rw [← hs₁]; rfl
  have hclear : step m s₁ (.run 0)
      = some (s₁.advance 0 { s₁.threadData 0 with token := 0 } .setNext) := by
    simp only [step, hpc₁]
    rfl
  generalize hs₂ : s₁.advance 0 { s₁.threadData 0 with token := 0 } .setNext = s₂ at hclear
  have hpc₂ : s₂.pc 0 = .setNext := by simp [← hs₂, State.advance]
  have hlight₂ : (s₂.threadData 0).Light := by
    have hdata : s₂.threadData 0 = { s₁.threadData 0 with token := 0 } := by
      simp [← hs₂, State.advance]
    rw [hdata]
    exact ⟨hlight₁.snaps, hlight₁.spi, hlight₁.mode⟩
  have hbags₂ : s₂.bags = s.bags := by rw [← hs₂, ← hbags₁]; rfl
  have hpass : step m s₂ (.run 0) = some { s₂ with
      threadData := s₂.passed 0, pc := Function.update s₂.pc 0 (rotateFrom m 0) } := by
    simp only [step, hpc₂]
    rfl
  have hdata : s₂.passed 0 0 = { s₂.threadData 0 with
      token := 1, tokenCount := (s₂.threadData 0).tokenCount + 1 }.resample := by
    simp [State.passed, next]
  have hcalm : Calm j b (rotateFrom m 0) { s₂ with
      threadData := s₂.passed 0, pc := Function.update s₂.pc 0 (rotateFrom m 0) } := by
    refine { pc := by simp, token := ?_, light := ?_, own := ?_, other := ?_ }
    · show (s₂.passed 0 0).token ≠ 0
      rw [hdata, ThreadData.resample_token]
      exact one_ne_zero
    · show (s₂.passed 0 0).Light
      rw [hdata]
      exact ThreadData.Light.resample ⟨hlight₂.snaps, hlight₂.spi, hlight₂.mode⟩
    · exact (congrFun (congrFun hbags₂ 0) j).trans h.own
    · exact fun k hk => (congrFun (congrFun hbags₂ 0) k).trans (h.other k hk)
  obtain ⟨tr, s', hrun, hend⟩ := hcalm.rotations hj (Nat.zero_le m) (fun _ => hm)
  rw [if_pos (Nat.zero_le j)] at hend
  exact ⟨_, s', Run.cons hstart (Run.cons hclear (Run.cons hpass hrun)), hend⟩

/-- The mode selection of an operation, in AggressiveEbr, and the return of its `startOp`: it finds
nothing of the first record type. -/
theorem Calm.returns (hj : 0 < j) (h : Calm j b .select s) :
    ∃ s₁ s₂, step m s (.run 0) = some s₁ ∧ step m s₁ (.run 0) = some s₂
      ∧ s₁.pc 0 = .drain 1 ∧ (s₁.threadData 0).gcMode ≠ .conservativeHold
      ∧ Calm j b .body s₂ := by
  have hselect : step m s (.run 0)
      = some (s.advance 0 (s.threadData 0).select.1 (.drain (s.threadData 0).select.2)) := by
    simp only [step, h.pc]
    rfl
  have hmode : (s.threadData 0).select.1.gcMode ≠ .conservativeHold := by
    rw [h.light.select.mode]
    decide
  rw [ThreadData.select_snd hmode] at hselect
  have hpc : (s.advance 0 (s.threadData 0).select.1 (.drain 1)).pc 0 = .drain 1 := by
    simp [State.advance]
  have hempty : (s.bags 0 0).deamortizedFreeables = 0 := by
    rw [h.other 0 hj.ne]
    rfl
  generalize hs₁ : s.advance 0 (s.threadData 0).select.1 (.drain 1) = s₁ at hselect hpc
  have hbags : s₁.bags = s.bags := by rw [← hs₁]; rfl
  have hdata : s₁.threadData 0 = (s.threadData 0).select.1 := by simp [← hs₁, State.advance]
  have hreturn : step m s₁ (.run 0) = some { s₁ with pc := Function.update s₁.pc 0 .body } := by
    simp only [step, hpc, runStep, hbags]
    rw [if_pos (Or.inr hempty)]
  refine ⟨s₁, _, hselect, hreturn, hpc, by rwa [hdata], ?_⟩
  refine { pc := by simp, token := ?_, light := ?_, own := ?_, other := fun k hk => ?_ }
  · show (s₁.threadData 0).token ≠ 0
    rw [hdata, ThreadData.select_token]
    exact h.token
  · show (s₁.threadData 0).Light
    rw [hdata]
    exact h.light.select
  · exact (congrFun (congrFun hbags 0) j).trans h.own
  · exact (congrFun (congrFun hbags 0) k).trans (h.other k hk)

theorem Calm.retire (h : Calm j b .body s) (hj : j < m) (ptr : ℕ) :
    ∃ s' e, step m s (.retire 0 j ptr) = some s' ∧ Calm j (b.retire e) .body s' := by
  refine ⟨_, s.node ptr, by simp only [step, if_pos (And.intro h.pc hj)]; rfl, ?_⟩
  refine { pc := h.pc, token := h.token, light := h.light, own := ?_, other := fun k hk => ?_ }
  · show s.setBags 0 j _ 0 j = b.retire (s.node ptr)
    rw [setBags_self, h.own]
  · show s.setBags 0 j _ 0 k = Bags.empty
    rw [setBags_of_ne s _ (fun _ => hk), h.other k hk]

theorem Calm.endOp (h : Calm j b .body s) :
    ∃ s', step m s (.endOp 0) = some s' ∧ Calm j b .idle s' := by
  refine ⟨_, by simp only [step, if_pos h.pc]; rfl, ?_⟩
  exact { pc := by simp, token := h.token, light := h.light, own := h.own, other := h.other }

theorem calm_init (j : Nat) : Calm j Bags.empty .idle (init ℚ ℕ 1) :=
  { pc := rfl, token := by decide, light := ThreadData.light_new 0, own := rfl
    other := fun _ _ => rfl }

end

/-- **A node left behind**, with any number of record types, of a type that is not the first: after
two receipts of the token it is in `deamortizedFreeables`, and the `startOp` of the second
returns with the node still there. -/
theorem exists_left_behind {m j : Nat} (hj : 0 < j) (hm : j < m) :
    ∃ tr x y, Run (step m) (init ℚ ℕ 1) (tr ++ x :: [y]) y.post
      ∧ UnheldStartOp 0 x [] y ∧ x.pre.freeables 0 j ≠ 0 := by
  obtain ⟨tr₁, s₁, h₁, hc⟩ := (calm_init j).receipt hm (Multiset.zero_le _)
  rw [rotateEpochBags_empty] at hc
  obtain ⟨_, s₂, h₂, h₃, -, -, hc⟩ := hc.returns (m := m) hj
  obtain ⟨s₃, e, h₄, hc⟩ := hc.retire hm 7
  obtain ⟨s₄, h₅, hc⟩ := hc.endOp (m := m)
  obtain ⟨tr₂, s₅, h₆, hc⟩ := hc.receipt hm (Multiset.zero_le _)
  obtain ⟨_, s₆, h₇, h₈, -, -, hc⟩ := hc.returns (m := m) hj
  obtain ⟨s₇, h₉, hc⟩ := hc.endOp (m := m)
  have hlast : ({e} : Multiset (Node ℕ 1)) ≤ (((Bags.empty.retire e).rotateEpochBags 0).last) := by
    simp [Bags.rotateEpochBags, Bags.retire, Bags.empty]
  obtain ⟨tr₃, s₈, h₁₀, hc⟩ := hc.receipt hm hlast
  obtain ⟨s₉, s', h₁₁, h₁₂, hpc, hmode, -⟩ := hc.returns (m := m) hj
  have hrun := h₁.append ((Run.cons h₂ (Run.cons h₃ (Run.cons h₄ (Run.cons h₅ h₆)))).append
    ((Run.cons h₇ (Run.cons h₈ (Run.cons h₉ h₁₀))).append (Run.cons h₁₁ (Run.single h₁₂))))
  rw [← List.append_assoc, ← List.append_assoc] at hrun
  refine ⟨_, ⟨s₈, .run 0, s₉⟩, ⟨s₉, .run 0, s'⟩, hrun, ⟨⟨rfl, hc.pc⟩, hmode, ?_, ?_⟩, ?_⟩
  · intro z hz
    cases hz
  · simp [endsStartOp, hpc]
  · have hfree : s₈.freeables 0 j = {e} := by
      simp [State.freeables, hc.own, Bags.rotateEpochBags, Bags.retire, Bags.empty]
    simp [hfree]

/-- No other type than the first is drained. -/
theorem not_drained {m j : Nat} (hj : 0 < j) (hm : j < m) : ¬ Drained m j := by
  intro hd
  obtain ⟨tr, x, y, hrun, hop, hne⟩ := exists_left_behind hj hm
  obtain ⟨z, hz, -⟩ :=
    (hd ℚ ℕ 1 0 _ _ [] _ Run.nil hrun).takes tr x [] y [] rfl hop hne
  cases hz

/-! ## All record types -/

/-- **Which record types are drained**, for every list of `m` record types. In every run a `startOp`
outside ConservativeHold that finds freeables of type `j` after its rotation hands one of them to
the pool exactly when `j` is the first type, and after as many such `startOp`s without a rotation
as there were freeables these are gone exactly when `j` is the first type (or there were none).
So the first type is drained and no other, and all of them are when there is only one. -/
theorem type_drained_iff (m : Nat) (hm : 0 < m) :
    (∀ (F P : Type) [F64 F] [DecidableEq P] (N : Nat) (i : Fin N) (j : Nat)
        (s₁ s₂ : State F P N) (tr : List (Trans (State F P N) (Action P N))),
        Run (step m) s₁ tr s₂ →
        (∀ tr₁ (x : Trans (State F P N) (Action P N)) tr₂ y tr₃,
            tr = tr₁ ++ x :: (tr₂ ++ y :: tr₃) → UnheldStartOp i x tr₂ y →
            x.pre.freeables i j ≠ 0 → (TakesOne tr₂ i j ↔ j = 0))
          ∧ (DrainRun s₁ tr i j → (s₂.freeables i j = 0 ↔ j = 0 ∨ s₁.freeables i j = 0)))
      ∧ (∀ j < m, Drained m j ↔ j = 0)
      ∧ ((∀ j < m, Drained m j) ↔ m = 1) := by
  have hiff : ∀ j < m, Drained m j ↔ j = 0 := by
    intro j hj
    constructor
    · intro hd
      by_contra hne
      exact not_drained (Nat.pos_of_ne_zero hne) hj hd
    · rintro rfl
      exact drained_first m
  refine ⟨fun F P _ _ N i j s₁ s₂ tr h => ⟨?_, fun hd => gone_iff_first h hd⟩, hiff, ?_, ?_⟩
  · rintro tr₁ x tr₂ y tr₃ rfl hop hne
    exact takes_iff_first h hop hne
  · intro hall
    by_contra hne
    exact absurd ((hiff 1 (by omega)).mp (hall 1 (by omega))) one_ne_zero
  · rintro rfl j hj
    exact (hiff j hj).mpr (by omega)

/-! ## Two record types -/

/-- An operation of the only thread, which receives its token, up to the mode selection. -/
def receiptOf (i : Fin 1) (moved : Multiset (Node ℕ 1)) : List (Action ℕ 1) :=
  [.startOp i false, .run i, .run i, .rotate i 0, .rotate i moved]

/-- The node `7`, retired in the first operation. -/
def onlyNode : Node ℕ 1 :=
  { ptr := 7
    begunAt := fun _ => 1
    runningAt := fun _ => some 1
    running_le := fun _ n h => by cases h; exact le_rfl }

/-- A node of the second record type is retired and rotated into the freeables. -/
def secondType (i : Fin 1) : List (Action ℕ 1) :=
  receiptOf i 0 ++ [.run i, .run i, .retire i 1 7, .endOp i] ++ receiptOf i 0
    ++ [.run i, .run i, .endOp i] ++ receiptOf i {onlyNode}

/-- **The second record type is not drained**: a `startOp` in a mode other than ConservativeHold
finds a node of that type in `deamortizedFreeables` and returns with the node still there. -/
theorem second_type_not_drained :
    ∃ tr x y, Run (step 2) (init ℚ ℕ 1) (tr ++ x :: [y]) y.post ∧ Selects x 0
      ∧ (x.post.threadData 0).gcMode ≠ .conservativeHold ∧ endsStartOp 0 y = true
      ∧ x.pre.freeables 0 1 = {onlyNode} ∧ y.post.freeables 0 1 = {onlyNode} := by
  obtain ⟨tr, s, hrun, hp⟩ := exists_run_of_replay (step 2) (init ℚ ℕ 1) (secondType 0)
    (fun _ s => decide (s.pc 0 = .select) && decide (s.freeables 0 1 = {onlyNode})
      && (step 2 s (.run 0)).any fun (s' : State ℚ ℕ 1) => decide (s'.pc 0 = .drain 1)
        && decide ((s'.threadData 0).gcMode ≠ .conservativeHold)
        && (step 2 s' (.run 0)).any fun (s'' : State ℚ ℕ 1) =>
          decide (s''.freeables 0 1 = {onlyNode}))
    (by decide +kernel)
  simp only [Bool.and_eq_true, decide_eq_true_eq, Option.any_eq_true] at hp
  obtain ⟨⟨hsel, hfree⟩, s', hs', ⟨hpc, hmode⟩, s'', hs'', hfree'⟩ := hp
  refine ⟨tr, ⟨s, .run 0, s'⟩, ⟨s', .run 0, s''⟩, ?_, ⟨rfl, hsel⟩, hmode, ?_, hfree, hfree'⟩
  · exact hrun.append (Run.cons hs' (Run.single hs''))
  · simp [endsStartOp, hpc]

/-! ## Two threads, two record types -/

/-- An operation of thread `i` that receives the token: `first` and `second` move to the freeables
of the two record types, and `taken` goes to the pool. -/
def receiptWith (i : Fin 2) (first second : Multiset (Node ℕ 2)) (taken : List (Node ℕ 2)) :
    List (Action ℕ 2) :=
  [.startOp i false, .run i, .run i, .rotate i first, .rotate i second, .run i]
    ++ taken.map (.poolAdd i) ++ [.run i]

/-- The node at `ptr`, retired by thread `i` in its first operation. -/
def earlyNode (i : Fin 2) (ptr : ℕ) : Node ℕ 2 := { firstNode i with ptr := ptr }

/-- Thread `i` retires three nodes of the first record type and one of the second. At its third
receipt all four move to the freeables, and one goes to the pool. -/
def fourNodes (i u : Fin 2) : List (Action ℕ 2) :=
  receiptWith i 0 0 [] ++ [.retire i 0 1, .retire i 0 2, .retire i 0 3, .retire i 1 7, .endOp i]
    ++ receiptWith u 0 0 [] ++ [.endOp u] ++ receiptWith i 0 0 [] ++ [.endOp i]
    ++ receiptWith u 0 0 [] ++ [.endOp u]
    ++ receiptWith i {earlyNode i 1, earlyNode i 2, earlyNode i 3} {earlyNode i 7} [earlyNode i 1]
    ++ [.endOp i]

/-- Two operations of thread `i` without the token. -/
def twoOperations (i : Fin 2) : List (Action ℕ 2) :=
  [.startOp i false, .run i, .poolAdd i (earlyNode i 2), .run i, .endOp i,
    .startOp i true, .run i, .poolAdd i (earlyNode i 3), .run i, .endOp i]

/-- `tr` begins with an unheld `startOp` of thread `i`, with nodes of both record types to take,
and drains both. -/
def beginsUnheld (s : State ℚ ℕ 2) (i : Fin 2) :
    List (Trans (State ℚ ℕ 2) (Action ℕ 2)) → Bool
  | w :: x :: z :: y :: tr => decide (UnheldStartOp i x [z] y)
      && decide (x.pre.freeables i 0 ≠ 0) && decide (x.pre.freeables i 1 ≠ 0)
      && decide (DrainRun s (w :: x :: z :: y :: tr) i 0)
      && decide (DrainRun s (w :: x :: z :: y :: tr) i 1)
  | _ => false

/-- In the first of two operations of thread 0 without the token, the `startOp` takes a node of the
first record type and none of the second; after both the first is drained, the second is not. -/
theorem type_drained_iff_two :
    ∃ (tr₁ : List (Trans (State ℚ ℕ 2) (Action ℕ 2))) (s₁ : State ℚ ℕ 2)
      (w x z y : Trans (State ℚ ℕ 2) (Action ℕ 2)) (tr : List (Trans (State ℚ ℕ 2) (Action ℕ 2)))
      (s₂ : State ℚ ℕ 2),
      Run (step 2) (init ℚ ℕ 2) tr₁ s₁ ∧ Run (step 2) s₁ (w :: x :: z :: y :: tr) s₂
      ∧ (s₁.freeables 0 0).card = 2 ∧ (s₁.freeables 0 1).card = 1
      ∧ UnheldStartOp 0 x [z] y ∧ TakesOne [z] 0 0 ∧ ¬ TakesOne [z] 0 1
      ∧ DrainRun s₁ (w :: x :: z :: y :: tr) 0 0 ∧ s₂.freeables 0 0 = 0
      ∧ DrainRun s₁ (w :: x :: z :: y :: tr) 0 1 ∧ s₂.freeables 0 1 ≠ 0
      ∧ ¬ ∀ j < 2, Drained 2 j := by
  obtain ⟨tr₁, s₁, h₁, hp⟩ := exists_run_of_replay (step 2) (init ℚ ℕ 2) (fourNodes 0 1)
    (fun _ s => decide ((s.freeables 0 0).card = 2) && decide ((s.freeables 0 1).card = 1)
      && (replay (step 2) s (twoOperations 0)).any fun r => beginsUnheld s 0 r.1)
    (by decide +kernel)
  simp only [Bool.and_eq_true, decide_eq_true_eq, Option.any_eq_true] at hp
  obtain ⟨⟨hcard₀, hcard₁⟩, ⟨tr, s₂⟩, hreplay, hp⟩ := hp
  have h₂ := run_of_replay hreplay
  obtain _ | ⟨w, _ | ⟨x, _ | ⟨z, _ | ⟨y, tr⟩⟩⟩⟩ := tr
  iterate 4 cases hp
  simp only [beginsUnheld, Bool.and_eq_true, decide_eq_true_eq] at hp
  obtain ⟨⟨⟨⟨hop, hne₀⟩, hne₁⟩, hd₀⟩, hd₁⟩ := hp
  obtain ⟨heach, -, hall⟩ := type_drained_iff 2 (by decide)
  obtain ⟨htakes₀, hgone₀⟩ := heach ℚ ℕ 2 0 0 s₁ s₂ _ h₂
  obtain ⟨htakes₁, hgone₁⟩ := heach ℚ ℕ 2 0 1 s₁ s₂ _ h₂
  have hsome : s₁.freeables 0 1 ≠ 0 := by
    intro hzero
    rw [hzero] at hcard₁
    cases hcard₁
  refine ⟨tr₁, s₁, w, x, z, y, tr, s₂, h₁, h₂, hcard₀, hcard₁, hop, ?_, ?_, hd₀, ?_, hd₁, ?_, ?_⟩
  · exact (htakes₀ [w] x [z] y tr rfl hop hne₀).mpr rfl
  · rw [htakes₁ [w] x [z] y tr rfl hop hne₁]
    exact one_ne_zero
  · exact (hgone₀ hd₀).mpr (Or.inl rfl)
  · rw [ne_eq, hgone₁ hd₁]
    exact not_or.mpr ⟨one_ne_zero, hsome⟩
  · rw [hall]
    decide

end Pacer.Reclaimer
