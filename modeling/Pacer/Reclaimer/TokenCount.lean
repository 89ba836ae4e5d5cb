import Pacer.Reclaimer.Ring
import Mathlib.Data.Finset.Card

set_option autoImplicit false

/-! # There is exactly one token

The invariant of the ring in the terms of the code: counted over the flags that are `1` and the
threads that have cleared their own flag and not yet set that of the next thread, there is one
token at any moment. Receipts and hand-offs are transitions of the run; between two receipts of a
thread every other thread has one of each.
-/

namespace Pacer.Reclaimer

open Machine TokenRing

section

variable {F P : Type} [F64 F] [DecidableEq P] {N m : Nat}

/-! ## The token -/

/-- The threads whose token flag is `1`. -/
def State.holders (s : State F P N) : Finset (Fin N) :=
  Finset.univ.filter fun u => (s.threadData u).token = 1

/-- The threads between clearing their own token and setting that of the next thread. -/
def State.handingOn (s : State F P N) : Finset (Fin N) :=
  Finset.univ.filter fun u => s.pc u = .setNext

/-- A token flag is `0` or `1`. -/
def FlagInv (s : State F P N) : Prop := ∀ u, (s.threadData u).token ≤ 1

omit [DecidableEq P] in
theorem flagInv_init : FlagInv (init F P N) := by
  intro u
  show (if u.val = 0 then 1 else 0) ≤ 1
  split <;> omega

theorem flagInv_step {s s' : State F P N} {a : Action P N} (h : Stepped m s a s')
    (hs : FlagInv s) : FlagInv s' := by
  intro u
  rcases ring_step_cases h with hsame | ⟨i, readOnly, -, -, -, rfl⟩ | ⟨i, -, rfl⟩ | ⟨i, -, rfl⟩
  · rw [hsame.token]
    exact hs u
  · by_cases hu : u = i
    · subst hu
      simpa [State.begin, State.advance] using hs u
    · simpa [State.begin, State.advance, hu] using hs u
  · by_cases hu : u = i
    · simp [State.advance, hu]
    · simpa [State.advance, hu] using hs u
  · rw [passed_token]
    split
    · exact le_rfl
    · exact hs u

theorem flagInv_run {s : State F P N} {tr : List (Trans (State F P N) (Action P N))}
    (h : Run (step m) (init F P N) tr s) : FlagInv s :=
  h.invariant flagInv_init (fun _ _ _ hI hs => flagInv_step (step_cases hs) hI)

omit [F64 F] [DecidableEq P] in
theorem mem_holders {s : State F P N} (hs : FlagInv s) {u : Fin N} :
    u ∈ s.holders ↔ (s.threadData u).token ≠ 0 := by
  have := hs u
  rw [State.holders, Finset.mem_filter_univ]
  omega

omit [F64 F] [DecidableEq P] in
theorem mem_handingOn {s : State F P N} {u : Fin N} : u ∈ s.handingOn ↔ s.pc u = .setNext :=
  Finset.mem_filter_univ u

theorem Pc.passing_iff {p : Pc} : p.passing = true ↔ p = .clearToken ∨ p = .setNext := by
  cases p <;> simp [Pc.passing]

omit [F64 F] [DecidableEq P] in
/-- Nobody is handing the token on: one flag is set. -/
theorem Waiting.card {s : State F P N} {k : Nat} (hw : Waiting s k) (hs : FlagInv s)
    (hN : 0 < N) : s.holders.card + s.handingOn.card = 1 := by
  have hholders : s.holders = {⟨k % N, Nat.mod_lt k hN⟩} := by
    ext u
    rw [mem_holders hs, hw.token, Finset.mem_singleton, Fin.ext_iff]
  have hnone : s.handingOn = ∅ := by
    ext u
    rw [mem_handingOn]
    refine iff_of_false (fun hpc => ?_) (Finset.notMem_empty u)
    have := hw.passing u
    rw [hpc] at this
    cases this
  rw [hholders, hnone, Finset.card_singleton, Finset.card_empty]

omit [F64 F] [DecidableEq P] in
/-- Thread `h` is handing the token on: its flag is set, or it is between the two stores. -/
theorem Passing.card {s : State F P N} {k : Nat} {h : Fin N} (hp : Passing s k h)
    (hs : FlagInv s) : s.holders.card + s.handingOn.card = 1 := by
  have hpassing : (s.pc h).passing = true := (hp.passing h).mpr rfl
  rcases Pc.passing_iff.mp hpassing with hpc | hpc
  · -- before the first store
    have hholders : s.holders = {h} := by
      ext u
      rw [mem_holders hs, hp.token, Finset.mem_singleton]
      exact and_iff_left hpc
    have hnone : s.handingOn = ∅ := by
      ext u
      rw [mem_handingOn]
      refine iff_of_false (fun hset => ?_) (Finset.notMem_empty u)
      have hu := (hp.passing u).mp (Pc.passing_iff.mpr (Or.inr hset))
      rw [hu, hpc] at hset
      cases hset
    rw [hholders, hnone, Finset.card_singleton, Finset.card_empty]
  · -- between the two stores
    have hholders : s.holders = ∅ := by
      ext u
      rw [mem_holders hs, hp.token, hpc]
      simp
    have hone : s.handingOn = {h} := by
      ext u
      rw [mem_handingOn, Finset.mem_singleton]
      refine ⟨fun hset => (hp.passing u).mp (Pc.passing_iff.mpr (Or.inr hset)), ?_⟩
      rintro rfl
      exact hpc
    rw [hholders, hone, Finset.card_singleton, Finset.card_empty]

/-! ## Receipts and hand-offs of a run -/

/-- Thread `u` finds its token set. -/
def isReceipt (u : Fin N) (x : Trans (State F P N) (Action P N)) : Bool :=
  match x.act with
  | .startOp i _ => decide (i = u ∧ (x.pre.threadData u).token ≠ 0)
  | _ => false

/-- Thread `u` sets the token of the next thread. -/
def isPass (u : Fin N) (x : Trans (State F P N) (Action P N)) : Bool :=
  match x.act with
  | .run i => decide (i = u ∧ x.pre.pc u = .setNext)
  | _ => false

omit [F64 F] [DecidableEq P] in
theorem isReceipt_iff {u : Fin N} {x : Trans (State F P N) (Action P N)} :
    isReceipt u x = true
      ↔ (∃ readOnly, x.act = .startOp u readOnly) ∧ (x.pre.threadData u).token ≠ 0 := by
  unfold isReceipt
  split
  · rename_i i readOnly hact
    rw [decide_eq_true_iff, hact]
    constructor
    · rintro ⟨rfl, ht⟩
      exact ⟨⟨readOnly, rfl⟩, ht⟩
    · rintro ⟨⟨readOnly', h⟩, ht⟩
      cases h
      exact ⟨rfl, ht⟩
  · rename_i hact
    exact iff_of_false Bool.false_ne_true (fun h => h.1.elim (fun readOnly => hact u readOnly))

omit [F64 F] [DecidableEq P] in
theorem isPass_iff {u : Fin N} {x : Trans (State F P N) (Action P N)} :
    isPass u x = true ↔ x.act = .run u ∧ x.pre.pc u = .setNext := by
  unfold isPass
  split
  · rename_i i hact
    rw [decide_eq_true_iff, hact, Action.run.injEq]
  · rename_i hact
    exact iff_of_false Bool.false_ne_true (fun h => hact u h.1)

/-- What a receipt does. -/
theorem step_receipt {s s' : State F P N} {u : Fin N} {readOnly : Bool}
    (h : step m s (.startOp u readOnly) = some s') (ht : (s.threadData u).token ≠ 0) :
    s.pc u = .idle ∧ s' = s.begin u readOnly .clearToken := by
  cases step_cases h with
  | receive _ _ hpc _ => exact ⟨hpc, rfl⟩
  | start _ _ _ h0 => exact absurd h0 ht

/-- A receipt is counted when it happens. -/
theorem receipts_step_eq {s s' : State F P N} {a : Action P N} (h : step m s a = some s')
    (u : Fin N) : s'.receipts u = s.receipts u + if isReceipt u ⟨s, a, s'⟩ then 1 else 0 := by
  by_cases hr : isReceipt u ⟨s, a, s'⟩ = true
  · obtain ⟨⟨readOnly, rfl⟩, ht⟩ := isReceipt_iff.mp hr
    obtain ⟨hpc, rfl⟩ := step_receipt h ht
    rw [if_pos hr, receipts_begin readOnly hpc, if_pos rfl]
  · rw [if_neg hr, Nat.add_zero]
    rcases receipts_step (step_cases h) u with hsame | ⟨hstart, -, ht, -⟩
    · exact hsame
    · exact absurd (isReceipt_iff.mpr ⟨hstart, ht⟩) hr

omit [F64 F] in
theorem tokenCount_update {data : Fin N → ThreadData F} {i : Fin N} {td : ThreadData F}
    (h : td.tokenCount = (data i).tokenCount) (u : Fin N) :
    (Function.update data i td u).tokenCount = (data u).tokenCount := by
  by_cases hu : u = i
  · rw [hu, Function.update_self, h]
  · rw [Function.update_of_ne hu]

/-- A hand-off is counted when it is complete. -/
theorem tokenCount_step_eq {s s' : State F P N} {a : Action P N} (h : step m s a = some s')
    (u : Fin N) : (s'.threadData u).tokenCount
      = (s.threadData u).tokenCount + if isPass u ⟨s, a, s'⟩ then 1 else 0 := by
  have hno : ∀ {i : Fin N} {p : Pc}, s.pc i = p → p ≠ .setNext →
      ¬ isPass u (⟨s, .run i, s'⟩ : Trans (State F P N) (Action P N)) = true := by
    intro i p hpc hp hpass
    obtain ⟨hact, hset⟩ := isPass_iff.mp hpass
    cases hact
    exact hp (hpc.symm.trans hset)
  cases step_cases h with
  | receive i readOnly hpc ht => exact tokenCount_update (ThreadData.countOp_tokenCount _ _) u
  | start i readOnly hpc ht => exact tokenCount_update (ThreadData.countOp_tokenCount _ _) u
  | clear i hpc =>
      rw [if_neg (hno hpc (by decide))]
      refine tokenCount_update (i := i) ?_ u
      rfl
  | pass i hpc =>
      rw [passed_tokenCount]
      congr 1
      by_cases hu : u = i
      · rw [if_pos hu, if_pos (isPass_iff.mpr ⟨by rw [hu], hu ▸ hpc⟩)]
      · rw [if_neg hu, if_neg (fun hpass => hu (Action.run.inj (isPass_iff.mp hpass).1).symm)]
  | select i hpc =>
      rw [if_neg (hno hpc (by decide))]
      exact tokenCount_update (ThreadData.select_tokenCount _) u
  | enter i k hpc => rw [if_neg (hno hpc Pc.noConfusion), Nat.add_zero]
  | rotate | poolAdd | retire | endOp => rfl

/-! ## A round of the ring -/

/-- Between two receipts by thread `i`, with no other in between, each of the other threads
receives the token once and hands it on once. -/
theorem count_round {s : State F P N} {tr₁ tr₂ tr₃ : List (Trans (State F P N) (Action P N))}
    {x y : Trans (State F P N) (Action P N)}
    (h : Run (step m) (init F P N) (tr₁ ++ x :: tr₂ ++ y :: tr₃) s) {i : Fin N}
    (hx : isReceipt i x = true) (hy : isReceipt i y = true)
    (hbetween : ∀ z ∈ tr₂, isReceipt i z = false) {u : Fin N} (hu : u ≠ i) :
    tr₂.countP (isReceipt u) = 1 ∧ tr₂.countP (isPass u) = 1 := by
  have hN : 0 < N := i.pos
  obtain ⟨hbefore, hstepy, -⟩ := h.split
  obtain ⟨hpre, hstepx, hmid⟩ := hbefore.split
  -- the two receipts, each with the count of all receipts before it
  obtain ⟨⟨readOnly, hactx⟩, htx⟩ := isReceipt_iff.mp hx
  obtain ⟨⟨readOnly', hacty⟩, hty⟩ := isReceipt_iff.mp hy
  obtain ⟨hpcx, -⟩ := step_receipt (hactx ▸ hstepx) htx
  obtain ⟨hpcy, -⟩ := step_receipt (hacty ▸ hstepy) hty
  obtain ⟨k, hwx, hik⟩ := (ringInv_run hpre).waiting hpcx htx
  obtain ⟨k', hwy, hik'⟩ := (ringInv_run hbefore).waiting hpcy hty
  -- the receipts and the hand-offs of any thread between the two
  have hreceipts : ∀ v, y.pre.receipts v = x.pre.receipts v
      + (if isReceipt v x then 1 else 0) + tr₂.countP (isReceipt v) := by
    intro v
    rw [hmid.eq_add_countP (fun s => s.receipts v) (isReceipt v)
      (fun _ _ _ hs => receipts_step_eq hs v), receipts_step_eq hstepx v]
  have hpasses : (y.pre.threadData u).tokenCount
      = (x.pre.threadData u).tokenCount + tr₂.countP (isPass u) := by
    have hnot : ¬ isPass u x = true := by
      intro hpass
      have hrun := (isPass_iff.mp hpass).1
      rw [hactx] at hrun
      cases hrun
    rw [hmid.eq_add_countP (fun s => (s.threadData u).tokenCount) (isPass u)
      (fun _ _ _ hs => tokenCount_step_eq hs u), tokenCount_step_eq hstepx u, if_neg hnot,
      Nat.add_zero]
  -- `i` has received once, so the token has gone round once
  have hround : k' = k + N := by
    refine next_turn hik.symm hik'.symm ?_
    rw [← hwy.receipts i, ← hwx.receipts i, hreceipts i, if_pos hx,
      List.countP_eq_zero.mpr (fun z hz => by rw [hbetween z hz]; exact Bool.false_ne_true)]
  have hxu : ¬ isReceipt u x = true := by
    intro hrec
    obtain ⟨⟨_, hact⟩, -⟩ := isReceipt_iff.mp hrec
    rw [hactx] at hact
    cases hact
    exact hu rfl
  have hone : y.pre.receipts u = x.pre.receipts u + 1 := by
    rw [hwy.receipts u, hwx.receipts u, hround, received_add_round hN]
  -- at both ends nobody is handing the token on, so all hand-offs are complete
  have hlevel : ∀ {s : State F P N} {k : Nat}, Waiting s k →
      s.receipts u = (s.threadData u).tokenCount := by
    intro s k hw
    rw [State.receipts, hw.passing u]
    rfl
  constructor
  · have := hreceipts u
    rw [if_neg hxu] at this
    omega
  · rw [hlevel hwy, hlevel hwx] at hone
    omega

/-- **There is exactly one token**: the flags that are set and the threads between the two stores
of the hand-off add up to one in every reachable state, so that no two threads hold the token
together; and between two consecutive receipts of a thread every other thread has received the
token and handed it on exactly once. -/
theorem token_unique (hN : 0 < N) {s : State F P N}
    {tr : List (Trans (State F P N) (Action P N))} (h : Run (step m) (init F P N) tr s) :
    s.holders.card + s.handingOn.card = 1
      ∧ (∀ u v, (s.threadData u).token ≠ 0 → (s.threadData v).token ≠ 0 → u = v)
      ∧ ∀ tr₁ x tr₂ y tr₃, tr = tr₁ ++ x :: tr₂ ++ y :: tr₃ →
          ∀ i, isReceipt i x = true → isReceipt i y = true →
            (∀ z ∈ tr₂, isReceipt i z = false) →
            ∀ u, u ≠ i → tr₂.countP (isReceipt u) = 1 ∧ tr₂.countP (isPass u) = 1 := by
  have hflag := flagInv_run h
  have hcard : s.holders.card + s.handingOn.card = 1 := by
    obtain ⟨k, hw | ⟨i, hp⟩⟩ := ringInv_run h
    · exact hw.card hflag hN
    · exact hp.card hflag
  refine ⟨hcard, fun u v hu hv => ?_, ?_⟩
  · have hle : s.holders.card ≤ 1 := by omega
    exact Finset.card_le_one.mp hle u ((mem_holders hflag).mpr hu) v ((mem_holders hflag).mpr hv)
  · rintro tr₁ x tr₂ y tr₃ rfl i hx hy hbetween u hu
    exact count_round h hx hy hbetween hu

end

/-- An operation of thread `i` that finds its token set, for one record type. -/
def turn {N : Nat} (i : Fin N) : List (Action ℕ N) :=
  [.startOp i false, .run i, .run i, .rotate i 0, .run i, .run i, .endOp i]

theorem token_unique_round :
    ∃ tr s, Run (step 1) (init ℚ ℕ 2) tr s ∧ tr.countP (isReceipt 0) = 2
      ∧ s.holders.card + s.handingOn.card = 1
      ∧ (∀ u v, (s.threadData u).token ≠ 0 → (s.threadData v).token ≠ 0 → u = v)
      ∧ ∀ tr₁ x tr₂ y tr₃, tr = tr₁ ++ x :: tr₂ ++ y :: tr₃ →
          ∀ i, isReceipt i x = true → isReceipt i y = true →
            (∀ z ∈ tr₂, isReceipt i z = false) →
            ∀ u, u ≠ i → tr₂.countP (isReceipt u) = 1 ∧ tr₂.countP (isPass u) = 1 := by
  obtain ⟨tr, s, hrun, hp⟩ := exists_run_of_replay (step 1) (init ℚ ℕ 2)
    (turn 0 ++ turn 1 ++ turn 0) (fun tr _ => decide (tr.countP (isReceipt 0) = 2))
    (by decide +kernel)
  exact ⟨tr, s, hrun, of_decide_eq_true hp, token_unique (by decide) hrun⟩

end Pacer.Reclaimer
