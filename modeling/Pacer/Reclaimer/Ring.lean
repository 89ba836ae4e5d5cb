import Pacer.Reclaimer.Model
import Pacer.Lib.TokenRing

set_option autoImplicit false

/-! # The token ring of the reclaimer

What a step of the reclaimer can do, and the invariant of the token: the receipts go round the
threads in order, and between two of them at most one thread is handing the token on. A receipt
counts from the read of the token, so the thread that is handing it on is one ahead of its
`tokenCount`.
-/

namespace Pacer.Reclaimer

open Machine TokenRing

/-- The thread has read its token and not yet stored that of the next thread. -/
def Pc.passing : Pc → Bool
  | .clearToken | .setNext => true
  | _ => false

@[simp] theorem rotateFrom_passing (m j : Nat) : (rotateFrom m j).passing = false := by
  unfold rotateFrom
  split <;> rfl

section

variable {F P : Type} [F64 F] [DecidableEq P] {N : Nat} {m : Nat}

/-! ## Inversion of a step -/

/-- The state in which thread `i` has the data `td` and goes on at `q`. -/
def State.advance (s : State F P N) (i : Fin N) (td : ThreadData F) (q : Pc) : State F P N :=
  { s with threadData := Function.update s.threadData i td, pc := Function.update s.pc i q }

/-- The state in which thread `i` begins an operation. -/
def State.begin (s : State F P N) (i : Fin N) (readOnly : Bool) (q : Pc) : State F P N :=
  { s.advance i ((s.threadData i).countOp readOnly) q with
    begun := Function.update s.begun i (s.begun i + 1) }

/-- The data after thread `i` has stored the token of the next thread. -/
def State.passed (s : State F P N) (i : Fin N) : Fin N → ThreadData F :=
  let data := Function.update s.threadData (next i) { s.threadData (next i) with token := 1 }
  Function.update data i { data i with tokenCount := (data i).tokenCount + 1 }.resample

/-- The steps of the reclaimer, one constructor for each kind. -/
inductive Stepped (m : Nat) (s : State F P N) : Action P N → State F P N → Prop
  | receive (i : Fin N) (readOnly : Bool) (hpc : s.pc i = .idle)
      (ht : (s.threadData i).token ≠ 0) :
      Stepped m s (.startOp i readOnly) (s.begin i readOnly .clearToken)
  | start (i : Fin N) (readOnly : Bool) (hpc : s.pc i = .idle)
      (ht : (s.threadData i).token = 0) :
      Stepped m s (.startOp i readOnly) (s.begin i readOnly .select)
  | clear (i : Fin N) (hpc : s.pc i = .clearToken) :
      Stepped m s (.run i) (s.advance i { s.threadData i with token := 0 } .setNext)
  | pass (i : Fin N) (hpc : s.pc i = .setNext) :
      Stepped m s (.run i)
        { s with threadData := s.passed i, pc := Function.update s.pc i (rotateFrom m 0) }
  | rotate (i : Fin N) (j : Nat) (moved : Multiset (Node P N)) (hpc : s.pc i = .rotate j)
      (hm : moved ≤ (s.bags i j).last) :
      Stepped m s (.rotate i moved)
        { s with
          bags := s.setBags i j ((s.bags i j).rotateEpochBags moved)
          pc := Function.update s.pc i (rotateFrom m (j + 1)) }
  | select (i : Fin N) (hpc : s.pc i = .select) :
      Stepped m s (.run i)
        (s.advance i (s.threadData i).select.1 (.drain (s.threadData i).select.2))
  | poolAdd (i : Fin N) (k : Nat) (e : Node P N) (hpc : s.pc i = .drain (k + 1))
      (he : e ∈ (s.bags i 0).deamortizedFreeables) :
      Stepped m s (.poolAdd i e)
        { s with
          bags := s.setBags i 0 ((s.bags i 0).remove e)
          pc := Function.update s.pc i (.drain k)
          pool := e ::ₘ s.pool }
  | enter (i : Fin N) (k : Nat) (hpc : s.pc i = .drain k) :
      Stepped m s (.run i) { s with pc := Function.update s.pc i .body }
  | retire (i : Fin N) (j : Nat) (ptr : P) (hpc : s.pc i = .body) :
      Stepped m s (.retire i j ptr)
        { s with bags := s.setBags i j ((s.bags i j).retire (s.node ptr)) }
  | endOp (i : Fin N) (hpc : s.pc i = .body) :
      Stepped m s (.endOp i) { s with pc := Function.update s.pc i .idle }

/-- **Inversion of a step.** -/
theorem step_cases {s s' : State F P N} {a : Action P N} (h : step m s a = some s') :
    Stepped m s a s' := by
  cases a with
  | startOp i readOnly =>
      simp only [step] at h
      split at h
      · rename_i hpc
        by_cases ht : (s.threadData i).token = 0
        · rw [if_neg (not_not.mpr ht)] at h
          cases h
          exact .start i readOnly hpc ht
        · rw [if_pos ht] at h
          cases h
          exact .receive i readOnly hpc ht
      · cases h
  | run i =>
      simp only [step] at h
      cases hpc : s.pc i with
      | clearToken => rw [hpc] at h; cases h; exact .clear i hpc
      | setNext => rw [hpc] at h; cases h; exact .pass i hpc
      | select => rw [hpc] at h; cases h; exact .select i hpc
      | drain k =>
          rw [hpc] at h
          simp only [runStep] at h
          split at h
          · cases h; exact .enter i k hpc
          · cases h
      | idle | rotate | body => rw [hpc] at h; cases h
  | rotate i moved =>
      simp only [step] at h
      cases hpc : s.pc i with
      | rotate j =>
          rw [hpc] at h
          simp only at h
          split at h
          · rename_i hm
            cases h
            exact .rotate i j moved hpc hm
          · cases h
      | _ => rw [hpc] at h; cases h
  | poolAdd i e =>
      simp only [step] at h
      cases hpc : s.pc i with
      | drain k =>
          rw [hpc] at h
          cases k with
          | zero => cases h
          | succ k =>
              simp only at h
              split at h
              · rename_i he
                cases h
                exact .poolAdd i k e hpc he
              · cases h
      | _ => rw [hpc] at h; cases h
  | retire i j ptr =>
      simp only [step] at h
      split at h
      · rename_i hpc
        cases h
        exact .retire i j ptr hpc.1
      · cases h
  | endOp i =>
      simp only [step] at h
      split at h
      · rename_i hpc
        cases h
        exact .endOp i hpc
      · cases h

/-! ## Receipts -/

/-- The receipts of the token by thread `u`, one in progress included. -/
def State.receipts (s : State F P N) (u : Fin N) : Nat :=
  (s.threadData u).tokenCount + if (s.pc u).passing then 1 else 0

omit [DecidableEq P] in
theorem passed_tokenCount (s : State F P N) (i u : Fin N) :
    (s.passed i u).tokenCount = (s.threadData u).tokenCount + if u = i then 1 else 0 := by
  by_cases hu : u = i
  · subst hu
    by_cases hn : u = next u
    · simp [State.passed, ← hn]
    · simp [State.passed, Function.update_of_ne hn]
  · by_cases hn : u = next i
    · subst hn
      simp [State.passed, hu]
    · simp [State.passed, Function.update_of_ne hn, hu]

omit [DecidableEq P] in
theorem passed_token (s : State F P N) (i u : Fin N) :
    (s.passed i u).token = if u = next i then 1 else (s.threadData u).token := by
  by_cases hu : u = i
  · subst hu
    by_cases hn : u = next u
    · simp [State.passed, ← hn]
    · simp [State.passed, hn]
  · by_cases hn : u = next i
    · subst hn
      simp [State.passed, Function.update_of_ne hu]
    · simp [State.passed, Function.update_of_ne hu, hn]

/-! ## Steps that leave the ring alone -/

/-- The tokens, the receipts and who is handing the token on are the same in both states. -/
structure SameRing (s s' : State F P N) : Prop where
  token : ∀ u, (s'.threadData u).token = (s.threadData u).token
  tokenCount : ∀ u, (s'.threadData u).tokenCount = (s.threadData u).tokenCount
  passing : ∀ u, (s'.pc u).passing = (s.pc u).passing
  clear : ∀ u, s'.pc u = .clearToken ↔ s.pc u = .clearToken

theorem ne_clearToken {p : Pc} (h : p.passing = false) : p ≠ .clearToken := by
  rintro rfl
  cases h

omit [F64 F] [DecidableEq P] in
theorem SameRing.receipts {s s' : State F P N} (h : SameRing s s') (u : Fin N) :
    s'.receipts u = s.receipts u := by
  simp only [State.receipts, h.tokenCount, h.passing]

omit [F64 F] [DecidableEq P] in
/-- A step of thread `i` outside of handing the token on. -/
theorem sameRing_of_local {s s' : State F P N} {i : Fin N} {td : ThreadData F} {q : Pc}
    (hdata : s'.threadData = Function.update s.threadData i td)
    (hpc : s'.pc = Function.update s.pc i q)
    (ht : td.token = (s.threadData i).token) (hc : td.tokenCount = (s.threadData i).tokenCount)
    (hp : (s.pc i).passing = false) (hq : q.passing = false) : SameRing s s' := by
  constructor <;> intro u <;> by_cases hu : u = i
  · subst hu
    rw [hdata, Function.update_self, ht]
  · rw [hdata, Function.update_of_ne hu]
  · subst hu
    rw [hdata, Function.update_self, hc]
  · rw [hdata, Function.update_of_ne hu]
  · subst hu
    rw [hpc, Function.update_self, hp, hq]
  · rw [hpc, Function.update_of_ne hu]
  · subst hu
    rw [hpc, Function.update_self]
    exact iff_of_false (ne_clearToken hq) (ne_clearToken hp)
  · rw [hpc, Function.update_of_ne hu]

/-- A step leaves the ring alone, or it is the read of a token or one of the two stores. -/
theorem ring_step_cases {s s' : State F P N} {a : Action P N} (h : Stepped m s a s') :
    SameRing s s'
      ∨ (∃ i readOnly, a = .startOp i readOnly ∧ s.pc i = .idle
          ∧ (s.threadData i).token ≠ 0 ∧ s' = s.begin i readOnly .clearToken)
      ∨ (∃ i, s.pc i = .clearToken
          ∧ s' = s.advance i { s.threadData i with token := 0 } .setNext)
      ∨ ∃ i, s.pc i = .setNext
          ∧ s' = { s with
              threadData := s.passed i, pc := Function.update s.pc i (rotateFrom m 0) } := by
  cases h with
  | receive i readOnly hpc ht => exact Or.inr (Or.inl ⟨i, readOnly, rfl, hpc, ht, rfl⟩)
  | clear i hpc => exact Or.inr (Or.inr (Or.inl ⟨i, hpc, rfl⟩))
  | pass i hpc => exact Or.inr (Or.inr (Or.inr ⟨i, hpc, rfl⟩))
  | start i readOnly hpc ht =>
      exact Or.inl (sameRing_of_local rfl rfl (ThreadData.countOp_token _ _)
        (ThreadData.countOp_tokenCount _ _) (by rw [hpc]; rfl) rfl)
  | rotate i j moved hpc hm =>
      exact Or.inl (sameRing_of_local (Function.update_eq_self i _).symm rfl rfl rfl
        (by rw [hpc]; rfl) (rotateFrom_passing _ _))
  | select i hpc =>
      exact Or.inl (sameRing_of_local rfl rfl (ThreadData.select_token _)
        (ThreadData.select_tokenCount _) (by rw [hpc]; rfl) rfl)
  | poolAdd i k e hpc he =>
      exact Or.inl (sameRing_of_local (Function.update_eq_self i _).symm rfl rfl rfl
        (by rw [hpc]; rfl) rfl)
  | enter i k hpc =>
      exact Or.inl (sameRing_of_local (Function.update_eq_self i _).symm rfl rfl rfl
        (by rw [hpc]; rfl) rfl)
  | retire i j ptr hpc =>
      have hp : (s.pc i).passing = false := by rw [hpc]; rfl
      exact Or.inl (sameRing_of_local (Function.update_eq_self i _).symm
        (Function.update_eq_self i _).symm rfl rfl hp hp)
  | endOp i hpc =>
      exact Or.inl (sameRing_of_local (Function.update_eq_self i _).symm rfl rfl rfl
        (by rw [hpc]; rfl) rfl)

/-! ## The three steps of the token -/

omit [F64 F] [DecidableEq P] in
theorem receipts_begin {s : State F P N} {i : Fin N} (readOnly : Bool) (hpc : s.pc i = .idle)
    (u : Fin N) :
    (s.begin i readOnly .clearToken).receipts u = s.receipts u + if u = i then 1 else 0 := by
  by_cases hu : u = i
  · subst hu
    simp [State.receipts, State.begin, State.advance, hpc, Pc.passing]
  · simp [State.receipts, State.begin, State.advance, hu]

omit [F64 F] [DecidableEq P] in
theorem receipts_clear {s : State F P N} {i : Fin N} (hpc : s.pc i = .clearToken) (u : Fin N) :
    (s.advance i { s.threadData i with token := 0 } .setNext).receipts u = s.receipts u := by
  by_cases hu : u = i
  · subst hu
    simp [State.receipts, State.advance, hpc, Pc.passing]
  · simp [State.receipts, State.advance, hu]

omit [DecidableEq P] in
theorem receipts_pass {s : State F P N} {i : Fin N} (hpc : s.pc i = .setNext) (u : Fin N) :
    ({ s with threadData := s.passed i, pc := Function.update s.pc i (rotateFrom m 0) } :
      State F P N).receipts u = s.receipts u := by
  by_cases hu : u = i
  · subst hu
    have hp : (s.pc u).passing = true := by rw [hpc]; rfl
    simp [State.receipts, passed_tokenCount, hp]
  · simp [State.receipts, passed_tokenCount, hu]

/-- Only a thread that reads its token receives it. -/
theorem receipts_step {s s' : State F P N} {a : Action P N} (h : Stepped m s a s') (u : Fin N) :
    s'.receipts u = s.receipts u
      ∨ (∃ readOnly, a = .startOp u readOnly) ∧ s.pc u = .idle
        ∧ (s.threadData u).token ≠ 0 ∧ s'.receipts u = s.receipts u + 1 := by
  rcases ring_step_cases h with hsame | ⟨i, readOnly, rfl, hpc, ht, rfl⟩ | ⟨i, hpc, rfl⟩
    | ⟨i, hpc, rfl⟩
  · exact Or.inl (hsame.receipts u)
  · rw [receipts_begin readOnly hpc]
    by_cases hu : u = i
    · subst hu
      exact Or.inr ⟨⟨readOnly, rfl⟩, hpc, ht, by simp⟩
    · exact Or.inl (by simp [hu])
  · exact Or.inl (receipts_clear hpc u)
  · exact Or.inl (receipts_pass hpc u)

/-! ## The invariant of the token -/

/-- Nobody is handing the token on, after `k` receipts. -/
structure Waiting (s : State F P N) (k : Nat) : Prop where
  receipts : ∀ u, s.receipts u = received N k u
  passing : ∀ u, (s.pc u).passing = false
  token : ∀ u, (s.threadData u).token ≠ 0 ↔ u.val = k % N

/-- Thread `h` has received the token after `k` receipts and is handing it on. -/
structure Passing (s : State F P N) (k : Nat) (h : Fin N) : Prop where
  turn : h.val = k % N
  receipts : ∀ u, s.receipts u = received N (k + 1) u
  passing : ∀ u, (s.pc u).passing = true ↔ u = h
  token : ∀ u, (s.threadData u).token ≠ 0 ↔ u = h ∧ s.pc h = .clearToken

def RingInv (s : State F P N) : Prop := ∃ k, Waiting s k ∨ ∃ h, Passing s k h

omit [DecidableEq P] in
theorem ringInv_init : RingInv (init F P N) := by
  refine ⟨0, Or.inl ⟨fun u => ?_, fun u => rfl, fun u => ?_⟩⟩
  · simp [State.receipts, init, ThreadData.new, Pc.passing]
  · simp [init, ThreadData.new]

section

omit [F64 F] [DecidableEq P]

theorem SameRing.ringInv {s s' : State F P N} (h : SameRing s s') (hs : RingInv s) :
    RingInv s' := by
  obtain ⟨k, hw | ⟨i, hp⟩⟩ := hs
  · refine ⟨k, Or.inl ⟨fun u => ?_, fun u => ?_, fun u => ?_⟩⟩
    · rw [h.receipts, hw.receipts]
    · rw [h.passing, hw.passing]
    · rw [h.token, hw.token]
  · refine ⟨k, Or.inr ⟨i, hp.turn, fun u => ?_, fun u => ?_, fun u => ?_⟩⟩
    · rw [h.receipts, hp.receipts]
    · rw [h.passing, hp.passing]
    · rw [h.token, hp.token, h.clear]

/-- A thread that finds its token set is the next in the ring. -/
theorem RingInv.waiting {s : State F P N} (hs : RingInv s) {i : Fin N}
    (hpc : s.pc i = .idle) (ht : (s.threadData i).token ≠ 0) :
    ∃ k, Waiting s k ∧ i.val = k % N := by
  obtain ⟨k, hw | ⟨h, hp⟩⟩ := hs
  · exact ⟨k, hw, (hw.token i).mp ht⟩
  · -- a set token during a hand-off is that of the thread at its first store
    obtain ⟨rfl, hclear⟩ := (hp.token i).mp ht
    rw [hpc] at hclear
    cases hclear

/-- A thread that is handing the token on is the one of the invariant. -/
theorem RingInv.passing {s : State F P N} (hs : RingInv s) {i : Fin N}
    (hp : (s.pc i).passing = true) : ∃ k, Passing s k i := by
  obtain ⟨k, hw | ⟨h, hh⟩⟩ := hs
  · rw [hw.passing] at hp
    cases hp
  · obtain rfl := (hh.passing i).mp hp
    exact ⟨k, hh⟩

end

theorem received_succ_fin {k : Nat} {i : Fin N} (hi : i.val = k % N) (u : Fin N) :
    received N (k + 1) u = received N k u + if u = i then 1 else 0 := by
  rw [received_succ u.isLt, ← hi]
  simp only [Fin.ext_iff, eq_comm]

theorem ringInv_step {s s' : State F P N} {a : Action P N} (h : Stepped m s a s')
    (hs : RingInv s) : RingInv s' := by
  rcases ring_step_cases h with hsame | ⟨i, readOnly, rfl, hpc, ht, rfl⟩ | ⟨i, hpc, rfl⟩
    | ⟨i, hpc, rfl⟩
  · exact hsame.ringInv hs
  · -- the receipt: from now on `i` is handing the token on
    obtain ⟨k, hw, hi⟩ := hs.waiting hpc ht
    refine ⟨k, Or.inr ⟨i, hi, fun u => ?_, fun u => ?_, fun u => ?_⟩⟩
    · rw [receipts_begin readOnly hpc, hw.receipts, received_succ_fin hi]
    · by_cases hu : u = i
      · simp [State.begin, State.advance, hu, Pc.passing]
      · simp [State.begin, State.advance, hu, hw.passing]
    · by_cases hu : u = i
      · subst hu
        simp [State.begin, State.advance, ht]
      · have hne : u.val ≠ k % N := fun h => hu (Fin.ext (h.trans hi.symm))
        simpa [State.begin, State.advance, hu, hne] using hw.token u
  · obtain ⟨k, hp⟩ := hs.passing (i := i) (by rw [hpc]; rfl)
    -- the first store: no flag is set, and `i` is still handing the token on
    refine ⟨k, Or.inr ⟨i, hp.turn, fun u => ?_, fun u => ?_, fun u => ?_⟩⟩
    · rw [receipts_clear hpc, hp.receipts]
    · by_cases hu : u = i
      · simp [State.advance, hu, Pc.passing]
      · simpa [State.advance, hu] using hp.passing u
    · by_cases hu : u = i
      · simp [State.advance, hu]
      · simpa [State.advance, hu] using hp.token u
  · obtain ⟨k, hp⟩ := hs.passing (i := i) (by rw [hpc]; rfl)
    -- the second store: the next thread is waited for, which is `i` itself when `N` is one
    refine ⟨k + 1, Or.inl ⟨fun u => ?_, fun u => ?_, fun u => ?_⟩⟩
    · rw [receipts_pass hpc, hp.receipts]
    · by_cases hu : u = i
      · simp [hu]
      · simpa [hu] using hp.passing u
    · -- every token is 0 before the store
      have hzero : (s.threadData u).token = 0 := by
        by_contra hne
        have := ((hp.token u).mp hne).2
        rw [hpc] at this
        cases this
      have hnext : (next i).val = (k + 1) % N := by
        simp [next, hp.turn, Nat.add_mod]
      rw [passed_token, ← hnext, ← Fin.ext_iff]
      by_cases hu : u = next i
      · simp [hu]
      · simp [hu, hzero]

theorem ringInv_run {s : State F P N} {tr : List (Trans (State F P N) (Action P N))}
    (h : Run (step m) (init F P N) tr s) : RingInv s :=
  h.invariant ringInv_init (fun _ _ _ hI hs => ringInv_step (step_cases hs) hI)

end

end Pacer.Reclaimer
