import Pacer.Reclaimer.Ring

set_option autoImplicit false

/-! # One thread of the reclaimer

The controller of a single thread: `startOp` as one function on the thread's own data, and the
arrival of the token as the only thing other threads do to that data. `thread_simulates` says
that the data of every thread of the interleaved machine, read as if the `startOp` in progress
were complete, moves by these two actions only.
-/

namespace Pacer.Reclaimer

open Machine

section

variable {F : Type} [F64 F]

namespace ThreadData

/-- The branch of `startOp` for a set token: the hand-off and the sample. -/
def receive (td : ThreadData F) : ThreadData F :=
  if td.token ≠ 0 then
    let td := { td with token := 0 }
    { td with tokenCount := td.tokenCount + 1 }.resample
  else td

/-- `startOp`: the data it leaves and the number of nodes it then may hand over. -/
def startOp (td : ThreadData F) (readOnly : Bool) : ThreadData F × Nat :=
  (td.countOp readOnly).receive.select

/-- The store of the thread before in the ring. -/
def tokenArrives (td : ThreadData F) : ThreadData F := { td with token := 1 }

theorem receive_of_token {td : ThreadData F} (h : td.token ≠ 0) :
    td.receive = { td with token := 0, tokenCount := td.tokenCount + 1 }.resample := if_pos h

theorem receive_of_no_token {td : ThreadData F} (h : td.token = 0) : td.receive = td :=
  if_neg (not_not.mpr h)

/-! ## The token is read once

Nothing after the read of the token depends on it. -/

theorem resample_tokenArrives (td : ThreadData F) :
    td.tokenArrives.resample = td.resample.tokenArrives := by
  unfold resample tokenArrives
  dsimp only
  split <;> rfl

theorem select_tokenArrives (td : ThreadData F) :
    td.tokenArrives.select = (td.select.1.tokenArrives, td.select.2) := by
  unfold select tokenArrives
  dsimp only
  cases pacerSelectModeHyst td.spiEma td.gcMode with
  | conservativeHold => dsimp only; split <;> rfl
  | aggressiveEbr | amortisedFree => rfl

theorem select_tokenArrives_fst (td : ThreadData F) :
    td.tokenArrives.select.1 = td.select.1.tokenArrives := by
  rw [select_tokenArrives]

end ThreadData

/-! ## The controller as a machine -/

inductive ThreadAction where
  | startOp (readOnly : Bool)
  | tokenArrives

def threadStep (td : ThreadData F) : ThreadAction → Option (ThreadData F)
  | .startOp readOnly => some (td.startOp readOnly).1
  | .tokenArrives => some td.tokenArrives

end

/-! ## The threads of the interleaved machine -/

section

variable {F P : Type} [F64 F] [DecidableEq P] {N m : Nat}

/-- The data of a thread that has stopped at `p`, once it has completed its `startOp`. -/
def ThreadData.completed (td : ThreadData F) : Pc → ThreadData F
  | .clearToken => td.receive.select.1
  | .setNext => { td with tokenCount := td.tokenCount + 1 }.resample.select.1
  | .rotate _ | .select => td.select.1
  | .idle | .drain _ | .body => td

theorem ThreadData.completed_rotateFrom (td : ThreadData F) (j : Nat) :
    td.completed (rotateFrom m j) = td.select.1 := by
  unfold rotateFrom
  split <;> rfl

/-- The token may arrive at any point from the first store on. -/
theorem ThreadData.completed_tokenArrives (td : ThreadData F) {p : Pc} (hp : p ≠ .clearToken) :
    td.tokenArrives.completed p = (td.completed p).tokenArrives := by
  cases p with
  | clearToken => exact absurd rfl hp
  | setNext =>
      let counted : ThreadData F := { td with tokenCount := td.tokenCount + 1 }
      show counted.tokenArrives.resample.select.1 = _
      rw [resample_tokenArrives, select_tokenArrives]
      rfl
  | rotate | select =>
      show td.tokenArrives.select.1 = _
      rw [select_tokenArrives]
      rfl
  | idle | drain | body => rfl

/-- The data of thread `i`, once it has completed its `startOp`. -/
def State.completed (s : State F P N) (i : Fin N) : ThreadData F :=
  (s.threadData i).completed (s.pc i)

section

omit [DecidableEq P]

/-- A step of thread `i` in which its data goes through the rest of `startOp`. -/
theorem completed_update {s s' : State F P N} {i : Fin N} {td : ThreadData F} {q : Pc}
    (hdata : s'.threadData = Function.update s.threadData i td)
    (hpc : s'.pc = Function.update s.pc i q) (u : Fin N) :
    s'.completed u = if u = i then td.completed q else s.completed u := by
  unfold State.completed
  rw [hdata, hpc]
  by_cases hu : u = i
  · subst hu
    rw [if_pos rfl, Function.update_self, Function.update_self]
  · rw [if_neg hu, Function.update_of_ne hu, Function.update_of_ne hu]

/-- A step of thread `i` that does not change what its `startOp` will have done. -/
theorem completed_stutter {s s' : State F P N} {i : Fin N} {td : ThreadData F} {q : Pc}
    (hdata : s'.threadData = Function.update s.threadData i td)
    (hpc : s'.pc = Function.update s.pc i q) (h : td.completed q = s.completed i) (u : Fin N) :
    s'.completed u = s.completed u := by
  rw [completed_update hdata hpc]
  split
  · rename_i hu
    rw [h, hu]
  · rfl

/-- A step of thread `i` outside of its controller. -/
theorem completed_move {s s' : State F P N} {i : Fin N} {p q : Pc} (hp : s.pc i = p)
    (hdata : s'.threadData = s.threadData) (hpc : s'.pc = Function.update s.pc i q)
    (h : (s.threadData i).completed q = (s.threadData i).completed p) (u : Fin N) :
    s'.completed u = s.completed u := by
  refine completed_stutter (hdata.trans (Function.update_eq_self i _).symm) hpc ?_ u
  rw [State.completed, hp, h]

/-- The store of the token of the next thread. -/
theorem completed_pass {s : State F P N} {i : Fin N} (hring : RingInv s)
    (hpc : s.pc i = .setNext) (u : Fin N) :
    ({ s with threadData := s.passed i, pc := Function.update s.pc i (rotateFrom m 0) } :
        State F P N).completed u
      = if u = next i then (s.completed u).tokenArrives else s.completed u := by
  -- past its first store the thread has only to count, sample and select
  have hself : s.completed i = { s.threadData i with
      tokenCount := (s.threadData i).tokenCount + 1 }.resample.select.1 := by
    rw [State.completed, hpc]
    rfl
  by_cases hu : u = i
  · subst hu
    show (s.passed u u).completed (Function.update s.pc u (rotateFrom m 0) u) = _
    rw [Function.update_self, ThreadData.completed_rotateFrom, hself]
    by_cases hn : u = next u
    · -- the thread passes the token to itself
      rw [if_pos hn, ← ThreadData.select_tokenArrives_fst, ← ThreadData.resample_tokenArrives]
      simp only [State.passed, ← hn, Function.update_self]
      rfl
    · rw [if_neg hn]
      simp only [State.passed, Function.update_self, Function.update_of_ne hn]
  · show (s.passed i u).completed (Function.update s.pc i (rotateFrom m 0) u) = _
    rw [Function.update_of_ne hu]
    by_cases hn : u = next i
    · -- only the thread that hands on has a token to clear
      have hnot : s.pc u ≠ .clearToken := by
        obtain ⟨k, hp⟩ := hring.passing (i := i) (by rw [hpc]; rfl)
        intro hclear
        exact hu ((hp.passing u).mp (by rw [hclear]; rfl))
      rw [if_pos hn, State.completed, ← ThreadData.completed_tokenArrives _ hnot]
      subst hn
      simp only [State.passed, Function.update_of_ne hu, Function.update_self]
      rfl
    · rw [if_neg hn]
      simp only [State.passed, Function.update_of_ne hu, Function.update_of_ne hn]
      rfl

end

/-- A thread moves by a `startOp` of its own or the arrival of its token. -/
theorem completed_step {s s' : State F P N} {a : Action P N} (hring : RingInv s)
    (h : Stepped m s a s') (u : Fin N) :
    s'.completed u = s.completed u ∨ ∃ b, threadStep (s.completed u) b = some (s'.completed u) := by
  have hidle : ∀ {i : Fin N}, s.pc i = .idle → s.completed i = s.threadData i := by
    intro i hpc
    rw [State.completed, hpc]
    rfl
  cases h with
  | receive i readOnly hpc ht =>
      rw [completed_update (i := i) (q := .clearToken) rfl rfl]
      by_cases hu : u = i
      · subst hu
        right
        refine ⟨.startOp readOnly, ?_⟩
        rw [if_pos rfl, hidle hpc]
        rfl
      · exact Or.inl (if_neg hu)
  | start i readOnly hpc ht =>
      rw [completed_update (i := i) (q := .select) rfl rfl]
      by_cases hu : u = i
      · subst hu
        right
        refine ⟨.startOp readOnly, ?_⟩
        have hno : ((s.threadData u).countOp readOnly).receive
            = (s.threadData u).countOp readOnly :=
          ThreadData.receive_of_no_token (by rw [ThreadData.countOp_token]; exact ht)
        rw [if_pos rfl, hidle hpc]
        show some ((s.threadData u).countOp readOnly).receive.select.1 = _
        rw [hno]
        rfl
      · exact Or.inl (if_neg hu)
  | clear i hpc =>
      -- the own token was read already, so its store changes nothing for the completed data
      left
      refine completed_stutter (i := i) (q := .setNext) rfl rfl ?_ u
      have ht : (s.threadData i).token ≠ 0 := by
        obtain ⟨k, hp⟩ := hring.passing (i := i) (by rw [hpc]; rfl)
        exact (hp.token i).mpr ⟨rfl, hpc⟩
      rw [State.completed, hpc]
      show _ = (s.threadData i).receive.select.1
      rw [ThreadData.receive_of_token ht]
      rfl
  | pass i hpc =>
      -- for the next thread this store is the arrival of its token
      rw [completed_pass hring hpc]
      split
      · exact Or.inr ⟨.tokenArrives, rfl⟩
      · exact Or.inl rfl
  | rotate i j moved hpc hm =>
      exact Or.inl (completed_move hpc (by rfl) (by rfl) (ThreadData.completed_rotateFrom ..) u)
  | select i hpc =>
      left
      refine completed_stutter (i := i) (q := .drain _) rfl rfl ?_ u
      rw [State.completed, hpc]
      rfl
  | poolAdd i k e hpc he =>
      exact Or.inl (completed_move (q := .drain k) hpc (by rfl) (by rfl) rfl u)
  | enter i k hpc => exact Or.inl (completed_move (q := .body) hpc (by rfl) (by rfl) rfl u)
  | retire i j ptr hpc => exact Or.inl rfl
  | endOp i hpc => exact Or.inl (completed_move (q := .idle) hpc (by rfl) (by rfl) rfl u)

/-- **A thread among others**: in every run of the machine the data of each thread goes through
a run of the controller alone. -/
theorem thread_simulates {s : State F P N} {tr : List (Trans (State F P N) (Action P N))}
    (h : Run (step m) (init F P N) tr s) (i : Fin N) :
    ∃ tr', Run threadStep (ThreadData.new i.val : ThreadData F) tr' (s.completed i) :=
  h.simulates (I := RingInv) (fun s => s.completed i)
    (fun _ _ _ hI hs => ringInv_step (step_cases hs) hI)
    (fun _ _ _ hI hs => completed_step hI (step_cases hs) i) ringInv_init

end

end Pacer.Reclaimer
