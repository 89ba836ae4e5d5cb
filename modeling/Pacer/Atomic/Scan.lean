import Pacer.Atomic.TableSteps

set_option autoImplicit false

/-! # One scan of the announcement table

`min_active_ts` loads the slots one after the other while other threads register, announce and
release. What it has found after `i` slots (`ScanFound`) is a lower bound of every slot below
`i` that kept its timestamp since the scan began, and a timestamp that one of them held in some
state since then. Every load keeps that (`ScanFound.load`), and with the last slot it is the
result (`scan_sound`).
-/

namespace Pacer.Atomic.TableState

open Machine

variable {T : Type} [DecidableEq T]

/-- What is known of the minimum after `i` slots, in a run along `tr` from the state `s₀` in which
the scan began. -/
structure ScanFound (s₀ : TableState T) (tr : List (Trans (TableState T) (TableAction T)))
    (i min : Nat) : Prop where
  source : min = u64Max ∨ min ≠ 0 ∧ ∃ j < i, ∃ r ∈ visited s₀ tr, r.tbl.slots j = min
  bound : ∀ j < i, ∀ ts, ts ≠ 0 → (∀ r ∈ visited s₀ tr, r.tbl.slots j = ts) → min ≤ ts

omit [DecidableEq T] in
theorem visited_append_left {s₀ r : TableState T}
    {tr l : List (Trans (TableState T) (TableAction T))} (h : r ∈ visited s₀ tr) :
    r ∈ visited s₀ (tr ++ l) := by
  simp only [visited, List.map_append, List.mem_cons, List.mem_append] at h ⊢
  tauto

/-- The last state of a run is visited. -/
theorem mem_visited_of_run {s₀ s : TableState T}
    {tr : List (Trans (TableState T) (TableAction T))} (h : Run step s₀ tr s) :
    s ∈ visited s₀ tr := by
  cases h with
  | nil => exact List.mem_cons_self
  | snoc _ _ => simp [visited]

section

omit [DecidableEq T]

theorem scanFound_init (s₀ : TableState T) : ScanFound s₀ [] 0 u64Max where
  source := Or.inl rfl
  bound := fun j hj => absurd hj (Nat.not_lt_zero j)

/-- A step of the run that is no load of the scan. -/
theorem ScanFound.append {s₀ : TableState T}
    {tr : List (Trans (TableState T) (TableAction T))} {i min : Nat}
    (h : ScanFound s₀ tr i min) (l : List (Trans (TableState T) (TableAction T))) :
    ScanFound s₀ (tr ++ l) i min := by
  refine ⟨?_, fun j hj ts hts hall => ?_⟩
  · rcases h.source with hmax | ⟨hne, j, hj, r, hr, hslot⟩
    · exact Or.inl hmax
    · exact Or.inr ⟨hne, j, hj, r, visited_append_left hr, hslot⟩
  · exact h.bound j hj ts hts (fun r hr => hall r (visited_append_left hr))

/-- **One load**: slot `i` is read in a visited state. -/
theorem ScanFound.load {s₀ s : TableState T}
    {tr : List (Trans (TableState T) (TableAction T))} {i min : Nat}
    (h : ScanFound s₀ tr i min) (hs : s ∈ visited s₀ tr) :
    ScanFound s₀ tr (i + 1) (AnnouncementTable.scanMin min (s.tbl.slots i)) := by
  refine ⟨?_, fun j hj ts hts hall => ?_⟩
  · unfold AnnouncementTable.scanMin
    split
    · -- the slot shows the new minimum
      rename_i hlt
      exact Or.inr ⟨hlt.1, i, Nat.lt_succ_self i, s, hs, rfl⟩
    · rcases h.source with hmax | ⟨hne, j, hj, r, hr, hslot⟩
      · exact Or.inl hmax
      · exact Or.inr ⟨hne, j, Nat.lt_succ_of_lt hj, r, hr, hslot⟩
  · by_cases hji : j = i
    · subst hji
      have hslot := hall s hs
      rw [← hslot] at hts ⊢
      exact AnnouncementTable.scanMin_le_right min hts
    · calc AnnouncementTable.scanMin min (s.tbl.slots i)
          ≤ min := AnnouncementTable.scanMin_le_left _ _
        _ ≤ ts := h.bound j (by omega) ts hts hall

end

/-! ## The scan along a run -/

/-- The scan of `t` over `n` slots that began in `s₀` has come to slot `i`, one slot with each
instruction of `t`. -/
structure Scanning (s₀ : TableState T) (t : T) (n : Nat)
    (tr : List (Trans (TableState T) (TableAction T))) (s : TableState T) (i min : Nat) :
    Prop where
  pc : s.pc t = .scanSlot n i min
  le : i ≤ n
  steps : tr.countP (isRun t) = i
  found : ScanFound s₀ tr i min

/-- What a step does to the program counter of a thread in a scan. -/
theorem scanning_pc_cases {s s' : TableState T} {a : TableAction T} {t : T} {n i min : Nat}
    (hids : ∀ u, ∀ j ∈ s.ids u, j < maxThreads) (h : step s a = some s')
    (hp : s.pc t = .scanSlot n i min) :
    (a ≠ .run t ∧ s'.pc t = s.pc t)
      ∨ (a = .run t ∧ s' = { s with pc := Function.update s.pc t (s.scanStep n i min) }) := by
  have hother : ∀ u, s.pc u = .idle → t ≠ u := by
    rintro u hu rfl
    rw [hu] at hp
    cases hp
  rcases step_cases h with ⟨u, rfl, hu, rfl⟩ | ⟨u, tid, ts, ha, hu, hid, -, rfl⟩
    | ⟨u, rfl, hu, rfl⟩ | ⟨u, n', i', min', rfl, hu, rfl⟩
  · exact Or.inl ⟨by simp, rfl⟩
  · rw [stored_store s u (hids u tid hid)]
    exact Or.inl ⟨by rcases ha with rfl | rfl <;> simp, rfl⟩
  · exact Or.inl ⟨by simp, Function.update_of_ne (hother u hu) ..⟩
  · by_cases htu : t = u
    · subst htu
      rw [hp] at hu
      cases hu
      exact Or.inr ⟨rfl, rfl⟩
    · refine Or.inl ⟨?_, Function.update_of_ne htu ..⟩
      intro hc
      exact htu (TableAction.run.inj hc).symm

/-- **The step lemma**: until the scan returns it goes on, unless its next slot is beyond the
table. -/
theorem scanning_step {s₀ s s' : TableState T} {t : T} {n i min : Nat} {a : TableAction T}
    {tr : List (Trans (TableState T) (TableAction T))} (h : Scanning s₀ t n tr s i min)
    (hids : ∀ u, ∀ j ∈ s.ids u, j < maxThreads) (hvis : s ∈ visited s₀ tr)
    (hs : step s a = some s') (hno : ∀ m, ¬ Returns ⟨s, a, s'⟩ t m) :
    (∃ i' min', Scanning s₀ t n (tr ++ [⟨s, a, s'⟩]) s' i' min')
      ∨ (s'.pc t = .panicked ∧ maxThreads < n) := by
  rcases scanning_pc_cases hids hs h.pc with ⟨hne, hp⟩ | ⟨rfl, rfl⟩
  · left
    refine ⟨i, min, hp.trans h.pc, h.le, ?_, h.found.append _⟩
    rw [List.countP_append, List.countP_singleton, h.steps]
    simp [isRun, hne]
  · have hlt : i < n := by
      by_contra hge
      exact hno min ⟨rfl, n, i, h.pc, hge⟩
    by_cases hmax : i < maxThreads
    · left
      refine ⟨i + 1, AnnouncementTable.scanMin min (s.tbl.slots i), ?_, hlt, ?_,
        (h.found.load hvis).append _⟩
      · simp [scanStep, AnnouncementTable.load, hlt, hmax]
      · rw [List.countP_append, List.countP_singleton, h.steps]
        simp [isRun]
    · right
      refine ⟨?_, by omega⟩
      simp [scanStep, AnnouncementTable.load, hlt, hmax]

/-- A panicked thread stays so. -/
theorem panicked_step {s s' : TableState T} {a : TableAction T} {t : T}
    (hids : ∀ u, ∀ j ∈ s.ids u, j < maxThreads) (h : step s a = some s')
    (hp : s.pc t = .panicked) : s'.pc t = .panicked := by
  have hother : ∀ u, s.pc u ≠ .panicked → t ≠ u := by
    rintro u hu rfl
    exact hu hp
  rcases step_cases h with ⟨u, -, hu, rfl⟩ | ⟨u, tid, ts, -, hu, hid, -, rfl⟩
    | ⟨u, -, hu, rfl⟩ | ⟨u, n, i, min, -, hu, rfl⟩
  · exact hp
  · rw [stored_store s u (hids u tid hid)]
    exact hp
  · exact (Function.update_of_ne (hother u (by simp [hu])) ..).trans hp
  · exact (Function.update_of_ne (hother u (by simp [hu])) ..).trans hp

/-- **The run lemma**: a scan that has not returned is at some slot, or it has panicked beyond
the last slot of the table. -/
theorem scanning_run {s₀ s : TableState T} {t : T} {n k : Nat}
    {tr : List (Trans (TableState T) (TableAction T))} (h : Run step s₀ tr s)
    (hinv : IdsInv k s₀) (h₀ : s₀.pc t = .scanSlot n 0 u64Max)
    (hno : ∀ x ∈ tr, ∀ m, ¬ Returns x t m) :
    (∃ i min, Scanning s₀ t n tr s i min) ∨ (s.pc t = .panicked ∧ maxThreads < n) := by
  induction h with
  | nil => exact Or.inl ⟨0, u64Max, h₀, Nat.zero_le n, rfl, scanFound_init s₀⟩
  | snoc hr hs ih =>
      rename_i s s' a tr
      obtain ⟨k', hk⟩ := exists_idsInv hr hinv
      have hlt : ∀ u, ∀ j ∈ s.ids u, j < maxThreads := fun u j hj => (hk.ids_lt u j hj).1
      rcases ih (fun x hx => hno x (List.mem_append_left _ hx)) with ⟨i, min, hscan⟩ | ⟨hp, hn⟩
      · exact scanning_step hscan hlt (mem_visited_of_run hr) hs (hno _ (by simp))
      · exact Or.inr ⟨panicked_step hlt hs hp, hn⟩

/-- A scan begins with nothing found. -/
theorem startsScan_post {x : Trans (TableState T) (TableAction T)} {t : T}
    (hs : step x.pre x.act = some x.post) (hx : StartsScan x t) :
    x.post.pc t = .scanSlot x.pre.tbl.activeCount 0 u64Max ∧ x.post.tbl = x.pre.tbl
      ∧ x.post.ids = x.pre.ids := by
  rw [show x.act = .minActiveTs t from hx] at hs
  obtain ⟨-, h⟩ := Option.ite_none_right_eq_some.mp hs
  rw [← Option.some.inj h]
  exact ⟨Function.update_self .., rfl, rfl⟩

/-- **The scan is a sound lower bound**, in every run: when a `min_active_ts` call returns, (i)
its result is at most the timestamp of every slot that was registered, i.e. below `active_count`,
when the call loaded the counter and that held this timestamp throughout, and (ii) the result is
`u64::MAX` or a nonzero timestamp that such a slot held at some moment of the scan. All ids that
`register` has returned by then are below the counter, until it wraps. -/
theorem scan_sound {s : TableState T} {tr : List (Trans (TableState T) (TableAction T))}
    (h : Run step (init T) tr s) :
    ∀ tr₁ c tr₂ x tr₃ t m, tr = tr₁ ++ c :: (tr₂ ++ x :: tr₃) → StartsScan c t →
      (∀ z ∈ tr₂, ∀ m, ¬ Returns z t m) → Returns x t m →
      (∀ i < c.pre.tbl.activeCount, ∀ ts, ts ≠ 0 →
        (∀ r ∈ visited c.post tr₂, r.tbl.slots i = ts) → m ≤ ts)
      ∧ (m = u64Max ∨ m ≠ 0 ∧ ∃ i < c.pre.tbl.activeCount, ∃ r ∈ visited c.post tr₂,
        r.tbl.slots i = m)
      ∧ (tr₁.countP isRegister < 2 ^ 32 → ∀ u, ∀ i ∈ c.pre.ids u, i < c.pre.tbl.activeCount) := by
  rintro tr₁ c tr₂ x tr₃ t m rfl hc hno ⟨-, n, i, hpx, hge⟩
  obtain ⟨h₁, hsc, hrest⟩ := h.split
  obtain ⟨h₂, -, -⟩ := hrest.split
  obtain ⟨hp, -, -⟩ := startsScan_post hsc hc
  have hinv := idsInv_step (idsInv_of_run h₁) hsc
  rcases scanning_run h₂ hinv hp hno with ⟨i', min, hscan⟩ | ⟨hpan, -⟩
  · -- the scan has come to its last slot
    have heq := hscan.pc
    rw [hpx, TablePc.scanSlot.injEq] at heq
    obtain ⟨rfl, rfl, rfl⟩ := heq
    have hin : i = c.pre.tbl.activeCount := le_antisymm hscan.le (by omega)
    exact ⟨hin ▸ hscan.found.bound, hin ▸ hscan.found.source,
      fun hwrap u j hj => (idsInv_of_run h₁).lt_activeCount hwrap hj⟩
  · rw [hpx] at hpan
    cases hpan

end Pacer.Atomic.TableState
