import Pacer.Atomic.Scan

set_option autoImplicit false

/-! # What a failed registration does to the table

`register` increments `active_count` before it checks the bound, and `min_active_ts` scans as
many slots as the counter says. As long as no registration has failed, a scan stays inside the
table, returns, and without interference returns the minimum of the announced timestamps. After
the first failed one every scan leaves the table, until the counter has wrapped and the scans
leave out slots instead (`registration_iff`).
-/

namespace Pacer.Atomic.TableState

open Machine

variable {T : Type} [DecidableEq T]

/-- `m` is the minimum nonzero timestamp over the slots that `register` has returned, `u64::MAX`
if there is none. -/
def IsMinAnnounced (s : TableState T) (m : Nat) : Prop :=
  (∀ u, ∀ j ∈ s.ids u, s.tbl.slots j ≠ 0 → m ≤ s.tbl.slots j)
    ∧ ((∃ u, ∃ j ∈ s.ids u, s.tbl.slots j = m ∧ m ≠ 0)
      ∨ m = u64Max ∧ ∀ u, ∀ j ∈ s.ids u, s.tbl.slots j = 0)

/-- What is asked of the `min_active_ts` call that `t` starts in `c`, in whichever way the run
goes on: as long as it has not returned it has not panicked, its next instruction is enabled, it
has performed no more of them than there are slots to load, and if nothing is stored meanwhile
it returns the minimum. -/
def ScanMeets (c : Trans (TableState T) (TableAction T)) (t : T) : Prop :=
  ∀ tr s, Run step c.post tr s → (∀ x ∈ tr, ∀ m, ¬ Returns x t m) →
    s.pc t ≠ .panicked ∧ (step s (.run t)).isSome = true
      ∧ tr.countP (isRun t) ≤ c.pre.tbl.activeCount
      ∧ ∀ m s', step s (.run t) = some s' → Returns ⟨s, .run t, s'⟩ t m →
        (∀ x ∈ tr, ¬ Stores x) → IsMinAnnounced s m

/-- The timestamps announced in slots that a scan leaves out do not lower the minimum. Before the
counter wraps there are none (`scanCovers_of_lt`). -/
def ScanCovers (s : TableState T) : Prop :=
  ∀ j, s.tbl.activeCount ≤ j → s.tbl.slots j ≠ 0 →
    s.tbl.slots j = u64Max
      ∨ ∃ i < s.tbl.activeCount, s.tbl.slots i ≠ 0 ∧ s.tbl.slots i ≤ s.tbl.slots j

omit [DecidableEq T] in
theorem scanCovers_of_lt {k : Nat} {s : TableState T} (h : IdsInv k s) (hk : k < 2 ^ 32) :
    ScanCovers s := by
  intro j hj hne
  obtain ⟨u, hu⟩ := h.slot_ids j hne
  exact absurd (h.lt_activeCount hk hu) (not_lt.mpr hj)

/-! ## Inside the table -/

/-- A step that is no store leaves the slots alone. -/
theorem slots_step {s s' : TableState T} {a : TableAction T} (h : step s a = some s')
    (hno : ¬ Stores ⟨s, a, s'⟩) : s'.tbl.slots = s.tbl.slots := by
  rcases step_cases h with ⟨t, -, -, rfl⟩ | ⟨t, tid, ts, ha, -⟩ | ⟨t, -, -, rfl⟩
    | ⟨t, n, i, min, -, -, rfl⟩
  · rfl
  · refine absurd ?_ hno
    rcases ha with rfl | rfl
    · exact ⟨t, tid, Or.inr ⟨ts, rfl⟩⟩
    · exact ⟨t, tid, Or.inl rfl⟩
  · rfl
  · rfl

/-- Without stores every visited state shows the same slots. -/
theorem slots_of_visited {s₀ s r : TableState T}
    {tr : List (Trans (TableState T) (TableAction T))} (h : Run step s₀ tr s)
    (hno : ∀ x ∈ tr, ¬ Stores x) (hr : r ∈ visited s₀ tr) : r.tbl.slots = s₀.tbl.slots := by
  obtain ⟨tr₁, tr₂, rfl, h₁⟩ := h.prefix_of_visited hr
  refine h₁.invariant_of (I := fun r => r.tbl.slots = s₀.tbl.slots) (C := fun x => ¬ Stores x)
    (fun x hx => hno x (List.mem_append_left _ hx)) rfl ?_
  exact fun s a s' hI hs hC => (slots_step hs hC).trans hI

omit [DecidableEq T] in
/-- The result of a scan is a `u64`. -/
theorem ScanFound.le_u64Max {k : Nat} {s₀ : TableState T}
    {tr : List (Trans (TableState T) (TableAction T))} {n min : Nat} (h : ScanFound s₀ tr n min)
    (hinv : IdsInv k s₀) (hsame : ∀ r ∈ visited s₀ tr, r.tbl.slots = s₀.tbl.slots) :
    min ≤ u64Max := by
  rcases h.source with hmax | ⟨-, j, -, r, hr, hslot⟩
  · exact le_of_eq hmax
  · rw [hsame r hr] at hslot
    exact hslot ▸ hinv.slot_le j

/-- The result of a scan that leaves nothing out, over slots whose values did not change. -/
theorem isMinAnnounced_of_found {k : Nat} {s₀ s : TableState T} {min : Nat}
    {tr : List (Trans (TableState T) (TableAction T))} (hrun : Run step s₀ tr s)
    (hno : ∀ x ∈ tr, ¬ Stores x) (hinv : IdsInv k s₀) (hcov : ScanCovers s₀)
    (hfound : ScanFound s₀ tr s₀.tbl.activeCount min) : IsMinAnnounced s min := by
  obtain ⟨k', hinv'⟩ := exists_idsInv hrun hinv
  have hsame : ∀ r ∈ visited s₀ tr, r.tbl.slots = s₀.tbl.slots :=
    fun r hr => slots_of_visited hrun hno hr
  have hs : s.tbl.slots = s₀.tbl.slots := hsame s (mem_visited_of_run hrun)
  have hbelow : ∀ j < s₀.tbl.activeCount, s₀.tbl.slots j ≠ 0 → min ≤ s₀.tbl.slots j :=
    fun j hj hne => hfound.bound j hj _ hne (fun r hr => congrFun (hsame r hr) j)
  have hle : ∀ j, s₀.tbl.slots j ≠ 0 → min ≤ s₀.tbl.slots j := by
    intro j hne
    by_cases hj : j < s₀.tbl.activeCount
    · exact hbelow j hj hne
    · rcases hcov j (not_lt.mp hj) hne with hmax | ⟨i, hi, hne', hle'⟩
      · rw [hmax]
        exact hfound.le_u64Max hinv hsame
      · exact le_trans (hbelow i hi hne') hle'
  refine ⟨fun u j _ hj => ?_, ?_⟩
  · rw [hs] at hj ⊢
    exact hle j hj
  · by_cases hall : ∀ j, s₀.tbl.slots j = 0
    · -- nothing is announced, so the minimum has no source
      refine Or.inr ⟨?_, fun u j _ => by rw [hs]; exact hall j⟩
      rcases hfound.source with hmax | ⟨hne, j, -, r, hr, hslot⟩
      · exact hmax
      · rw [hsame r hr, hall j] at hslot
        exact absurd hslot.symm hne
    · left
      push Not at hall
      obtain ⟨i, hi⟩ := hall
      have hsrc : ∃ j, s₀.tbl.slots j = min ∧ min ≠ 0 := by
        rcases hfound.source with hmax | ⟨hne, j, -, r, hr, hslot⟩
        · -- `u64::MAX` itself is announced
          have h₁ := hle i hi
          have h₂ := hinv.slot_le i
          have hi' : s₀.tbl.slots i = min := by omega
          exact ⟨i, hi', hi' ▸ hi⟩
        · exact ⟨j, (congrFun (hsame r hr) j).symm.trans hslot, hne⟩
      obtain ⟨j, hj, hne⟩ := hsrc
      rw [← hs] at hj
      obtain ⟨u, hu⟩ := hinv'.slot_ids j (hj ▸ hne)
      exact ⟨u, j, hu, hj, hne⟩

/-- The scan leaves the table as it is. -/
theorem idsInv_startsScan {k : Nat} {c : Trans (TableState T) (TableAction T)} {t : T}
    (hinv : IdsInv k c.pre) (hs : step c.pre c.act = some c.post) (hc : StartsScan c t) :
    IdsInv k c.post := by
  have hreg : isRegister c = false := by rw [isRegister, show c.act = .minActiveTs t from hc]
  have hpost := idsInv_step hinv hs
  rwa [show (⟨c.pre, c.act, c.post⟩ : Trans _ _) = c from rfl, hreg] at hpost

/-- A scan that loads a counter not above the size of the table, and leaves nothing out, meets
its purpose. -/
theorem scanMeets_of_covers {k : Nat} {c : Trans (TableState T) (TableAction T)} {t : T}
    (hinv : IdsInv k c.pre) (hs : step c.pre c.act = some c.post) (hc : StartsScan c t)
    (hle : c.pre.tbl.activeCount ≤ maxThreads) (hcov : ScanCovers c.pre) : ScanMeets c t := by
  intro tr s hrun hno
  obtain ⟨hp, htbl, -⟩ := startsScan_post hs hc
  have hpost : IdsInv k c.post := idsInv_startsScan hinv hs hc
  have hcov' : ScanCovers c.post := by
    unfold ScanCovers
    rw [htbl]
    exact hcov
  rcases scanning_run hrun hpost hp hno with ⟨i, min, hscan⟩ | ⟨-, hgt⟩
  · refine ⟨by simp [hscan.pc], by simp [step, hscan.pc], hscan.steps ▸ hscan.le, ?_⟩
    rintro m s' - ⟨-, n', i', hpc, hge⟩ hquiet
    have heq := hscan.pc
    simp only at hpc
    rw [hpc, TablePc.scanSlot.injEq] at heq
    obtain ⟨rfl, rfl, rfl⟩ := heq
    have hin : i' = c.post.tbl.activeCount := by
      rw [htbl]
      exact le_antisymm hscan.le (not_lt.mp hge)
    exact isMinAnnounced_of_found hrun hquiet hpost hcov' (hin ▸ hscan.found)
  · omega

/-! ## Beyond the table -/

/-- A thread alone in its scan comes to any slot of the table below the loaded counter. -/
theorem scan_alone {s₀ : TableState T} {t : T} {n : Nat}
    (h₀ : s₀.pc t = .scanSlot n 0 u64Max) (i : Nat) (hi : i ≤ n) (hmax : i ≤ maxThreads) :
    ∃ tr s min, Run step s₀ tr s ∧ s.pc t = .scanSlot n i min
      ∧ (∀ x ∈ tr, ∀ m, ¬ Returns x t m) ∧ ∀ x ∈ tr, ¬ Stores x := by
  induction i with
  | zero => exact ⟨[], s₀, u64Max, Run.nil, h₀, by simp, by simp⟩
  | succ i ih =>
      obtain ⟨tr, s, min, hrun, hp, hno, hquiet⟩ := ih (by omega) (by omega)
      have hstep : step s (.run t) = some { s with
          pc := Function.update s.pc t
            (.scanSlot n (i + 1) (AnnouncementTable.scanMin min (s.tbl.slots i))) } := by
        have hlt : i < n := by omega
        have hlt' : i < maxThreads := by omega
        simp [step, hp, scanStep, AnnouncementTable.load, hlt, hlt']
      refine ⟨_, _, _, Run.snoc hrun hstep, Function.update_self .., fun x hx m => ?_,
        fun x hx => ?_⟩
      · rcases List.mem_append.mp hx with hx | hx
        · exact hno x hx m
        · rw [List.mem_singleton.mp hx]
          rintro ⟨-, n', i', hp', hge⟩
          simp only at hp'
          rw [hp, TablePc.scanSlot.injEq] at hp'
          omega
      · rcases List.mem_append.mp hx with hx | hx
        · exact hquiet x hx
        · rw [List.mem_singleton.mp hx]
          rintro ⟨u, tid, hact | ⟨ts, hact⟩⟩ <;> cases hact

/-- A scan that loads a counter above the size of the table can run out of it. -/
theorem exists_panic {s₀ : TableState T} {t : T} {n : Nat}
    (h₀ : s₀.pc t = .scanSlot n 0 u64Max) (hn : maxThreads < n) :
    ∃ tr s, Run step s₀ tr s ∧ s.pc t = .panicked ∧ ∀ x ∈ tr, ∀ m, ¬ Returns x t m := by
  obtain ⟨tr, s, min, hrun, hp, hno, -⟩ := scan_alone h₀ maxThreads (le_of_lt hn) le_rfl
  have hstep : step s (.run t) = some { s with pc := Function.update s.pc t .panicked } := by
    simp [step, hp, scanStep, AnnouncementTable.load, hn]
  refine ⟨_, _, Run.snoc hrun hstep, Function.update_self .., fun x hx m => ?_⟩
  rcases List.mem_append.mp hx with hx | hx
  · exact hno x hx m
  · rw [List.mem_singleton.mp hx]
    rintro ⟨-, n', i', hp', hge⟩
    simp only at hp'
    rw [hp, TablePc.scanSlot.injEq] at hp'
    omega

/-- A scan that meets its purpose loads a counter not above the size of the table and leaves
nothing out. -/
theorem covers_of_scanMeets {k : Nat} {c : Trans (TableState T) (TableAction T)} {t : T}
    (hinv : IdsInv k c.pre) (hs : step c.pre c.act = some c.post) (hc : StartsScan c t)
    (hmeets : ScanMeets c t) : c.pre.tbl.activeCount ≤ maxThreads ∧ ScanCovers c.pre := by
  obtain ⟨hp, htbl, -⟩ := startsScan_post hs hc
  have hle : c.pre.tbl.activeCount ≤ maxThreads := by
    by_contra hgt
    obtain ⟨tr, s, hrun, hpan, hno⟩ := exists_panic hp (not_le.mp hgt)
    exact (hmeets tr s hrun hno).1 hpan
  refine ⟨hle, fun j hj hne => ?_⟩
  -- the scan runs alone to its end, and its result is the minimum
  obtain ⟨tr, s, m, hrun, hlast, hno, hquiet⟩ := scan_alone hp _ le_rfl hle
  have hreturns : step s (.run t) = some { s with pc := Function.update s.pc t .idle } := by
    simp [step, hlast, scanStep]
  have hmin : IsMinAnnounced s m := (hmeets tr s hrun hno).2.2.2 m _ hreturns
    ⟨rfl, _, _, hlast, lt_irrefl _⟩ hquiet
  have hsame : ∀ r ∈ visited c.post tr, r.tbl.slots = c.pre.tbl.slots :=
    fun r hr => htbl ▸ slots_of_visited hrun hquiet hr
  have hpost : IdsInv k c.post := idsInv_startsScan hinv hs hc
  obtain ⟨k', hids⟩ := exists_idsInv hrun hpost
  have hend : s.tbl.slots = c.pre.tbl.slots := hsame s (mem_visited_of_run hrun)
  rw [← hend] at hne
  obtain ⟨u, hu⟩ := hids.slot_ids j hne
  have hmj : m ≤ c.pre.tbl.slots j := hend ▸ hmin.1 u j hu hne
  rcases scanning_run hrun hpost hp hno with ⟨i, min, hscan⟩ | ⟨hpan, -⟩
  · have heq := hscan.pc
    rw [hlast, TablePc.scanSlot.injEq] at heq
    obtain ⟨-, rfl, rfl⟩ := heq
    rcases hscan.found.source with hmax | ⟨hne', l, hl, r, hr, hslot⟩
    · exact Or.inl (le_antisymm (hinv.slot_le j) (hmax ▸ hmj))
    · rw [hsame r hr] at hslot
      exact Or.inr ⟨l, hl, hslot ▸ hne', hslot ▸ hmj⟩
  · rw [hlast] at hpan
    cases hpan

/-! ## The ids -/

omit [DecidableEq T] in
theorem registers_of_isRegister {x : Trans (TableState T) (TableAction T)}
    (hx : isRegister x = true) : ∃ t, x.act = .register t := by
  unfold isRegister at hx
  split at hx
  · rename_i t ht
    exact ⟨t, ht⟩
  · cases hx

omit [DecidableEq T] in
/-- A `register` call returns the number of the calls before it, modulo `2 ^ 32`. -/
theorem registers_iff {k tid : Nat} {x : Trans (TableState T) (TableAction T)} {t : T}
    (hinv : IdsInv k x.pre) :
    Registers x t tid ↔ x.act = .register t ∧ k % 2 ^ 32 = tid ∧ tid < maxThreads := by
  rw [Registers, registerU32_eq_some_iff, hinv.count]

/-- The ids returned in the run are pairwise distinct. -/
def DistinctIds (tr : List (Trans (TableState T) (TableAction T))) : Prop :=
  ∀ tr₁ x tr₂ y tr₃ t u i j, tr = tr₁ ++ x :: (tr₂ ++ y :: tr₃) →
    Registers x t i → Registers y u j → i ≠ j

theorem distinctIds_iff {s : TableState T} {tr : List (Trans (TableState T) (TableAction T))}
    (h : Run step (init T) tr s) : DistinctIds tr ↔ tr.countP isRegister ≤ 2 ^ 32 := by
  constructor
  · -- after `2 ^ 32` calls the counter is back at the first slot
    intro hdist
    by_contra hgt
    push Not at hgt
    obtain ⟨l₁, y, l₂, rfl, hy, hcy⟩ := exists_split_of_lt_countP isRegister hgt
    obtain ⟨l₃, x, l₄, rfl, hx, hcx⟩ :=
      exists_split_of_lt_countP isRegister (show 0 < l₁.countP isRegister by omega)
    obtain ⟨h₁, -, -⟩ := h.split
    obtain ⟨h₂, -, -⟩ := h₁.split
    obtain ⟨t, ht⟩ := registers_of_isRegister hx
    obtain ⟨u, hu⟩ := registers_of_isRegister hy
    refine hdist l₃ x l₄ y l₂ t u 0 0 (by simp) ?_ ?_ rfl
    · exact (registers_iff (idsInv_of_run h₂)).mpr ⟨ht, by rw [hcx, Nat.zero_mod], by decide⟩
    · exact (registers_iff (idsInv_of_run h₁)).mpr ⟨hu, by rw [hcy, Nat.mod_self], by decide⟩
  · rintro hle tr₁ x tr₂ y tr₃ t u i j rfl hx hy
    obtain ⟨h₁, -, hrest⟩ := h.split
    rw [show tr₁ ++ x :: (tr₂ ++ y :: tr₃) = (tr₁ ++ x :: tr₂) ++ y :: tr₃ by simp] at h hle
    obtain ⟨h₂, -, -⟩ := h.split
    have hxr : isRegister x = true := by rw [isRegister, hx.1]
    have hyr : isRegister y = true := by rw [isRegister, hy.1]
    obtain ⟨-, rfl, -⟩ := (registers_iff (idsInv_of_run h₁)).mp hx
    obtain ⟨-, rfl, -⟩ := (registers_iff (idsInv_of_run h₂)).mp hy
    simp only [List.countP_append, List.countP_cons, hxr, hyr, if_true] at hle ⊢
    omega

/-! ## The table after a failed registration -/

/-- **When the table stays usable**, in every run: every returned id is a slot of the table, the
ids are pairwise distinct exactly when the `u32` counter does not wrap, and a scan meets its
purpose exactly when the counter that it loads is not above `MAX_THREADS` and the slots above the
counter do not matter. Before the counter wraps this says that no more than `MAX_THREADS`
registrations were tried until then, i.e. that none of them has failed. -/
theorem registration_iff {s : TableState T} {tr : List (Trans (TableState T) (TableAction T))}
    (h : Run step (init T) tr s) :
    (∀ x ∈ tr, ∀ t tid, Registers x t tid → tid < maxThreads)
      ∧ (DistinctIds tr ↔ tr.countP isRegister ≤ 2 ^ 32)
      ∧ ∀ tr₁ c tr₂ t, tr = tr₁ ++ c :: tr₂ → StartsScan c t →
        (ScanMeets c t ↔ tr₁.countP isRegister % 2 ^ 32 ≤ maxThreads ∧ ScanCovers c.pre)
          ∧ (tr₁.countP isRegister < 2 ^ 32 →
            (ScanMeets c t ↔ tr₁.countP isRegister ≤ maxThreads)) := by
  refine ⟨?_, distinctIds_iff h, ?_⟩
  · rintro x - t tid ⟨-, hx⟩
    exact (registerU32_eq_some_iff.mp hx).2
  · rintro tr₁ c tr₂ t rfl hc
    obtain ⟨h₁, hs, -⟩ := h.split
    have hinv := idsInv_of_run h₁
    have hiff : ScanMeets c t
        ↔ tr₁.countP isRegister % 2 ^ 32 ≤ maxThreads ∧ ScanCovers c.pre := by
      rw [← hinv.count]
      exact ⟨covers_of_scanMeets hinv hs hc,
        fun hcov => scanMeets_of_covers hinv hs hc hcov.1 hcov.2⟩
    refine ⟨hiff, fun hwrap => ?_⟩
    rw [hiff, Nat.mod_eq_of_lt hwrap]
    exact and_iff_left (scanCovers_of_lt hinv hwrap)

/-- Any number of calls can try to register, each on any thread. -/
theorem exists_registers (who : Nat → T) (k : Nat) :
    ∃ tr s, Run step (init T) tr s ∧ tr.countP isRegister = k ∧ (∀ u, s.pc u = .idle)
      ∧ s.tbl.slots = fun _ => 0 := by
  induction k with
  | zero => exact ⟨[], _, Run.nil, rfl, fun _ => rfl, rfl⟩
  | succ k ih =>
      obtain ⟨tr, s, hrun, hk, hidle, hslots⟩ := ih
      have hstep : step s (.register (who k)) = some { s with
          tbl := (registerU32 s.tbl).1
          ids := Function.update s.ids (who k) ((registerU32 s.tbl).2.toList ++ s.ids (who k)) } :=
        if_pos (hidle (who k))
      refine ⟨_, _, Run.snoc hrun hstep, ?_, hidle, hslots⟩
      rw [List.countP_append, List.countP_singleton, hk]
      rfl

/-- One registration too many, after which a scan of thread `0` panics. -/
theorem scan_panics_after_failure :
    ∃ tr₁ c tr₂ s, Run step (init Nat) (tr₁ ++ c :: tr₂) s
      ∧ tr₁.countP isRegister = maxThreads + 1 ∧ StartsScan c 0 ∧ s.pc 0 = .panicked := by
  obtain ⟨tr₁, s₁, h₁, hk, hidle, -⟩ := exists_registers id (maxThreads + 1)
  have hcount : s₁.tbl.activeCount = maxThreads + 1 := by
    rw [(idsInv_of_run h₁).count, hk]
    rfl
  obtain ⟨s₂, hstep, hp⟩ : ∃ s₂, step s₁ (.minActiveTs 0) = some s₂
      ∧ s₂.pc 0 = .scanSlot (maxThreads + 1) 0 u64Max := by
    refine ⟨_, if_pos (hidle 0), ?_⟩
    simp [hcount]
  obtain ⟨tr₂, s₃, h₂, hpan, -⟩ := exists_panic hp (Nat.lt_succ_self maxThreads)
  exact ⟨tr₁, _, tr₂, s₃, h₁.append (Run.cons hstep h₂), hk, rfl, hpan⟩

/-- The steps of a scan of two slots by thread `1`, which ends with the minimum `20`. -/
def finds20 (tr : List (Trans (TableState (Fin 2)) (TableAction (Fin 2)))) : Bool :=
  decide (tr.countP isRegister = 0)
    && tr.any fun x => decide (x.act = .run 1 ∧ x.pre.pc 1 = .scanSlot 2 2 20)

/-- Two threads register, one announces and scans: it has the minimum. -/
theorem registration_iff_two :
    ∃ tr₁ c tr₂ s, Run step (init (Fin 2)) (tr₁ ++ c :: tr₂) s ∧ tr₁.countP isRegister = 2
      ∧ StartsScan c 1 ∧ ScanMeets c 1 ∧ (∃ x ∈ tr₂, Returns x 1 20)
      ∧ (∀ x ∈ tr₁ ++ c :: tr₂, ∀ t tid, Registers x t tid → tid < maxThreads)
      ∧ DistinctIds (tr₁ ++ c :: tr₂) := by
  obtain ⟨tr₁, s₁, h₁, hp⟩ := exists_run_of_replay step (init (Fin 2))
    [.register 0, .register 1, .announce 1 1 20]
    (fun tr s => decide (tr.countP isRegister = 2)
      && (step s (.minActiveTs 1)).any fun s' =>
        (replay step s' [.run 1, .run 1, .run 1]).any fun r => finds20 r.1)
    (by decide +kernel)
  simp only [finds20, Bool.and_eq_true, decide_eq_true_eq, Option.any_eq_true, Prod.exists,
    List.any_eq_true] at hp
  obtain ⟨hcount, s₂, hc, tr₂, s₃, hreplay, hnone, x, hx, hact, hpc⟩ := hp
  have hrun := h₁.append (Run.cons hc (run_of_replay hreplay))
  obtain ⟨hlt, hids, hscan⟩ := registration_iff hrun
  refine ⟨tr₁, ⟨s₁, .minActiveTs 1, s₂⟩, tr₂, s₃, hrun, hcount, rfl, ?_,
    ⟨x, hx, hact, 2, 2, hpc, by decide⟩, hlt, hids.mpr ?_⟩
  · exact ((hscan tr₁ _ tr₂ 1 rfl rfl).2 (by rw [hcount]; decide)).mpr (by rw [hcount]; decide)
  · rw [List.countP_append, List.countP_cons, hcount, hnone]
    show 2 + (0 + 0) ≤ 2 ^ 32
    decide

end Pacer.Atomic.TableState
