import Pacer.Atomic.Registration

set_option autoImplicit false

/-! # When the scan is a sound lower bound

A scan is a bound of the slots below the counter that it loads (`scan_sound`). These are all slots
that `register` has given away, until the `u32` counter wraps: a `register` call increments it
whether or not there is a slot left, and after `2 ^ 32` calls a scan starts again from an empty
table. So the scan is sound exactly as long as the counter has not wrapped, or has counted to the
end of the table again (`scan_sound_iff`).
-/

namespace Pacer.Atomic.TableState

open Machine

variable {T : Type} [DecidableEq T]

/-- What the scan that loads the counter in `c` and returns `m` after the steps `tr` promises: `m`
is a bound of every slot that was registered before and held one timestamp throughout, and it is
`u64::MAX` or a timestamp that a registered slot held meanwhile. -/
structure ScanSound (c : Trans (TableState T) (TableAction T))
    (tr : List (Trans (TableState T) (TableAction T))) (m : Nat) : Prop where
  bound : ∀ u, ∀ i ∈ c.pre.ids u, ∀ ts, ts ≠ 0 →
    (∀ r ∈ visited c.post tr, r.tbl.slots i = ts) → m ≤ ts
  source : m = u64Max ∨ m ≠ 0 ∧ ∃ r ∈ visited c.post tr, ∃ u, ∃ i ∈ r.ids u, r.tbl.slots i = m

/-- Every scan that loads the counter after `k` calls of `register` is sound, in every run. -/
def SoundAfter (T : Type) [DecidableEq T] (k : Nat) : Prop :=
  ∀ s tr, Run step (init T) tr s → ∀ tr₁ c tr₂ x tr₃ t m,
    tr = tr₁ ++ c :: (tr₂ ++ x :: tr₃) → tr₁.countP isRegister = k → StartsScan c t →
    (∀ z ∈ tr₂, ∀ m, ¬ Returns z t m) → Returns x t m → ScanSound c tr₂ m

omit [DecidableEq T] in
/-- As long as the counter has not wrapped, or has come to the end of the table again, the slots
that `register` has given away are below it. -/
theorem IdsInv.ids_below {k : Nat} {s : TableState T} (h : IdsInv k s)
    (hk : k < 2 ^ 32 ∨ maxThreads ≤ k % 2 ^ 32) {u : T} {j : Nat} (hj : j ∈ s.ids u) :
    j < s.tbl.activeCount := by
  rcases hk with hk | hk
  · exact h.lt_activeCount hk hj
  · rw [h.count]
    exact lt_of_lt_of_le (h.ids_lt u j hj).1 hk

theorem soundAfter_of_covered {k : Nat} (hk : k < 2 ^ 32 ∨ maxThreads ≤ k % 2 ^ 32) :
    SoundAfter T k := by
  intro s tr hrun tr₁ c tr₂ x tr₃ t m htr hcount hc hno hx
  subst htr
  obtain ⟨hbound, hsource, -⟩ := scan_sound hrun tr₁ c tr₂ x tr₃ t m rfl hc hno hx
  obtain ⟨h₁, hs, hrest⟩ := hrun.split
  have hinv := idsInv_of_run h₁
  rw [hcount] at hinv
  refine ⟨fun u i hi ts hts hall => hbound i (hinv.ids_below hk hi) ts hts hall, ?_⟩
  rcases hsource with hmax | ⟨hne, i, -, r, hr, hslot⟩
  · exact Or.inl hmax
  · -- a slot that shows a timestamp belongs to somebody
    obtain ⟨h₂, -, -⟩ := hrest.split
    obtain ⟨l₁, l₂, -, h₃⟩ := h₂.prefix_of_visited hr
    obtain ⟨k', hinv'⟩ := exists_idsInv h₃ (idsInv_startsScan hinv hs hc)
    obtain ⟨u, hu⟩ := hinv'.slot_ids i (hslot ▸ hne)
    exact Or.inr ⟨hne, r, hr, u, i, hu, hslot⟩

/-! ## After the wrap -/

/-- The last slot is announced after `k` registrations, and then `t` begins a scan. -/
theorem exists_scan_behind_counter {k : Nat} (hk : 2 ^ 32 ≤ k) (t : T) :
    ∃ tr₁ c s u, Run step (init T) (tr₁ ++ [c]) s ∧ tr₁.countP isRegister = k ∧ StartsScan c t
      ∧ maxThreads - 1 ∈ c.pre.ids u
      ∧ c.pre.tbl.slots = Function.update (fun _ => 0) (maxThreads - 1) 1 := by
  obtain ⟨tr, s, hrun, hcount, hidle, hslots⟩ := exists_registers (fun _ => t) k
  have hinv := idsInv_of_run hrun
  obtain ⟨u, hu⟩ := hinv.mem_ids (maxThreads - 1) (by rw [hcount]; simp only [maxThreads]; omega)
    (by decide)
  have hannounce : step s (.announce u (maxThreads - 1) 1) = some { s with
      tbl := { s.tbl with slots := Function.update s.tbl.slots (maxThreads - 1) 1 } } := by
    show (if s.pc u = .idle ∧ maxThreads - 1 ∈ s.ids u ∧ 1 ≤ u64Max then _ else none) = _
    rw [if_pos ⟨hidle u, hu, by decide⟩]
    exact congrArg some (stored_store s u (by decide) 1)
  refine ⟨_, ⟨_, .minActiveTs t, _⟩, _, u, Run.snoc (Run.snoc hrun hannounce) (if_pos (hidle t)),
    ?_, rfl, hu, ?_⟩
  · rw [List.countP_append, hcount]
    rfl
  · show Function.update s.tbl.slots _ 1 = _
    rw [hslots]

/-- **A scan that leaves out a held slot**: the counter has wrapped and not come to the last slot
again, in which a thread keeps the timestamp `1`. The scan of a thread that runs alone returns
`u64::MAX`. -/
theorem exists_missed_slot {k : Nat} (hk : 2 ^ 32 ≤ k) (hlow : k % 2 ^ 32 < maxThreads) (t : T) :
    ∃ tr₁ c tr₂ x s, Run step (init T) (tr₁ ++ c :: (tr₂ ++ x :: [])) s
      ∧ tr₁.countP isRegister = k ∧ StartsScan c t
      ∧ (∀ z ∈ tr₂, ∀ m, ¬ Returns z t m) ∧ Returns x t u64Max ∧ ¬ ScanSound c tr₂ u64Max := by
  obtain ⟨tr₁, c, s, u, hrun, hcount, hc, hu, hslots⟩ := exists_scan_behind_counter hk t
  obtain ⟨h₁, hstep, rfl⟩ := hrun.snoc_inv
  have hactive : c.pre.tbl.activeCount = k % 2 ^ 32 := by rw [(idsInv_of_run h₁).count, hcount]
  obtain ⟨hp, htbl, -⟩ := startsScan_post hstep hc
  rw [hactive] at hp
  obtain ⟨tr₂, s₂, m, hrun₂, hlast, hno, hquiet⟩ := scan_alone hp _ le_rfl hlow.le
  have hreturn : step s₂ (.run t) = some { s₂ with pc := Function.update s₂.pc t .idle } := by
    simp [step, hlast, scanStep]
  have hreturns : Returns ⟨s₂, .run t, { s₂ with pc := Function.update s₂.pc t .idle }⟩ t m :=
    ⟨rfl, _, _, hlast, lt_irrefl _⟩
  have hall : Run step (init T) (tr₁ ++ c :: (tr₂ ++ [⟨s₂, .run t, _⟩])) _ :=
    h₁.append (Run.cons hstep (Run.snoc hrun₂ hreturn))
  have hsame : ∀ r ∈ visited c.post tr₂,
      r.tbl.slots = Function.update (fun _ => 0) (maxThreads - 1) 1 := fun r hr => by
    rw [slots_of_visited hrun₂ hquiet hr, htbl, hslots]
  -- below the loaded counter all slots are free
  have hmax : m = u64Max := by
    obtain ⟨-, hmax | ⟨hne, i, hi, r, hr, hslot⟩, -⟩ :=
      scan_sound hall tr₁ c tr₂ _ [] t m rfl hc hno hreturns
    · exact hmax
    · have hlt : i ≠ maxThreads - 1 := by omega
      rw [hsame r hr, Function.update_of_ne hlt] at hslot
      exact absurd hslot.symm hne
  subst hmax
  refine ⟨tr₁, c, tr₂, _, _, hall, hcount, hc, hno, hreturns, fun hsound => ?_⟩
  have hle := hsound.bound u _ hu 1 (by decide) fun r hr => by
    rw [hsame r hr, Function.update_self]
  exact absurd hle (by decide)

/-- **When the scan is a sound lower bound.** All scans that load `active_count` after `k`
`register` calls, failed ones included, are sound in every run if and only if the counter has not
wrapped until then or has come to the end of the table again. -/
theorem scan_sound_iff (T : Type) [DecidableEq T] [Inhabited T] (k : Nat) :
    SoundAfter T k ↔ k < 2 ^ 32 ∨ maxThreads ≤ k % 2 ^ 32 := by
  constructor
  · intro hsound
    by_contra hno
    push Not at hno
    obtain ⟨tr₁, c, tr₂, x, s, hrun, hcount, hc, hret, hx, hbad⟩ :=
      exists_missed_slot hno.1 hno.2 (default : T)
    exact hbad (hsound s _ hrun tr₁ c tr₂ x [] default u64Max rfl hcount hc hret hx)
  · exact soundAfter_of_covered

/-- After `2 ^ 32` calls of `register` the scan loads `0`, loads no slot and returns `u64::MAX`
over the slot that is held. -/
theorem scan_misses_held_slot :
    ∃ tr₁ c tr₂ x s, Run step (init Nat) (tr₁ ++ c :: (tr₂ ++ x :: [])) s
      ∧ tr₁.countP isRegister = 2 ^ 32 ∧ StartsScan c 0
      ∧ (∀ z ∈ tr₂, ∀ m, ¬ Returns z 0 m) ∧ Returns x 0 u64Max ∧ ¬ ScanSound c tr₂ u64Max :=
  exists_missed_slot le_rfl (by decide) 0

end Pacer.Atomic.TableState
