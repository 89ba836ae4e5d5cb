import Pacer.Core.PacerSystem
import Pacer.Lib.Run
import Mathlib.Logic.Function.Iterate

set_option autoImplicit false

/-! # A versioned store on the write path

A key-value store whose writes go through `write_op_prepare` and `post_write`, run by `n`
registered threads as whole operations in any order. A write prepared at timestamp `d`
installs a version of its key born at `d`; the version it supersedes is handed to `post_write`
with its own birth timestamp. A version born at `b` and superseded at `d` is what a snapshot
at `ts` reads exactly when `b < ts ≤ d`.

The pointers in the limbo bags are the versions themselves. `held` and `freed` record which
snapshots were returned and not yet released, and which versions were freed, in order.
-/

namespace Pacer.Store

open Machine

/-- A superseded version: the write that replaced it had timestamp `retiredAt`. -/
structure Version (K : Type) where
  key : K
  birthTs : Nat
  retiredAt : Nat
  deriving DecidableEq

/-- The version is the one a snapshot at `ts` reads. -/
def Version.visibleAt {K : Type} (v : Version K) (ts : Nat) : Prop :=
  v.birthTs < ts ∧ ts ≤ v.retiredAt

instance {K : Type} (v : Version K) (ts : Nat) : Decidable (v.visibleAt ts) :=
  inferInstanceAs (Decidable (_ ∧ _))

structure State (F K : Type) (n : Nat) where
  sys : PacerSystem F
  tls : Fin n → ThreadLocalState F (Version K)
  /-- Birth timestamps of all versions of a key, newest first. -/
  versions : K → List Nat
  /-- The version superseded by the thread's write in progress. -/
  pending : Fin n → Option (Version K)
  /-- Snapshots returned to the thread and not yet released, latest first. -/
  held : Fin n → List Nat
  freed : List (Version K)

inductive Action (K : Type) (n : Nat) where
  | prepare (t : Fin n) (key : K)
  | postWrite (t : Fin n)
  | takeSnapshot (t : Fin n) (nowNs elapsed : Nat)
  | release (t : Fin n)
  deriving DecidableEq

section

variable {F K : Type} [F64 F] [DecidableEq K] {n : Nat}

/-- A fresh system in which `n` threads have registered. -/
def registered (F : Type) [F64 F] (n : Nat) : PacerSystem F :=
  (fun sys => sys.registerThread.1)^[n] PacerSystem.new

def init (F K : Type) [F64 F] (n : Nat) : State F K n :=
  { sys := registered F n, tls := fun t => ThreadLocalState.new t, versions := fun _ => [],
    pending := fun _ => none, held := fun _ => [], freed := [] }

def prepare (s : State F K n) (t : Fin n) (key : K) : State F K n :=
  let (sys, tls, node, d) := s.sys.writeOpPrepare (s.tls t) key
  { s with
    sys := sys
    tls := Function.update s.tls t tls
    versions := Function.update s.versions key (node.birthTs :: s.versions key)
    pending := Function.update s.pending t
      ((s.versions key).head?.map fun b => ⟨key, b, d⟩) }

def step (s : State F K n) : Action K n → Option (State F K n)
  | .prepare t key => if (s.pending t).isSome then none else some (prepare s t key)
  | .postWrite t =>
      match s.pending t with
      | none => none
      | some old =>
          (s.sys.postWrite (s.tls t) old old.birthTs).map fun (sys, tls, freed) =>
            { s with
              sys := sys
              tls := Function.update s.tls t tls
              pending := Function.update s.pending t none
              freed := s.freed ++ freed.map fun e => e.2.ptr }
  | .takeSnapshot t nowNs elapsed =>
      (s.sys.takeSnapshot (s.tls t) nowNs elapsed).map fun (sys, tls, ts) =>
        { s with
          sys := sys
          tls := Function.update s.tls t tls
          held := Function.update s.held t (ts :: s.held t) }
  | .release t =>
      (s.sys.releaseSnapshotFor (s.tls t)).map fun sys =>
        { s with sys := sys, held := Function.update s.held t (s.held t).tail }

/-- The versions a transition freed. -/
def freedBy (x : Trans (State F K n) (Action K n)) : List (Version K) :=
  x.post.freed.drop x.pre.freed.length

/-- Thread `t`'s next `post_write` reaches the entry `e`: it stands at one of the first places
of the bag, as many as the current mode's budget, and everything up to it was born before
the scanned `safe_reclaim_ts`. -/
def reaches (s : State F K n) (t : Fin n) (e : Nat × Retired (Version K)) : Prop :=
  ∃ old safeTs i, s.pending t = some old ∧ s.sys.safeReclaimTs = some safeTs
    ∧ i < tickBudget (s.tls t).gcMode (s.tls t).holdTicks
    ∧ ((s.tls t).limboBag.push old.birthTs old).q[i]? = some e
    ∧ ∀ j ≤ i, ∀ e', ((s.tls t).limboBag.push old.birthTs old).q[j]? = some e' → e'.1 < safeTs

/-! ## What each operation does -/

theorem registered_eq (n : Nat) :
    registered F n = { PacerSystem.new with announce := ⟨fun _ => 0, n⟩ } := by
  induction n with
  | zero => rfl
  | succ n ih =>
      rw [registered, Function.iterate_succ_apply']
      rw [registered] at ih
      rw [ih]
      rfl

/-- What one `post_write` step does to the store. -/
theorem step_postWrite {s s' : State F K n} {t : Fin n}
    (h : step s (.postWrite t) = some s') :
    ∃ old safeTs, s.pending t = some old ∧ s.sys.safeReclaimTs = some safeTs
      ∧ s'.tls = Function.update s.tls t (s'.tls t)
      ∧ (s'.tls t).limboBag = (((s.tls t).limboBag.push old.birthTs old).drain safeTs
          (tickBudget (s.tls t).gcMode (s.tls t).holdTicks)).1
      ∧ (s'.tls t).tid = (s.tls t).tid
      ∧ s'.freed = s.freed ++ (((s.tls t).limboBag.push old.birthTs old).drain safeTs
          (tickBudget (s.tls t).gcMode (s.tls t).holdTicks)).2.map (fun e => e.2.ptr)
      ∧ s'.pending = Function.update s.pending t none
      ∧ s'.versions = s.versions ∧ s'.held = s.held
      ∧ (s'.sys.globalEpoch = s.sys.globalEpoch ∨ s'.sys.globalEpoch = s.sys.globalEpoch + 1)
      ∧ s'.sys.scc = s.sys.scc ∧ s'.sys.announce = s.sys.announce := by
  cases hp : s.pending t with
  | none => simp [step, hp] at h
  | some old =>
      simp only [step, hp] at h
      obtain ⟨⟨sys, tls, freed⟩, hw, rfl⟩ := Option.map_eq_some_iff.mp h
      obtain ⟨safeTs, hsafe, hfreed, hbag, -, -, htid, -, hep, hscc, hann⟩ :=
        PacerSystem.postWrite_spec hw
      refine ⟨old, safeTs, rfl, hsafe, ?_, ?_, ?_, ?_, rfl, rfl, rfl, hep, hscc, hann⟩
      · simp
      · simpa using hbag
      · simpa using htid
      · simp [hfreed]

/-- What one `take_snapshot` step does to the store. -/
theorem step_takeSnapshot {s s' : State F K n} {t : Fin n} {nowNs elapsed : Nat}
    (h : step s (.takeSnapshot t nowNs elapsed) = some s') :
    ∃ scc ts, s.sys.scc.takeSnapshot F nowNs s.sys.globalEpoch = some (scc, ts)
      ∧ (s.tls t).tid < maxThreads
      ∧ s'.held = Function.update s.held t (ts :: s.held t)
      ∧ s'.sys.scc = scc.recordLatencyNs F elapsed
      ∧ s'.sys.globalEpoch = s.sys.globalEpoch
      ∧ s'.sys.announce = { s.sys.announce with
          slots := Function.update s.sys.announce.slots (s.tls t).tid ts }
      ∧ s'.tls = Function.update s.tls t { s.tls t with winSnaps := (s.tls t).winSnaps + 1 }
      ∧ s'.versions = s.versions ∧ s'.pending = s.pending ∧ s'.freed = s.freed := by
  simp only [step, PacerSystem.takeSnapshot] at h
  cases hs : s.sys.scc.takeSnapshot F nowNs s.sys.globalEpoch with
  | none => simp [hs] at h
  | some r =>
      obtain ⟨scc, ts⟩ := r
      simp only [hs, PacerSystem.announceSnapshot, AnnouncementTable.announce,
        AnnouncementTable.store] at h
      by_cases htid : (s.tls t).tid < maxThreads
      · simp only [htid, if_true, Option.map_some, Option.some.injEq] at h
        subst h
        exact ⟨scc, ts, rfl, htid, rfl, rfl, rfl, rfl, rfl, rfl, rfl, rfl⟩
      · simp [htid] at h

theorem step_release {s s' : State F K n} {t : Fin n} (h : step s (.release t) = some s') :
    s'.held = Function.update s.held t (s.held t).tail
      ∧ s'.sys = { s.sys with announce := { s.sys.announce with
          slots := Function.update s.sys.announce.slots (s.tls t).tid 0 } }
      ∧ s'.tls = s.tls ∧ s'.versions = s.versions ∧ s'.pending = s.pending
      ∧ s'.freed = s.freed := by
  simp only [step, PacerSystem.releaseSnapshotFor, PacerSystem.releaseSnapshot,
    AnnouncementTable.release, AnnouncementTable.store] at h
  split at h
  · simp only [Option.map_some, Option.some.injEq] at h
    subst h
    exact ⟨rfl, rfl, rfl, rfl, rfl, rfl⟩
  · simp at h

theorem step_prepare {s s' : State F K n} {t : Fin n} {key : K}
    (h : step s (.prepare t key) = some s') : s.pending t = none ∧ s' = prepare s t key := by
  simp only [step] at h
  split at h
  · cases h
  · rename_i hp
    exact ⟨by simpa using hp, by simpa using h.symm⟩

/-- The versions freed by a `post_write` are the entries it reaches. -/
theorem mem_freedBy_postWrite {s s' : State F K n} {t : Fin n}
    (h : step s (.postWrite t) = some s') {v : Version K} :
    v ∈ freedBy ⟨s, .postWrite t, s'⟩ ↔ ∃ e, reaches s t e ∧ e.2.ptr = v := by
  obtain ⟨old, safeTs, hp, hsafe, -, -, -, hfreed, -⟩ := step_postWrite h
  have hdrop : freedBy ⟨s, .postWrite t, s'⟩
      = (((s.tls t).limboBag.push old.birthTs old).drain safeTs
          (tickBudget (s.tls t).gcMode (s.tls t).holdTicks)).2.map (fun e => e.2.ptr) := by
    simp [freedBy, hfreed]
  rw [hdrop, List.mem_map]
  constructor
  · rintro ⟨e, he, hv⟩
    obtain ⟨i, hi, hget, hall⟩ := LimboBag.mem_drain_iff.mp he
    exact ⟨e, ⟨old, safeTs, i, hp, hsafe, hi, hget, hall⟩, hv⟩
  · rintro ⟨e, ⟨old', safe', i, hp', hsafe', hi, hget, hall⟩, hv⟩
    obtain rfl : old = old' := by rw [hp] at hp'; exact Option.some.inj hp'
    obtain rfl : safeTs = safe' := by rw [hsafe] at hsafe'; exact Option.some.inj hsafe'
    exact ⟨e, LimboBag.mem_drain_iff.mpr ⟨i, hi, hget, hall⟩, hv⟩

/-- Only `post_write` frees. -/
theorem freedBy_eq_nil {s s' : State F K n} {a : Action K n} (h : step s a = some s')
    (hact : ∀ t, a ≠ .postWrite t) : freedBy ⟨s, a, s'⟩ = [] := by
  cases a with
  | prepare t key =>
      obtain ⟨-, rfl⟩ := step_prepare h
      simp [freedBy, prepare]
  | postWrite t => exact absurd rfl (hact t)
  | takeSnapshot t nowNs elapsed =>
      obtain ⟨_, _, _, _, _, _, _, _, _, _, _, hf⟩ := step_takeSnapshot h
      simp [freedBy, hf]
  | release t =>
      obtain ⟨_, _, _, _, _, hf⟩ := step_release h
      simp [freedBy, hf]

omit [F64 F] [DecidableEq K] in
theorem reaches_birth_lt {s : State F K n} {t : Fin n} {e : Nat × Retired (Version K)}
    (h : reaches s t e) {safeTs : Nat} (hs : s.sys.safeReclaimTs = some safeTs) :
    e.1 < safeTs := by
  obtain ⟨old, safe', i, -, hs', -, hget, hall⟩ := h
  obtain rfl : safeTs = safe' := by rw [hs] at hs'; exact Option.some.inj hs'
  exact hall i le_rfl e hget

omit [F64 F] [DecidableEq K] in
theorem reaches_mem {s : State F K n} {t : Fin n} {e : Nat × Retired (Version K)}
    (h : reaches s t e) : ∃ old, s.pending t = some old
      ∧ e ∈ ((s.tls t).limboBag.push old.birthTs old).q := by
  obtain ⟨old, _, i, hp, -, -, hget, -⟩ := h
  exact ⟨old, hp, List.mem_of_getElem? hget⟩

/-! ## The threads keep their slots -/

/-- Thread `t` owns slot `t` of the announcement table. -/
structure Registered (s : State F K n) : Prop where
  count : s.sys.announce.activeCount = n
  tid : ∀ t, (s.tls t).tid = t

omit [DecidableEq K] in
theorem registered_init : Registered (init F K n) where
  count := by simp [init, registered_eq]
  tid := fun _ => rfl

theorem registered_step {s s' : State F K n} {a : Action K n} (h : Registered s)
    (hs : step s a = some s') : Registered s' := by
  cases a with
  | prepare t key =>
      obtain ⟨-, rfl⟩ := step_prepare hs
      refine ⟨h.count, fun u => ?_⟩
      by_cases hu : u = t
      · subst hu; simp [prepare, PacerSystem.writeOpPrepare, h.tid]
      · simp [prepare, hu, h.tid]
  | postWrite t =>
      obtain ⟨_, _, -, -, htls, -, htid, -, -, -, -, -, -, hann⟩ := step_postWrite hs
      refine ⟨by rw [hann]; exact h.count, fun u => ?_⟩
      by_cases hu : u = t
      · subst hu; rw [htid, h.tid]
      · rw [htls, Function.update_of_ne hu, h.tid]
  | takeSnapshot t nowNs elapsed =>
      obtain ⟨_, _, -, -, -, -, -, hann, htls, -, -, -⟩ := step_takeSnapshot hs
      refine ⟨by rw [hann]; exact h.count, fun u => ?_⟩
      by_cases hu : u = t
      · subst hu; simp [htls, h.tid]
      · simp [htls, hu, h.tid]
  | release t =>
      obtain ⟨-, hsys, htls, -, -, -⟩ := step_release hs
      exact ⟨by rw [hsys]; exact h.count, fun u => by rw [htls, h.tid]⟩

end

end Pacer.Store
