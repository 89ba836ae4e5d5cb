import Pacer.Atomic.SccInvariant

set_option autoImplicit false

/-! # The window of a coalesced snapshot

A call on the coalescing path loads `current_ts` and `window_open_at` one after the other and
does not look at the generation again. `WindowInv` numbers the windows by the stores of each of
the two fields: the `k`-th store of either belongs to the window with generation `2 * (k - 1)`
(`lastWindow`), and the two numbers differ by one exactly while an opener stands between its two
stores. So the two loads meet the same window exactly when as many stores of `window_open_at`
fall between them as were pending at the first load.
-/

namespace Pacer.Atomic

open Machine

/-- The two fields of a window that a call compares. -/
inductive WindowField where
  | currentTs
  | windowOpenAt

namespace WindowField

def load (scc : Scc) : WindowField → Nat
  | .currentTs => scc.currentTs
  | .windowOpenAt => scc.windowOpenAt

def value (w : Window) : WindowField → Nat
  | .currentTs => w.ts
  | .windowOpenAt => w.openAt

end WindowField

section

variable {F : Type} [F64 F]

namespace SccPc

/-- The generation of the window for which the step stores the field. -/
def stores : WindowField → SccPc F → Option Nat
  | .currentTs, .storeTs _ gen _ => some gen
  | .windowOpenAt, .storeOpenAt _ gen _ => some gen
  | _, _ => none

/-- The call has stored the field and not yet published. -/
def stored : WindowField → SccPc F → Bool
  | .currentTs, .storeOpenAt _ _ _ => true
  | _, .publish _ _ _ => true
  | _, _ => false

/-- The window that a call in the claimed section is opening. -/
def window : SccPc F → Option Window
  | .rateTotal nowNs gen newTs | .rateHits nowNs gen newTs _ | .loadP99 nowNs gen newTs _
  | .storeW nowNs gen newTs _ | .storeTs nowNs gen newTs | .storeOpenAt nowNs gen newTs
  | .publish nowNs gen newTs => some ⟨gen, newTs, nowNs⟩
  | _ => none

section

omit [F64 F]

theorem window_of_claimed {p : SccPc F} (h : p.claimed = true) :
    ∃ w, p.window = some w := by
  cases p <;> simp only [claimed, Bool.false_eq_true] at h <;> exact ⟨_, rfl⟩

theorem stores_of_window_none {p : SccPc F} (h : p.window = none) (f : WindowField) :
    p.stores f = none := by
  cases p <;> simp only [window, reduceCtorEq] at h <;> cases f <;> rfl

theorem claimed_of_window {p : SccPc F} {w : Window} (h : p.window = some w) :
    p.claimed = true := by
  cases p <;> simp only [window, reduceCtorEq] at h <;> rfl

end

end SccPc

omit [F64 F] in
theorem SccPc.not_stored_of_stores {f : WindowField} {p : SccPc F} {gen : Nat}
    (h : p.stores f = some gen) : p.stored f = false := by
  cases p <;> cases f <;> simp only [stores, reduceCtorEq] at h <;> rfl

omit [F64 F] in
theorem PcOk.window_gen {e₀ : Nat} {scc : Scc} {epoch : Nat} {p : SccPc F} {w : Window}
    (h : PcOk e₀ scc epoch p) (hw : p.window = some w) :
    w.gen % 2 = 0 ∧ scc.windowGen = w.gen + 1 := by
  cases p <;> simp only [SccPc.window, Option.some.injEq, reduceCtorEq] at hw <;>
    subst hw <;> exact ⟨h.1, h.2.1⟩

/-! ## What a step does to a field -/

theorem load_sccStep_of_not_stores {f : WindowField} {scc : Scc} {epoch : Nat} {p : SccPc F}
    (h : p.stores f = none) : f.load (sccStep scc epoch p).1 = f.load scc := by
  have hstep := sccStep_cases scc epoch p
  generalize (sccStep scc epoch p).1 = scc', (sccStep scc epoch p).2 = o at hstep ⊢
  cases hstep with
  | storeTs =>
      cases f with
      | currentTs => cases h
      | windowOpenAt => rfl
  | storeOpenAt =>
      cases f with
      | currentTs => rfl
      | windowOpenAt => cases h
  | _ => cases f <;> rfl

/-- A store writes the value of the window that the call is opening. -/
theorem load_sccStep_of_stores {f : WindowField} {gen : Nat} {p : SccPc F} (scc : Scc)
    (epoch : Nat) (h : p.stores f = some gen) : ∃ w, p.window = some w ∧ w.gen = gen
      ∧ f.load (sccStep scc epoch p).1 = f.value w := by
  cases p <;> cases f <;> simp only [SccPc.stores, Option.some.injEq, reduceCtorEq] at h
  case storeTs.currentTs => exact ⟨_, rfl, h, rfl⟩
  case storeOpenAt.windowOpenAt => exact ⟨_, rfl, h, rfl⟩

/-- A call in the claimed section goes on in it, with its window, until it publishes. -/
theorem window_sccStep {scc : Scc} {epoch : Nat} {p q : SccPc F} {w : Window}
    (hq : (sccStep scc epoch p).2 = some q) (hw : q.window = some w) :
    SccState.opens scc p = some w
      ∨ p.window = some w ∧ (sccStep scc epoch p).1.windowGen = scc.windowGen
        ∧ ∀ f, (q.stored f).toNat = (p.stored f).toNat + (p.stores f).isSome.toNat := by
  have hstep := sccStep_cases scc epoch p
  rw [hq] at hstep
  generalize (sccStep scc epoch p).1 = scc' at hstep ⊢
  cases hstep with
  | claim nowNs gen newTs hgen =>
      rw [SccState.opens, if_pos hgen]
      exact Or.inl hw
  | rateZero | rateTotal | rateHits | loadP99 | storeW | storeTs | storeOpenAt =>
      exact Or.inr ⟨hw, rfl, fun f => by cases f <;> rfl⟩
  | count | spin | loadGen | loadTs | loadOpenAt | coalesce | expired | loadEpoch | claimFails =>
      cases hw

/-- The program points of the two loads, from the values they leave behind. -/
theorem sccStep_eq_loadOpenAt {scc : Scc} {epoch nowNs gen ts : Nat} {p : SccPc F}
    (h : (sccStep scc epoch p).2 = some (.loadOpenAt nowNs gen ts)) :
    p = .loadTs nowNs gen ∧ scc.currentTs = ts := by
  have hstep := sccStep_cases scc epoch p
  rw [h] at hstep
  generalize (sccStep scc epoch p).1 = scc' at hstep
  cases hstep with
  | loadTs => exact ⟨rfl, rfl⟩

theorem sccStep_eq_loadW {scc : Scc} {epoch nowNs gen ts openedAt : Nat} {p : SccPc F}
    (h : (sccStep scc epoch p).2 = some (.loadW nowNs gen ts openedAt)) :
    p = .loadOpenAt nowNs gen ts ∧ scc.windowOpenAt = openedAt := by
  have hstep := sccStep_cases scc epoch p
  rw [h] at hstep
  generalize (sccStep scc epoch p).1 = scc' at hstep
  cases hstep with
  | loadOpenAt => exact ⟨rfl, rfl⟩

theorem sccStep_eq_hit {scc : Scc} {epoch nowNs gen ts openedAt w : Nat} {p : SccPc F}
    (h : (sccStep scc epoch p).2 = some (.hit nowNs gen ts openedAt w)) :
    p = .loadW nowNs gen ts openedAt := by
  have hstep := sccStep_cases scc epoch p
  rw [h] at hstep
  generalize (sccStep scc epoch p).1 = scc' at hstep
  cases hstep with
  | coalesce => rfl

omit [F64 F] in
theorem opens_spec {scc : Scc} {p : SccPc F} {w : Window} (h : SccState.opens scc p = some w) :
    scc.windowGen = w.gen ∧ p = .claim w.openAt w.gen w.ts := by
  cases p <;> simp only [SccState.opens, reduceCtorEq] at h
  case claim nowNs gen newTs =>
    split at h
    · rename_i hgen
      cases h
      exact ⟨hgen, rfl⟩
    · cases h

/-- The generation changes by a publishing store or by a successful compare-exchange. -/
theorem windowGen_sccStep (scc : Scc) (epoch : Nat) (p : SccPc F) :
    (∃ nowNs gen newTs, p = .publish nowNs gen newTs)
      ∨ (∃ w, SccState.opens scc p = some w ∧ (sccStep scc epoch p).1.windowGen = w.gen + 1
        ∧ (sccStep scc epoch p).2 = some (.rateTotal w.openAt w.gen w.ts))
      ∨ (SccState.opens scc p = none ∧ (sccStep scc epoch p).1.windowGen = scc.windowGen) := by
  have hstep := sccStep_cases scc epoch p
  generalize (sccStep scc epoch p).1 = scc', (sccStep scc epoch p).2 = o at hstep ⊢
  cases hstep with
  | publish nowNs gen newTs => exact Or.inl ⟨nowNs, gen, newTs, rfl⟩
  | claim nowNs gen newTs hgen =>
      have hopens : SccState.opens scc (.claim nowNs gen newTs : SccPc F)
          = some ⟨gen, newTs, nowNs⟩ := if_pos hgen
      exact Or.inr (Or.inl ⟨_, hopens, rfl, rfl⟩)
  | claimFails nowNs gen newTs hgen => exact Or.inr (Or.inr ⟨if_neg hgen, rfl⟩)
  | _ => exact Or.inr (Or.inr ⟨rfl, rfl⟩)

end

namespace SccState

variable {F T : Type} [F64 F] [DecidableEq T]

/-! ## Numbering the windows by their stores -/

/-- The generation of the window for which the transition stores the field. -/
def storedBy (f : WindowField) (x : Trans (SccState F T) (SccAction T)) : Option Nat :=
  match x.act with
  | .run t => (x.pre.pc t).bind (SccPc.stores f)
  | _ => none

/-- The number of stores of the field. -/
def storeCount (f : WindowField) (tr : List (Trans (SccState F T) (SccAction T))) : Nat :=
  tr.countP (fun x => (storedBy f x).isSome)

/-- The generation of the window for which the field was stored last. -/
def lastWindow (f : WindowField) (tr : List (Trans (SccState F T) (SccAction T))) : Option Nat :=
  tr.reverse.findSome? (storedBy f)

section

omit [F64 F] [DecidableEq T]

theorem storeCount_append (f : WindowField) (tr tr' : List (Trans (SccState F T) (SccAction T))) :
    storeCount f (tr ++ tr') = storeCount f tr + storeCount f tr' :=
  List.countP_append

theorem storeCount_snoc (f : WindowField) (tr : List (Trans (SccState F T) (SccAction T)))
    (x : Trans (SccState F T) (SccAction T)) :
    storeCount f (tr ++ [x]) = storeCount f tr + (storedBy f x).isSome.toNat := by
  rw [storeCount_append]
  cases h : storedBy f x <;> simp [storeCount, h]

theorem lastWindow_snoc (f : WindowField) (tr : List (Trans (SccState F T) (SccAction T)))
    (x : Trans (SccState F T) (SccAction T)) :
    lastWindow f (tr ++ [x]) = (storedBy f x).or (lastWindow f tr) := by
  rw [lastWindow, List.reverse_append, List.reverse_singleton, List.singleton_append,
    List.findSome?_cons]
  cases storedBy f x <;> rfl

/-- A transition that does not store the field. -/
theorem storeCount_snoc_of_none {f : WindowField}
    {tr : List (Trans (SccState F T) (SccAction T))} {x : Trans (SccState F T) (SccAction T)}
    (h : storedBy f x = none) : storeCount f (tr ++ [x]) = storeCount f tr := by
  rw [storeCount_snoc, h]
  rfl

theorem lastWindow_snoc_of_none {f : WindowField}
    {tr : List (Trans (SccState F T) (SccAction T))} {x : Trans (SccState F T) (SccAction T)}
    (h : storedBy f x = none) : lastWindow f (tr ++ [x]) = lastWindow f tr := by
  rw [lastWindow_snoc, h]
  rfl

end

/-- After `k` stores of a field its window is the one with generation `2 * (k - 1)`; while the
generation is even both fields have been stored once for every published window, and a call
in the claimed section adds its own store. -/
structure WindowInv (e₀ : Nat) (tr : List (Trans (SccState F T) (SccAction T)))
    (s : SccState F T) : Prop where
  inv : SccInv e₀ s
  even : s.scc.windowGen % 2 = 0 → ∀ f, storeCount f tr = s.scc.windowGen / 2
  inside : ∀ t p, s.pc t = some p → p.claimed = true →
    ∀ f, storeCount f tr = s.scc.windowGen / 2 + (p.stored f).toNat
  last : ∀ f, lastWindow f tr
    = if storeCount f tr = 0 then none else some (2 * (storeCount f tr - 1))
  opening : ∀ t p w, s.pc t = some p → p.window = some w → w ∈ s.opened
  value : ∀ f g, lastWindow f tr = some g →
    ∃ w ∈ s.opened, w.gen = g ∧ f.value w = f.load s.scc
  gens : ∀ w ∈ s.opened, w.gen < s.scc.windowGen
  unique : ∀ w ∈ s.opened, ∀ w' ∈ s.opened, w.gen = w'.gen → w = w'

omit [F64 F] [DecidableEq T] in
theorem windowInv_init (epoch : Nat) : WindowInv epoch [] (init F T epoch) where
  inv := sccInv_init le_rfl
  even := fun _ f => by simp [storeCount, init, Scc.new]
  inside := by simp [init]
  last := fun f => rfl
  opening := by simp [init]
  value := fun f g h => by cases h
  gens := by simp [init]
  unique := by simp [init]

omit [F64 F] [DecidableEq T] in
/-- A transition that touches neither the generation nor the fields of the window, and leaves
the claimed section as it is. -/
theorem windowInv_quiet {e₀ : Nat} {tr : List (Trans (SccState F T) (SccAction T))}
    {x : Trans (SccState F T) (SccAction T)} {s : SccState F T} (h : WindowInv e₀ tr s)
    (hinv : SccInv e₀ x.post) (hstore : ∀ f, storedBy f x = none)
    (hgen : x.post.scc.windowGen = s.scc.windowGen)
    (hload : ∀ f : WindowField, f.load x.post.scc = f.load s.scc)
    (hopened : x.post.opened = s.opened)
    (hpc : ∀ t p, x.post.pc t = some p → p.claimed = true → s.pc t = some p) :
    WindowInv e₀ (tr ++ [x]) x.post := by
  have hcount : ∀ f, storeCount f (tr ++ [x]) = storeCount f tr :=
    fun f => storeCount_snoc_of_none (hstore f)
  have hlast : ∀ f, lastWindow f (tr ++ [x]) = lastWindow f tr :=
    fun f => lastWindow_snoc_of_none (hstore f)
  refine ⟨hinv, ?_, ?_, ?_, ?_, ?_, ?_, ?_⟩
  · intro heven f
    rw [hcount, hgen]
    exact h.even (hgen ▸ heven) f
  · intro t p hp hc f
    rw [hcount, hgen]
    exact h.inside t p (hpc t p hp hc) hc f
  · intro f
    rw [hlast, hcount]
    exact h.last f
  · intro t p w hp hw
    rw [hopened]
    exact h.opening t p w (hpc t p hp (SccPc.claimed_of_window hw)) hw
  · intro f g hg
    rw [hload, hopened]
    exact h.value f g (by rwa [hlast] at hg)
  · rw [hopened, hgen]
    exact h.gens
  · rw [hopened]
    exact h.unique

/-- The state after the step of `t` at `p`. -/
def afterRun (s : SccState F T) (t : T) (p : SccPc F) : SccState F T :=
  { s with
    scc := (sccStep s.scc s.epoch p).1
    pc := Function.update s.pc t (sccStep s.scc s.epoch p).2
    opened := (opens s.scc p).toList ++ s.opened }

theorem storedBy_run (f : WindowField) {s : SccState F T} {t : T} {p : SccPc F}
    (hp : s.pc t = some p) :
    storedBy f ⟨s, .run t, s.afterRun t p⟩ = p.stores f := by
  simp only [storedBy, hp, Option.bind_some]

/-- A successful compare-exchange: a new window, not yet stored. -/
theorem windowInv_claim {e₀ : Nat} {tr : List (Trans (SccState F T) (SccAction T))}
    {s : SccState F T} (h : WindowInv e₀ tr s) {t : T} {p : SccPc F} (hp : s.pc t = some p)
    (hinv : SccInv e₀ (s.afterRun t p)) {w : Window} (hopen : opens s.scc p = some w)
    (hgen : (s.afterRun t p).scc.windowGen = w.gen + 1)
    (hnext : (s.afterRun t p).pc t = some (.rateTotal w.openAt w.gen w.ts)) :
    WindowInv e₀ (tr ++ [⟨s, .run t, s.afterRun t p⟩]) (s.afterRun t p) := by
  obtain ⟨hwgen, rfl⟩ := opens_spec hopen
  have heven : s.scc.windowGen % 2 = 0 := by have := (h.inv.ok t _ hp).1; omega
  have hstore : ∀ f, storedBy f ⟨s, .run t, s.afterRun t (.claim w.openAt w.gen w.ts)⟩ = none :=
    fun f => (storedBy_run f hp).trans (SccPc.stores_of_window_none rfl f)
  have hcount : ∀ f, storeCount f (tr ++ [⟨s, .run t, s.afterRun t (.claim w.openAt w.gen w.ts)⟩])
      = storeCount f tr := fun f => storeCount_snoc_of_none (hstore f)
  have hlast : ∀ f, lastWindow f (tr ++ [⟨s, .run t, s.afterRun t (.claim w.openAt w.gen w.ts)⟩])
      = lastWindow f tr := fun f => lastWindow_snoc_of_none (hstore f)
  have hopened : (s.afterRun t (.claim w.openAt w.gen w.ts)).opened = w :: s.opened := by
    simp only [afterRun, hopen, Option.toList_some, List.singleton_append]
  have hload : ∀ f : WindowField,
      f.load (s.afterRun t (.claim w.openAt w.gen w.ts)).scc = f.load s.scc :=
    fun f => load_sccStep_of_not_stores (SccPc.stores_of_window_none rfl f)
  -- the moving call is the only one in the section
  have honly : ∀ u q, (s.afterRun t (.claim w.openAt w.gen w.ts)).pc u = some q →
      q.claimed = true → q = .rateTotal w.openAt w.gen w.ts := by
    intro u q hu hc
    obtain rfl := hinv.unique u t q _ hu hnext hc rfl
    rw [hnext] at hu
    exact (Option.some.inj hu).symm
  refine ⟨hinv, fun h2 => by omega, ?_, fun f => by rw [hlast, hcount]; exact h.last f, ?_, ?_,
    ?_, ?_⟩
  · intro u q hu hc f
    rw [honly u q hu hc, hcount, h.even heven, hgen, hwgen]
    cases f <;> simp only [SccPc.stored, Bool.toNat_false] <;> omega
  · intro u q w' hu hw'
    rw [honly u q hu (SccPc.claimed_of_window hw'), SccPc.window, Option.some.injEq] at hw'
    rw [hopened, ← hw']
    exact List.mem_cons_self
  · intro f g hg
    rw [hlast] at hg
    obtain ⟨w', hw', hval⟩ := h.value f g hg
    rw [hload, hopened]
    exact ⟨w', List.mem_cons_of_mem _ hw', hval⟩
  · intro w' hw'
    rw [hopened] at hw'
    rcases List.mem_cons.mp hw' with rfl | hw'
    · omega
    · have := h.gens w' hw'
      omega
  · -- the generation of the new window is above those of all earlier ones
    intro w₁ h₁ w₂ h₂ heq
    rw [hopened] at h₁ h₂
    rcases List.mem_cons.mp h₁ with e₁ | m₁ <;> rcases List.mem_cons.mp h₂ with e₂ | m₂
    · rw [e₁, e₂]
    · have := h.gens w₂ m₂
      rw [e₁] at heq
      omega
    · have := h.gens w₁ m₁
      rw [e₂] at heq
      omega
    · exact h.unique w₁ m₁ w₂ m₂ heq

/-- A step inside the claimed section, which may store a field of the window. -/
theorem windowInv_inside {e₀ : Nat} {tr : List (Trans (SccState F T) (SccAction T))}
    {s : SccState F T} (h : WindowInv e₀ tr s) {t : T} {p : SccPc F} (hp : s.pc t = some p)
    (hinv : SccInv e₀ (s.afterRun t p)) {w : Window} (hw : p.window = some w)
    (hopen : opens s.scc p = none) (hgen : (s.afterRun t p).scc.windowGen = s.scc.windowGen) :
    WindowInv e₀ (tr ++ [⟨s, .run t, s.afterRun t p⟩]) (s.afterRun t p) := by
  have hc := SccPc.claimed_of_window hw
  obtain ⟨hwgen, hwin⟩ := (h.inv.ok t p hp).window_gen hw
  have hin := h.inside t p hp hc
  have hcount : ∀ f, storeCount f (tr ++ [⟨s, .run t, s.afterRun t p⟩])
      = storeCount f tr + (p.stores f).isSome.toNat := by
    intro f
    rw [storeCount_snoc, storedBy_run f hp]
  have hlast : ∀ f, lastWindow f (tr ++ [⟨s, .run t, s.afterRun t p⟩])
      = (p.stores f).or (lastWindow f tr) := by
    intro f
    rw [lastWindow_snoc, storedBy_run f hp]
  have hopened : (s.afterRun t p).opened = s.opened := by
    simp only [afterRun, hopen, Option.toList_none, List.nil_append]
  -- a call in the section after the step is the moving one, and keeps its window
  have hnext : ∀ u q w', (s.afterRun t p).pc u = some q → q.window = some w' →
      p.window = some w'
        ∧ ∀ f, (q.stored f).toNat = (p.stored f).toNat + (p.stores f).isSome.toNat := by
    intro u q w' hu hw'
    rcases pc_update_cases hu with ⟨-, hq⟩ | ⟨hne, hu'⟩
    · rcases window_sccStep hq hw' with ho | ⟨hp', -, hstored⟩
      · rw [hopen] at ho
        cases ho
      · exact ⟨hp', hstored⟩
    · exact absurd (h.inv.unique u t q p hu' hp (SccPc.claimed_of_window hw') hc) hne
  refine ⟨hinv, fun h2 => by omega, ?_, ?_, ?_, ?_, ?_, ?_⟩
  · intro u q hu hcq f
    obtain ⟨w', hw'⟩ := SccPc.window_of_claimed hcq
    have hstored := (hnext u q w' hu hw').2 f
    have := hin f
    rw [hcount, hgen]
    omega
  · intro f
    rw [hlast, hcount]
    cases hst : p.stores f with
    | none => simpa using h.last f
    | some g =>
        -- the store of this window, one more than for the windows before it
        obtain ⟨w', hw', rfl, -⟩ := load_sccStep_of_stores s.scc s.epoch hst
        obtain rfl : w = w' := Option.some.inj (hw.symm.trans hw')
        have := hin f
        rw [SccPc.not_stored_of_stores hst] at this
        simp only [Bool.toNat_false] at this
        simp only [Option.isSome_some, Bool.toNat_true, Option.or]
        rw [if_neg (by omega), Option.some.injEq]
        omega
  · intro u q w' hu hw'
    rw [hopened]
    exact h.opening t p w' hp (hnext u q w' hu hw').1
  · intro f g hg
    rw [hlast] at hg
    rw [hopened]
    cases hst : p.stores f with
    | none =>
        rw [hst] at hg
        obtain ⟨w', hw', hgen', hval⟩ := h.value f g hg
        exact ⟨w', hw', hgen', hval.trans (load_sccStep_of_not_stores hst).symm⟩
    | some g' =>
        obtain ⟨w', hw', hgen', hval⟩ :=
          load_sccStep_of_stores s.scc s.epoch hst
        rw [hst] at hg
        cases hg
        exact ⟨w', h.opening t p w' hp hw', hgen', hval.symm⟩
  · rw [hopened, hgen]
    exact h.gens
  · rw [hopened]
    exact h.unique

/-- The publishing store ends the claimed section. -/
theorem windowInv_publish {e₀ : Nat} {tr : List (Trans (SccState F T) (SccAction T))}
    {s : SccState F T} (h : WindowInv e₀ tr s) {t : T} {nowNs gen newTs : Nat}
    (hp : s.pc t = some (.publish nowNs gen newTs))
    (hinv : SccInv e₀ (s.afterRun t (.publish nowNs gen newTs))) :
    WindowInv e₀ (tr ++ [⟨s, .run t, s.afterRun t (.publish nowNs gen newTs)⟩])
      (s.afterRun t (.publish nowNs gen newTs)) := by
  obtain ⟨hgen, hwin, -⟩ := h.inv.ok t _ hp
  have hin := h.inside t _ hp rfl
  have hodd : s.scc.windowGen % 2 = 1 := by omega
  have hst : ∀ f, (SccPc.publish (F := F) nowNs gen newTs).stores f = none := by
    intro f
    cases f <;> rfl
  have hstore : ∀ f, storedBy f ⟨s, .run t, s.afterRun t (.publish nowNs gen newTs)⟩ = none :=
    fun f => (storedBy_run f hp).trans (hst f)
  have hcount : ∀ f, storeCount f (tr ++ [⟨s, .run t, s.afterRun t (.publish nowNs gen newTs)⟩])
      = storeCount f tr := fun f => storeCount_snoc_of_none (hstore f)
  have hlast : ∀ f, lastWindow f (tr ++ [⟨s, .run t, s.afterRun t (.publish nowNs gen newTs)⟩])
      = lastWindow f tr := fun f => lastWindow_snoc_of_none (hstore f)
  -- the section is empty afterwards
  have hnone : ∀ u q, (s.afterRun t (.publish nowNs gen newTs)).pc u = some q →
      q.claimed = false := by
    intro u q hu
    rcases pc_update_cases hu with ⟨-, hq⟩ | ⟨hne, hu'⟩
    · cases hq
    · exact h.inv.alone hu' hp (Ne.symm hne) rfl
  refine ⟨hinv, ?_, ?_, fun f => by rw [hlast, hcount]; exact h.last f, ?_, ?_, ?_, h.unique⟩
  · -- both fields have been stored for this window
    intro _ f
    have := hin f
    have hstored : (SccPc.publish (F := F) nowNs gen newTs).stored f = true := by cases f <;> rfl
    rw [hstored, Bool.toNat_true] at this
    rw [hcount, this]
    simp only [afterRun, sccStep]
    omega
  · intro u q hu hc
    rw [hnone u q hu] at hc
    cases hc
  · intro u q w hu hw
    have hc := SccPc.claimed_of_window hw
    rw [hnone u q hu] at hc
    cases hc
  · intro f g hg
    rw [hlast] at hg
    obtain ⟨w, hw, hg', hval⟩ := h.value f g hg
    have hload : f.load (s.afterRun t (.publish nowNs gen newTs)).scc = f.load s.scc :=
      load_sccStep_of_not_stores (hst f)
    exact ⟨w, hw, hg', hval.trans hload.symm⟩
  · intro w hw
    have := h.gens w hw
    simp only [afterRun, sccStep]
    omega

/-- **The step lemma**: the numbering is kept by every transition. -/
theorem windowInv_step {e₀ : Nat} {tr : List (Trans (SccState F T) (SccAction T))}
    {s s' : SccState F T} {a : SccAction T} (h : WindowInv e₀ tr s) (hs : step s a = some s') :
    WindowInv e₀ (tr ++ [⟨s, a, s'⟩]) s' := by
  have hinv := sccInv_step h.inv hs
  rcases step_cases hs with ⟨t, nowNs, rfl, -, rfl⟩ | ⟨t, p, rfl, hp, rfl⟩ | ⟨k, v, rfl, ha⟩
  · refine windowInv_quiet h hinv (fun f => rfl) rfl (fun f => rfl) rfl ?_
    intro u q hu hc
    rcases pc_update_cases hu with ⟨-, hq⟩ | ⟨-, hu'⟩
    · cases hq
      cases hc
    · exact hu'
  · change SccInv e₀ (s.afterRun t p) at hinv
    change WindowInv e₀ (tr ++ [⟨s, .run t, s.afterRun t p⟩]) (s.afterRun t p)
    rcases windowGen_sccStep s.scc s.epoch p with
      ⟨nowNs, gen, newTs, rfl⟩ | ⟨w, hopen, hgen, hnext⟩ | ⟨hopen, hgen⟩
    · exact windowInv_publish h hp hinv
    · refine windowInv_claim h hp hinv hopen hgen ?_
      simp only [afterRun, hnext, Function.update_self]
    · cases hw : p.window with
      | some w => exact windowInv_inside h hp hinv hw hopen hgen
      | none =>
          -- outside of the section nothing is stored
          have hst : ∀ f, p.stores f = none := SccPc.stores_of_window_none hw
          refine windowInv_quiet h hinv (fun f => (storedBy_run f hp).trans (hst f)) hgen
            (fun f => load_sccStep_of_not_stores (hst f)) ?_ ?_
          · simp only [afterRun, hopen, Option.toList_none, List.nil_append]
          · intro u q hu hc
            rcases pc_update_cases hu with ⟨-, hq⟩ | ⟨-, hu'⟩
            · obtain ⟨w, hw'⟩ := SccPc.window_of_claimed hc
              rcases window_sccStep hq hw' with ho | ⟨hp', -⟩
              · rw [hopen] at ho
                cases ho
              · rw [hw] at hp'
                cases hp'
            · exact hu'
  · refine windowInv_quiet h hinv (fun f => ?_) rfl (fun f => by cases f <;> rfl) rfl
      (fun u q hu _ => hu)
    rcases ha with ⟨_, rfl⟩ | ⟨_, rfl⟩ <;> rfl

theorem windowInv_of_run {epoch : Nat} {s : SccState F T}
    {tr : List (Trans (SccState F T) (SccAction T))} (h : Run step (init F T epoch) tr s) :
    WindowInv epoch tr s := by
  induction h with
  | nil => exact windowInv_init epoch
  | snoc _ hs ih => exact windowInv_step ih hs

theorem opened_of_run {s s' : SccState F T} {tr : List (Trans (SccState F T) (SccAction T))}
    (h : Run step s tr s') {w : Window} (hw : w ∈ s.opened) : w ∈ s'.opened := by
  refine h.invariant (I := fun s => w ∈ s.opened) hw (fun r a r' hr hs => ?_)
  rcases step_cases hs with ⟨_, _, -, -, rfl⟩ | ⟨_, _, -, -, rfl⟩ | ⟨_, _, rfl, -⟩
  · exact hr
  · exact List.mem_append_right _ hr
  · exact hr

/-! ## The two loads of a call -/

/-- Some call has stored `current_ts` and not yet `window_open_at`. -/
def Opening (s : SccState F T) : Prop :=
  ∃ t nowNs gen newTs, s.pc t = some (.storeOpenAt nowNs gen newTs)

omit [F64 F] [DecidableEq T] in
/-- The two fields have been stored equally often, or the first once more. -/
theorem storeCount_opening {e₀ : Nat} {tr : List (Trans (SccState F T) (SccAction T))}
    {s : SccState F T} (h : WindowInv e₀ tr s) :
    (s.Opening → storeCount .currentTs tr = storeCount .windowOpenAt tr + 1)
      ∧ (¬ s.Opening → storeCount .currentTs tr = storeCount .windowOpenAt tr) := by
  constructor
  · rintro ⟨t, nowNs, gen, newTs, hp⟩
    have hin := h.inside t _ hp rfl
    rw [hin, hin]
    rfl
  · intro hno
    by_cases hodd : s.scc.windowGen % 2 = 1
    · obtain ⟨t, p, hp, hc⟩ := h.inv.opener hodd
      have hin := h.inside t p hp hc
      rw [hin, hin]
      cases p with
      | storeOpenAt nowNs gen newTs => exact absurd ⟨t, nowNs, gen, newTs, hp⟩ hno
      | _ => rfl
    · rw [h.even (by omega), h.even (by omega)]

/-- The pass of a call of `t` that has compared `now_ns` with the window it loaded: the
transition that loaded `ts` and the one that loaded `opened_at`, and what happened before,
between and after them. -/
structure Pass (tr : List (Trans (SccState F T) (SccAction T))) (t : T)
    (nowNs gen ts openedAt : Nat) where
  before : List (Trans (SccState F T) (SccAction T))
  load : Trans (SccState F T) (SccAction T)
  between : List (Trans (SccState F T) (SccAction T))
  loadAt : Trans (SccState F T) (SccAction T)
  after : List (Trans (SccState F T) (SccAction T))
  split : tr = before ++ load :: (between ++ loadAt :: after)
  load_act : load.act = .run t
  load_pc : load.pre.pc t = some (.loadTs nowNs gen)
  load_ts : load.pre.scc.currentTs = ts
  between_act : ∀ x ∈ between, x.act ≠ .run t
  loadAt_act : loadAt.act = .run t
  loadAt_pc : loadAt.pre.pc t = some (.loadOpenAt nowNs gen ts)
  loadAt_openedAt : loadAt.pre.scc.windowOpenAt = openedAt
  after_pc : ∀ x ∈ after, x.act = .run t → x.pre.pc t = some (.loadW nowNs gen ts openedAt)

namespace Pass

variable {tr : List (Trans (SccState F T) (SccAction T))} {t : T}
  {nowNs gen ts openedAt : Nat}

/-- `ts` and `opened_at` were stored by the opener of one window, and that window is open for
`now_ns` at the width `w`. -/
def FromOneWindow (p : Pass tr t nowNs gen ts openedAt) (s : SccState F T) (w : Nat) : Prop :=
  ∃ win ∈ s.opened, lastWindow .currentTs p.before = some win.gen
    ∧ lastWindow .windowOpenAt (p.before ++ p.load :: p.between) = some win.gen
    ∧ win.ts = ts ∧ win.openAt = openedAt ∧ nowNs - win.openAt < w

/-- Between the two loads `window_open_at` is stored once if at the first load an opener had
stored `current_ts` but not yet `window_open_at`, and not at all otherwise. -/
def Aligned (p : Pass tr t nowNs gen ts openedAt) : Prop :=
  (p.load.pre.Opening ∧ storeCount .windowOpenAt p.between = 1)
    ∨ (¬ p.load.pre.Opening ∧ storeCount .windowOpenAt p.between = 0)

omit [F64 F] [DecidableEq T] in
theorem storeCount_load (p : Pass tr t nowNs gen ts openedAt) :
    storeCount .windowOpenAt (p.before ++ p.load :: p.between)
      = storeCount .windowOpenAt p.before + storeCount .windowOpenAt p.between := by
  have hload : storedBy .windowOpenAt p.load = none := by
    rw [storedBy, p.load_act]
    simp only [p.load_pc, Option.bind_some, SccPc.stores]
  rw [storeCount_append]
  simp [storeCount, hload]

omit [F64 F] [DecidableEq T] in
/-- Aligned loads are loads that follow equally many stores. -/
theorem aligned_iff (p : Pass tr t nowNs gen ts openedAt) {e₀ : Nat}
    (h : WindowInv e₀ p.before p.load.pre) :
    p.Aligned ↔ storeCount .currentTs p.before
      = storeCount .windowOpenAt (p.before ++ p.load :: p.between) := by
  obtain ⟨hopen, hno⟩ := storeCount_opening h
  rw [p.storeCount_load, Aligned]
  by_cases ho : p.load.pre.Opening
  · have := hopen ho
    simp only [ho, true_and, not_true_eq_false, false_and, or_false]
    omega
  · have := hno ho
    simp only [ho, false_and, not_false_eq_true, true_and, false_or]
    omega

/-- The runs up to the two loads. -/
theorem runs (p : Pass tr t nowNs gen ts openedAt) {epoch : Nat} {s : SccState F T}
    (h : Run step (init F T epoch) tr s) :
    Run step (init F T epoch) p.before p.load.pre
      ∧ Run step p.load.pre (p.load :: p.between) p.loadAt.pre
      ∧ Run step (init F T epoch) (p.before ++ p.load :: p.between) p.loadAt.pre
      ∧ Run step p.loadAt.pre (p.loadAt :: p.after) s := by
  have hrun := h
  rw [p.split] at hrun
  obtain ⟨h₁, hs₁, hrest⟩ := hrun.split
  obtain ⟨h₂, hs₂, h₃⟩ := hrest.split
  have hmid := Run.cons hs₁ h₂
  exact ⟨h₁, hmid, h₁.append hmid, Run.cons hs₂ h₃⟩

/-- One pass: its two loads come from one window exactly when they are aligned. -/
theorem fromOneWindow_iff (p : Pass tr t nowNs gen ts openedAt) {epoch w : Nat}
    {s : SccState F T} (h : Run step (init F T epoch) tr s)
    (hcoal : Scc.coalesces nowNs gen openedAt w) : p.FromOneWindow s w ↔ p.Aligned := by
  obtain ⟨h₁, hmid, h₂, h₃⟩ := p.runs h
  have hI₁ := windowInv_of_run h₁
  have hI₂ := windowInv_of_run h₂
  rw [p.aligned_iff hI₁]
  have hlast₁ := hI₁.last .currentTs
  have hlast₂ := hI₂.last .windowOpenAt
  constructor
  · rintro ⟨win, -, hts, hat, -⟩
    rw [hts] at hlast₁
    rw [hat] at hlast₂
    split at hlast₁
    · cases hlast₁
    · split at hlast₂
      · cases hlast₂
      · have e₁ := Option.some.inj hlast₁
        have e₂ := Option.some.inj hlast₂
        omega
  · intro heq
    -- a window was published before the call read its generation
    have hpos : storeCount .currentTs p.before ≠ 0 := by
      obtain ⟨hgen, hle⟩ := hI₁.inv.ok t _ p.load_pc
      have hne := hcoal.1
      by_cases hodd : p.load.pre.scc.windowGen % 2 = 1
      · obtain ⟨u, q, hq, hc⟩ := hI₁.inv.opener hodd
        have := hI₁.inside u q hq hc .currentTs
        omega
      · have := hI₁.even (by omega) .currentTs
        omega
    rw [if_neg hpos] at hlast₁
    rw [← heq, if_neg hpos] at hlast₂
    obtain ⟨w₁, hw₁, hg₁, hv₁⟩ := hI₁.value _ _ hlast₁
    obtain ⟨w₂, hw₂, hg₂, hv₂⟩ := hI₂.value _ _ hlast₂
    obtain rfl := hI₂.unique w₁ (opened_of_run hmid hw₁) w₂ hw₂ (hg₁.trans hg₂.symm)
    have hat : w₁.openAt = openedAt := hv₂.trans p.loadAt_openedAt
    refine ⟨w₁, opened_of_run h₃ hw₂, by rw [hlast₁, hg₁], by rw [hlast₂, hg₁],
      hv₁.trans p.load_ts, hat, ?_⟩
    rw [hat]
    exact hcoal.2

/-- A pass goes on while other threads take steps and while `t` loads the width. -/
def snoc (p : Pass tr t nowNs gen ts openedAt) (x : Trans (SccState F T) (SccAction T))
    (hx : x.act = .run t → x.pre.pc t = some (.loadW nowNs gen ts openedAt)) :
    Pass (tr ++ [x]) t nowNs gen ts openedAt :=
  { p with
    after := p.after ++ [x]
    split := by simpa using congrArg (· ++ [x]) p.split
    after_pc := by
      intro y hy
      rcases List.mem_append.mp hy with hy | hy
      · exact p.after_pc y hy
      · rw [List.mem_singleton.mp hy]
        exact hx }

end Pass

/-- A call past its first load has its first load behind it; past its second load it has a
pass. -/
structure HasPass (tr : List (Trans (SccState F T) (SccAction T))) (s : SccState F T)
    (t : T) : Prop where
  first : ∀ nowNs gen ts, s.pc t = some (.loadOpenAt nowNs gen ts) →
    ∃ before load between, tr = before ++ load :: between ∧ load.act = .run t
      ∧ load.pre.pc t = some (.loadTs nowNs gen) ∧ load.pre.scc.currentTs = ts
      ∧ ∀ x ∈ between, x.act ≠ .run t
  second : ∀ nowNs gen ts openedAt, s.pc t = some (.loadW nowNs gen ts openedAt) →
    Nonempty (Pass tr t nowNs gen ts openedAt)
  compared : ∀ nowNs gen ts openedAt w, s.pc t = some (.hit nowNs gen ts openedAt w) →
    Nonempty (Pass tr t nowNs gen ts openedAt)

omit [F64 F] [DecidableEq T] in
/-- The pass of a call is not affected by other threads. -/
theorem hasPass_other {tr : List (Trans (SccState F T) (SccAction T))} {t : T}
    {x : Trans (SccState F T) (SccAction T)} (h : HasPass tr x.pre t) (hact : x.act ≠ .run t)
    (hpc : x.post.pc t = x.pre.pc t) : HasPass (tr ++ [x]) x.post t := by
  refine ⟨fun nowNs gen ts hp => ?_, fun nowNs gen ts openedAt hp => ?_,
    fun nowNs gen ts openedAt w hp => ?_⟩
  · obtain ⟨before, load, between, rfl, h₁, h₂, h₃, h₄⟩ := h.first nowNs gen ts (hpc ▸ hp)
    refine ⟨before, load, between ++ [x], by simp, h₁, h₂, h₃, fun y hy => ?_⟩
    rcases List.mem_append.mp hy with hy | hy
    · exact h₄ y hy
    · rw [List.mem_singleton.mp hy]
      exact hact
  · obtain ⟨p⟩ := h.second nowNs gen ts openedAt (hpc ▸ hp)
    exact ⟨p.snoc x (fun hx => absurd hx hact)⟩
  · obtain ⟨p⟩ := h.compared nowNs gen ts openedAt w (hpc ▸ hp)
    exact ⟨p.snoc x (fun hx => absurd hx hact)⟩

theorem hasPass_run {tr : List (Trans (SccState F T) (SccAction T))} {s : SccState F T} {t : T}
    {p : SccPc F} (h : HasPass tr s t) (hp : s.pc t = some p) :
    HasPass (tr ++ [⟨s, .run t, s.afterRun t p⟩]) (s.afterRun t p) t := by
  have hpc : (s.afterRun t p).pc t = (sccStep s.scc s.epoch p).2 := Function.update_self ..
  refine ⟨fun nowNs gen ts hq => ?_, fun nowNs gen ts openedAt hq => ?_,
    fun nowNs gen ts openedAt w hq => ?_⟩
  · obtain ⟨rfl, hts⟩ := sccStep_eq_loadOpenAt (hpc ▸ hq)
    exact ⟨tr, _, [], rfl, rfl, hp, hts, by simp⟩
  · obtain ⟨rfl, hat⟩ := sccStep_eq_loadW (hpc ▸ hq)
    obtain ⟨before, load, between, rfl, h₁, h₂, h₃, h₄⟩ := h.first nowNs gen ts hp
    exact ⟨⟨before, load, between, ⟨s, .run t, s.afterRun t (.loadOpenAt nowNs gen ts)⟩, [],
      by simp, h₁, h₂, h₃, h₄, rfl, hp, hat, by simp⟩⟩
  · obtain rfl := sccStep_eq_hit (hpc ▸ hq)
    obtain ⟨pass⟩ := h.second nowNs gen ts openedAt hp
    exact ⟨pass.snoc _ (fun _ => hp)⟩

theorem hasPass_of_run {epoch : Nat} {s : SccState F T}
    {tr : List (Trans (SccState F T) (SccAction T))} (h : Run step (init F T epoch) tr s)
    (t : T) : HasPass tr s t := by
  induction h with
  | nil => exact ⟨by simp [init], by simp [init], by simp [init]⟩
  | snoc _ hs ih =>
      rename_i r r' a tr _
      rcases step_cases hs with ⟨u, nowNs, rfl, hidle, hpost⟩ | ⟨u, p, rfl, hp, hpost⟩ |
        ⟨k, v, hpost, ha⟩
      · by_cases hu : t = u
        · subst hu
          have hpc : r'.pc t = some (.count nowNs) := by rw [hpost]; exact Function.update_self ..
          refine ⟨?_, ?_, ?_⟩ <;> simp [hpc]
        · refine hasPass_other ih (by simp) ?_
          rw [hpost]
          exact Function.update_of_ne hu ..
      · by_cases hu : t = u
        · subst hu
          rw [hpost]
          exact hasPass_run ih hp
        · refine hasPass_other ih (fun hx => hu (SccAction.run.inj hx).symm) ?_
          rw [hpost]
          exact Function.update_of_ne hu ..
      · refine hasPass_other ih ?_ (by rw [hpost])
        rcases ha with ⟨_, rfl⟩ | ⟨_, rfl⟩ <;> simp

/-- **When a coalesced snapshot is served from one window.** In every run, a call that returns
on the coalescing path compared `now_ns` with the open time of the window that chose the
returned timestamp if and only if its loads of `current_ts` and `window_open_at` are
aligned. -/
theorem hit_from_one_window_iff {epoch : Nat} {s : SccState F T}
    {tr : List (Trans (SccState F T) (SccAction T))} (h : Run step (init F T epoch) tr s)
    {t : T} {nowNs gen ts openedAt w : Nat}
    (hit : s.pc t = some (.hit nowNs gen ts openedAt w)) :
    Nonempty (Pass tr t nowNs gen ts openedAt)
      ∧ ∀ p : Pass tr t nowNs gen ts openedAt, p.FromOneWindow s w ↔ p.Aligned :=
  ⟨(hasPass_of_run h t).compared _ _ _ _ _ hit,
    fun p => p.fromOneWindow_iff h ((sccInv_of_run h).ok t _ hit).2.2.1⟩

/-! ## A timestamp of an expired window

Thread `t` opens a window at time `0` with timestamp `1`. Thread `u` calls at 10 ms and loads
the timestamp `1`; before its next instruction thread `t` opens another window at 10 ms. Thread
`u` then loads the new open time and returns `1`, the timestamp of a window that expired long
before. -/

def tornReads {T : Type} (t u : T) : List (SccAction T) :=
  .call t 0 :: List.replicate 14 (.run t) ++ .advance 1 :: .call u 10000000
    :: List.replicate 3 (.run u) ++ .call t 10000000 :: List.replicate 14 (.run t)
    ++ List.replicate 2 (.run u)

/-- The state in which thread `u` is about to return the expired timestamp. -/
def servesExpired {T : Type} (s : SccState ℚ T) (u : T) : Bool :=
  s.pc u = some (.hit 10000000 2 1 10000000 2060000)
    ∧ s.opened = [⟨2, 2, 10000000⟩, ⟨0, 1, 0⟩]

theorem expired_window_served :
    ∃ tr s nowNs gen ts openedAt w, Run step (init ℚ (Fin 2) 1) tr s
      ∧ s.pc 1 = some (.hit nowNs gen ts openedAt w)
      ∧ (∀ win ∈ s.opened, win.ts = ts → w ≤ nowNs - win.openAt)
      ∧ ∀ p : Pass tr 1 nowNs gen ts openedAt, ¬ p.FromOneWindow s w := by
  obtain ⟨tr, s, hrun, hs⟩ := exists_run_of_replay step (init ℚ (Fin 2) 1) (tornReads 0 1)
    (fun _ s => servesExpired s 1) (by decide +kernel)
  simp only [servesExpired, decide_eq_true_eq] at hs
  have hexp : ∀ win ∈ s.opened, win.ts = 1 → 2060000 ≤ 10000000 - win.openAt := by
    rw [hs.2]
    simp
  refine ⟨tr, s, _, _, _, _, _, hrun, hs.1, hexp, ?_⟩
  rintro p ⟨win, hwin, -, -, hts, -, hlt⟩
  have := hexp win hwin hts
  omega

/-- Thread `1` compares `now_ns` with the window it loaded, and nobody else is inside a call when it
loads the timestamp: it performs `before`, the first load, the others perform `between`, and it
performs the second load and the comparison. -/
theorem exists_pass (before between : List (SccAction (Fin 2))) (nowNs gen ts openedAt w k : Nat)
    (h : (replay step (init ℚ (Fin 2) 1) before).any (fun r =>
      decide (r.2.pc 0 = none ∧ r.2.pc 1 = some (.loadTs nowNs gen) ∧ r.2.scc.currentTs = ts)
        && (step r.2 (.run 1)).any fun s₁ => (replay step s₁ between).any fun r₂ =>
      decide ((∀ x ∈ r₂.1, x.act ≠ .run 1) ∧ r₂.2.pc 1 = some (.loadOpenAt nowNs gen ts)
          ∧ r₂.2.scc.windowOpenAt = openedAt ∧ storeCount .windowOpenAt r₂.1 = k)
        && (step r₂.2 (.run 1)).any fun s₃ => (step s₃ (.run 1)).any fun s =>
      decide (s₃.pc 1 = some (.loadW nowNs gen ts openedAt)
        ∧ s.pc 1 = some (.hit nowNs gen ts openedAt w))) = true) :
    ∃ tr s, ∃ p : Pass tr (1 : Fin 2) nowNs gen ts openedAt, Run step (init ℚ (Fin 2) 1) tr s
      ∧ s.pc 1 = some (.hit nowNs gen ts openedAt w) ∧ (p.Aligned ↔ k = 0) := by
  simp only [Option.any_eq_true, Bool.and_eq_true, decide_eq_true_eq] at h
  obtain ⟨r, hr, ⟨hidle, hload, hts⟩, s₁, hs₁, r₂, hr₂, ⟨hno, hloadAt, hat, hk⟩, s₃, hs₃, s, hs,
    hw, hit⟩ := h
  let p : Pass (r.1 ++ ⟨r.2, .run 1, s₁⟩ :: (r₂.1 ++ ⟨r₂.2, .run 1, s₃⟩ :: [⟨s₃, .run 1, s⟩]))
      (1 : Fin 2) nowNs gen ts openedAt :=
    { before := r.1, load := _, between := r₂.1, loadAt := _, after := _, split := rfl
      load_act := rfl, load_pc := hload, load_ts := hts, between_act := hno, loadAt_act := rfl
      loadAt_pc := hloadAt, loadAt_openedAt := hat
      after_pc := fun x hx _ => by rw [List.mem_singleton.mp hx]; exact hw }
  have hopening : ¬ p.load.pre.Opening := by
    rintro ⟨t, nowNs', gen', newTs, hp⟩
    have hp' : r.2.pc t = some (.storeOpenAt nowNs' gen' newTs) := hp
    match t with
    | 0 => rw [hidle] at hp'; cases hp'
    | 1 => rw [hload] at hp'; cases hp'
  refine ⟨_, s, p, (run_of_replay hr).append (Run.cons hs₁ ((run_of_replay hr₂).append
    (Run.cons hs₃ (Run.single hs)))), hit, ?_⟩
  show (p.load.pre.Opening ∧ storeCount .windowOpenAt r₂.1 = 1)
    ∨ (¬ p.load.pre.Opening ∧ storeCount .windowOpenAt r₂.1 = 0) ↔ k = 0
  rw [hk]
  simp [hopening]

/-- A call in the window just opened is served from it; with a window opened between its two loads
a call is not served from one window. -/
theorem hit_from_one_window_iff_served :
    (∃ tr s, ∃ p : Pass tr (1 : Fin 2) 1000 2 1 0, Run step (init ℚ (Fin 2) 1) tr s
        ∧ p.Aligned ∧ p.FromOneWindow s 2060000)
      ∧ ∃ tr s, ∃ p : Pass tr (1 : Fin 2) 10000000 2 1 10000000,
        Run step (init ℚ (Fin 2) 1) tr s ∧ ¬ p.Aligned ∧ ¬ p.FromOneWindow s 2060000 := by
  obtain ⟨tr, s, p, hrun, hit, hp⟩ := exists_pass
    (.call 0 0 :: List.replicate 14 (.run 0) ++ .call 1 1000 :: List.replicate 2 (.run 1)) []
    1000 2 1 0 2060000 0 (by decide +kernel)
  obtain ⟨tr', s', p', hrun', hit', hp'⟩ := exists_pass
    (.call 0 0 :: List.replicate 14 (.run 0) ++ .advance 1 :: .call 1 10000000
      :: List.replicate 2 (.run 1))
    (.call 0 10000000 :: List.replicate 14 (.run 0)) 10000000 2 1 10000000 2060000 1
    (by decide +kernel)
  have haligned : p.Aligned := hp.mpr rfl
  have hnot : ¬ p'.Aligned := fun h => one_ne_zero (hp'.mp h)
  exact ⟨⟨tr, s, p, hrun, haligned, ((hit_from_one_window_iff hrun hit).2 p).mpr haligned⟩,
    ⟨tr', s', p', hrun', hnot, fun h => hnot (((hit_from_one_window_iff hrun' hit').2 p').mp h)⟩⟩

end SccState

end Pacer.Atomic
