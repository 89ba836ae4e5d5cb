import Pacer.Abtree.Retire

set_option autoImplicit false

/-! # The tree is linearizable

The calls and returns of a run are a history of the atomic dictionary (`run_linear`). An update
takes effect with its SCX. An operation that changes nothing returns what it reads in a leaf, and
this leaf may have left the tree long before. `Watched` says why that does no harm: whatever leaf
the search can still come to, what it would read there has been the answer of the dictionary at
some moment since the call. A change of the tree keeps this, since after it a search goes on to
where it was going before or to a node of the present tree (`Grows.reaches_inv`).
-/

namespace Pacer.Abtree

open Machine RangeGraph Relation

variable {K : Type} [LinearOrder K]

/-! ## What an operation reads in a leaf -/

section Quiet

variable {b : Nat} {h h' : Heap K} {lab lab' : Labels K} {op : Op K} {r : Result}

/-- **What an operation returns without an update** is the answer of the dictionary when the
search for its key ends at the leaf. -/
theorem Labelled.quiet_of_reads (L : Labelled b h lab) {x : Nat} {n : Node K}
    (E : EndsAt h op.key entry x n) (hr : op.reads n = some r) :
    r ∈ (dictionary K).quiet h.content op := by
  have hcontent := L.content_eq E
  have hok := L.node_ok x n E.node
  change (dictionary K).apply h.content op = (h.content, r)
  cases op with
  | find key =>
      have hcontent : h.content key = n.value key := hcontent
      simp only [Op.reads] at hr
      simp only [dictionary, hcontent]
      split at hr
      · rename_i hk
        obtain ⟨v, hv, hval⟩ := hok.exists_value E.leaf hk
        rw [hv] at hr
        cases hr
        rw [hval]
      · rename_i hk
        cases hr
        rw [Node.value_none hk]
  | insert key v replace =>
      have hcontent : h.content key = n.value key := hcontent
      simp only [Op.reads] at hr
      simp only [dictionary, hcontent]
      split at hr
      · rename_i hk
        rw [Bool.and_eq_true, Bool.not_eq_true'] at hk
        obtain ⟨v, hv, hval⟩ := hok.exists_value E.leaf hk.1
        rw [hv] at hr
        cases hr
        rw [hval, hk.2]
        rfl
      · cases hr
  | erase key =>
      have hcontent : h.content key = n.value key := hcontent
      simp only [Op.reads] at hr
      simp only [dictionary, hcontent]
      split at hr
      · cases hr
      · rename_i hk
        cases hr
        rw [Node.value_none hk]

end Quiet

/-! ## What a thread has seen -/

/-- Where a thread stands with its operation, and with the results that it has seen: a search only
comes to leaves in which it reads one of these. -/
structure Watched (h : Heap K) (th : Thread K) (w : Object.Watch (Op K) Result) : Prop where
  idle : th.pc = .idle → w = .idle
  called : ∀ op, th.pc.pending = some op → ∃ seen, w = .called op seen
    ∧ ∀ key c, th.pc = .search (.op op) key c → ∀ x n r, EndsAt h key c.l x n →
      op.reads n = some r → r ∈ seen
  done : th.pc ≠ .idle → th.pc.pending = none → w = .done th.result

section Watched

variable {b : Nat} {h h' : Heap K} {lab lab' : Labels K} {th th' : Thread K} {rs : List Nat}
  {w : Object.Watch (Op K) Result}

/-- A pending operation has seen the present dictionary. -/
def Seen (h : Heap K) (w : Object.Watch (Op K) Result) : Prop :=
  ∀ op seen, w = .called op seen → (dictionary K).quiet h.content op ⊆ seen

theorem Seen.see_eq (hs : Seen h w) : w.see (dictionary K) h.content = w := by
  cases w with
  | idle | done => rfl
  | called op seen => rw [Object.Watch.see, Set.union_eq_self_of_subset_right (hs op seen rfl)]

/-- **A change of the tree does not surprise a search.** -/
theorem Watched.mono (L : Labelled b h lab) (L' : Labelled b h' lab') (G : Grows h lab h' lab')
    (T : ThreadOk h lab th) (W : Watched h th w) :
    Watched h' th (w.see (dictionary K) h'.content) where
  idle := fun hi => by rw [W.idle hi]; rfl
  done := fun hne hp => by rw [W.done hne hp]; rfl
  called := by
    intro op hop
    obtain ⟨seen, hw, hseen⟩ := W.called op hop
    refine ⟨_, by rw [hw]; rfl, fun key c hpc x n r E hr => ?_⟩
    have hok := T.pc
    rw [hpc] at hok
    obtain ⟨-, hkey, C⟩ := hok
    obtain rfl : op.key = key := hkey
    rcases G.reaches_inv op.key c.l C.l_lt x E.reaches with hold | hm
    · -- the leaf was there before, and leaves do not change
      obtain ⟨n₀, hn₀⟩ := Heap.exists_node (L.ranged.reaches_pub hold C.l_lt)
      obtain ⟨n', hn', hleaf, -, -, -, hsame⟩ := G.node_fields hn₀
      obtain rfl := Option.some.inj (hn'.symm.trans E.node)
      rw [E.leaf] at hleaf
      rw [← hsame hleaf.symm] at hn₀
      exact Or.inl (hseen op.key c hpc x n' r ⟨hold, hn₀, E.leaf⟩ hr)
    · refine Or.inr (L'.quiet_of_reads (L'.endsAt_of_member E.node E.leaf hm ?_) hr)
      refine L'.ranged.mem_of_reaches (G.lt C.l_lt) ?_ E.reaches
      rw [G.label _ C.l_lt]
      exact C.range

/-! ## The steps of a thread -/

/-- A step within an operation, other than a step of its search. -/
theorem Watched.pending (W : Watched h th w) {pc : Pc K} (hne : th.pc ≠ .idle)
    (hpend : pc.pending = th.pc.pending) (hidle : pc ≠ .idle)
    (hno : ∀ op key c, pc ≠ .search (.op op) key c) : Watched h { th with pc := pc } w where
  idle := fun hi => absurd hi hidle
  called := fun op hop => by
    obtain ⟨seen, hw, -⟩ := W.called op (hpend.symm.trans hop)
    exact ⟨seen, hw, fun key c hpc => absurd hpc (hno op key c)⟩
  done := fun _ hp => W.done hne (hpend.symm.trans hp)

/-- A step of the search: the leaves ahead hold no surprise. -/
theorem Watched.search (W : Watched h th w) (hne : th.pc ≠ .idle) {task : Task K} {key : K}
    {c : Cursor} (hpend : th.pc.pending = task.pending)
    (hseen : ∀ op seen, task = .op op → w = .called op seen → ∀ x n r, EndsAt h key c.l x n →
      op.reads n = some r → r ∈ seen) : Watched h { th with pc := .search task key c } w where
  idle := fun hi => by cases hi
  called := fun op hop => by
    obtain ⟨seen, hw, -⟩ := W.called op (hpend.trans hop)
    refine ⟨seen, hw, fun key' c' hpc => ?_⟩
    cases hpc
    exact hseen op seen rfl hw
  done := fun _ hp => W.done hne (hpend.trans hp)

/-- A thread that is done with its operation. -/
theorem watched_done (hidle : th.pc ≠ .idle) (hpend : th.pc.pending = none) :
    Watched h th (.done th.result) where
  idle := fun hi => absurd hi hidle
  called := fun op hop => by rw [hpend] at hop; cases hop
  done := fun _ _ => rfl

omit [LinearOrder K] in
theorem Thread.pop_pending (th : Thread K) :
    th.pop.pc.pending = none ∧ th.pop.pc ≠ .idle ∧ th.pop.result = th.result := by
  cases hs : th.stack with
  | nil =>
      rw [Thread.pop, hs]
      exact ⟨rfl, fun hi => (by cases hi), rfl⟩
  | cons fr stack =>
      cases fr with
      | call f | loop f =>
          rw [Thread.pop, hs]
          exact ⟨rfl, fun hi => (by cases hi), rfl⟩

theorem Returns.pending (T : ThreadOk h lab th) {frames : List Frame}
    (R : Returns h th.pc frames) : th.pc.pending = none ∧ th.pc ≠ .idle := by
  have hok := T.pc
  generalize th.pc = pc at R hok
  cases R with
  | lost | parent | settled | gone | retired => exact ⟨rfl, fun hi => (by cases hi)⟩
  | single | heavy =>
      obtain ⟨A, -, -, v, htask⟩ := hok
      refine ⟨?_, fun hi => (by cases hi)⟩
      rw [Pc.pending, htask]
      rfl

/-- An operation ends with its return only. -/
theorem Move.pc_ne_idle (M : Move b h th h' th' rs) : th'.pc ≠ .idle := by
  have hadvance : ∀ w : Attempt K, (th.advance w).pc ≠ .idle := by
    intro w hi
    rcases th.advance_cases w with ⟨heq, -⟩ | ⟨heq, -⟩ | ⟨heq, -⟩ <;> rw [heq] at hi <;> cases hi
  cases M with
  | answer | returns => exact (Thread.pop_pending _).2.1
  | linked | checked | sibling => exact hadvance _
  | @retry w he => cases ht : w.task <;> exact fun hi => by cases hi
  | _ => exact fun hi => by cases hi

/-- What a step of a thread is for the object: nothing, an answer, or the effect of an update. -/
theorem Move.watched (hb : 3 ≤ b) (L : Labelled b h lab) (T : ThreadOk h lab th)
    (M : Move b h th h' th' rs) (W : Watched h th w) (hs : Seen h w) :
    (h'.content = h.content ∧ Watched h' th' w)
    ∨ (∃ op seen r, w = .called op seen ∧ r ∈ seen ∧ h' = h ∧ Watched h' th' (.done r))
    ∨ (∃ op seen r, w = .called op seen ∧ (dictionary K).apply h.content op = (h'.content, r)
      ∧ Watched h' th' (.done r)) := by
  have hok := T.pc
  -- a step to `pc` that is none of a search
  have hpc : ∀ (pc pc' : Pc K), th.pc = pc → pc ≠ .idle → pc'.pending = pc.pending →
      pc' ≠ .idle → (∀ op key c, pc' ≠ .search (.op op) key c) →
      h.content = h.content ∧ Watched h { th with pc := pc' } w := by
    rintro pc pc' rfl hne hpend hidle hno
    exact ⟨rfl, W.pending hne hpend hidle hno⟩
  have hadvance : ∀ (w₀ : Attempt K) (pc : Pc K), th.pc = pc → pc ≠ .idle →
      w₀.task.pending = pc.pending → h.content = h.content ∧ Watched h (th.advance w₀) w := by
    intro w₀ pc he hne hpend
    rcases th.advance_cases w₀ with ⟨heq, -⟩ | ⟨heq, -⟩ | ⟨heq, -⟩ <;> rw [heq]
    · exact hpc pc (.llx w₀) he hne hpend (by simp) (by simp)
    · exact hpc pc (.sibling w₀) he hne hpend (by simp) (by simp)
    · exact hpc pc (.scx w₀) he hne hpend (by simp) (by simp)
  cases M with
  | begin he => exact Or.inl (hpc _ (.enter _) he (by simp) rfl (by simp) (by simp))
  | @enter task l key he hl hkey =>
      refine Or.inl ⟨rfl, W.search (by rw [he]; simp) (by rw [he]; rfl) ?_⟩
      rintro op seen rfl hw x n r E hr
      obtain rfl : op.key = key := hkey
      have hroot := L.root_next hl op.key
      exact hs op seen hw
        (L.quiet_of_reads ⟨ReflTransGen.head hroot E.reaches, E.node, E.leaf⟩ hr)
  | @descend task key c l next he hl hleaf hviol hnext =>
      refine Or.inl ⟨rfl, W.search (by rw [he]; simp) (by rw [he]; rfl) ?_⟩
      rintro op seen rfl hw x n r E hr
      obtain ⟨seen', hw', hseen⟩ := W.called op (by rw [he]; rfl)
      obtain ⟨-, rfl⟩ := Object.Watch.called.inj (hw.symm.trans hw')
      have hedge : h.graph.Next key c.l next := by
        rw [Next, Heap.graph_dir hl]
        exact Heap.child_eq_some.mp hnext
      exact hseen key c he x n r ⟨ReflTransGen.head hedge E.reaches, E.node, E.leaf⟩ hr
  | @answer op key c l r he hl hleaf hr =>
      obtain ⟨seen, hw, hseen⟩ := W.called op (by rw [he]; rfl)
      obtain ⟨hp, hi, hres⟩ := Thread.pop_pending { th with result := r }
      refine Or.inr (Or.inl ⟨op, seen, r, hw, ?_, rfl, ?_⟩)
      · exact hseen key c he c.l l r ⟨ReflTransGen.refl, hl, hleaf⟩ hr
      · have hdone := watched_done (h := h) hi hp
        rw [hres] at hdone
        exact hdone
  | aim he => exact Or.inl (hpc _ (.llx _) he (by simp) rfl (by simp) (by simp))
  | aimWeight he => exact Or.inl (hpc _ (.llx _) he (by simp) rfl (by simp) (by simp))
  | aimDegree he => exact Or.inl (hpc _ (.llx _) he (by simp) rfl (by simp) (by simp))
  | look he => exact Or.inl (hpc _ (.inspect _) he (by simp) rfl (by simp) (by simp))
  | present he => exact Or.inl (hpc _ (.enter _) he (by simp) rfl (by simp) (by simp))
  | link he => exact Or.inl (hpc _ (.recheck _ _) he (by simp) rfl (by simp) (by simp))
  | linked he => exact Or.inl (hadvance _ _ he (by simp) rfl)
  | checked he => exact Or.inl (hadvance _ _ he (by simp) rfl)
  | @retry w₀ he =>
      have hne : th.pc ≠ .idle ∧ th.pc.pending = w₀.task.pending := by
        rcases he with he | ⟨info, he⟩ | he <;> rw [he] <;> exact ⟨by simp, rfl⟩
      refine Or.inl ⟨rfl, ?_⟩
      cases ht : w₀.task with
      | op op =>
          show Watched h { th with pc := .begin op } w
          exact W.pending hne.1 (by rw [hne.2, ht]; rfl) (by simp) (by simp)
      | fix f =>
          show Watched h { th with pc := .enter (.fix f) } w
          exact W.pending hne.1 (by rw [hne.2, ht]; rfl) (by simp) (by simp)
  | sibling he => exact Or.inl (hadvance _ _ he (by simp) rfl)
  | @commit w₀ u k he hu X =>
      rw [he] at hok
      obtain ⟨A, htodo, hsib⟩ := hok
      obtain ⟨old, top, labs, C, heq⟩ := A.committed hb L htodo hsib hu X
      rw [heq]
      cases ht : w₀.task with
      | op op =>
          obtain ⟨r, hr, happly⟩ := C.effect op ht
          obtain ⟨seen, hw, -⟩ := W.called op (by rw [he, Pc.pending, ht]; rfl)
          refine Or.inr (Or.inr ⟨op, seen, r, hw, happly, ?_⟩)
          rw [hr]
          exact watched_done (by simp) rfl
      | fix f =>
          obtain ⟨hr, hkeep⟩ := C.keep f ht
          refine Or.inl ⟨hkeep, ?_⟩
          rw [W.done (by rw [he]; simp) (by rw [he, Pc.pending, ht]; rfl), hr]
          exact watched_done (by simp) rfl
  | retire he => exact Or.inl (hpc _ (.retire _) he (by simp) rfl (by simp) (by simp))
  | @returns frames R =>
      obtain ⟨hpend, hne⟩ := R.pending T
      obtain ⟨hp, hi, hres⟩ := (th.push frames).pop_pending
      rw [W.done hne hpend]
      exact Or.inl ⟨rfl, hres ▸ watched_done hi hp⟩

end Watched

/-! ## The machine -/

/-- The calls and the returns of a run. -/
def event {E : Type} (x : Trans (State K) (Action K E)) : Option (Object.Event Nat (Op K) Result) :=
  match x.act with
  | .call t op => some (.call t op)
  | .run _ _ => none
  | .ret t => (x.pre.threads[t]?).map fun th => .ret t th.result

def history {E : Type} (tr : List (Trans (State K) (Action K E))) :
    List (Object.Event Nat (Op K) Result) :=
  tr.filterMap event

omit [LinearOrder K] in
theorem history_snoc {E : Type} (tr : List (Trans (State K) (Action K E)))
    (x : Trans (State K) (Action K E)) :
    history (tr ++ [x]) = history tr ++ (event x).toList := by
  rw [history, List.filterMap_append, List.filterMap_cons, List.filterMap_nil]
  cases event x <;> rfl

/-- Where a thread stands with its operation. -/
def Thread.phase (th : Thread K) : Object.Phase (Op K) Result :=
  match th.pc.pending with
  | some op => .called op
  | none => if th.pc = .idle then .idle else .done th.result

def State.phase (s : State K) (t : Nat) : Object.Phase (Op K) Result :=
  match s.threads[t]? with
  | some th => th.phase
  | none => .idle

/-- The observed dictionary follows the machine. -/
structure Follows (s : State K) (H : List (Object.Event Nat (Op K) Result))
    (w : Nat → Object.Watch (Op K) Result) : Prop where
  observed : (dictionary K).Observed H s.heap.content w
  threads : ∀ t th, s.threads[t]? = some th → Watched s.heap th (w t)
  others : ∀ t, s.threads[t]? = none → w t = .idle

section Machine

variable {P : Provider K} {b : Nat} {s s' : State K} {lab : Labels K} {a : Action K P.Env}
  {H : List (Object.Event Nat (Op K) Result)} {w : Nat → Object.Watch (Op K) Result}

theorem Follows.seen (F : Follows s H w) (t : Nat) : Seen s.heap (w t) :=
  fun _ _ ht => F.observed.quiet_subset ht

/-- Thread `t` becomes `th'`, and its watch becomes `v`. -/
theorem Follows.set (F : Follows s H w) {t : Nat} {th th' : Thread K} {h' : Heap K}
    {H' : List (Object.Event Nat (Op K) Result)} {w' : Nat → Object.Watch (Op K) Result}
    {v : Object.Watch (Op K) Result} (rs : List Nat) (hth : s.threads[t]? = some th)
    (hobs : (dictionary K).Observed H' h'.content (Function.update w' t v))
    (hself : Watched h' th' v)
    (hothers : ∀ u thu, u ≠ t → s.threads[u]? = some thu → Watched h' thu (w' u))
    (hnone : ∀ u, w u = .idle → w' u = .idle) :
    Follows ⟨h', s.threads.set t th', rs⟩ H' (Function.update w' t v) where
  observed := hobs
  threads := by
    intro u thu hu
    by_cases hut : u = t
    · subst hut
      rw [List.getElem?_set_self (List.getElem?_eq_some_iff.mp hth).1, Option.some.injEq] at hu
      rw [Function.update_self, ← hu]
      exact hself
    · rw [List.getElem?_set_ne (Ne.symm hut)] at hu
      rw [Function.update_of_ne hut]
      exact hothers u thu hut hu
  others := by
    intro u hu
    by_cases hut : u = t
    · subst hut
      rw [List.getElem?_set_self (List.getElem?_eq_some_iff.mp hth).1] at hu
      cases hu
    · rw [List.getElem?_set_ne (Ne.symm hut)] at hu
      rw [Function.update_of_ne hut]
      exact hnone u (F.others u hu)

/-- **One step of the machine** is matched by the observed dictionary. -/
theorem StateOk.follows (hb : 3 ≤ b) (S : StateOk b s lab) (F : Follows s H w)
    (hs : Abtree.step P b s a = some s') :
    ∃ w', Follows s' (H ++ (event ⟨s, a, s'⟩).toList) w' := by
  rcases step_cases hs with ⟨t, op, th, rfl, hth, hpc, rfl⟩
    | ⟨t, e, th, th', h', rs, rfl, hth, M, rfl⟩ | ⟨t, th, rfl, hth, hpc, rfl⟩
  · have hidle := (F.threads t th hth).idle hpc
    refine ⟨_, F.set _ hth (Object.Observed.call t op F.observed hidle) ?_
      (fun u thu _ hu => F.threads u thu hu) fun _ hu => hu⟩
    refine ⟨(fun hi => by cases hi), fun op' hop => ?_, fun _ hp => by cases hp⟩
    cases hop
    exact ⟨_, rfl, fun key c hc => by cases hc⟩
  · have hmem : ∀ {u thu}, s.threads[u]? = some thu → ThreadOk s.heap lab thu := fun hu =>
      S.threads _ (List.mem_of_getElem? hu)
    obtain ⟨lab', L', G, -⟩ := M.ok hb S.heap (hmem hth)
    rw [show (event ⟨s, .run t e, _⟩).toList = [] from rfl, List.append_nil]
    have hothers : ∀ u thu, s.threads[u]? = some thu →
        Watched h' thu ((w u).see (dictionary K) h'.content) := fun u thu hu =>
      (F.threads u thu hu).mono S.heap L' G (hmem hu)
    rcases M.watched hb S.heap (hmem hth) (F.threads t th hth) (F.seen t) with
      ⟨hcontent, W⟩ | ⟨op, seen, r, hw, hr, rfl, W⟩ | ⟨op, seen, r, hw, happly, W⟩
    · have hobs := F.observed
      rw [← Function.update_eq_self t w, ← hcontent] at hobs
      refine ⟨_, F.set _ hth hobs W (fun u thu _ hu => ?_) fun _ hu => hu⟩
      have := hothers u thu hu
      rwa [hcontent, (F.seen u).see_eq] at this
    · exact ⟨_, F.set _ hth (F.observed.settle t hw hr) W
        (fun u thu _ hu => F.threads u thu hu) fun _ hu => hu⟩
    · have hobs := F.observed.effect t hw
      rw [happly] at hobs
      exact ⟨_, F.set _ hth hobs W (fun u thu _ hu => hothers u thu hu) fun u hu => by rw [hu]; rfl⟩
  · have hdone := (F.threads t th hth).done (by rw [hpc]; simp) (by rw [hpc]; rfl)
    rw [show (event ⟨s, .ret t, _⟩).toList = [.ret t th.result] by simp [event, hth]]
    refine ⟨_, F.set _ hth (Object.Observed.ret t F.observed hdone) ?_
      (fun u thu _ hu => F.threads u thu hu) fun _ hu => hu⟩
    exact ⟨fun _ => rfl, (fun op hop => by cases hop), fun hne => absurd rfl hne⟩

theorem follows_init (anyKey : K) (numProcesses : Nat) (hb : 1 ≤ b) :
    Follows (init anyKey numProcesses) [] (fun _ => .idle) := by
  have hcontent : (init anyKey numProcesses).heap.content = (dictionary K).init := by
    funext key
    have L := labelled_init hb anyKey numProcesses
    have hroot := L.root_next (show (init anyKey numProcesses).heap.child entry 0
      = some entryLeft from rfl) key
    rw [L.content_eq ⟨ReflTransGen.single hroot, rfl, rfl⟩]
    rfl
  refine ⟨?_, fun t th hth => ?_, fun _ _ => rfl⟩
  · rw [hcontent]
    exact Object.Observed.init
  · rw [(List.mem_replicate.mp (List.mem_of_getElem? hth)).2]
    exact ⟨fun _ => rfl, (fun op hop => by cases hop), fun hne => absurd rfl hne⟩

/-- **The tree is linearizable.** In every run, whatever the interleaving and whichever of the
LLXs and SCXs fail, the calls and returns are a history of the atomic dictionary, which is in the
state that the tree then stands for. -/
theorem run_linear (hb : 3 ≤ b) {anyKey : K} {numProcesses : Nat}
    {tr : List (Trans (State K) (Action K P.Env))}
    (hr : Run (step P b) (init anyKey numProcesses) tr s) :
    (dictionary K).Linear (history tr) s.heap.content s.phase := by
  have hfollow : ∃ w, Follows s (history tr) w := by
    induction hr with
    | nil => exact ⟨_, follows_init anyKey numProcesses (b := b) (by omega)⟩
    | snoc hr hs ih =>
        obtain ⟨lab, S⟩ := exists_stateOk hb hr
        obtain ⟨w, F⟩ := ih
        obtain ⟨w', F'⟩ := S.follows hb F hs
        refine ⟨w', ?_⟩
        rw [history_snoc]
        exact F'
  obtain ⟨w, F⟩ := hfollow
  refine F.observed.linear fun t => ?_
  rw [State.phase]
  cases hth : s.threads[t]? with
  | none =>
      rw [F.others t hth]
      exact Object.Watch.Fits.idle
  | some th =>
      have W := F.threads t th hth
      dsimp only
      rw [Thread.phase]
      cases hp : th.pc.pending with
      | some op =>
          obtain ⟨seen, hw, -⟩ := W.called op hp
          rw [hw]
          exact Object.Watch.Fits.called
      | none =>
          dsimp only
          split
          · rename_i hi
            rw [W.idle hi]
            exact Object.Watch.Fits.idle
          · rename_i hi
            rw [W.done hi hp]
            exact Object.Watch.Fits.done

/-- A search comes to the first leaf, which is replaced before the search has looked at it. -/
theorem run_linear_stale : ∃ tr s, Run (step (.atomic Nat) 16) (init (0 : Nat) 2) tr s
    ∧ (history tr).length = 4 ∧ (s.threads[0]?).map Thread.result = some (.pair noValue false)
    ∧ s.heap.content 3 = some 7
    ∧ (dictionary Nat).Linear (history tr) s.heap.content s.phase := by
  obtain ⟨tr, s, hr, hp⟩ := exists_run_of_replay (step (.atomic Nat) 16) (init (0 : Nat) 2)
    ([.call 0 (.find 3), .run 0 true, .run 0 true] ++ alone 1 (.insert 3 7 true) 9
      ++ [.run 0 true, .ret 0])
    (fun tr s => decide ((history tr).length = 4
      ∧ (s.threads[0]?).map Thread.result = some (.pair noValue false)
      ∧ s.heap.content 3 = some 7)) (by decide +kernel)
  obtain ⟨hlength, hresult, hcontent⟩ := of_decide_eq_true hp
  exact ⟨tr, s, hr, hlength, hresult, hcontent, run_linear (by decide) hr⟩

end Machine

end Pacer.Abtree
