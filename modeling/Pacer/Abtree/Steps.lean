import Pacer.Abtree.Content

set_option autoImplicit false

/-! # The steps of a thread, one by one

`Move` lists what a step of a thread can do to the heap and to the thread, with all that the step
has seen of the heap; `Returns` lists the ways in which a fix is left. Everything that is proved
about the machine is proved from these two (`instr_cases`, `step_cases`).
-/

namespace Pacer.Abtree

open Machine

variable {K : Type} [LinearOrder K]

/-! ## What an operation does at its leaf -/

/-- What an operation returns at the leaf `l` if it returns without an update. -/
def Op.reads (l : Node K) : Op K → Option Result
  | .find key =>
      if l.hasKey key then (l.ptrs[l.getKeyIndex key]?).map fun v => .pair v true
      else some (.pair noValue false)
  | .insert key _ replace =>
      if l.hasKey key && !replace then (l.ptrs[l.getKeyIndex key]?).map .value else none
  | .erase key => if l.hasKey key then none else some (.pair noValue false)

/-- The operation updates the leaf `l`. -/
def Op.Updates (l : Node K) : Op K → Prop
  | .find _ => False
  | .insert key _ replace => l.hasKey key = true → replace = true
  | .erase key => l.hasKey key = true

/-- The key a search is for. -/
def SearchKey (h : Heap K) (key : K) : Task K → Prop
  | .op op => op.key = key
  | .fix f => ∃ n, h.node f.viol = some n ∧ n.searchKey = key

/-- A fix that has found its violation to be one: neither the entry nor the root. -/
def Fix.Active (h : Heap K) : Fix → Prop
  | .weight viol => ∃ n, h.node viol = some n ∧ n.weight = false
  | .degree viol => ∃ n, h.node viol = some n ∧ viol ≠ entry ∧ h.child entry 0 ≠ some viol

/-! ## The moves -/

/-- The ways in which a loop is left, with the calls that are made first. -/
inductive Returns (h : Heap K) : Pc K → List Frame → Prop
  /-- the search has not come to the violation -/
  | lost {f : Fix} {key : K} {c : Cursor} {l : Node K} :
      h.node c.l = some l → l.leaf = true → c.l ≠ f.viol → Returns h (.search (.fix f) key c) []
  | parent {key : K} {c : Cursor} {p : Node K} :
      h.node c.p = some p → p.weight = false →
      Returns h (.search (.fix (.weight c.l)) key c)
        [.call (.weight c.p), .loop (.weight c.l)]
  | settled {f : Fix} :
      (∀ v n, f = .weight v → h.node v = some n → n.weight = true) → Returns h (.check f) []
  | gone {f : Fix} {c : Cell K} :
      h[f.viol]? = some c → c.marked = true → Returns h (.inspect f) []
  /-- the parent has one child only -/
  | single {w : Attempt K} {p l : Node K} :
      h.node w.cur.p = some p → h.node w.cur.l = some l → p.size = 1 →
      Returns h (.sibling w) (weightCall w.cur.p p ++ weightCall w.cur.l l)
  | heavy {w : Attempt K} {f : Fix} {p l sn : Node K} {s : Nat} :
      h.node w.cur.p = some p → h.node w.cur.l = some l →
      h.child w.cur.p (ixToS w.cur.ixToL) = some s → h.node s = some sn → w.task = .fix f →
      Returns h (.sibling w)
        (weightCall w.cur.p p ++ weightCall w.cur.l l ++ weightCall s sn ++ [.loop f])
  | retired : Returns h (.retire []) []

/-- One step of a thread. -/
inductive Move (b : Nat) (h : Heap K) (th : Thread K) : Heap K → Thread K → List Nat → Prop
  | begin {op : Op K} : th.pc = .begin op →
      Move b h th h { th with pc := .enter (.op op) } []
  | enter {task : Task K} {l : Nat} {key : K} : th.pc = .enter task →
      h.child entry 0 = some l → SearchKey h key task →
      Move b h th h { th with pc := .search task key ⟨none, entry, l, 0⟩ } []
  | descend {task : Task K} {key : K} {c : Cursor} {l : Node K} {next : Nat} :
      th.pc = .search task key c → h.node c.l = some l → l.leaf = false →
      task.viol ≠ some c.l → h.child c.l (l.getChildIndex key) = some next →
      Move b h th h { th with
        pc := .search task key ⟨some (c.p, c.ixToL), c.l, next, l.getChildIndex key⟩ } []
  | answer {op : Op K} {key : K} {c : Cursor} {l : Node K} {r : Result} :
      th.pc = .search (.op op) key c → h.node c.l = some l → l.leaf = true →
      op.reads l = some r → Move b h th h (th.finish r) []
  | aim {op : Op K} {key : K} {c : Cursor} {l : Node K} :
      th.pc = .search (.op op) key c → h.node c.l = some l → l.leaf = true → op.Updates l →
      Move b h th h { th with pc := .llx ⟨.op op, c, none, [], opLinks c⟩ } []
  | aimWeight {key : K} {c : Cursor} {g ix : Nat} {p l : Node K} :
      th.pc = .search (.fix (.weight c.l)) key c → c.above = some (g, ix) →
      h.node c.p = some p → p.weight = true → h.node c.l = some l →
      Move b h th h { th with
        pc := .llx ⟨.fix (.weight c.l), c, none, [],
          [⟨g, some (ix, c.p), false⟩, ⟨c.p, some (c.ixToL, c.l), true⟩]
            ++ if l.isLeaf then [] else [⟨c.l, none, true⟩]⟩ } []
  | aimDegree {key : K} {c : Cursor} {g ix : Nat} :
      th.pc = .search (.fix (.degree c.l)) key c → c.above = some (g, ix) →
      Move b h th h { th with
        pc := .llx ⟨.fix (.degree c.l), c, none, [],
          [⟨g, some (ix, c.p), false⟩, ⟨c.p, some (c.ixToL, c.l), true⟩]⟩ } []
  | look {f : Fix} : th.pc = .check f → f.Active h →
      Move b h th h { th with pc := .inspect f } []
  | present {f : Fix} : th.pc = .inspect f →
      Move b h th h { th with pc := .enter (.fix f) } []
  | link {w : Attempt K} {link : Link} {todo : List Link} {c : Cell K} :
      th.pc = .llx w → w.todo = link :: todo → h[link.node]? = some c → c.marked = false →
      link.pointer.isSome = true → Move b h th h { th with pc := .recheck w c.info } []
  | linked {w : Attempt K} {link : Link} {todo : List Link} {c : Cell K} :
      th.pc = .llx w → w.todo = link :: todo → h[link.node]? = some c → c.marked = false →
      link.pointer = none →
      Move b h th h
        (th.advance { w with linked := w.linked ++ [(link, c.info)], todo := todo }) []
  | checked {w : Attempt K} {info ix next : Nat} {link : Link} {todo : List Link} :
      th.pc = .recheck w info → w.todo = link :: todo → link.pointer = some (ix, next) →
      h.child link.node ix = some next →
      Move b h th h (th.advance { w with linked := w.linked ++ [(link, info)], todo := todo }) []
  | retry {w : Attempt K} : (th.pc = .llx w ∨ (∃ info, th.pc = .recheck w info) ∨ th.pc = .scx w) →
      Move b h th h (th.retry w.task) []
  | sibling {w : Attempt K} {p l sn : Node K} {s : Nat} :
      th.pc = .sibling w → h.node w.cur.p = some p → h.node w.cur.l = some l →
      h.child w.cur.p (ixToS w.cur.ixToL) = some s → h.node s = some sn → p.size ≠ 1 →
      p.weight = true → l.weight = true → sn.weight = true →
      Move b h th h (th.advance { w with
        sibling := some s
        todo := if w.cur.ixToL < ixToS w.cur.ixToL then
            if l.isLeaf then [] else [⟨w.cur.l, none, true⟩, ⟨s, none, true⟩]
          else if sn.isLeaf then [] else [⟨s, none, true⟩, ⟨w.cur.l, none, true⟩] }) []
  | commit {w : Attempt K} {u : Update K} {h' : Heap K} : th.pc = .scx w →
      build b h w = some u → Committed h (w.request u) h' →
      Move b h th (h' ++ u.news.map Cell.fresh)
        { pc := .retire u.retire, stack := u.calls.map Frame.call ++ th.stack
          result := u.result.getD th.result } []
  | retire {x : Nat} {nodes : List Nat} : th.pc = .retire (x :: nodes) →
      Move b h th h { th with pc := .retire nodes } [x]
  | returns {frames : List Frame} : Returns h th.pc frames → Move b h th h (th.push frames).pop []

section Cases

variable {P : Provider K} {e : P.Env} {others : List Nat} {b : Nat} {h h' : Heap K}
  {th th' : Thread K} {rs : List Nat}

/-- A loop is left, and there is nothing to do first. -/
theorem Move.pop (R : Returns h th.pc []) : Move b h th h th.pop [] := Move.returns R

/-- The end of a search. -/
theorem arrived_cases {task : Task K} {key : K} {c : Cursor} {l : Node K}
    (hpc : th.pc = .search task key c) (hl : h.node c.l = some l)
    (hend : l.leaf = true ∨ task.viol = some c.l)
    (hs : arrived h th task c l = some th') : Move b h th h th' [] := by
  cases task with
  | op op =>
      have hleaf : l.leaf = true := hend.resolve_right (by simp [Task.viol])
      cases op with
      | find k =>
          simp only [arrived] at hs
          split at hs
          · rename_i hk
            simp only [Option.bind_eq_bind, Option.bind_eq_some_iff, Option.some.injEq] at hs
            obtain ⟨v, hv, rfl⟩ := hs
            exact Move.answer hpc hl hleaf (by simp [Op.reads, hk, hv])
          · rename_i hk
            cases hs
            exact Move.answer hpc hl hleaf (by simp [Op.reads, hk])
      | insert k v replace =>
          simp only [arrived] at hs
          split at hs
          · rename_i hk
            simp only [Option.bind_eq_bind, Option.bind_eq_some_iff, Option.some.injEq] at hs
            obtain ⟨old, hold, rfl⟩ := hs
            exact Move.answer hpc hl hleaf (by simp only [Op.reads, hk, if_true, hold]; rfl)
          · rename_i hk
            cases hs
            exact Move.aim hpc hl hleaf (by simpa [Op.Updates] using hk)
      | erase k =>
          simp only [arrived] at hs
          split at hs
          · rename_i hk
            cases hs
            exact Move.aim hpc hl hleaf hk
          · rename_i hk
            cases hs
            exact Move.answer hpc hl hleaf (by simp [Op.reads, hk])
  | fix f =>
      cases f with
      | weight viol =>
          simp only [arrived] at hs
          split at hs
          · rename_i hne
            cases hs
            have hleaf := hend.resolve_right fun he => hne (Option.some.inj he).symm
            exact Move.pop (hpc ▸ Returns.lost hl hleaf hne)
          · rename_i heq
            obtain rfl : c.l = viol := not_not.mp heq
            simp only [Option.bind_eq_bind, Option.bind_eq_some_iff] at hs
            obtain ⟨p, hp, hs⟩ := hs
            cases hw : p.weight with
            | false =>
                simp only [hw, Bool.not_false, if_true, Option.some.injEq] at hs
                subst hs
                exact Move.returns (hpc ▸ Returns.parent hp hw)
            | true =>
                simp only [hw, Bool.not_true, Bool.false_eq_true, if_false, fixLinks,
                  Option.bind_eq_bind, Option.bind_eq_some_iff, Option.some.injEq] at hs
                obtain ⟨links, ⟨⟨g, ix⟩, habove, rfl⟩, rfl⟩ := hs
                exact Move.aimWeight hpc habove hp hw hl
      | degree viol =>
          simp only [arrived] at hs
          split at hs
          · rename_i hne
            cases hs
            have hleaf := hend.resolve_right fun he => hne (Option.some.inj he).symm
            exact Move.pop (hpc ▸ Returns.lost hl hleaf hne)
          · rename_i heq
            obtain rfl : c.l = viol := not_not.mp heq
            simp only [fixLinks, Option.bind_eq_bind, Option.bind_eq_some_iff,
              Option.some.injEq] at hs
            obtain ⟨links, ⟨⟨g, ix⟩, habove, rfl⟩, rfl⟩ := hs
            exact Move.aimDegree hpc habove

omit [LinearOrder K] in
theorem weightCall_eq_nil {x : Nat} {n : Node K} : weightCall x n = [] ↔ n.weight = true := by
  cases hw : n.weight <;> simp [weightCall, hw]

/-- The look at the sibling. -/
theorem lookAtSibling_cases {w : Attempt K} (hpc : th.pc = .sibling w)
    (hs : lookAtSibling h th w = some th') : Move b h th h th' [] := by
  simp only [lookAtSibling, Option.bind_eq_bind, Option.bind_eq_some_iff] at hs
  obtain ⟨p, hp, l, hl, hs⟩ := hs
  split at hs
  · rename_i hsize
    cases hs
    exact Move.returns (hpc ▸ Returns.single hp hl hsize)
  · rename_i hsize
    simp only [Option.bind_eq_some_iff] at hs
    obtain ⟨s, hsib, sn, hsn, hs⟩ := hs
    split at hs
    · split at hs
      · rename_i f htask
        cases hs
        exact Move.returns (hpc ▸ Returns.heavy hp hl hsib hsn htask)
      · cases hs
    · rename_i hcalls
      rw [not_ne_iff, List.append_eq_nil_iff, List.append_eq_nil_iff, weightCall_eq_nil,
        weightCall_eq_nil, weightCall_eq_nil] at hcalls
      obtain ⟨⟨hpw, hlw⟩, hsw⟩ := hcalls
      have hmove := Move.sibling (b := b) hpc hp hl hsib hsn hsize hpw hlw hsw
      split at hs <;> rename_i hix
      · rw [if_pos hix] at hmove
        cases hs
        exact hmove
      · rw [if_neg hix] at hmove
        cases hs
        exact hmove

/-- **Every step is one of the moves.** -/
theorem instr_cases (hs : instr P b others h th e = some (h', th', rs)) :
    Move b h th h' th' rs := by
  cases hpc : th.pc with
  | idle | ret => simp [instr, hpc] at hs
  | begin op =>
      simp only [instr, hpc, Option.some.injEq, Prod.mk.injEq] at hs
      obtain ⟨rfl, rfl, rfl⟩ := hs
      exact Move.begin hpc
  | enter task =>
      simp only [instr, hpc, Option.bind_eq_bind, Option.bind_eq_some_iff] at hs
      obtain ⟨l, hl, hs⟩ := hs
      cases task with
      | op op =>
          simp only [Option.bind_some, Option.some.injEq, Prod.mk.injEq] at hs
          obtain ⟨rfl, rfl, rfl⟩ := hs
          exact Move.enter hpc hl rfl
      | fix f =>
          simp only [Option.bind_eq_some_iff, Option.map_eq_some_iff, Option.some.injEq,
            Prod.mk.injEq] at hs
          obtain ⟨key, hkey, rfl, rfl, rfl⟩ := hs
          exact Move.enter hpc hl hkey
  | search task key c =>
      simp only [instr, hpc, Option.bind_eq_bind, Option.bind_eq_some_iff] at hs
      obtain ⟨l, hl, hs⟩ := hs
      split at hs
      · rename_i hend
        simp only [Option.bind_eq_some_iff, Option.some.injEq, Prod.mk.injEq] at hs
        obtain ⟨th', hs, rfl, rfl, rfl⟩ := hs
        refine arrived_cases hpc hl ?_ hs
        simpa [Node.isLeaf] using hend
      · rename_i hend
        simp only [Option.bind_eq_some_iff, Option.some.injEq, Prod.mk.injEq] at hs
        obtain ⟨next, hnext, rfl, rfl, rfl⟩ := hs
        simp only [Node.isLeaf, Bool.or_eq_true, beq_iff_eq, not_or, Bool.not_eq_true] at hend
        exact Move.descend hpc hl hend.1 hend.2 hnext
  | check f =>
      cases f with
      | weight viol =>
          simp only [instr, hpc, Option.bind_eq_bind, Option.bind_eq_some_iff, Option.some.injEq,
            Prod.mk.injEq] at hs
          obtain ⟨n, hn, rfl, rfl, rfl⟩ := hs
          split
          · rename_i hw
            refine Move.pop (hpc ▸ Returns.settled ?_)
            rintro v m hv hm
            cases hv
            rwa [← Option.some.inj (hn.symm.trans hm)]
          · rename_i hw
            exact Move.look hpc ⟨n, hn, by simpa using hw⟩
      | degree viol =>
          have hsettled : Move b h th h th.pop [] :=
            Move.pop (hpc ▸ Returns.settled fun v n hv _ => by cases hv)
          simp only [instr, hpc, Option.bind_eq_bind, Option.bind_eq_some_iff] at hs
          obtain ⟨n, hn, hs⟩ := hs
          split at hs
          · simp only [Option.some.injEq, Prod.mk.injEq] at hs
            obtain ⟨rfl, rfl, rfl⟩ := hs
            exact hsettled
          · rename_i hdeg
            simp only [Option.bind_eq_some_iff, Option.some.injEq, Prod.mk.injEq] at hs
            obtain ⟨root, hroot, rfl, rfl, rfl⟩ := hs
            split
            · exact hsettled
            · rename_i hne
              refine Move.look hpc ⟨n, hn, fun he => hdeg (Or.inr he), ?_⟩
              rw [hroot]
              exact fun he => hne (Option.some.inj he).symm
  | inspect f =>
      simp only [instr, hpc, Option.bind_eq_bind, Option.bind_eq_some_iff, Option.some.injEq,
        Prod.mk.injEq] at hs
      obtain ⟨n, hn, rfl, rfl, rfl⟩ := hs
      obtain ⟨c, hc, -⟩ := Heap.node_eq_some.mp hn
      split
      · rename_i hfin
        exact Move.pop (hpc ▸ Returns.gone hc (P.llx_finalized hc hfin))
      · exact Move.present hpc
  | llx w =>
      cases htodo : w.todo with
      | nil => simp [instr, hpc, htodo] at hs
      | cons link todo =>
          simp only [instr, hpc, htodo, Option.bind_eq_bind, Option.bind_eq_some_iff] at hs
          obtain ⟨n, hn, hs⟩ := hs
          obtain ⟨c, hc, -⟩ := Heap.node_eq_some.mp hn
          cases hr : P.llx e others h link.node with
          | fail | finalized =>
              simp only [hr, Option.some.injEq, Prod.mk.injEq] at hs
              obtain ⟨rfl, rfl, rfl⟩ := hs
              exact Move.retry (Or.inl hpc)
          | handle info =>
              simp only [hr, Option.some.injEq, Prod.mk.injEq] at hs
              obtain ⟨rfl, rfl, rfl⟩ := hs
              obtain ⟨hm, rfl⟩ := P.llx_handle hc hr
              split
              · rename_i hp
                exact Move.link hpc htodo hc hm hp
              · rename_i hp
                exact Move.linked hpc htodo hc hm (by simpa using hp)
  | recheck w info =>
      cases htodo : w.todo with
      | nil => simp [instr, hpc, htodo] at hs
      | cons link todo =>
          simp only [instr, hpc, htodo, Option.bind_eq_bind, Option.bind_eq_some_iff,
            Option.some.injEq, Prod.mk.injEq, Prod.exists] at hs
          obtain ⟨ix, expected, hp, next, hnext, rfl, rfl, rfl⟩ := hs
          split
          · rename_i heq
            subst heq
            exact Move.checked hpc htodo hp hnext
          · exact Move.retry (Or.inr (Or.inl ⟨info, hpc⟩))
  | sibling w =>
      simp only [instr, hpc, Option.bind_eq_bind, Option.bind_eq_some_iff, Option.some.injEq,
        Prod.mk.injEq] at hs
      obtain ⟨th', hs, rfl, rfl, rfl⟩ := hs
      exact lookAtSibling_cases hpc hs
  | scx w =>
      simp only [instr, hpc, Option.bind_eq_bind, Option.bind_eq_some_iff] at hs
      obtain ⟨u, hu, hs⟩ := hs
      cases hx : P.scxExecute e others h (w.request u) with
      | some k =>
          simp only [hx, Option.some.injEq, Prod.mk.injEq] at hs
          obtain ⟨rfl, rfl, rfl⟩ := hs
          exact Move.commit hpc hu (P.scx_committed hx)
      | none =>
          simp only [hx, Option.some.injEq, Prod.mk.injEq] at hs
          obtain ⟨rfl, rfl, rfl⟩ := hs
          exact Move.retry (Or.inr (Or.inr hpc))
  | retire nodes =>
      cases nodes with
      | nil =>
          simp only [instr, hpc, Option.some.injEq, Prod.mk.injEq] at hs
          obtain ⟨rfl, rfl, rfl⟩ := hs
          exact Move.pop (hpc ▸ Returns.retired)
      | cons x nodes =>
          simp only [instr, hpc, Option.some.injEq, Prod.mk.injEq] at hs
          obtain ⟨rfl, rfl, rfl⟩ := hs
          exact Move.retire hpc

end Cases

/-! ## The machine -/

/-- **Every step of the machine**: a call, a move of one thread, or a return. -/
theorem step_cases {P : Provider K} {b : Nat} {s s' : State K} {a : Action K P.Env}
    (hs : step P b s a = some s') :
    (∃ t op th, a = .call t op ∧ s.threads[t]? = some th ∧ th.pc = .idle
      ∧ s' = { s with threads := s.threads.set t { th with pc := .begin op } })
    ∨ (∃ t e th th' h' rs, a = .run t e ∧ s.threads[t]? = some th ∧ Move b s.heap th h' th' rs
      ∧ s' = ⟨h', s.threads.set t th', s.retired ++ rs⟩)
    ∨ (∃ t th, a = .ret t ∧ s.threads[t]? = some th ∧ th.pc = .ret
      ∧ s' = { s with threads := s.threads.set t { th with pc := .idle } }) := by
  cases a with
  | call t op =>
      simp only [step, Option.bind_eq_bind, Option.bind_eq_some_iff] at hs
      obtain ⟨th, hth, hs⟩ := hs
      split at hs
      · rename_i hpc
        cases hs
        exact Or.inl ⟨t, op, th, rfl, hth, hpc, rfl⟩
      · cases hs
  | run t e =>
      simp only [step, Option.bind_eq_bind, Option.bind_eq_some_iff, Option.some.injEq,
        Prod.exists] at hs
      obtain ⟨th, hth, h', th', rs, hi, rfl⟩ := hs
      exact Or.inr (Or.inl ⟨t, e, th, th', h', rs, rfl, hth, instr_cases hi, rfl⟩)
  | ret t =>
      simp only [step, Option.bind_eq_bind, Option.bind_eq_some_iff] at hs
      obtain ⟨th, hth, hs⟩ := hs
      split at hs
      · rename_i hpc
        cases hs
        exact Or.inr (Or.inr ⟨t, th, rfl, hth, hpc, rfl⟩)
      · cases hs

end Pacer.Abtree
