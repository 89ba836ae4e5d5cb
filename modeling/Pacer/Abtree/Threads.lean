import Pacer.Abtree.Steps

set_option autoImplicit false

/-! # What a thread knows of the heap

`ThreadOk` says, for every place in the program, what the thread may rely on there. All of it is
stable: no step of another thread takes it away (`ThreadOk.mono`). What a thread has seen in a
node that may have changed since is tied to the handle of the node (`Since`), and so comes true
again when an SCX finds all handles current.
-/

namespace Pacer.Abtree

open RangeGraph Relation

variable {K : Type} [LinearOrder K]

/-! ## Loops, links and plans -/

/-- `P` holds of the node `x` unless it has changed since its handle was `info`. -/
def Since (h : Heap K) (x info : Nat) (P : Cell K → Prop) : Prop :=
  ∃ c : Cell K, h[x]? = some c ∧ info ≤ c.info ∧ (c.info = info → P c)

/-- The cursor of a search for `key`: the node it has come to answers for the key, and the node to
be fixed is still ahead if it is in the tree. -/
structure CursorOk (h : Heap K) (lab : Labels K) (task : Task K) (key : K) (c : Cursor) :
    Prop where
  parent : ∃ n, h.node c.p = some n ∧ n.leaf = false ∧ c.ixToL < n.size
  above : ∀ g ix, c.above = some (g, ix) →
    c.p ≠ entry ∧ ∃ n, h.node g = some n ∧ n.leaf = false ∧ ix < n.size
  top : c.above = none → task.viol ≠ some c.l
  l_lt : c.l < h.length
  range : key ∈ (lab c.l).range
  level : c.p ≠ entry → (lab c.l).level + h.weight c.l = (lab c.p).level
  pos : (lab entry).pos < (lab c.l).pos
  way : ∀ v, task.viol = some v → h.Member v → h.graph.Reaches key c.l v

def fixPair (c : Cursor) (g ix : Nat) : List Link :=
  [⟨g, some (ix, c.p), false⟩, ⟨c.p, some (c.ixToL, c.l), true⟩]

/-- The links that a fix goes on with when it has seen the sibling `s`. -/
def siblingLinks (c : Cursor) (s : Nat) (leaf : Bool) : List Link :=
  if leaf then []
  else if c.ixToL < ixToS c.ixToL then [⟨c.l, none, true⟩, ⟨s, none, true⟩]
  else [⟨s, none, true⟩, ⟨c.l, none, true⟩]

/-- The sibling `s` seen under the parent, which has been linked with the handle `info`. -/
structure SiblingOk (h : Heap K) (c : Cursor) (s info : Nat) (p l sn : Node K) : Prop where
  p_node : h.node c.p = some p
  l_node : h.node c.l = some l
  s_node : h.node s = some sn
  two : 2 ≤ p.size
  p_weight : p.weight = true
  l_weight : l.weight = true
  s_weight : sn.weight = true
  leaf_eq : sn.leaf = l.leaf
  pointer : Since h c.p info fun x => x.node.ptrs[ixToS c.ixToL]? = some s

/-- What an attempt links, those links that are done first. -/
inductive Plan (h : Heap K) : Attempt K → Prop
  | op {op : Op K} {c : Cursor} {l : Node K} {linked : List (Link × Nat)} {todo : List Link} :
      h.node c.l = some l → l.leaf = true → op.Updates l →
      linked.map Prod.fst ++ todo = opLinks c → Plan h ⟨.op op, c, none, linked, todo⟩
  | weight {c : Cursor} {g ix : Nat} {p : Node K} {linked : List (Link × Nat)}
      {todo : List Link} :
      c.above = some (g, ix) → h.node c.p = some p → p.weight = true →
      linked.map Prod.fst ++ todo = fixPair c g ix ++ [⟨c.l, none, true⟩] →
      Plan h ⟨.fix (.weight c.l), c, none, linked, todo⟩
  | degree {c : Cursor} {g ix : Nat} {linked : List (Link × Nat)} {todo : List Link} :
      c.above = some (g, ix) → linked.map Prod.fst ++ todo = fixPair c g ix →
      Plan h ⟨.fix (.degree c.l), c, none, linked, todo⟩
  | sibling {c : Cursor} {g ix s info : Nat} {p l sn : Node K} {linked : List (Link × Nat)}
      {todo : List Link} :
      c.above = some (g, ix) → SiblingOk h c s info p l sn →
      (⟨c.p, some (c.ixToL, c.l), true⟩, info) ∈ linked →
      linked.map Prod.fst ++ todo = fixPair c g ix ++ siblingLinks c s l.leaf →
      Plan h ⟨.fix (.degree c.l), c, some s, linked, todo⟩

/-- A link that is done: as long as the handle is current the node is in the tree, and its pointer
is the one that was checked. -/
def Linked (h : Heap K) (e : Link × Nat) : Prop :=
  Since h e.1.node e.2 fun c => c.marked = false
    ∧ ∀ ix y, e.1.pointer = some (ix, y) → c.node.ptrs[ix]? = some y

structure AttemptOk (h : Heap K) (lab : Labels K) (w : Attempt K) : Prop where
  active : ∀ f, w.task = .fix f → f.Active h
  cursor : ∃ key, SearchKey h key w.task ∧ CursorOk h lab w.task key w.cur
  plan : Plan h w
  linked : ∀ e ∈ w.linked, Linked h e

/-! ## Threads -/

def Frame.Ok (h : Heap K) : Frame → Prop
  | .call f => f.viol < h.length
  | .loop f => f.Active h

/-- What a thread relies on at each place of the program. -/
def Pc.Ok (h : Heap K) (lab : Labels K) : Pc K → Prop
  | .idle | .begin _ | .retire _ | .ret => True
  | .enter task => ∀ f, task = .fix f → f.Active h
  | .search task key c =>
      (∀ f, task = .fix f → f.Active h) ∧ SearchKey h key task ∧ CursorOk h lab task key c
  | .check f => f.viol < h.length
  | .inspect f => f.Active h
  | .llx w => AttemptOk h lab w ∧ w.todo ≠ []
  | .recheck w info => AttemptOk h lab w ∧ ∃ link todo, w.todo = link :: todo
      ∧ link.pointer.isSome = true ∧ Since h link.node info fun c => c.marked = false
  | .sibling w => AttemptOk h lab w ∧ w.todo = [] ∧ w.sibling = none
      ∧ ∃ v, w.task = .fix (.degree v)
  | .scx w => AttemptOk h lab w ∧ w.todo = []
      ∧ (w.sibling = none → ∀ v, w.task ≠ .fix (.degree v))

def Task.pending : Task K → Option (Op K)
  | .op o => some o
  | .fix _ => none

/-- The operation that a thread has not carried out yet. -/
def Pc.pending : Pc K → Option (Op K)
  | .begin op => some op
  | .enter task | .search task _ _ => task.pending
  | .llx w | .recheck w _ | .sibling w | .scx w => w.task.pending
  | _ => none

/-- A thread that is not in a fix, nor in the steps between an update and its fixes. -/
def Pc.Outer (pc : Pc K) : Prop := pc.pending.isSome = true ∨ pc = .idle ∨ pc = .ret

structure ThreadOk (h : Heap K) (lab : Labels K) (th : Thread K) : Prop where
  pc : th.pc.Ok h lab
  stack : ∀ fr ∈ th.stack, fr.Ok h
  outer : th.pc.Outer → th.stack = []

/-! ## Stability -/

section Mono

variable {h h' : Heap K} {lab lab' : Labels K}

theorem Grows.node_fields (G : Grows h lab h' lab') {x : Nat} {n : Node K}
    (hx : h.node x = some n) : ∃ n', h'.node x = some n' ∧ n'.leaf = n.leaf
      ∧ n'.weight = n.weight ∧ n'.size = n.size ∧ n'.searchKey = n.searchKey
      ∧ (n.leaf = true → n' = n) := by
  obtain ⟨ptrs, hn', hleaf⟩ := G.node x n hx
  refine ⟨_, hn', rfl, rfl, rfl, rfl, fun hl => ?_⟩
  rw [hleaf hl]

theorem Grows.weight_eq (G : Grows h lab h' lab') {x : Nat} (hx : x < h.length) :
    h'.weight x = h.weight x := by
  obtain ⟨n, hn⟩ := Heap.exists_node hx
  obtain ⟨n', hn', -, hw, -⟩ := G.node_fields hn
  rw [Heap.weight_eq hn, Heap.weight_eq hn', hw]

theorem Since.mono (G : Grows h lab h' lab') {x info : Nat} {P : Cell K → Prop}
    (hs : Since h x info P) : Since h' x info P := by
  obtain ⟨c, hc, hle, hP⟩ := hs
  obtain ⟨c', hc', hle', hsame⟩ := G.cell x c hc
  refine ⟨c', hc', le_trans hle hle', fun hinfo => ?_⟩
  have heq : c'.info = c.info := by omega
  rw [hsame heq]
  exact hP (heq.symm.trans hinfo)

omit [LinearOrder K] in
theorem Fix.Active.lt {f : Fix} (hf : f.Active h) : f.viol < h.length := by
  cases f with
  | weight v =>
      obtain ⟨n, hn, -⟩ := hf
      exact Heap.node_lt hn
  | degree v =>
      obtain ⟨n, hn, -⟩ := hf
      exact Heap.node_lt hn

theorem Fix.Active.mono (G : Grows h lab h' lab') {f : Fix} (hf : f.Active h) :
    f.Active h' := by
  cases f with
  | weight v =>
      obtain ⟨n, hn, hw⟩ := hf
      obtain ⟨n', hn', -, hw', -⟩ := G.node_fields hn
      exact ⟨n', hn', hw'.trans hw⟩
  | degree v =>
      obtain ⟨n, hn, hne, hroot⟩ := hf
      obtain ⟨n', hn', -⟩ := G.node_fields hn
      exact ⟨n', hn', hne, G.root v (Heap.node_lt hn) hroot⟩

theorem SearchKey.mono (G : Grows h lab h' lab') {key : K} {task : Task K}
    (hk : SearchKey h key task) : SearchKey h' key task := by
  cases task with
  | op op => exact hk
  | fix f =>
      obtain ⟨n, hn, hkey⟩ := hk
      obtain ⟨n', hn', -, -, -, hs, -⟩ := G.node_fields hn
      exact ⟨n', hn', hs.trans hkey⟩

theorem CursorOk.mono {b : Nat} (L : Labelled b h lab) (G : Grows h lab h' lab') {task : Task K}
    {key : K} {c : Cursor} (C : CursorOk h lab task key c)
    (hact : ∀ f, task = .fix f → f.Active h) : CursorOk h' lab' task key c := by
  obtain ⟨p, hp, hpl, hps⟩ := C.parent
  obtain ⟨p', hp', hpl', -, hps', -⟩ := G.node_fields hp
  refine
    { parent := ⟨p', hp', hpl'.trans hpl, hps'.symm ▸ hps⟩
      above := fun g ix hab => ?_
      top := C.top
      l_lt := G.lt C.l_lt
      range := by rw [G.label _ C.l_lt]; exact C.range
      level := fun hne => ?_
      pos := ?_
      way := fun v hv hm => ?_ }
  · obtain ⟨hne, n, hn, hleaf, hix⟩ := C.above g ix hab
    obtain ⟨n', hn', hleaf', -, hsize, -⟩ := G.node_fields hn
    exact ⟨hne, n', hn', hleaf'.trans hleaf, hsize.symm ▸ hix⟩
  · rw [G.label _ C.l_lt, G.label _ (Heap.node_lt hp), G.weight_eq C.l_lt]
    exact C.level hne
  · rw [G.label _ C.l_lt, G.label _ L.ranged.root_pub]
    exact C.pos
  · have hlt : v < h.length := by
      cases task with
      | op op => cases hv
      | fix f =>
          obtain rfl := Option.some.inj hv
          exact (hact f rfl).lt
    exact G.reaches key c.l C.l_lt C.range v (C.way v hv (G.member v hlt hm)) hm

theorem SiblingOk.mono (G : Grows h lab h' lab') {c : Cursor} {s info : Nat} {p l sn : Node K}
    (S : SiblingOk h c s info p l sn) : ∃ p' l' sn', SiblingOk h' c s info p' l' sn'
      ∧ l'.leaf = l.leaf := by
  obtain ⟨p', hp', -, hpw, hps, -⟩ := G.node_fields S.p_node
  obtain ⟨l', hl', hll, hlw, -⟩ := G.node_fields S.l_node
  obtain ⟨sn', hsn', hsl, hsw, -⟩ := G.node_fields S.s_node
  exact ⟨p', l', sn',
    { p_node := hp'
      l_node := hl'
      s_node := hsn'
      two := hps.symm ▸ S.two
      p_weight := hpw.trans S.p_weight
      l_weight := hlw.trans S.l_weight
      s_weight := hsw.trans S.s_weight
      leaf_eq := by rw [hsl, hll, S.leaf_eq]
      pointer := S.pointer.mono G }, hll⟩

theorem Plan.mono (G : Grows h lab h' lab') {w : Attempt K} (P : Plan h w) : Plan h' w := by
  cases P with
  | op hl hleaf hup hlinks =>
      obtain ⟨l', hl', -, -, -, -, hsame⟩ := G.node_fields hl
      rw [hsame hleaf] at hl'
      exact Plan.op hl' hleaf hup hlinks
  | weight habove hp hw hlinks =>
      obtain ⟨p', hp', -, hw', -⟩ := G.node_fields hp
      exact Plan.weight habove hp' (hw'.trans hw) hlinks
  | degree habove hlinks => exact Plan.degree habove hlinks
  | sibling habove S hinfo hlinks =>
      obtain ⟨p', l', sn', S', hleaf⟩ := S.mono G
      rw [← hleaf] at hlinks
      exact Plan.sibling habove S' hinfo hlinks

theorem AttemptOk.mono {b : Nat} (L : Labelled b h lab) (G : Grows h lab h' lab') {w : Attempt K}
    (A : AttemptOk h lab w) : AttemptOk h' lab' w := by
  obtain ⟨key, hkey, C⟩ := A.cursor
  exact
    { active := fun f hf => (A.active f hf).mono G
      cursor := ⟨key, hkey.mono G, C.mono L G A.active⟩
      plan := A.plan.mono G
      linked := fun e he => (A.linked e he).mono G }

theorem Frame.Ok.mono (G : Grows h lab h' lab') {fr : Frame} (hfr : fr.Ok h) : fr.Ok h' := by
  cases fr with
  | call f => exact G.lt hfr
  | loop f => exact Fix.Active.mono G hfr

theorem Pc.Ok.mono {b : Nat} (L : Labelled b h lab) (G : Grows h lab h' lab') {pc : Pc K}
    (hpc : pc.Ok h lab) : pc.Ok h' lab' := by
  cases pc with
  | idle | begin | retire | ret => exact trivial
  | enter task => exact fun f hf => (hpc f hf).mono G
  | search task key c =>
      obtain ⟨hact, hkey, C⟩ := hpc
      exact ⟨fun f hf => (hact f hf).mono G, hkey.mono G, C.mono L G hact⟩
  | check f => exact G.lt hpc
  | inspect f => exact Fix.Active.mono G hpc
  | llx w => exact ⟨hpc.1.mono L G, hpc.2⟩
  | recheck w info =>
      obtain ⟨A, link, todo, htodo, hp, hs⟩ := hpc
      exact ⟨A.mono L G, link, todo, htodo, hp, hs.mono G⟩
  | sibling w => exact ⟨hpc.1.mono L G, hpc.2⟩
  | scx w => exact ⟨hpc.1.mono L G, hpc.2⟩

/-- **No step of another thread takes away what a thread relies on.** -/
theorem ThreadOk.mono {b : Nat} (L : Labelled b h lab) (G : Grows h lab h' lab') {th : Thread K}
    (T : ThreadOk h lab th) : ThreadOk h' lab' th where
  pc := T.pc.mono L G
  stack := fun fr hfr => (T.stack fr hfr).mono G
  outer := T.outer

end Mono

end Pacer.Abtree
