import Pacer.Lib.Separators
import Mathlib.Data.List.Basic

set_option autoImplicit false

/-! # Nodes of the (a,b)-tree and the copies an update makes

The nodes of the lock-free relaxed (a,b)-tree of `brown_ext_abtree_lf_impl.h`. A node is never
changed except for the child pointers of an internal node: an update builds new nodes out of the
old ones and swings one pointer. The functions of this module are the bodies of the source that
fill the new nodes, each under the name of the comment over it; they give `none` where the source
would fail an assertion, or read a single entry that is not in the used part of an array.

The entries of `ptrs` are machine words: addresses of children in an internal node, values in a
leaf. `keys` and `ptrs` are the used parts of the arrays. A node that the source fills by several
copies is the concatenation of what they copy (`arraycopy`), in the order of the destination. A
copy takes what is there, and a search through the keys ends where they end: that the used part of
an array is as long as `size` says, so that neither comes up short, is a matter of the nodes that
there are (`NodeOk`).
-/

namespace Pacer.Abtree

open Separators

variable {K : Type} [LinearOrder K]

structure Node (K : Type) where
  leaf : Bool
  weight : Bool
  size : Nat
  searchKey : K
  keys : List K
  ptrs : List Nat
deriving DecidableEq

namespace Node

def isLeaf (n : Node K) : Bool := n.leaf

def getKeyCount (n : Node K) : Nat := if n.isLeaf then n.size else n.size - 1

def getABDegree (n : Node K) : Nat := n.size

def getChildIndex (n : Node K) (key : K) : Nat := childIndex (n.keys.take n.getKeyCount) key

def getKeyIndex (n : Node K) (key : K) : Nat := keyIndex (n.keys.take n.getKeyCount) key

/-- The test after a search: `keyIndex < l->getKeyCount() && l->keys[keyIndex] == key`. -/
def hasKey (n : Node K) (key : K) : Bool :=
  decide (n.getKeyIndex key < n.getKeyCount) && (n.keys[n.getKeyIndex key]? == some key)

end Node

/-- The entries that a copy of `len` entries from `start` on moves. -/
def arraycopy {α : Type*} (src : List α) (start len : Nat) : List α := (src.drop start).take len

/-! ## Leaves: replace, insert, overflow, erase -/

/-- A copy of the leaf with another value at `keyIndex`. -/
def replaceValue (l : Node K) (keyIndex value : Nat) : Node K where
  leaf := true
  weight := true
  size := l.size
  searchKey := l.searchKey
  keys := arraycopy l.keys 0 l.getKeyCount
  ptrs := (arraycopy l.ptrs 0 l.getABDegree).set keyIndex value

/-- The keys of the leaf with `key` before the one at `keyIndex`. -/
def keysWith (l : Node K) (keyIndex : Nat) (key : K) : List K :=
  arraycopy l.keys 0 keyIndex ++ key :: arraycopy l.keys keyIndex (l.getKeyCount - keyIndex)

/-- The values of the leaf with `value` before the one at `keyIndex`. -/
def ptrsWith (l : Node K) (keyIndex value : Nat) : List Nat :=
  arraycopy l.ptrs 0 keyIndex ++ value :: arraycopy l.ptrs keyIndex (l.getABDegree - keyIndex)

/-- Insert pair. -/
def insertPair (l : Node K) (keyIndex : Nat) (key : K) (value : Nat) : Node K where
  leaf := l.leaf
  weight := l.weight
  size := l.size + 1
  searchKey := l.searchKey
  keys := keysWith l keyIndex key
  ptrs := ptrsWith l keyIndex value

/-- Overflow: the two halves `left` and `right` of the full leaf and their parent `n`, in the
order in which they are allocated. The weight of `n` is zero unless it becomes the root. -/
def overflow (b : Nat) (l : Node K) (keyIndex : Nat) (key : K) (value left right : Nat)
    (root : Bool) : Option (Node K × Node K × Node K) := do
  let keys := keysWith l keyIndex key
  let ptrs := ptrsWith l keyIndex value
  let size1 := (b + 1) / 2
  let size2 := (b + 1) - size1
  let first ← keys[0]?
  let mid ← keys[size1]?
  some
    ({ leaf := true, weight := true, size := size1, searchKey := first
       keys := arraycopy keys 0 size1, ptrs := arraycopy ptrs 0 size1 },
     { leaf := true, weight := true, size := size2, searchKey := mid
       keys := arraycopy keys size1 size2, ptrs := arraycopy ptrs size1 size2 },
     { leaf := false, weight := root, size := 2, searchKey := mid
       keys := [mid], ptrs := [left, right] })

/-- A copy of the leaf without the pair at `keyIndex`. Its search key is the first key of the old
leaf, which may be the erased one: the new leaf is found by it all the same. -/
def eraseKey (l : Node K) (keyIndex : Nat) : Option (Node K) := do
  let first ← l.keys[0]?
  some
    { leaf := true
      weight := true
      size := l.size - 1
      searchKey := first
      keys := arraycopy l.keys 0 keyIndex
        ++ arraycopy l.keys (keyIndex + 1) (l.getKeyCount - (keyIndex + 1))
      ptrs := arraycopy l.ptrs 0 keyIndex
        ++ arraycopy l.ptrs (keyIndex + 1) (l.getABDegree - (keyIndex + 1)) }

/-! ## Weight violations: absorb and split

`p` takes over the pointers of its child `l` at `ixToL`, and is split if it gets too large. -/

def mergedPtrs (p l : Node K) (ixToL : Nat) : List Nat :=
  arraycopy p.ptrs 0 ixToL ++ arraycopy l.ptrs 0 l.getABDegree
    ++ arraycopy p.ptrs (ixToL + 1) (p.getABDegree - (ixToL + 1))

def mergedKeys (p l : Node K) (ixToL : Nat) : List K :=
  arraycopy p.keys 0 ixToL ++ arraycopy l.keys 0 l.getKeyCount
    ++ arraycopy p.keys ixToL (p.getKeyCount - ixToL)

/-- Absorb: one new node in the place of `p` and `l`. -/
def absorb (p l : Node K) (ixToL : Nat) : Option (Node K) := do
  let first ← (mergedKeys p l ixToL)[0]?
  if l.isLeaf then none
  some
    { leaf := false
      weight := true
      size := p.getABDegree + l.getABDegree - 1
      searchKey := first
      keys := mergedKeys p l ixToL
      ptrs := mergedPtrs p l ixToL }

/-- Split: the two halves `left` and `right` of what `p` and `l` hold, and their parent `n`. -/
def split (p l : Node K) (ixToL left right : Nat) (root : Bool) :
    Option (Node K × Node K × Node K) := do
  let keys := mergedKeys p l ixToL
  let ptrs := mergedPtrs p l ixToL
  let size := p.getABDegree + l.getABDegree - 1
  let size1 := size / 2
  let size2 := size - size1
  let first ← keys[0]?
  let mid ← keys[size1 - 1]?
  let second ← keys[size1]?
  if l.isLeaf then none
  some
    ({ leaf := false, weight := true, size := size1, searchKey := first
       keys := arraycopy keys 0 (size1 - 1), ptrs := arraycopy ptrs 0 size1 },
     { leaf := false, weight := true, size := size2, searchKey := second
       keys := arraycopy keys size1 (size2 - 1), ptrs := arraycopy ptrs size1 size2 },
     { leaf := false, weight := root, size := 2, searchKey := mid
       keys := [mid], ptrs := [left, right] })

/-! ## Degree violations: absorb sibling and distribute

`left` and `right` are the child `l` and its sibling `s` in the order in which they stand under
`p`, at `leftindex` and the index after it. -/

/-- The keys of both, with the key of `p` between them if they are internal. -/
def joinedKeys (p left right : Node K) (leftindex : Nat) : Option (List K) := do
  let between ← if left.isLeaf then some [] else do
    let key ← p.keys[leftindex]?
    some [key]
  some (arraycopy left.keys 0 left.getKeyCount ++ between
    ++ arraycopy right.keys 0 right.getKeyCount)

def joinedPtrs (left right : Node K) : List Nat :=
  arraycopy left.ptrs 0 left.getABDegree ++ arraycopy right.ptrs 0 right.getABDegree

/-- AbsorbSibling: the node `newl` that takes the place of `l` and its sibling. -/
def absorbSibling (p left right : Node K) (leftindex : Nat) (searchKey : K) :
    Option (Node K) := do
  let keys ← joinedKeys p left right leftindex
  if !(left.weight && right.weight && p.weight) then none
  some
    { leaf := left.isLeaf
      weight := true
      size := left.getABDegree + right.getABDegree
      searchKey := searchKey
      keys := keys
      ptrs := joinedPtrs left right }

/-- The copy of `p` that skips the key at `leftindex` and the pointer to the sibling, with `newl`
in the place of `l`. -/
def withoutSibling (p : Node K) (leftindex ixToL ixToS newl : Nat) : Node K where
  leaf := false
  weight := true
  size := p.getABDegree - 1
  searchKey := p.searchKey
  keys := (arraycopy p.keys 0 p.getKeyCount).eraseIdx leftindex
  ptrs := ((arraycopy p.ptrs 0 p.getABDegree).eraseIdx ixToS).set
    (ixToL - if ixToS < ixToL then 1 else 0) newl

/-- Distribute: a copy `n` of `p` with two new children between which the contents of `left` and
`right` are shared out evenly. -/
def distribute (p left right : Node K) (leftindex rightindex newleft newright : Nat) :
    Option (Node K × Node K × Node K) := do
  let sz := left.getABDegree + right.getABDegree
  let leftsz := sz / 2
  let rightsz := sz - leftsz
  -- an internal node has one key less than pointers, and the parent takes one key
  let inner := if left.isLeaf then 0 else 1
  let keys ← joinedKeys p left right leftindex
  let ptrs := joinedPtrs left right
  let leftkeys := arraycopy keys 0 (leftsz - inner)
  let rightkeys := arraycopy keys (leftsz - inner + inner) (rightsz - inner)
  let keyp ← keys[leftsz - inner]?
  let leftkey ← leftkeys[0]?
  let rightkey ← rightkeys[0]?
  some
    ({ leaf := false, weight := true, size := p.size, searchKey := p.searchKey
       keys := (arraycopy p.keys 0 p.getKeyCount).set leftindex keyp
       ptrs := ((arraycopy p.ptrs 0 p.getABDegree).set leftindex newleft).set rightindex
         newright },
     { leaf := left.isLeaf, weight := true, size := leftsz, searchKey := leftkey
       keys := leftkeys, ptrs := arraycopy ptrs 0 leftsz },
     { leaf := right.isLeaf, weight := true, size := rightsz, searchKey := rightkey
       keys := rightkeys, ptrs := arraycopy ptrs leftsz rightsz })

end Pacer.Abtree
