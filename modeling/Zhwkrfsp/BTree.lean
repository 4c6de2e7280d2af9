import Zhwkrfsp.Comparator
import Mathlib.Algebra.Group.Nat.Defs

/- The B-tree of `zhwkre/containers/btree.c`: a node has up to two pairs and three
   children, and room for a third pair and a fourth child while it waits to be split.
   A subtree is a value here (no two nodes share a child), a slot whose `key` is NULL is
   `none`, and `none` as the result of a function is a dereference of NULL, or a write
   past the hundred entries of an iterator's track. -/
namespace Zhwkrfsp.BTree

/-- `qBTreeNode`, NULL included: two pairs, three children, the pending pair and child. -/
inductive Node (κ υ : Type) where
  | null
  | mk (kv0 kv1 : Option (κ × υ)) (child0 child1 child2 : Node κ υ)
      (extrakv : Option (κ × υ)) (extrachild : Node κ υ)
deriving DecidableEq, Repr

section
variable {κ υ : Type}

namespace Node

def isNull : Node κ υ → Bool
  | null => true
  | mk .. => false

@[simp] theorem isNull_null : isNull (null : Node κ υ) = true := rfl

@[simp] theorem isNull_mk (kv0 kv1 : Option (κ × υ)) (c0 c1 c2 : Node κ υ) (x : Option (κ × υ))
    (xc : Node κ υ) : isNull (mk kv0 kv1 c0 c1 c2 x xc) = false := rfl

/-- `childs[childno]`. -/
def child : Node κ υ → Nat → Option (Node κ υ)
  | mk _ _ c0 _ _ _ _, 0 => some c0
  | mk _ _ _ c1 _ _ _, 1 => some c1
  | mk _ _ _ _ c2 _ _, 2 => some c2
  | _, _ => none

/-- `kv[which]`. -/
def kv : Node κ υ → Nat → Option (Option (κ × υ))
  | mk kv0 _ _ _ _ _ _, 0 => some kv0
  | mk _ kv1 _ _ _ _ _, 1 => some kv1
  | _, _ => none

/-- The node that the children with these numbers lead to. -/
def reach (root : Node κ υ) : List Nat → Option (Node κ υ)
  | [] => some root
  | childno :: track => (root.child childno).bind fun child => child.reach track

end Node

open Node

/-! Allocation. The outcomes of the calls of `malloc` are given in advance; when they
    are used up, every call succeeds. -/

def malloc : List Bool → Bool × List Bool
  | [] => (true, [])
  | ok :: mallocs => (ok, mallocs)

/-- `qBTreeNode__constructor`: a node of zeros, or NULL. -/
def nodeConstructor (mallocs : List Bool) : Node κ υ × List Bool :=
  match malloc mallocs with
  | (true, mallocs) => (mk none none null null null none null, mallocs)
  | (false, mallocs) => (null, mallocs)

structure Descriptor (κ υ : Type) where
  size : UInt32
  root : Node κ υ
deriving DecidableEq, Repr

def constructor : Descriptor κ υ := ⟨0, null⟩

variable (comp : κ → κ → Int)

/-! Splitting. -/

/-- The promoted pair, `*toprochild`, which is its left child, and `*nodesplit`. -/
def splitUp (nodesplit toprochild : Node κ υ) : Option ((κ × υ) × Node κ υ × Node κ υ) :=
  match nodesplit, toprochild with
  | mk kv0 kv1 c0 c1 c2 extrakv extrachild, mk .. => do
    let extra ← extrakv
    let first ← kv0
    if comp extra.1 first.1 < 0 then
      return (first, mk extrakv none extrachild c0 null none null, mk kv1 none c1 c2 null none null)
    let second ← kv1
    if comp extra.1 second.1 < 0 then
      return (extra, mk kv0 none c0 extrachild null none null, mk kv1 none c1 c2 null none null)
    return (second, mk kv0 none c0 c1 null none null, mk extrakv none extrachild c2 null none null)
  | _, _ => none

/-! Search. -/

/-- `track` and `which`; the node is where the track leads, and the parents are the
    nodes on the way. -/
structure Iterator where
  track : List Nat
  which : Nat
deriving DecidableEq, Repr

/-- One more entry of `track`. -/
def push (track : List Nat) (childno : Nat) : Option (List Nat) :=
  if track.length < 100 then some (track ++ [childno]) else none

def recursiveSearch (key : κ) : Node κ υ → List Nat → Option (Int32 × Option Iterator)
  | null, _ => some (-1, none)
  | mk kv0 kv1 c0 c1 c2 _ _, track => do
    let first ← kv0
    let firstCmp := comp key first.1
    if firstCmp = 0 then
      return (0, some ⟨track, 0⟩)
    if firstCmp < 0 then
      let track ← push track 0
      recursiveSearch key c0 track
    else match kv1 with
    | none =>
      if !c1.isNull then
        let track ← push track 1
        recursiveSearch key c1 track
      else return (-1, none)
    | some second =>
      let secondCmp := comp key second.1
      if secondCmp = 0 then
        return (0, some ⟨track, 1⟩)
      if secondCmp < 0 then
        let track ← push track 1
        recursiveSearch key c1 track
      else
        let track ← push track 2
        recursiveSearch key c2 track

def ptrAt (desc : Descriptor κ υ) (key : κ) : Option (Int32 × Option Iterator) :=
  recursiveSearch comp key desc.root []

/-- The pair that an iterator points to. -/
def iteratorDeref (root : Node κ υ) (iter : Iterator) : Option (κ × υ) := do
  let node ← root.reach iter.track
  let kv ← node.kv iter.which
  kv

/-! Insertion. -/

/-- The status (-1 for a key that is there, 0 for success, 1 for a node that waits to be
    split) and `*root`. -/
def recursiveInsert (pair : κ × υ) :
    Node κ υ → List Bool → Option ((Int32 × Node κ υ) × List Bool)
  | null, mallocs =>
    match nodeConstructor mallocs with
    | (null, mallocs) => some ((-1, null), mallocs)
    | (mk _ kv1 c0 c1 c2 extrakv extrachild, mallocs) =>
      some ((0, mk (some pair) kv1 c0 c1 c2 extrakv extrachild), mallocs)
  | mk kv0 kv1 c0 c1 c2 extrakv extrachild, mallocs => do
    if !(!c0.isNull || !c1.isNull || !c2.isNull) then
      if kv1.isSome then
        return ((1, mk kv0 kv1 c0 c1 c2 (some pair) extrachild), mallocs)
      let first ← kv0
      let firstcmp := comp pair.1 first.1
      if firstcmp = 0 then
        return ((-1, mk kv0 kv1 c0 c1 c2 extrakv extrachild), mallocs)
      if 0 < firstcmp then
        return ((0, mk kv0 (some pair) c0 c1 c2 extrakv extrachild), mallocs)
      return ((0, mk (some pair) kv0 c0 c1 c2 extrakv extrachild), mallocs)
    let first ← kv0
    let firstcmp := comp pair.1 first.1
    if firstcmp = 0 then
      return ((-1, mk kv0 kv1 c0 c1 c2 extrakv extrachild), mallocs)
    if firstcmp < 0 then
      let ((issp, c0), mallocs) ← recursiveInsert pair c0 mallocs
      if issp = 0 ∨ issp = -1 then
        return ((issp, mk kv0 kv1 c0 c1 c2 extrakv extrachild), mallocs)
      let (topronode, mallocs) := nodeConstructor mallocs
      let (topropair, topronode, c0) ← splitUp comp c0 topronode
      if kv1.isSome then
        return ((1, mk kv0 kv1 c0 c1 c2 (some topropair) topronode), mallocs)
      -- the promoted pair goes behind kv[0], the left half of child 0 behind child 0
      return ((0, mk kv0 (some topropair) c0 topronode c1 extrakv extrachild), mallocs)
    else
      let secondcmp := (kv1.map fun second => comp pair.1 second.1).getD 0
      if kv1.isNone ∨ secondcmp < 0 then
        let ((issp, c1), mallocs) ← recursiveInsert pair c1 mallocs
        if issp = 0 ∨ issp = -1 then
          return ((issp, mk kv0 kv1 c0 c1 c2 extrakv extrachild), mallocs)
        let (topronode, mallocs) := nodeConstructor mallocs
        let (topropair, topronode, c1) ← splitUp comp c1 topronode
        if kv1.isSome then
          return ((1, mk kv0 kv1 c0 c1 c2 (some topropair) topronode), mallocs)
        return ((0, mk kv0 (some topropair) c0 topronode c1 extrakv extrachild), mallocs)
      if secondcmp = 0 then
        return ((-1, mk kv0 kv1 c0 c1 c2 extrakv extrachild), mallocs)
      let ((issp, c2), mallocs) ← recursiveInsert pair c2 mallocs
      if issp = 0 ∨ issp = -1 then
        return ((issp, mk kv0 kv1 c0 c1 c2 extrakv extrachild), mallocs)
      let (topronode, mallocs) := nodeConstructor mallocs
      let (topropair, topronode, c2) ← splitUp comp c2 topronode
      return ((1, mk kv0 kv1 c0 c1 c2 (some topropair) topronode), mallocs)

def insert (desc : Descriptor κ υ) (pair : κ × υ) (mallocs : List Bool) :
    Option ((Int32 × Descriptor κ υ) × List Bool) :=
  match malloc mallocs with
  | (false, mallocs) => some ((-1, desc), mallocs)
  | (true, mallocs) =>
    match malloc mallocs with
    | (false, mallocs) => some ((-1, desc), mallocs)
    | (true, mallocs) => do
      let ((stat, root), mallocs) ← recursiveInsert comp pair desc.root mallocs
      if stat = 0 ∨ stat = -1 then
        return ((stat, ⟨desc.size + (stat + 1).toUInt32, root⟩), mallocs)
      let (newrootchild, mallocs) := nodeConstructor mallocs
      if newrootchild.isNull then
        return ((-1, ⟨desc.size, root⟩), mallocs)
      let (newrootpair, newrootchild, root) ← splitUp comp root newrootchild
      match nodeConstructor mallocs with
      | (null, mallocs) => return ((-1, ⟨desc.size, root⟩), mallocs)
      | (mk _ kv1 _ _ c2 extrakv extrachild, mallocs) =>
        return ((0, ⟨desc.size + 1, mk (some newrootpair) kv1 newrootchild root c2 extrakv extrachild⟩),
          mallocs)

/-! Erasure. -/

/-- A sibling to take a pair from. -/
def spare : Node κ υ → Bool
  | null => false
  | mk _ kv1 .. => kv1.isSome

/-- The body of `rotate_left`: the child `which`, the pair to its right and the child
    right of that. -/
def shiftLeft (child : Node κ υ) (mid : Option (κ × υ)) (sibling : Node κ υ) :
    Option (Node κ υ × Option (κ × υ) × Node κ υ) :=
  match child, sibling with
  | mk _ kv1 c0 _ c2 x xc, mk kv0' kv1' c0' c1' c2' x' xc' =>
    some (mk mid kv1 c0 c0' c2 x xc, kv0', mk kv1' none c1' c2' null x' xc')
  | _, _ => none

/-- The status, -1 where the right sibling has no pair to spare, and the node. -/
def rotateLeft (root : Node κ υ) (which : Nat) : Option (Int32 × Node κ υ) :=
  match root, which with
  | root, 2 => some (-1, root)
  | mk kv0 kv1 c0 c1 c2 x xc, 0 => do
    if !spare c1 then
      return (-1, mk kv0 kv1 c0 c1 c2 x xc)
    let (c0, kv0, c1) ← shiftLeft c0 kv0 c1
    return (0, mk kv0 kv1 c0 c1 c2 x xc)
  | mk kv0 kv1 c0 c1 c2 x xc, 1 => do
    if !spare c2 then
      return (-1, mk kv0 kv1 c0 c1 c2 x xc)
    let (c1, kv1, c2) ← shiftLeft c1 kv1 c2
    return (0, mk kv0 kv1 c0 c1 c2 x xc)
  | _, _ => none

/-- The body of `rotate_right`: the child left of the pair, the pair and the child `which`. -/
def shiftRight (sibling : Node κ υ) (mid : Option (κ × υ)) (child : Node κ υ) :
    Option (Node κ υ × Option (κ × υ) × Node κ υ) :=
  match sibling, child with
  | mk kv0' kv1' c0' c1' c2' x' xc', mk _ kv1 c0 _ c2 x xc =>
    some (mk kv0' none c0' c1' null x' xc', kv1', mk mid kv1 c2' c0 c2 x xc)
  | _, _ => none

def rotateRight (root : Node κ υ) (which : Nat) : Option (Int32 × Node κ υ) :=
  match root, which with
  | root, 0 => some (-1, root)
  | mk kv0 kv1 c0 c1 c2 x xc, 1 => do
    if !spare c0 then
      return (-1, mk kv0 kv1 c0 c1 c2 x xc)
    let (c0, kv0, c1) ← shiftRight c0 kv0 c1
    return (0, mk kv0 kv1 c0 c1 c2 x xc)
  | mk kv0 kv1 c0 c1 c2 x xc, 2 => do
    if !spare c1 then
      return (-1, mk kv0 kv1 c0 c1 c2 x xc)
    let (c1, kv1, c2) ← shiftRight c1 kv1 c2
    return (0, mk kv0 kv1 c0 c1 c2 x xc)
  | _, _ => none

/-- A left sibling takes a pair and the one child that `child` has left. -/
def absorb (sibling : Node κ υ) (pair : Option (κ × υ)) (child : Node κ υ) : Option (Node κ υ) :=
  match sibling, child with
  | mk kv0 _ c0 c1 c2 x xc, mk _ _ d0 _ _ _ _ =>
    some (if c1.isNull then mk kv0 pair c0 d0 c2 x xc else mk kv0 pair c0 c1 d0 x xc)
  | _, _ => none

/-- The status, 1 for a node that has no pair left, and the node. -/
def merge (root : Node κ υ) (which : Nat) : Option (Int32 × Node κ υ) :=
  match root, which with
  | mk kv0 kv1 (mk _ _ c0 _ _ y yc) (mk d0 _ e0 e1 _ _ _) c2 x xc, 0 =>
    some (if kv1.isNone then 1 else 0,
      mk kv1 none (mk kv0 d0 c0 e0 e1 y yc) c2 null x xc)
  | mk kv0 kv1 c0 c1 c2 x xc, 1 => do
    let c0 ← absorb c0 kv0 c1
    return (if kv1.isNone then 1 else 0, mk kv1 none c0 c2 null x xc)
  | mk kv0 kv1 c0 c1 c2 x xc, 2 => do
    let c1 ← absorb c1 kv1 c2
    return (0, mk kv0 none c0 c1 null x xc)
  | _, 0 => none
  | null, _ => none
  | _, _ => some (-1, root)

/-- After an erasure in the child `which`: the rotations that the call tries, then the
    merge. -/
def postWork (status : Int32) (left right : Bool) (root : Node κ υ) (which : Nat) :
    Option (Int32 × Node κ υ) := do
  if status = 0 ∨ status = -1 then
    return (status, root)
  let (rotated, root) ← if left then rotateLeft root which else some (-1, root)
  if rotated = 0 then
    return (0, root)
  let (rotated, root) ← if right then rotateRight root which else some (-1, root)
  if rotated = 0 then
    return (0, root)
  merge root which

def recursiveEraseMin : Node κ υ → Option (Int32 × Node κ υ)
  | null => some (-1, null)
  | mk kv0 kv1 c0 c1 c2 x xc => do
    if !c0.isNull then
      let (status, c0) ← recursiveEraseMin c0
      postWork status true false (mk kv0 kv1 c0 c1 c2 x xc) 0
    else if kv1.isSome then
      return (0, mk kv1 none c0 c1 c2 x xc)
    else
      return (1, mk none kv1 c0 c1 c2 x xc)

/-- The pair that is copied to `*mvpair`; `none` for the status -1. -/
def getMin : Node κ υ → Option (Option (κ × υ))
  | null => none
  | mk kv0 _ c0 _ _ _ _ => if !c0.isNull then getMin c0 else some kv0

def recursiveErase (target : κ) : Node κ υ → Option (Int32 × Node κ υ)
  | null => some (-1, null)
  | mk kv0 kv1 c0 c1 c2 x xc => do
    let first ← kv0
    let firstcmp := comp target first.1
    if firstcmp = 0 then
      match getMin c1 with
      | none => recursiveEraseMin (mk kv0 kv1 c0 c1 c2 x xc)
      | some kv0 =>
        let (erasestat, c1) ← recursiveEraseMin c1
        postWork erasestat true true (mk kv0 kv1 c0 c1 c2 x xc) 1
    else if firstcmp < 0 then
      let (status, c0) ← recursiveErase target c0
      postWork status true false (mk kv0 kv1 c0 c1 c2 x xc) 0
    else match kv1 with
    | none =>
      let (status, c1) ← recursiveErase target c1
      postWork status false true (mk kv0 none c0 c1 c2 x xc) 1
    | some second =>
      let secondcmp := comp target second.1
      if secondcmp = 0 then
        match getMin c2 with
        | none => return (0, mk kv0 none c0 c1 c2 x xc)
        | some kv1 =>
          let (erasestat, c2) ← recursiveEraseMin c2
          postWork erasestat false true (mk kv0 kv1 c0 c1 c2 x xc) 2
      else if secondcmp < 0 then
        let (status, c1) ← recursiveErase target c1
        postWork status true true (mk kv0 (some second) c0 c1 c2 x xc) 1
      else
        let (status, c2) ← recursiveErase target c2
        postWork status false true (mk kv0 (some second) c0 c1 c2 x xc) 2

/-- `qBTree__erase`. Its own copies of the key and the value, from two `malloc`s that it does not
    check and that it frees again, are left out. -/
def erase (desc : Descriptor κ υ) (elem : Iterator) : Option (Int32 × Descriptor κ υ) := do
  let target ← iteratorDeref desc.root elem
  let (status, root) ← recursiveErase comp target.1 desc.root
  if status = -1 then
    return (-1, ⟨desc.size, root⟩)
  let root ← if status = 1 then root.child 0 else some root
  return (0, ⟨desc.size - 1, root⟩)

end

end Zhwkrfsp.BTree
