import Zhwkrfsp.Chain
import Zhwkrfsp.Machine
import Zhwkrfsp.Codec

/- The AVL tree of `zhwkre/containers/AVLTree.c`. The child pointers and the
   heights are a `Tree` of node addresses; the payload of a node (`data` with its
   `size`) and its `prev`/`next` threads are the cell at its address. Rotations
   change the tree only, payload swaps and threads the heap only, as in the
   source. `none` is the dereference of NULL or of a freed node. -/
namespace Zhwkrfsp.AVLTree
open Linked

/-- A subtree as its parent points to it; NULL is `nil`. -/
inductive Tree where
  | nil
  | node (lchild : Tree) (addr : Nat) (height : Nat) (rchild : Tree)
  deriving DecidableEq, Repr, Inhabited

namespace Tree

def getHeight : Tree → Nat
  | nil => 0
  | node _ _ height _ => height

/-- A node whose height is that of `updateHeight`. -/
def mk (l : Tree) (a : Nat) (r : Tree) : Tree := node l a (max l.getHeight r.getHeight + 1) r

def isNull : Tree → Bool
  | nil => true
  | node .. => false

def lchild : Tree → Tree
  | nil => nil
  | node l _ _ _ => l

def rchild : Tree → Tree
  | nil => nil
  | node _ _ _ r => r

/-- `get_blfactor`, which the source never takes of NULL. -/
def blfactor (t : Tree) : Int := (t.rchild.getHeight : Int) - t.lchild.getHeight

end Tree
open AVLTree.Tree

/-! Rotations. NULL (`some nil`) comes with ZHWK_ERR_TREE_INVALID_OPERATION. -/

def simpleLeftRotate : Tree → Option Tree
  | nil => none
  | node _ _ _ nil => some nil
  | node l a _ (node rl b _ nil) =>
    match rl with
    | nil => none
    | node rll c _ rlr => some (mk (mk l a rll) c (mk rlr b nil))
  | node l a _ (node rl b _ rr) => some (mk (mk l a rl) b rr)

def simpleRightRotate : Tree → Option Tree
  | nil => none
  | node nil _ _ _ => some nil
  | node (node nil b _ lr) a _ r =>
    match lr with
    | nil => none
    | node lrl c _ lrr => some (mk (mk nil b lrl) c (mk lrr a r))
  | node (node ll b _ lr) a _ r => some (mk ll b (mk lr a r))

def leftRightRotate : Tree → Option Tree
  | nil => none
  | node nil _ _ _ => some nil
  | node l a ht r => do
    let tmpreroot ← simpleLeftRotate l
    if tmpreroot.isNull then return nil
    simpleRightRotate (node tmpreroot a ht r)

def rightLeftRotate : Tree → Option Tree
  | nil => none
  | node _ _ _ nil => some nil
  | node l a ht r => do
    let tmpreroot ← simpleRightRotate r
    if tmpreroot.isNull then return nil
    simpleLeftRotate (node l a ht tmpreroot)

def leftBalance (root : Tree) : Option Tree :=
  if root.blfactor ≤ -2 then
    if !root.lchild.isNull && !root.lchild.rchild.isNull && 0 < root.lchild.rchild.blfactor then
      leftRightRotate root
    else
      simpleRightRotate root
  else
    some root

def rightBalance (root : Tree) : Option Tree :=
  if 2 ≤ root.blfactor then
    if !root.rchild.isNull && !root.rchild.lchild.isNull && root.rchild.lchild.blfactor < 0 then
      rightLeftRotate root
    else
      simpleLeftRotate root
  else
    some root

/-! The threads. -/

section
variable {α : Type}

def listInsertLeft (parent child : Nat) (h : Heap α) : Option (Heap α) := do
  let p ← h.cell parent
  let h ← match p.prev with
    | some q => h.modify q fun c => { c with next := some child }
    | none => some h
  let h ← h.modify child fun c => { c with prev := p.prev, next := some parent }
  h.modify parent fun c => { c with prev := some child }

def listInsertRight (parent child : Nat) (h : Heap α) : Option (Heap α) := do
  let p ← h.cell parent
  let h ← match p.next with
    | some q => h.modify q fun c => { c with prev := some child }
    | none => some h
  let h ← h.modify child fun c => { c with next := p.next, prev := some parent }
  h.modify parent fun c => { c with next := some child }

def listRemove (elem : Nat) (h : Heap α) : Option (Heap α) := do
  let e ← h.cell elem
  let h ← match e.prev with
    | some p => h.modify p fun c => { c with next := e.next }
    | none => some h
  match e.next with
  | some n => h.modify n fun c => { c with prev := e.prev }
  | none => some h

/-- `qAVLTreeNode__swap`: the payloads change places. -/
def swap (a b : Nat) (h : Heap α) : Option (Heap α) := do
  let ca ← h.cell a
  let cb ← h.cell b
  let h ← h.modify a fun c => { c with data := cb.data }
  h.modify b fun c => { c with data := ca.data }

/-! Descriptor and search. `comp` is the comparator: of its int only the sign is read. -/

structure Descriptor where
  size : UInt32
  root : Tree

def constructor : Descriptor := ⟨0, nil⟩

variable (comp : α → α → Int)

/-- The search loop of `ptr_at`: the node it stops at, or NULL. -/
def search (elem : α) (h : Heap α) : Tree → Option (Option Nat)
  | nil => some none
  | node l a _ r => do
    let searchreach ← h.cell a
    let cmpresult := comp elem searchreach.data
    if cmpresult = 0 then
      return some a
    if cmpresult < 0 then
      search elem h l
    else
      search elem h r

/-- The status, and the node the iterator is set to. -/
def ptrAt (desc : Descriptor) (h : Heap α) (elem : α) : Option (Int32 × Option Nat) := do
  match ← search comp elem h desc.root with
  | some a => return (0, some a)
  | none => return (-1, none)

/-! Insertion. -/

/-- The allocation of a node and of the copy of its data: `none` for the node
    when one of them fails. -/
def newNode (h : Heap α) (elem : α) : Option Nat × Heap α :=
  match h.malloc with
  | (false, h) => (none, h)
  | (true, h) =>
    match h.malloc with
    | (false, h) => (none, h)
    | (true, h) => let (a, h) := h.new elem; (some a, h)

/-- What a call of `recursive_insert` leaves: its result, `*newrootptr`, and the
    tree under the node it was called on. `newroot` is NULL where the call does
    not write it. -/
structure Inserted where
  status : Int32
  newroot : Tree
  root : Tree
  deriving DecidableEq

def recursiveInsert (elem : α) : Tree → Heap α → Option (Inserted × Heap α)
  | nil, _ => none
  | node l a ht r, h => do
    let root ← h.cell a
    let cmpresult := comp elem root.data
    if cmpresult = 0 then
      return (⟨-1, node l a ht r, node l a ht r⟩, h)
    else if cmpresult < 0 then
      if l.isNull then
        match newNode h elem with
        | (none, h) => return (⟨-1, nil, node l a ht r⟩, h)
        | (some c, h) =>
          let h ← listInsertLeft a c h
          let root := mk (node nil c 1 nil) a r
          return (⟨0, root, root⟩, h)
      else
        let (ins, h) ← recursiveInsert elem l h
        if ins.status ≠ 0 then
          return (⟨ins.status, node ins.newroot a ht r, node ins.newroot a ht r⟩, h)
        let newroot ← leftBalance (mk ins.newroot a r)
        return (⟨0, newroot, newroot⟩, h)
    else
      if r.isNull then
        match newNode h elem with
        | (none, h) => return (⟨-1, nil, node l a ht r⟩, h)
        | (some c, h) =>
          let h ← listInsertRight a c h
          let root := mk l a (node nil c 1 nil)
          return (⟨0, root, root⟩, h)
      else
        let (ins, h) ← recursiveInsert elem r h
        if ins.status ≠ 0 then
          return (⟨ins.status, node l a ht ins.newroot, node l a ht ins.newroot⟩, h)
        let newroot ← rightBalance (mk l a ins.newroot)
        return (⟨0, newroot, newroot⟩, h)

def insert (desc : Descriptor) (h : Heap α) (elem : α) :
    Option (Int32 × Descriptor × Heap α) :=
  if desc.root.isNull then
    match newNode h elem with
    | (none, h) => some (-1, { desc with root := nil }, h)
    | (some a, h) => some (0, ⟨1, node nil a 1 nil⟩, h)
  else do
    let (ins, h) ← recursiveInsert comp elem desc.root h
    if ins.status ≠ 0 then
      return (-1, { desc with root := ins.root }, h)
    return (0, ⟨desc.size + 1, ins.newroot⟩, h)

/-! Deletion. -/

/-- The end of both helpers: the payload of `root` goes to the iterator's node,
    the node itself is unlinked and freed. -/
def deleteHere (root elem : Nat) (h : Heap α) : Option (Heap α) := do
  let h ← swap root elem h
  let h ← listRemove root h
  h.free root

def deleteLeftmax (elem : Nat) : Tree → Heap α → Option (Tree × Heap α)
  | nil, _ => none
  | node l a _ r, h => do
    if !r.isNull then
      let (newroot, h) ← deleteLeftmax elem r h
      let root ← rightBalance (mk l a newroot)
      return (root, h)
    let h ← deleteHere a elem h
    return (l, h)

def deleteRightmin (elem : Nat) : Tree → Heap α → Option (Tree × Heap α)
  | nil, _ => none
  | node l a _ r, h => do
    if !l.isNull then
      let (newroot, h) ← deleteRightmin elem l h
      let root ← leftBalance (mk newroot a r)
      return (root, h)
    let h ← deleteHere a elem h
    return (r, h)

/-- The status and `*newrootptr`. Where the status is not 0 nothing was changed. -/
def recursiveDelete (elem : Nat) : Tree → Heap α → Option ((Int32 × Tree) × Heap α)
  | nil, _ => none
  | node l a ht r, h => do
    let e ← h.cell elem
    let root ← h.cell a
    let cmpresult := comp e.data root.data
    if cmpresult = 0 then
      if ht = 1 then
        let h ← listRemove a h
        let h ← h.free a
        return ((0, nil), h)
      else if 0 < (node l a ht r).blfactor then
        let (newroot, h) ← deleteRightmin elem r h
        let t ← rightBalance (mk l a newroot)
        return ((0, t), h)
      else
        let (newroot, h) ← deleteLeftmax elem l h
        let t ← leftBalance (mk newroot a r)
        return ((0, t), h)
    else if cmpresult < 0 then
      if l.isNull then
        return ((-1, node l a ht r), h)
      let ((status, newroot), h) ← recursiveDelete elem l h
      if status ≠ 0 then
        return ((status, node l a ht r), h)
      let t ← rightBalance (mk newroot a r)
      return ((0, t), h)
    else
      if r.isNull then
        return ((-1, node l a ht r), h)
      let ((status, newroot), h) ← recursiveDelete elem r h
      if status ≠ 0 then
        return ((status, node l a ht r), h)
      let t ← leftBalance (mk l a newroot)
      return ((0, t), h)

def erase (desc : Descriptor) (h : Heap α) (elem : Nat) :
    Option (Int32 × Descriptor × Heap α) :=
  if desc.size = 0 then
    some (-1, desc, h)
  else do
    let ((status, newroot), h) ← recursiveDelete comp elem desc.root h
    if status ≠ 0 then
      return (status, desc, h)
    return (0, ⟨desc.size - 1, newroot⟩, h)

end

/-! Iterators: the node, or NULL. -/

/-- The leftmost node. -/
def minNode : Tree → Option Nat
  | nil => none
  | node l a _ _ => if l.isNull then some a else minNode l

/-- The rightmost node. -/
def maxNode : Tree → Option Nat
  | nil => none
  | node _ a _ r => if r.isNull then some a else maxNode r

def begin (desc : Descriptor) : Option Nat := minNode desc.root

def «end» (desc : Descriptor) : Option Nat := maxNode desc.root

section
variable {α : Type} (h : Heap α)

def iteratorPrev (iter : Option Nat) : Option (Option Nat) := do
  let nd ← h.cell (← iter)
  return nd.prev

def iteratorNext (iter : Option Nat) : Option (Option Nat) := do
  let nd ← h.cell (← iter)
  return nd.next

/-- NULL for the invalid iterator. -/
def iteratorDeref : Option Nat → Option (Option α)
  | none => some none
  | some nd => (h.cell nd).map fun c => some c.data

end

/-! The end of a tree. -/

/-- The loop of `destructor`, which frees a node in every round. -/
def freeFrom {α : Type} : Nat → Option Nat → Heap α → Option (Heap α)
  | _, none, h => some h
  | 0, some _, _ => none
  | rounds + 1, some minNode, h => do
    let nd ← h.cell minNode
    let h ← h.free minNode
    freeFrom rounds nd.next h

/-- No more than `brk` nodes can be freed. -/
def destructor {α : Type} (desc : Descriptor) (h : Heap α) :
    Option (Int32 × Descriptor × Heap α) := do
  let h ← freeFrom h.brk (minNode desc.root) h
  return (0, ⟨0, nil⟩, h)

end Zhwkrfsp.AVLTree
