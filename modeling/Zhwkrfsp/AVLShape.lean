import Zhwkrfsp.AVLTree

/- The trees by themselves: every rebalancing keeps the in-order sequence and the
   exactness of the stored heights, and none of them meets a NULL. `place` and
   `dropAt` are insertion and deletion along a path of turns, without the heap. -/
namespace Zhwkrfsp.AVLTree
open AVLTree.Tree

namespace Tree

def inorder : Tree → List Nat
  | nil => []
  | node l a _ r => l.inorder ++ a :: r.inorder

/-- Every stored height is one more than the higher of the two below it. -/
def Exact : Tree → Prop
  | nil => True
  | node l _ ht r => l.Exact ∧ r.Exact ∧ ht = max l.getHeight r.getHeight + 1

/-- The height as such, whatever the nodes say. -/
def height : Tree → Nat
  | nil => 0
  | node l _ _ r => max l.height r.height + 1

/-- The heights of every two siblings differ by at most one. -/
def Balanced : Tree → Prop
  | nil => True
  | node l _ _ r =>
    l.Balanced ∧ r.Balanced ∧ l.height ≤ r.height + 1 ∧ r.height ≤ l.height + 1

instance : DecidablePred Balanced
  | nil => .isTrue trivial
  | node l _ _ r =>
    have := instDecidablePredBalanced l
    have := instDecidablePredBalanced r
    inferInstanceAs (Decidable (_ ∧ _ ∧ _ ∧ _))

def mirror : Tree → Tree
  | nil => nil
  | node l a ht r => node r.mirror a ht l.mirror

@[simp] theorem getHeight_nil : nil.getHeight = 0 := rfl
@[simp] theorem getHeight_node (l r : Tree) (a ht : Nat) : (node l a ht r).getHeight = ht := rfl
@[simp] theorem inorder_nil : nil.inorder = [] := rfl
@[simp] theorem inorder_node (l r : Tree) (a ht : Nat) :
    (node l a ht r).inorder = l.inorder ++ a :: r.inorder := rfl
@[simp] theorem isNull_nil : nil.isNull = true := rfl
@[simp] theorem isNull_node (l r : Tree) (a ht : Nat) : (node l a ht r).isNull = false := rfl
@[simp] theorem blfactor_nil : nil.blfactor = 0 := rfl
@[simp] theorem blfactor_node (l r : Tree) (a ht : Nat) :
    (node l a ht r).blfactor = (r.getHeight : Int) - l.getHeight := rfl
@[simp] theorem mirror_nil : nil.mirror = nil := rfl
@[simp] theorem mirror_node (l r : Tree) (a ht : Nat) :
    (node l a ht r).mirror = node r.mirror a ht l.mirror := rfl

@[simp] theorem mirror_mirror (t : Tree) : t.mirror.mirror = t := by
  induction t with
  | nil => rfl
  | node l a ht r ihl ihr => simp [ihl, ihr]

@[simp] theorem getHeight_mirror (t : Tree) : t.mirror.getHeight = t.getHeight := by
  cases t <;> rfl

@[simp] theorem isNull_mirror (t : Tree) : t.mirror.isNull = t.isNull := by
  cases t <;> rfl

@[simp] theorem lchild_mirror (t : Tree) : t.mirror.lchild = t.rchild.mirror := by
  cases t <;> rfl

@[simp] theorem rchild_mirror (t : Tree) : t.mirror.rchild = t.lchild.mirror := by
  cases t <;> rfl

@[simp] theorem blfactor_mirror (t : Tree) : t.mirror.blfactor = -t.blfactor := by
  simp only [blfactor, lchild_mirror, rchild_mirror, getHeight_mirror]
  omega

@[simp] theorem mk_mirror (l r : Tree) (a : Nat) : (mk l a r).mirror = mk r.mirror a l.mirror := by
  simp [mk, Nat.max_comm]

@[simp] theorem inorder_mirror (t : Tree) : t.mirror.inorder = t.inorder.reverse := by
  induction t with
  | nil => rfl
  | node l a ht r ihl ihr => simp [ihl, ihr]

@[simp] theorem height_mirror (t : Tree) : t.mirror.height = t.height := by
  induction t with
  | nil => rfl
  | node l a ht r ihl ihr => simp [height, ihl, ihr, Nat.max_comm]

@[simp] theorem exact_mirror (t : Tree) : t.mirror.Exact ↔ t.Exact := by
  induction t with
  | nil => rfl
  | node l a ht r ihl ihr =>
    simp only [mirror, Exact, ihl, ihr, getHeight_mirror, Nat.max_comm r.getHeight]
    tauto

@[simp] theorem balanced_mirror (t : Tree) : t.mirror.Balanced ↔ t.Balanced := by
  induction t with
  | nil => rfl
  | node l a ht r ihl ihr =>
    simp only [mirror, Balanced, ihl, ihr, height_mirror]
    tauto

theorem mk_exact {l r : Tree} (a : Nat) (hl : l.Exact) (hr : r.Exact) : (mk l a r).Exact :=
  ⟨hl, hr, rfl⟩

theorem exact_eq_mk {l r : Tree} {a ht : Nat} (h : (node l a ht r).Exact) :
    node l a ht r = mk l a r := by
  rw [mk, h.2.2]

theorem Exact.height_eq {t : Tree} (h : t.Exact) : t.height = t.getHeight := by
  induction t with
  | nil => rfl
  | node l a ht r ihl ihr =>
    obtain ⟨hl, hr, e⟩ := h
    rw [height, ihl hl, ihr hr, getHeight_node, e]

/-- Balance, read off the stored heights. -/
theorem balanced_mk {l r : Tree} (a : Nat) (hl : l.Exact) (hr : r.Exact) :
    (mk l a r).Balanced ↔ l.Balanced ∧ r.Balanced ∧ l.getHeight ≤ r.getHeight + 1 ∧
      r.getHeight ≤ l.getHeight + 1 := by
  rw [mk, Balanced, hl.height_eq, hr.height_eq]

theorem Exact.height_pos {t : Tree} (h : t.Exact) (ht : t ≠ nil) : 0 < t.getHeight := by
  cases t with
  | nil => exact absurd rfl ht
  | node l a n r =>
    have := h.2.2
    simp
    omega

theorem Exact.eq_nil {t : Tree} (h : t.Exact) (h0 : t.getHeight = 0) : t = nil := by
  by_contra ht
  have := h.height_pos ht
  omega

end Tree

/-! The right-hand functions mirror the left-hand ones. -/

theorem simpleRightRotate_mirror (t : Tree) :
    simpleRightRotate t.mirror = (simpleLeftRotate t).map mirror := by
  rcases t with _ | ⟨l, a, ht, _ | ⟨rl, b, hb, rr⟩⟩
  · rfl
  · rfl
  · cases rr with
    | nil => cases rl <;> simp [simpleLeftRotate, simpleRightRotate]
    | node rrl c hc rrr => simp [simpleLeftRotate, simpleRightRotate]

theorem simpleLeftRotate_mirror (t : Tree) :
    simpleLeftRotate t.mirror = (simpleRightRotate t).map mirror := by
  have h := simpleRightRotate_mirror t.mirror
  rw [mirror_mirror] at h
  cases e : simpleLeftRotate t.mirror <;> simp [h, e]

theorem leftRightRotate_mirror (t : Tree) :
    leftRightRotate t.mirror = (rightLeftRotate t).map mirror := by
  rcases t with _ | ⟨l, a, ht, r⟩
  · rfl
  cases r with
  | nil => rfl
  | node rl b hb rr =>
    have e := simpleLeftRotate_mirror (node rl b hb rr)
    rw [mirror_node] at e
    simp only [mirror_node, leftRightRotate, e, rightLeftRotate]
    cases simpleRightRotate (node rl b hb rr) with
    | none => rfl
    | some t =>
      cases t with
      | nil => rfl
      | node tl c hc tr => exact simpleRightRotate_mirror (node l a ht (node tl c hc tr))

theorem leftBalance_mirror (t : Tree) : leftBalance t.mirror = (rightBalance t).map mirror := by
  have h : -t.blfactor ≤ -2 ↔ 2 ≤ t.blfactor := by omega
  have h' : 0 < -t.rchild.lchild.blfactor ↔ t.rchild.lchild.blfactor < 0 := by omega
  simp only [leftBalance, rightBalance, blfactor_mirror, lchild_mirror, rchild_mirror,
    isNull_mirror, h, h', leftRightRotate_mirror, simpleRightRotate_mirror]
  split
  · split <;> rfl
  · rfl

theorem rightBalance_mirror (t : Tree) : rightBalance t.mirror = (leftBalance t).map mirror := by
  have h := leftBalance_mirror t.mirror
  rw [mirror_mirror] at h
  cases e : rightBalance t.mirror <;> simp [h, e]

/-! No rotation fails. -/

theorem simpleLeftRotate_spec {l r : Tree} (a ht : Nat) (hl : l.Exact) (hr : r.Exact)
    (h2 : 2 ≤ r.getHeight) :
    ∃ t, simpleLeftRotate (node l a ht r) = some t ∧ t.isNull = false ∧ t.Exact ∧
      t.inorder = l.inorder ++ a :: r.inorder := by
  rcases r with _ | ⟨rl, b, hb, rr⟩
  · simp at h2
  obtain ⟨hrl, hrr, rfl⟩ := hr
  cases rr with
  | node rrl c hc rrr =>
    exact ⟨_, rfl, rfl, mk_exact _ (mk_exact _ hl hrl) hrr, by simp [mk]⟩
  | nil =>
    cases rl with
    | nil => simp at h2
    | node rll c hc rlr =>
      exact ⟨_, rfl, rfl, mk_exact _ (mk_exact _ hl hrl.1) (mk_exact _ hrl.2.1 trivial),
        by simp [mk]⟩

theorem simpleRightRotate_spec {l r : Tree} (a ht : Nat) (hl : l.Exact) (hr : r.Exact)
    (h2 : 2 ≤ l.getHeight) :
    ∃ t, simpleRightRotate (node l a ht r) = some t ∧ t.isNull = false ∧ t.Exact ∧
      t.inorder = l.inorder ++ a :: r.inorder := by
  obtain ⟨t, e, hn, hx, hi⟩ := simpleLeftRotate_spec a ht
    ((exact_mirror r).2 hr) ((exact_mirror l).2 hl) (by simpa using h2)
  refine ⟨t.mirror, ?_, by simpa using hn, by simpa using hx, by simp [hi]⟩
  have := simpleRightRotate_mirror (node r.mirror a ht l.mirror)
  simpa [e] using this

/-- Rebalancing the right side of a node with exact subtrees. -/
theorem rightBalance_spec {l r : Tree} (a : Nat) (hl : l.Exact) (hr : r.Exact) :
    ∃ t, rightBalance (mk l a r) = some t ∧ t.isNull = false ∧ t.Exact ∧
      t.inorder = l.inorder ++ a :: r.inorder := by
  unfold rightBalance
  split
  · rename_i h
    have h2 : 2 ≤ r.getHeight := by
      simp only [mk, blfactor_node] at h
      omega
    split
    · -- the double rotation: first the right child, whose left side is the higher
      rename_i hd
      rcases r with _ | ⟨rl, b, hb, rr⟩
      · simp at h2
      simp only [mk, rchild, lchild, Bool.and_eq_true] at hd
      obtain ⟨hrl, hrr, rfl⟩ := hr
      rcases rl with _ | ⟨rll, c, hc, rlr⟩
      · simp at hd
      cases rll with
      | nil =>
        simp at hd
        omega
      | node rlll d hrlll rllr =>
        obtain ⟨hll, hlr, rfl⟩ := hrl
        refine ⟨mk (mk l a (node rlll d hrlll rllr)) c (mk rlr b rr), ?_, rfl, ?_, ?_⟩
        · simp [mk, rightLeftRotate, simpleRightRotate, simpleLeftRotate]
        · exact mk_exact _ (mk_exact _ hl hll) (mk_exact _ hlr hrr)
        · simp [mk]
    · exact simpleLeftRotate_spec _ _ hl hr h2
  · exact ⟨_, rfl, rfl, mk_exact _ hl hr, rfl⟩

theorem leftBalance_spec {l r : Tree} (a : Nat) (hl : l.Exact) (hr : r.Exact) :
    ∃ t, leftBalance (mk l a r) = some t ∧ t.isNull = false ∧ t.Exact ∧
      t.inorder = l.inorder ++ a :: r.inorder := by
  obtain ⟨t, e, hn, hx, hi⟩ := rightBalance_spec a ((exact_mirror r).2 hr) ((exact_mirror l).2 hl)
  refine ⟨t.mirror, ?_, by simpa using hn, by simpa using hx, by simp [hi]⟩
  have := leftBalance_mirror (mk r.mirror a l.mirror)
  simpa [e] using this

theorem rightBalance_light {t : Tree} (h : t.blfactor < 2) : rightBalance t = some t := by
  rw [rightBalance, if_neg (by omega)]

theorem leftBalance_light {t : Tree} (h : -2 < t.blfactor) : leftBalance t = some t := by
  rw [leftBalance, if_neg (by omega)]

/-! Insertion and deletion along a path: `true` turns left. -/

/-- The tree part of an insertion that hangs the leaf `c` where the path ends. -/
def place (c : Nat) : List Bool → Tree → Option Tree
  | [], nil => some (node nil c 1 nil)
  | true :: p, node l a _ r => do leftBalance (mk (← place c p l) a r)
  | false :: p, node l a _ r => do rightBalance (mk l a (← place c p r))
  | _, _ => none

/-- The tree part of `delete_leftmax`. -/
def dropMax : Tree → Option Tree
  | nil => none
  | node l a _ r => if r.isNull then some l else do rightBalance (mk l a (← dropMax r))

/-- The tree part of `delete_rightmin`. -/
def dropMin : Tree → Option Tree
  | nil => none
  | node l a _ r => if l.isNull then some r else do leftBalance (mk (← dropMin l) a r)

/-- The tree part of a deletion at the node the path ends at. -/
def dropAt : List Bool → Tree → Option Tree
  | _, nil => none
  | [], node l a ht r =>
    if ht = 1 then some nil
    else if 0 < (node l a ht r).blfactor then do rightBalance (mk l a (← dropMin r))
    else do leftBalance (mk (← dropMax l) a r)
  | true :: p, node l a _ r => do rightBalance (mk (← dropAt p l) a r)
  | false :: p, node l a _ r => do leftBalance (mk l a (← dropAt p r))

theorem place_leaf_left (c a : Nat) (r : Tree) :
    leftBalance (mk (node nil c 1 nil) a r) = some (mk (node nil c 1 nil) a r) := by
  apply leftBalance_light
  simp only [mk, blfactor_node, getHeight_node]
  omega

theorem place_leaf_right (c a : Nat) (l : Tree) :
    rightBalance (mk l a (node nil c 1 nil)) = some (mk l a (node nil c 1 nil)) := by
  apply rightBalance_light
  simp only [mk, blfactor_node, getHeight_node]
  omega

theorem dropMin_mirror (t : Tree) : dropMin t.mirror = (dropMax t).map mirror := by
  induction t with
  | nil => rfl
  | node l a ht r _ ih =>
    simp only [mirror_node, dropMin, dropMax, isNull_mirror, ih]
    split
    · rfl
    · cases dropMax r with
      | none => rfl
      | some r' => simpa using leftBalance_mirror (mk l a r')

end Zhwkrfsp.AVLTree
