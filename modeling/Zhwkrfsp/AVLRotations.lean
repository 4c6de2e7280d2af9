import Zhwkrfsp.AVLAlloc

/- The rotations that a call triggers. `insertCalls`, `deleteCalls` and the lists below
   them hold the calls of `left_balance` and `right_balance` in the order they are made,
   each with the node it is made on. Every such node has subtrees with exact heights,
   so that a side that is two higher has the nodes the rotation takes from it; this
   needs neither balance nor a comparator of any kind. -/
namespace Zhwkrfsp.AVLTree
open AVLTree.Tree Linked

/-- A call of `left_balance` or `right_balance` on a node. -/
inductive Rebalance where
  | left (root : Tree)
  | right (root : Tree)
  deriving DecidableEq

namespace Rebalance

def root : Rebalance → Tree
  | left root => root
  | right root => root

/-- What the call returns: nothing when it dereferences NULL, and NULL (`nil`) when one of
    its rotations was an ZHWK_ERR_TREE_INVALID_OPERATION. -/
def run : Rebalance → Option Tree
  | left root => leftBalance root
  | right root => rightBalance root

/-- The node of the call has just been given its height, above exact ones. -/
def Fits (b : Rebalance) : Prop := ∃ l a r, b.root = mk l a r ∧ l.Exact ∧ r.Exact

theorem Fits.run {b : Rebalance} (h : b.Fits) : ∃ t, b.run = some t ∧ t.isNull = false := by
  obtain ⟨l, a, r, e, hl, hr⟩ := h
  cases b with
  | left root =>
    obtain ⟨t, et, hn, -, -⟩ := leftBalance_spec a hl hr
    exact ⟨t, (congrArg leftBalance e).trans et, hn⟩
  | right root =>
    obtain ⟨t, et, hn, -, -⟩ := rightBalance_spec a hl hr
    exact ⟨t, (congrArg rightBalance e).trans et, hn⟩

end Rebalance

section
variable {α : Type}

/-- The calls made once a call below has come back. -/
def andThen {β : Type} (below : Option β) (calls : β → List Rebalance) : List Rebalance :=
  match below with
  | none => []
  | some b => calls b

variable (comp : α → α → Int)

/-- The calls that `recursive_insert` makes. -/
def insertCalls (elem : α) : Tree → Heap α → List Rebalance
  | nil, _ => []
  | node l a _ r, h => andThen (h.cell a) fun root =>
    let cmpresult := comp elem root.data
    if cmpresult = 0 then []
    else if cmpresult < 0 then
      if l.isNull then []
      else insertCalls elem l h ++ andThen (recursiveInsert comp elem l h) fun (ins, _) =>
        if ins.status ≠ 0 then [] else [.left (mk ins.newroot a r)]
    else
      if r.isNull then []
      else insertCalls elem r h ++ andThen (recursiveInsert comp elem r h) fun (ins, _) =>
        if ins.status ≠ 0 then [] else [.right (mk l a ins.newroot)]

/-- The calls that `delete_leftmax` makes. -/
def leftmaxCalls (elem : Nat) : Tree → Heap α → List Rebalance
  | nil, _ => []
  | node l a _ r, h =>
    if !r.isNull then
      leftmaxCalls elem r h ++ andThen (deleteLeftmax elem r h) fun (newroot, _) =>
        [.right (mk l a newroot)]
    else []

/-- The calls that `delete_rightmin` makes. -/
def rightminCalls (elem : Nat) : Tree → Heap α → List Rebalance
  | nil, _ => []
  | node l a _ r, h =>
    if !l.isNull then
      rightminCalls elem l h ++ andThen (deleteRightmin elem l h) fun (newroot, _) =>
        [.left (mk newroot a r)]
    else []

/-- The calls that `recursive_delete` makes. -/
def deleteCalls (elem : Nat) : Tree → Heap α → List Rebalance
  | nil, _ => []
  | node l a ht r, h => andThen (h.cell elem) fun e => andThen (h.cell a) fun root =>
    let cmpresult := comp e.data root.data
    if cmpresult = 0 then
      if ht = 1 then []
      else if 0 < (node l a ht r).blfactor then
        rightminCalls elem r h ++ andThen (deleteRightmin elem r h) fun (newroot, _) =>
          [.right (mk l a newroot)]
      else
        leftmaxCalls elem l h ++ andThen (deleteLeftmax elem l h) fun (newroot, _) =>
          [.left (mk newroot a r)]
    else if cmpresult < 0 then
      if l.isNull then []
      else
        deleteCalls elem l h ++ andThen (recursiveDelete comp elem l h) fun ((status, newroot), _) =>
          if status ≠ 0 then [] else [.right (mk newroot a r)]
    else
      if r.isNull then []
      else
        deleteCalls elem r h ++ andThen (recursiveDelete comp elem r h) fun ((status, newroot), _) =>
          if status ≠ 0 then [] else [.left (mk l a newroot)]

/-- The calls that an operation makes. -/
def rebalances (s : State α) : Op α → List Rebalance
  | .insert elem => if s.desc.root.isNull then [] else insertCalls comp elem s.desc.root s.heap
  | .erase elem => andThen (ptrAt comp s.desc s.heap elem) fun
    | (_, some iter) => if s.desc.size = 0 then [] else deleteCalls comp iter s.desc.root s.heap
    | (_, none) => []

variable {comp} {l r t t' : Tree} {a ht : Nat} {h h' : Heap α} {b : Rebalance}

theorem mem_andThen {β : Type} {below : Option β} {calls : β → List Rebalance} :
    b ∈ andThen below calls ↔ ∃ x, below = some x ∧ b ∈ calls x := by
  cases below <;> simp [andThen]

/-! What the calls below give back has exact heights. -/

theorem leftBalance_exact (hl : l.Exact) (hr : r.Exact) (e : leftBalance (mk l a r) = some t) :
    t.Exact := by
  obtain ⟨t', e', -, hx, -⟩ := leftBalance_spec a hl hr
  rw [e, Option.some.injEq] at e'
  rw [e']
  exact hx

theorem rightBalance_exact (hl : l.Exact) (hr : r.Exact) (e : rightBalance (mk l a r) = some t) :
    t.Exact := by
  obtain ⟨t', e', -, hx, -⟩ := rightBalance_spec a hl hr
  rw [e, Option.some.injEq] at e'
  rw [e']
  exact hx

theorem leaf_exact (c : Nat) : (node nil c 1 nil).Exact := ⟨trivial, trivial, rfl⟩

theorem recursiveInsert_exact {elem : α} {ins : Inserted} (hx : t.Exact)
    (e : recursiveInsert comp elem t h = some (ins, h')) (h0 : ins.status = 0) :
    ins.newroot.Exact := by
  induction t using searchInduction comp elem h generalizing ins h' with
  | nil => cases e
  | gone l a ht r hc => simp [recursiveInsert, hc] at e
  | hit l a ht r c hc hcomp =>
    simp [recursiveInsert, hc, hcomp] at e
    rw [← e.1] at h0
    cases h0
  | left l a ht r c hc hlt ih =>
    obtain ⟨hl, hr, -⟩ := hx
    cases hn : l.isNull with
    | true =>
      obtain rfl := isNull_iff.1 hn
      cases hf : newNode h elem with
      | mk o h₁ =>
        cases o with
        | none =>
          rw [recursiveInsert_leaf_left hc hlt hf] at e
          cases e
          cases h0
        | some n =>
          rw [(recursiveInsert_hung_left hc hlt hf e).2]
          exact mk_exact a (leaf_exact n) hr
    | false =>
      rw [recursiveInsert_left hc hlt hn] at e
      obtain ⟨⟨ins₁, h₂⟩, e₁, e⟩ := Option.bind_eq_some_iff.1 e
      obtain ⟨-, ⟨hne, e₀⟩ | ⟨h₁, -, eb⟩⟩ := resumeLeft_cases e
      · exact absurd (e₀.symm.trans h0) hne
      · exact leftBalance_exact (ih hl e₁ h₁) hr eb
  | right l a ht r c hc hgt ih =>
    obtain ⟨hl, hr, -⟩ := hx
    cases hn : r.isNull with
    | true =>
      obtain rfl := isNull_iff.1 hn
      cases hf : newNode h elem with
      | mk o h₁ =>
        cases o with
        | none =>
          rw [recursiveInsert_leaf_right hc hgt hf] at e
          cases e
          cases h0
        | some n =>
          rw [(recursiveInsert_hung_right hc hgt hf e).2]
          exact mk_exact a hl (leaf_exact n)
    | false =>
      rw [recursiveInsert_right hc hgt hn] at e
      obtain ⟨⟨ins₁, h₂⟩, e₁, e⟩ := Option.bind_eq_some_iff.1 e
      obtain ⟨-, ⟨hne, e₀⟩ | ⟨h₁, -, eb⟩⟩ := resumeRight_cases e
      · exact absurd (e₀.symm.trans h0) hne
      · exact rightBalance_exact hl (ih hr e₁ h₁) eb

theorem deleteLeftmax_exact {elem : Nat} (hx : t.Exact)
    (e : deleteLeftmax elem t h = some (t', h')) : t'.Exact := by
  induction t generalizing t' h' with
  | nil => cases e
  | node l a ht r _ ih =>
    obtain ⟨hl, hr, -⟩ := hx
    rw [deleteLeftmax] at e
    split at e
    · obtain ⟨⟨newroot, h₁⟩, e₁, e⟩ := Option.bind_eq_some_iff.1 e
      obtain ⟨root, eb, e⟩ := Option.bind_eq_some_iff.1 e
      cases e
      exact rightBalance_exact hl (ih hr e₁) eb
    · obtain ⟨h₁, -, e⟩ := Option.bind_eq_some_iff.1 e
      cases e
      exact hl

theorem deleteRightmin_exact {elem : Nat} (hx : t.Exact)
    (e : deleteRightmin elem t h = some (t', h')) : t'.Exact := by
  induction t generalizing t' h' with
  | nil => cases e
  | node l a ht r ih _ =>
    obtain ⟨hl, hr, -⟩ := hx
    rw [deleteRightmin] at e
    split at e
    · obtain ⟨⟨newroot, h₁⟩, e₁, e⟩ := Option.bind_eq_some_iff.1 e
      obtain ⟨root, eb, e⟩ := Option.bind_eq_some_iff.1 e
      cases e
      exact leftBalance_exact (ih hl e₁) hr eb
    · obtain ⟨h₁, -, e⟩ := Option.bind_eq_some_iff.1 e
      cases e
      exact hr

theorem recursiveDelete_exact {elem : Nat} {status : Int32} (hx : t.Exact)
    (e : recursiveDelete comp elem t h = some ((status, t'), h')) : t'.Exact := by
  induction t generalizing t' h' status with
  | nil => cases e
  | node l a ht r ihl ihr =>
    have hxt := hx
    obtain ⟨hl, hr, -⟩ := hx
    obtain ⟨ce, -, e⟩ := Option.bind_eq_some_iff.1 e
    obtain ⟨ca, -, e⟩ := Option.bind_eq_some_iff.1 e
    dsimp only at e
    split at e
    · split at e
      · obtain ⟨h₁, -, e⟩ := Option.bind_eq_some_iff.1 e
        obtain ⟨h₂, -, e⟩ := Option.bind_eq_some_iff.1 e
        cases e
        trivial
      · split at e
        · obtain ⟨⟨newroot, h₁⟩, e₁, e⟩ := Option.bind_eq_some_iff.1 e
          obtain ⟨t₁, eb, e⟩ := Option.bind_eq_some_iff.1 e
          cases e
          exact rightBalance_exact hl (deleteRightmin_exact hr e₁) eb
        · obtain ⟨⟨newroot, h₁⟩, e₁, e⟩ := Option.bind_eq_some_iff.1 e
          obtain ⟨t₁, eb, e⟩ := Option.bind_eq_some_iff.1 e
          cases e
          exact leftBalance_exact (deleteLeftmax_exact hl e₁) hr eb
    · split at e
      · split at e
        · cases e
          exact hxt
        · obtain ⟨⟨⟨st, newroot⟩, h₁⟩, e₁, e⟩ := Option.bind_eq_some_iff.1 e
          dsimp only at e
          split at e
          · cases e
            exact hxt
          · obtain ⟨t₁, eb, e⟩ := Option.bind_eq_some_iff.1 e
            cases e
            exact rightBalance_exact (ihl hl e₁) hr eb
      · split at e
        · cases e
          exact hxt
        · obtain ⟨⟨⟨st, newroot⟩, h₁⟩, e₁, e⟩ := Option.bind_eq_some_iff.1 e
          dsimp only at e
          split at e
          · cases e
            exact hxt
          · obtain ⟨t₁, eb, e⟩ := Option.bind_eq_some_iff.1 e
            cases e
            exact leftBalance_exact hl (ihr hr e₁) eb

/-! So every call of a rebalancing function is made on a node that fits. -/

theorem insertCalls_fit {elem : α} (hx : t.Exact) (hb : b ∈ insertCalls comp elem t h) : b.Fits := by
  induction t with
  | nil => cases hb
  | node l a ht r ihl ihr =>
    obtain ⟨hl, hr, -⟩ := hx
    obtain ⟨root, -, hb⟩ := mem_andThen.1 hb
    dsimp only at hb
    split at hb
    · cases hb
    · split at hb
      · split at hb
        · cases hb
        · -- a call made below, or the one on this node
          rcases List.mem_append.1 hb with hb | hb
          · exact ihl hl hb
          · obtain ⟨⟨ins, h₁⟩, e, hb⟩ := mem_andThen.1 hb
            dsimp only at hb
            split at hb
            · cases hb
            · rename_i h0
              rw [List.mem_singleton] at hb
              exact hb ▸ ⟨_, _, _, rfl, recursiveInsert_exact hl e (not_not.1 h0), hr⟩
      · split at hb
        · cases hb
        · rcases List.mem_append.1 hb with hb | hb
          · exact ihr hr hb
          · obtain ⟨⟨ins, h₁⟩, e, hb⟩ := mem_andThen.1 hb
            dsimp only at hb
            split at hb
            · cases hb
            · rename_i h0
              rw [List.mem_singleton] at hb
              exact hb ▸ ⟨_, _, _, rfl, hl, recursiveInsert_exact hr e (not_not.1 h0)⟩

theorem leftmaxCalls_fit {elem : Nat} (hx : t.Exact) (hb : b ∈ leftmaxCalls elem t h) : b.Fits := by
  induction t with
  | nil => cases hb
  | node l a ht r _ ih =>
    obtain ⟨hl, hr, -⟩ := hx
    rw [leftmaxCalls] at hb
    split at hb
    · rcases List.mem_append.1 hb with hb | hb
      · exact ih hr hb
      · obtain ⟨⟨newroot, h₁⟩, e, hb⟩ := mem_andThen.1 hb
        rw [List.mem_singleton] at hb
        exact hb ▸ ⟨_, _, _, rfl, hl, deleteLeftmax_exact hr e⟩
    · cases hb

theorem rightminCalls_fit {elem : Nat} (hx : t.Exact) (hb : b ∈ rightminCalls elem t h) :
    b.Fits := by
  induction t with
  | nil => cases hb
  | node l a ht r ih _ =>
    obtain ⟨hl, hr, -⟩ := hx
    rw [rightminCalls] at hb
    split at hb
    · rcases List.mem_append.1 hb with hb | hb
      · exact ih hl hb
      · obtain ⟨⟨newroot, h₁⟩, e, hb⟩ := mem_andThen.1 hb
        rw [List.mem_singleton] at hb
        exact hb ▸ ⟨_, _, _, rfl, deleteRightmin_exact hl e, hr⟩
    · cases hb

theorem deleteCalls_fit {elem : Nat} (hx : t.Exact) (hb : b ∈ deleteCalls comp elem t h) :
    b.Fits := by
  induction t with
  | nil => cases hb
  | node l a ht r ihl ihr =>
    obtain ⟨hl, hr, -⟩ := hx
    obtain ⟨ce, -, hb⟩ := mem_andThen.1 hb
    obtain ⟨root, -, hb⟩ := mem_andThen.1 hb
    dsimp only at hb
    split at hb
    · split at hb
      · cases hb
      · split at hb
        · rcases List.mem_append.1 hb with hb | hb
          · exact rightminCalls_fit hr hb
          · obtain ⟨⟨newroot, h₁⟩, e, hb⟩ := mem_andThen.1 hb
            rw [List.mem_singleton] at hb
            exact hb ▸ ⟨_, _, _, rfl, hl, deleteRightmin_exact hr e⟩
        · rcases List.mem_append.1 hb with hb | hb
          · exact leftmaxCalls_fit hl hb
          · obtain ⟨⟨newroot, h₁⟩, e, hb⟩ := mem_andThen.1 hb
            rw [List.mem_singleton] at hb
            exact hb ▸ ⟨_, _, _, rfl, deleteLeftmax_exact hl e, hr⟩
    · split at hb
      · split at hb
        · cases hb
        · rcases List.mem_append.1 hb with hb | hb
          · exact ihl hl hb
          · obtain ⟨⟨⟨status, newroot⟩, h₁⟩, e, hb⟩ := mem_andThen.1 hb
            dsimp only at hb
            split at hb
            · cases hb
            · rw [List.mem_singleton] at hb
              exact hb ▸ ⟨_, _, _, rfl, recursiveDelete_exact hl e, hr⟩
      · split at hb
        · cases hb
        · rcases List.mem_append.1 hb with hb | hb
          · exact ihr hr hb
          · obtain ⟨⟨⟨status, newroot⟩, h₁⟩, e, hb⟩ := mem_andThen.1 hb
            dsimp only at hb
            split at hb
            · cases hb
            · rw [List.mem_singleton] at hb
              exact hb ▸ ⟨_, _, _, rfl, hl, recursiveDelete_exact hr e⟩

theorem rebalances_fit {s : State α} {op : Op α} (hx : s.desc.root.Exact)
    (hb : b ∈ rebalances comp s op) : b.Fits := by
  cases op with
  | insert elem =>
    rw [rebalances] at hb
    split at hb
    · cases hb
    · exact insertCalls_fit hx hb
  | erase elem =>
    obtain ⟨⟨rc, iter⟩, -, hb⟩ := mem_andThen.1 hb
    cases iter with
    | none => cases hb
    | some iter =>
      dsimp only at hb
      split at hb
      · cases hb
      · exact deleteCalls_fit hx hb

/-- After any run the stored heights are exact, and no rebalancing of the next call
    dereferences NULL, is an invalid operation or returns NULL. -/
theorem rotations_apply [DecidableEq α] (ho : TotalOrder comp) (ops : List (Op α)) :
    ∃ s, Machine.run (step comp) ops State.init = some ((Machine.runs setStep ops ∅).1, s) ∧
      s.desc.root.Exact ∧
      ∀ op, ∀ call ∈ rebalances comp s op, ∃ t, call.run = some t ∧ t.isNull = false := by
  obtain ⟨s, l, e, hr⟩ := Rep.runs ho ops
  refine ⟨s, e, hr.exact, fun op call hcall => ?_⟩
  exact (rebalances_fit hr.exact hcall).run

end

/-- The next insertion, of 3, rotates. -/
theorem rotations_apply_byValue :
    ∃ s, Machine.run (step byValue) [.insert 1, .insert 2] State.init = some ([0, 0], s) ∧
      ∀ op, ∀ call ∈ rebalances byValue s op, ∃ t, call.run = some t ∧ t.isNull = false := by
  obtain ⟨s, e, -, h⟩ := rotations_apply byValue_total [.insert 1, .insert 2]
  exact ⟨s, e, h⟩

end Zhwkrfsp.AVLTree
