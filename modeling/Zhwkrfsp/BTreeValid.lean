import Zhwkrfsp.BTreeMap

/- Single calls on a valid 2-3 tree. Erasing the entry of an iterator leaves a valid
   tree with all other entries. Inserting a key that is there is refused, with nothing
   changed, wherever the key is met before the way ends at a full leaf: a full leaf
   takes the pair as pending without comparing it with its two keys, so a key that it
   holds already is taken a second time. `recursiveInsert_descend` is the one equation
   of `recursive_insert` at a node that the search goes on from. -/
namespace Zhwkrfsp.BTree
open Node

section
variable {κ υ : Type} {comp : κ → κ → Int} {n : Nat} {t : Node κ υ}

variable (comp) in
/-- A valid 2-3 tree. -/
structure Valid (desc : Descriptor κ υ) : Prop where
  shape : ∃ n, Shape n desc.root
  ordered : Ordered comp desc.root
  size : desc.size.toNat = desc.root.toList.length

/-- Ordered at every node, a tree is ascending from left to right. -/
theorem Shape.sorted (ho : TotalOrder comp) (hs : Shape n t) (h : Ordered comp t) :
    Sorted comp t.toList := by
  induction hs with
  | empty => exact sorted_nil
  | @two n c0 c1 p h0 h1 ih0 ih1 =>
    obtain ⟨ho0, ho1, -, -, hp, -⟩ := h
    obtain ⟨hxp, hpy⟩ := hp p rfl
    rw [toList_two, sorted_append_cons]
    exact ⟨ih0 ho0, ih1 ho1, hxp, hpy, fun x hx y hy => ho.lt_trans (hxp x hx) (hpy y hy)⟩
  | @three n c0 c1 c2 p q h0 h1 h2 ih0 ih1 ih2 =>
    obtain ⟨ho0, ho1, ho2, hpq, hp, hq⟩ := h
    obtain ⟨hxp, hpy⟩ := hp p rfl
    obtain ⟨hxq, hqy⟩ := hq q rfl
    have hright : ∀ y ∈ c1.toList ++ q :: c2.toList, comp p.1 y.1 < 0 := by
      intro y hy
      rcases List.mem_append.1 hy with hy | hy
      · exact hpy y hy
      · rcases List.mem_cons.1 hy with rfl | hy
        · exact hpq p rfl y rfl
        · exact ho.lt_trans (hpq p rfl q rfl) (hqy y hy)
    rw [toList_three, sorted_append_cons, sorted_append_cons]
    exact ⟨ih0 ho0, ⟨ih1 ho1, ih2 ho2, hxq, hqy, fun x hx y hy => ho.lt_trans (hxq x hx) (hqy y hy)⟩,
      hxp, hright, fun x hx y hy => ho.lt_trans (hxp x hx) (hright y hy)⟩

/-! Erasure. -/

theorem child_cases {kv0 kv1 x : Option (κ × υ)} {c c0 c1 c2 xc : Node κ υ} {i : Nat}
    (h : (mk kv0 kv1 c0 c1 c2 x xc).child i = some c) :
    (i = 0 ∧ c0 = c) ∨ (i = 1 ∧ c1 = c) ∨ (i = 2 ∧ c2 = c) := by
  rcases i with _ | _ | _ | i
  · exact .inl ⟨rfl, Option.some.inj h⟩
  · exact .inr (.inl ⟨rfl, Option.some.inj h⟩)
  · exact .inr (.inr ⟨rfl, Option.some.inj h⟩)
  · cases h

theorem deref_cases {kv0 kv1 x : Option (κ × υ)} {c0 c1 c2 xc : Node κ υ} {which : Nat}
    {p : κ × υ} (h : iteratorDeref (mk kv0 kv1 c0 c1 c2 x xc) ⟨[], which⟩ = some p) :
    (which = 0 ∧ kv0 = some p) ∨ (which = 1 ∧ kv1 = some p) := by
  rcases which with _ | _ | which
  · exact .inl ⟨rfl, h⟩
  · exact .inr ⟨rfl, h⟩
  · cases h

/-- The pairs of a child are pairs of the node. -/
theorem mem_of_child {c : Node κ υ} {i : Nat} (hc : t.child i = some c) {x : κ × υ}
    (hx : x ∈ c.toList) : x ∈ t.toList := by
  cases t with
  | null => simp [Node.child] at hc
  | mk kv0 kv1 c0 c1 c2 e ec =>
    rcases child_cases hc with ⟨-, rfl⟩ | ⟨-, rfl⟩ | ⟨-, rfl⟩
    · simp [Node.toList, hx]
    · simp [Node.toList, hx]
    · simp [Node.toList, hx]

/-- What an iterator points to is a pair of the tree. -/
theorem mem_of_deref {iter : Iterator} {p : κ × υ} (h : iteratorDeref t iter = some p) :
    p ∈ t.toList := by
  obtain ⟨track, which⟩ := iter
  induction track generalizing t with
  | nil =>
    cases t with
    | null => simp [iteratorDeref, Node.reach, Node.kv] at h
    | mk kv0 kv1 c0 c1 c2 e ec =>
      rcases deref_cases h with ⟨-, rfl⟩ | ⟨-, rfl⟩
      · simp [Node.toList]
      · simp [Node.toList]
  | cons i track ih =>
    cases hc : t.child i with
    | none => simp [iteratorDeref, Node.reach, hc] at h
    | some c =>
      have hd : iteratorDeref c ⟨track, which⟩ = some p := by
        simpa [iteratorDeref, Node.reach, hc] using h
      exact mem_of_child hc (ih hd)

/-- **Erasure.** The entry that the iterator points to, and nothing else, is taken out of
    a valid tree, which stays valid and loses at most one level. -/
theorem erase_valid (ho : TotalOrder comp) {desc : Descriptor κ υ} (hv : Valid comp desc)
    {iter : Iterator} {p : κ × υ} (hd : iteratorDeref desc.root iter = some p) :
    ∃ desc', erase comp desc iter = some (0, desc') ∧ Valid comp desc' ∧
      (∃ n n', Shape n desc.root ∧ Shape n' desc'.root ∧ (n' = n ∨ n' + 1 = n)) ∧
      (∃ l r, desc.root.toList = l ++ p :: r ∧ desc'.root.toList = l ++ r) ∧
      desc'.size.toNat + 1 = desc.size.toNat := by
  obtain ⟨n, hs⟩ := hv.shape
  have hl := hs.sorted ho hv.ordered
  have hp := mem_of_deref hd
  obtain ⟨n', root, e, hn, hs', hxs⟩ := erase_spec ho hs hl hd hp
  have hlen := length_eraseKey ho hl hp
  have hone : (1 : UInt32).toNat = 1 := rfl
  have hle : (1 : UInt32) ≤ desc.size := UInt32.le_iff_toNat_le.2 (by rw [hone, hv.size]; omega)
  have hsize : (desc.size - 1).toNat + 1 = desc.size.toNat := by
    rw [UInt32.toNat_sub_of_le _ _ hle, hone, hv.size]
    omega
  obtain ⟨l, r, hlr⟩ := List.append_of_mem hp
  have herased : eraseKey comp p.1 desc.root.toList = l ++ r := by
    rw [hlr] at hl ⊢
    obtain ⟨-, -, hxs, hys, -⟩ := sorted_append_cons.1 hl
    exact eraseKey_mid ho (ho.self p.1) hxs hys
  refine ⟨⟨desc.size - 1, root⟩, e, ⟨⟨n', hs'⟩, hs'.ordered (hxs ▸ hl.eraseKey), ?_⟩,
    ⟨n, n', hs, hs', hn⟩, ⟨l, r, hlr, hxs.trans herased⟩, hsize⟩
  show (desc.size - 1).toNat = root.toList.length
  rw [hxs]
  have hv := hv.size
  omega

/-! Insertion, one node at a time. -/

/-- `childs[childno] = child`. -/
def Node.setChild : Node κ υ → Nat → Node κ υ → Node κ υ
  | mk kv0 kv1 _ c1 c2 x xc, 0, child => mk kv0 kv1 child c1 c2 x xc
  | mk kv0 kv1 c0 _ c2 x xc, 1, child => mk kv0 kv1 c0 child c2 x xc
  | mk kv0 kv1 c0 c1 _ x xc, _, child => mk kv0 kv1 c0 c1 child x xc
  | null, _, _ => null

/-- A node takes in what a split below it promotes: as its second pair, or as pending. -/
def Node.takeSplit : Node κ υ → κ × υ → Node κ υ → Int32 × Node κ υ
  | mk kv0 kv1 c0 c1 c2 x xc, topropair, topronode =>
    if kv1.isSome then (1, mk kv0 kv1 c0 c1 c2 (some topropair) topronode)
    else (0, mk kv0 (some topropair) c0 topronode c1 x xc)
  | null, _, _ => (0, null)

variable (comp) in
/-- What a node does with the result of the call on its child `childno`. -/
def resume (root : Node κ υ) (childno : Nat) :
    (Int32 × Node κ υ) × List Bool → Option ((Int32 × Node κ υ) × List Bool)
  | ((issp, child), mallocs) =>
    if issp = 0 ∨ issp = -1 then some ((issp, root.setChild childno child), mallocs)
    else do
      let (topronode, mallocs) := nodeConstructor mallocs
      let (topropair, topronode, child) ← splitUp comp child topronode
      return ((root.setChild childno child).takeSplit topropair topronode, mallocs)

/-- The node's own code after the call on a child, in the terms of `resume`. -/
theorem bind_resume {root : Node κ υ} {childno : Nat} (kv0 kv1 : Option (κ × υ))
    (slots : Node κ υ → Node κ υ × Node κ υ × Node κ υ)
    (hroot : ∀ c, root.setChild childno c =
      mk kv0 kv1 (slots c).1 (slots c).2.1 (slots c).2.2 none null)
    (r : Option ((Int32 × Node κ υ) × List Bool)) :
    (r.bind fun x =>
      if x.1.1 = 0 ∨ x.1.1 = -1 then
        some ((x.1.1, mk kv0 kv1 (slots x.1.2).1 (slots x.1.2).2.1 (slots x.1.2).2.2 none null), x.2)
      else
        (splitUp comp x.1.2 (nodeConstructor x.2).1).bind fun s =>
          if kv1.isSome then
            some ((1, mk kv0 kv1 (slots s.2.2).1 (slots s.2.2).2.1 (slots s.2.2).2.2 (some s.1)
              s.2.1), (nodeConstructor x.2 : Node κ υ × List Bool).2)
          else
            some ((0, mk kv0 (some s.1) (slots s.2.2).1 s.2.1 (slots s.2.2).2.1 none null),
              (nodeConstructor x.2 : Node κ υ × List Bool).2)) =
      r.bind (resume comp root childno) := by
  apply Option.bind_congr
  rintro ⟨⟨issp, child⟩, rest⟩ -
  rw [resume, hroot]
  split
  · rfl
  · apply Option.bind_congr
    rintro ⟨topropair, topronode, child⟩ -
    show _ = some ((root.setChild childno child).takeSplit topropair topronode,
      (nodeConstructor rest : Node κ υ × List Bool).2)
    rw [hroot, Node.takeSplit]
    split <;> rfl

/-- The insertion goes on at the child that `way` names, unless a key of the node is met. -/
theorem recursiveInsert_descend {pair p : κ × υ} {kv1 : Option (κ × υ)}
    {c0 c1 c2 child : Node κ υ} (h0 : c0.isNull = false) (hp : comp pair.1 p.1 ≠ 0)
    (hq : ∀ q ∈ kv1, comp pair.1 q.1 ≠ 0)
    (hc : (mk (some p) kv1 c0 c1 c2 none null).child (way comp pair.1 (some p) kv1) = some child)
    (mallocs : List Bool) :
    recursiveInsert comp pair (mk (some p) kv1 c0 c1 c2 none null) mallocs =
      (recursiveInsert comp pair child mallocs).bind
        (resume comp (mk (some p) kv1 c0 c1 c2 none null) (way comp pair.1 (some p) kv1)) := by
  by_cases hlt : comp pair.1 p.1 < 0
  · have hw : way comp pair.1 (some p) kv1 = 0 := by
      cases kv1 with
      | none => simp [way, hlt]
      | some q => simp [way, hlt]
    rw [hw] at hc ⊢
    obtain rfl : c0 = child := by simpa [Node.child] using hc
    rw [← bind_resume (some p) kv1 (fun c => (c, c1, c2)) (fun _ => rfl)]
    simp [recursiveInsert, h0, hp, hlt]
  · cases kv1 with
    | none =>
      have hw : way comp pair.1 (some p) none = 1 := by simp [way, hlt]
      rw [hw] at hc ⊢
      obtain rfl : c1 = child := by simpa [Node.child] using hc
      rw [← bind_resume (some p) none (fun c => (c0, c, c2)) (fun _ => rfl)]
      simp [recursiveInsert, h0, hp, hlt]
    | some q =>
      have hq := hq q rfl
      by_cases hlt' : comp pair.1 q.1 < 0
      · have hw : way comp pair.1 (some p) (some q) = 1 := by simp [way, hlt, hlt']
        rw [hw] at hc ⊢
        obtain rfl : c1 = child := by simpa [Node.child] using hc
        rw [← bind_resume (some p) (some q) (fun c => (c0, c, c2)) (fun _ => rfl)]
        simp [recursiveInsert, h0, hp, hlt, hlt']
      · have hw : way comp pair.1 (some p) (some q) = 2 := by simp [way, hlt, hlt']
        rw [hw] at hc ⊢
        obtain rfl : c2 = child := by simpa [Node.child] using hc
        rw [← bind_resume (some p) (some q) (fun c => (c0, c1, c)) (fun _ => rfl)]
        simp [recursiveInsert, h0, hp, hlt, hlt', hq]

/-! A key that is there. -/

variable (comp) in
/-- The key is stored in a leaf that has two pairs. -/
def InFullLeaf (key : κ) : Node κ υ → Prop
  | null => False
  | mk kv0 kv1 c0 c1 c2 _ _ =>
    (c0.isNull = true ∧ kv1.isSome = true ∧
      ((∃ p ∈ kv0, comp key p.1 = 0) ∨ ∃ q ∈ kv1, comp key q.1 = 0)) ∨
      InFullLeaf key c0 ∨ InFullLeaf key c1 ∨ InFullLeaf key c2

theorem InFullLeaf.not_absent {key : κ} (h : InFullLeaf comp key t) :
    ¬Absent comp key t.toList := by
  induction t with
  | null => exact h.elim
  | mk kv0 kv1 c0 c1 c2 x xc ih0 ih1 ih2 =>
    intro ha
    rw [Node.toList] at ha
    rcases h with ⟨-, -, ⟨p, rfl, hp⟩ | ⟨q, rfl, hq⟩⟩ | h | h | h
    · exact ha p (by simp) hp
    · exact ha q (by simp) hq
    · exact ih0 h ha.left
    · exact ih1 h ha.right.right.left
    · exact ih2 h ha.right.right.right.right

/-- The search for a key that a node does not hold goes on at the child that `way`
    names, and only there can the key be. -/
theorem Shape.descend (ho : TotalOrder comp) {key : κ} {p : κ × υ} {kv1 : Option (κ × υ)}
    {c0 c1 c2 : Node κ υ} (hs : Shape (n + 1) (mk (some p) kv1 c0 c1 c2 none null))
    (hl : Sorted comp (mk (some p) kv1 c0 c1 c2 none null).toList) (hp : comp key p.1 ≠ 0)
    (hq : ∀ q ∈ kv1, comp key q.1 ≠ 0) : ∃ child,
      (mk (some p) kv1 c0 c1 c2 none null).child (way comp key (some p) kv1) = some child ∧
      Shape n child ∧ Sorted comp child.toList ∧
      (Absent comp key child.toList →
        Absent comp key (mk (some p) kv1 c0 c1 c2 none null).toList) ∧
      (c0.isNull = false → (InFullLeaf comp key (mk (some p) kv1 c0 c1 c2 none null) ↔
        InFullLeaf comp key child)) := by
  have hfull : c0.isNull = false → (InFullLeaf comp key (mk (some p) kv1 c0 c1 c2 none null) ↔
      InFullLeaf comp key c0 ∨ InFullLeaf comp key c1 ∨ InFullLeaf comp key c2) := by
    intro h0
    rw [InFullLeaf, h0]
    simp
  have hno : ∀ {c : Node κ υ}, Absent comp key c.toList → ¬InFullLeaf comp key c :=
    fun ha h => h.not_absent ha
  -- what is on the other side of a pair cannot hold the key
  cases hs with
  | two _ h0 h1 =>
    rw [toList_two] at hl ⊢
    obtain ⟨hl0, hl1, hxp, hpy, -⟩ := sorted_append_cons.1 hl
    rcases ho.lt_or_gt hp with hlt | hgt
    · have ha1 : Absent comp key (p :: c1.toList) := .of_lt ho hlt hpy
      refine ⟨c0, by simp [way, hlt, Node.child], h0, hl0, fun h => h.append ha1, fun hc0 => ?_⟩
      rw [hfull hc0]
      simp [hno ha1.tail, InFullLeaf]
    · have ha0 : Absent comp key c0.toList := .of_gt ho hgt hxp
      refine ⟨c1, by simp [way, ho.not_lt hgt, Node.child], h1, hl1, fun h => ha0.append ?_,
        fun hc0 => ?_⟩
      · exact List.forall_mem_cons.2 ⟨hp, h⟩
      · rw [hfull hc0]
        simp [hno ha0, InFullLeaf]
  | three _ q h0 h1 h2 =>
    have hq := hq q rfl
    rw [toList_three] at hl ⊢
    obtain ⟨hl0, hl12, hxp, hpy, -⟩ := sorted_append_cons.1 hl
    obtain ⟨hl1, hl2, hxq, hqy, -⟩ := sorted_append_cons.1 hl12
    rcases ho.lt_or_gt hp with hlt | hgt
    · have ha12 : Absent comp key (p :: (c1.toList ++ q :: c2.toList)) := .of_lt ho hlt hpy
      refine ⟨c0, by simp [way, hlt, Node.child], h0, hl0, fun h => h.append ha12, fun hc0 => ?_⟩
      simp [hfull hc0, hno ha12.tail.left, hno ha12.tail.right.tail]
    · have ha0 : Absent comp key c0.toList := .of_gt ho hgt hxp
      rcases ho.lt_or_gt hq with hlt' | hgt'
      · have ha2 : Absent comp key (q :: c2.toList) := .of_lt ho hlt' hqy
        refine ⟨c1, by simp [way, ho.not_lt hgt, hlt', Node.child], h1, hl1,
          fun h => ha0.append ?_, fun hc0 => ?_⟩
        · exact List.forall_mem_cons.2 ⟨hp, h.append ha2⟩
        · simp [hfull hc0, hno ha0, hno ha2.tail]
      · have ha1 : Absent comp key c1.toList := .of_gt ho hgt' hxq
        refine ⟨c2, by simp [way, ho.not_lt hgt, ho.not_lt hgt', Node.child], h2, hl2,
          fun h => ha0.append ?_, fun hc0 => ?_⟩
        · exact List.forall_mem_cons.2 ⟨hp, ha1.append (List.forall_mem_cons.2 ⟨hq, h⟩)⟩
        · simp [hfull hc0, hno ha0, hno ha1]

/-- What a tree with pairs looks like. -/
theorem Shape.succ_form (hs : Shape (n + 1) t) : ∃ p kv1 c0 c1 c2,
    t = mk (some p) kv1 c0 c1 c2 none null ∧ c0.isNull = decide (n = 0) ∧
      (n = 0 → c0 = null ∧ c1 = null ∧ c2 = null) := by
  cases hs with
  | two p h0 h1 =>
    refine ⟨p, none, _, _, null, rfl, h0.isNull, fun hn => ?_⟩
    subst hn
    exact ⟨h0.eq_null, h1.eq_null, rfl⟩
  | three p q h0 h1 h2 =>
    refine ⟨p, some q, _, _, _, rfl, h0.isNull, fun hn => ?_⟩
    subst hn
    exact ⟨h0.eq_null, h1.eq_null, h2.eq_null⟩

/-- A key that is met at an inner node is in none of its leaves. -/
theorem not_inFullLeaf (ho : TotalOrder comp) {key : κ} {p : κ × υ} {kv1 : Option (κ × υ)}
    {c0 c1 c2 : Node κ υ} (hs : Shape (n + 1) (mk (some p) kv1 c0 c1 c2 none null))
    (hl : Sorted comp (mk (some p) kv1 c0 c1 c2 none null).toList) (h0 : c0.isNull = false)
    (hk : comp key p.1 = 0 ∨ ∃ q ∈ kv1, comp key q.1 = 0) :
    ¬InFullLeaf comp key (mk (some p) kv1 c0 c1 c2 none null) := by
  have hno : Absent comp key c0.toList → Absent comp key c1.toList → Absent comp key c2.toList →
      ¬InFullLeaf comp key (mk (some p) kv1 c0 c1 c2 none null) := by
    rintro ha0 ha1 ha2 (⟨hnull, -⟩ | h | h | h)
    · rw [h0] at hnull
      cases hnull
    · exact h.not_absent ha0
    · exact h.not_absent ha1
    · exact h.not_absent ha2
  cases hs with
  | two _ _ _ =>
    rw [toList_two] at hl
    obtain ⟨-, -, hxp, hpy, -⟩ := sorted_append_cons.1 hl
    rcases hk with hp | ⟨q, hq, -⟩
    · obtain ⟨ha0, ha1⟩ := Absent.beside ho hp hxp hpy
      exact hno ha0 ha1 nofun
    · cases hq
  | three _ q _ _ _ =>
    rw [toList_three] at hl
    obtain ⟨-, hl12, hxp, hpy, -⟩ := sorted_append_cons.1 hl
    obtain ⟨-, -, hxq, hqy, -⟩ := sorted_append_cons.1 hl12
    rcases hk with hp | ⟨q', hq', hq⟩
    · obtain ⟨ha0, ha12⟩ := Absent.beside ho hp hxp hpy
      exact hno ha0 ha12.left ha12.right.tail
    · cases hq'
      obtain ⟨ha1, ha2⟩ := Absent.beside ho hq hxq hqy
      obtain rfl := (ho.eq_iff _ _).1 hq
      exact hno (.of_gt ho (hpy q (by simp)) hxp) ha1 ha2

/-! What `resume` hands on. -/

theorem setChild_child {root c : Node κ υ} {i : Nat} (h : root.child i = some c) :
    root.setChild i c = root := by
  cases root with
  | null => rfl
  | mk kv0 kv1 c0 c1 c2 x xc =>
    rcases child_cases h with ⟨rfl, rfl⟩ | ⟨rfl, rfl⟩ | ⟨rfl, rfl⟩
    · rfl
    · rfl
    · rfl

theorem takeSplit_status (root : Node κ υ) (pair : κ × υ) (top : Node κ υ) :
    (root.takeSplit pair top).1 = 0 ∨ (root.takeSplit pair top).1 = 1 := by
  cases root with
  | null => exact .inl rfl
  | mk kv0 kv1 c0 c1 c2 x xc =>
    rw [Node.takeSplit]
    split
    · exact .inr rfl
    · exact .inl rfl

/-- A call that has not refused the key is not turned into a refusal. -/
theorem resume_not_refused {root c t' : Node κ υ} {i : Nat} {st st' : Int32}
    {mallocs rest : List Bool} (hst : st ≠ -1)
    (h : resume comp root i ((st, c), mallocs) = some ((st', t'), rest)) :
    st' ≠ -1 ∧ (mallocs = [] → rest = []) := by
  rw [resume] at h
  split at h
  · cases h
    exact ⟨hst, id⟩
  · obtain ⟨⟨pair, top, c'⟩, -, e⟩ := Option.bind_eq_some_iff.1 h
    have e' : some ((root.setChild i c').takeSplit pair top,
        (nodeConstructor mallocs : Node κ υ × List Bool).2) = some ((st', t'), rest) := e
    rw [Option.some.injEq, Prod.mk.injEq] at e'
    obtain ⟨e₁, rfl⟩ := e'
    refine ⟨?_, ?_⟩
    · have hstatus := takeSplit_status (root.setChild i c') pair top
      rw [e₁] at hstatus
      rcases hstatus with rfl | rfl
      · decide
      · decide
    · rintro rfl
      rfl

/-- A key that is there is refused, with nothing allocated and nothing changed, unless
    it is in a full leaf; there the call goes on as with a new key. -/
theorem recursiveInsert_present (ho : TotalOrder comp) {pair : κ × υ} (hs : Shape n t)
    (hl : Sorted comp t.toList) (hkey : ¬Absent comp pair.1 t.toList) :
    (¬InFullLeaf comp pair.1 t →
      ∀ mallocs, recursiveInsert comp pair t mallocs = some ((-1, t), mallocs)) ∧
    (InFullLeaf comp pair.1 t → ∀ mallocs st t' rest,
      recursiveInsert comp pair t mallocs = some ((st, t'), rest) →
        st ≠ -1 ∧ (mallocs = [] → rest = [])) := by
  induction n generalizing t with
  | zero =>
    cases hs.eq_null
    exact absurd nofun hkey
  | succ n ih =>
    obtain ⟨p, kv1, c0, c1, c2, rfl, h0, hleaf⟩ := hs.succ_form
    by_cases hn : n = 0
    · obtain ⟨rfl, rfl, rfl⟩ := hleaf hn
      cases kv1 with
      | none =>
        have hp : comp pair.1 p.1 = 0 := by
          by_contra hp
          exact hkey fun x hx => by simpa [List.mem_singleton.1 hx] using hp
        refine ⟨fun _ mallocs => by simp [recursiveInsert, hp], fun h => ?_⟩
        simp [InFullLeaf] at h
      | some q =>
        -- a full leaf tests nothing
        refine ⟨fun h => absurd ?_ hkey, fun _ mallocs st t' rest h => ?_⟩
        · simp only [InFullLeaf, isNull_null, Option.isSome_some, true_and, or_false, not_or,
            Option.mem_def, Option.some.injEq, exists_eq_left'] at h
          intro x hx
          rcases List.mem_cons.1 hx with rfl | hx
          · exact h.1
          · rw [List.mem_singleton.1 hx]
            exact h.2
        · simp only [recursiveInsert, isNull_null, Bool.not_true, Bool.or_self, Bool.not_false,
            if_true, Option.isSome_some] at h
          cases h
          exact ⟨by decide, id⟩
    · -- an inner node tests its keys before it goes on
      rw [decide_eq_false hn] at h0
      by_cases hp : comp pair.1 p.1 = 0
      · refine ⟨fun _ mallocs => by simp [recursiveInsert, h0, hp], fun h => ?_⟩
        exact absurd h (not_inFullLeaf ho hs hl h0 (.inl hp))
      by_cases hq : ∃ q ∈ kv1, comp pair.1 q.1 = 0
      · refine ⟨fun _ mallocs => ?_, fun h => absurd h (not_inFullLeaf ho hs hl h0 (.inr hq))⟩
        obtain ⟨q, rfl, hq⟩ := hq
        have hpq : comp p.1 q.1 < 0 := (hs.ordered hl).2.2.2.1 p rfl q rfl
        have hnl : ¬comp pair.1 p.1 < 0 := by
          rw [(ho.eq_iff _ _).1 hq]
          exact ho.not_lt hpq
        simp [recursiveInsert, h0, hp, hnl, hq]
      · have hq' : ∀ q ∈ kv1, comp pair.1 q.1 ≠ 0 := fun q hm e => hq ⟨q, hm, e⟩
        obtain ⟨child, hc, hs', hl', habs, hfull⟩ := hs.descend ho hl hp hq'
        obtain ⟨hrefuse, hgo⟩ := ih hs' hl' fun h => hkey (habs h)
        rw [hfull h0]
        refine ⟨fun h mallocs => ?_, fun h mallocs st t' rest e => ?_⟩
        · rw [recursiveInsert_descend h0 hp hq' hc, hrefuse h]
          show some ((-1, _), mallocs) = _
          rw [setChild_child hc]
        · rw [recursiveInsert_descend h0 hp hq' hc] at e
          obtain ⟨⟨⟨st', c'⟩, rest'⟩, e₁, e₂⟩ := Option.bind_eq_some_iff.1 e
          obtain ⟨hst, hrest⟩ := hgo h mallocs st' c' rest' e₁
          obtain ⟨hst', hrest'⟩ := resume_not_refused hst e₂
          exact ⟨hst', fun hm => hrest' (hrest hm)⟩

/-- What `insert` makes of a refusal, whatever becomes of its copies. -/
theorem insert_refused {desc : Descriptor κ υ} {pair : κ × υ}
    (h : ∀ mallocs, recursiveInsert comp pair desc.root mallocs = some ((-1, desc.root), mallocs))
    (mallocs : List Bool) : ∃ rest, insert comp desc pair mallocs = some ((-1, desc), rest) := by
  cases hm : malloc mallocs with
  | mk ok mallocs₁ =>
    cases ok with
    | false => exact ⟨mallocs₁, by simp [insert, hm]⟩
    | true =>
      cases hm' : malloc mallocs₁ with
      | mk ok mallocs₂ =>
        cases ok with
        | false => exact ⟨mallocs₂, by simp [insert, hm, hm']⟩
        | true =>
          refine ⟨mallocs₂, ?_⟩
          have hzero : desc.size + Int32.toUInt32 (-1 + 1) = desc.size := UInt32.add_zero _
          simp only [insert, hm, hm', h mallocs₂, Option.bind_eq_bind, Option.bind_some, or_true,
            if_true, hzero]
          rfl

/-- A pair that the recursion takes is taken, where no allocation fails. -/
theorem insert_taken {desc : Descriptor κ υ} {pair : κ × υ}
    (h : ∀ st t' rest, recursiveInsert comp pair desc.root [] = some ((st, t'), rest) →
      st ≠ -1 ∧ rest = []) (desc' : Descriptor κ υ) (rest : List Bool) :
    insert comp desc pair [] ≠ some ((-1, desc'), rest) := by
  intro e
  simp only [insert, malloc] at e
  obtain ⟨⟨⟨st, t'⟩, mallocs⟩, e₁, e₂⟩ := Option.bind_eq_some_iff.1 e
  obtain ⟨hst, rfl⟩ := h st t' mallocs e₁
  by_cases h0 : st = 0
  · subst h0
    simp at e₂
  · -- the tree grows at the root
    simp only [h0, hst, or_self, if_false, nodeConstructor_nil, isNull_mk] at e₂
    obtain ⟨⟨top, l, r⟩, -, e₃⟩ := Option.bind_eq_some_iff.1 e₂
    simp at e₃

/-- **Duplicates.** Inserting a key that is there returns -1 and changes nothing, whatever
    becomes of the allocations, exactly when the key is not in a full leaf. -/
theorem insert_duplicate (ho : TotalOrder comp) {desc : Descriptor κ υ} (hv : Valid comp desc)
    {pair : κ × υ} (hkey : ∃ p ∈ desc.root.toList, p.1 = pair.1) :
    (∀ mallocs, ∃ rest, insert comp desc pair mallocs = some ((-1, desc), rest)) ↔
      ¬InFullLeaf comp pair.1 desc.root := by
  obtain ⟨n, hs⟩ := hv.shape
  have hpresent : ¬Absent comp pair.1 desc.root.toList := by
    obtain ⟨p, hp, hpk⟩ := hkey
    exact fun ha => ha p hp (hpk ▸ ho.self _)
  obtain ⟨hrefuse, hgo⟩ := recursiveInsert_present ho hs (hs.sorted ho hv.ordered) hpresent
  constructor
  · intro h hin
    obtain ⟨rest, e⟩ := h []
    apply insert_taken _ desc rest e
    intro st t' rest e₁
    obtain ⟨hst, hnil⟩ := hgo hin [] st t' rest e₁
    exact ⟨hst, hnil rfl⟩
  · intro hin
    exact insert_refused (hrefuse hin)

end

/-! Two small trees: a full leaf, and an inner node over two leaves. -/

def fullLeaf : Descriptor UInt64 UInt64 :=
  ⟨2, mk (some (1, 10)) (some (2, 20)) null null null none null⟩

def innerNode : Descriptor UInt64 UInt64 :=
  ⟨3, mk (some (2, 20)) none (mk (some (1, 10)) none null null null none null)
    (mk (some (3, 30)) none null null null none null) null none null⟩

theorem fullLeaf_valid : Valid byValue fullLeaf where
  shape := ⟨1, .three _ _ .empty .empty .empty⟩
  ordered := by
    apply Shape.ordered (.three _ _ .empty .empty .empty)
    unfold Sorted
    decide
  size := rfl

theorem innerNode_valid : Valid byValue innerNode where
  shape := ⟨2, .two _ (shape_leaf _) (shape_leaf _)⟩
  ordered := by
    apply Shape.ordered (.two _ (shape_leaf _) (shape_leaf _))
    unfold Sorted
    decide
  size := rfl

theorem erase_valid_inner : ∃ desc', erase byValue innerNode ⟨[], 0⟩ = some (0, desc') ∧
    Valid byValue desc' ∧ desc'.size.toNat + 1 = 3 := by
  have hd : iteratorDeref innerNode.root ⟨[], 0⟩ = some (2, 20) := rfl
  obtain ⟨desc', e, hv, -, -, hsize⟩ := erase_valid byValue_total innerNode_valid hd
  exact ⟨desc', e, hv, hsize⟩

theorem insert_duplicate_inner :
    ∃ rest, insert byValue innerNode (2, 99) [true, true] = some ((-1, innerNode), rest) := by
  have hkey : ∃ p ∈ innerNode.root.toList, p.1 = ((2, 99) : UInt64 × UInt64).1 :=
    ⟨(2, 20), by decide, rfl⟩
  refine (insert_duplicate byValue_total innerNode_valid hkey).2 ?_ [true, true]
  simp [InFullLeaf, innerNode]

/-- A key of a full leaf is taken a second time. -/
theorem insert_duplicate_fails : Valid byValue fullLeaf ∧ (1, 10) ∈ fullLeaf.root.toList ∧
    ∃ desc', insert byValue fullLeaf (1, 99) [] = some ((0, desc'), []) ∧ desc'.size = 3 ∧
      desc'.root.toList = [(1, 10), (1, 99), (2, 20)] :=
  ⟨fullLeaf_valid, by decide, _, rfl, rfl, rfl⟩

end Zhwkrfsp.BTree
