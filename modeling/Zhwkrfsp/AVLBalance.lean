import Zhwkrfsp.AVLRuns

/- Balance. The rotations restore it only for some of the trees they are applied
   to: `left_balance` and `right_balance` decide between one rotation and two by
   the balance of the inner grandchild instead of that of the child, and the
   helpers of the deletion rebalance the side that cannot have become too high.
   `insertFits` and `eraseFits` say, of the tree before the call, that none of
   this comes into play; every run of such calls keeps the tree balanced. -/
namespace Zhwkrfsp.AVLTree
open AVLTree.Tree

/-! Insertion. -/

/-- A leaf hung where the path ends makes the tree higher: no node on the way leans. -/
def Grows : List Bool → Tree → Prop
  | [], nil => True
  | true :: p, node l a ht r => (node l a ht r).blfactor = 0 ∧ Grows p l
  | false :: p, node l a ht r => (node l a ht r).blfactor = 0 ∧ Grows p r
  | _, _ => False

/-- The left child of a node that leans left, as the path goes on into it: going left,
    its right child does not lean right; going right, its left side is empty or
    the path goes right again. -/
def LeftFits : List Bool → Tree → Prop
  | true :: _, node _ _ _ lr => lr.blfactor ≤ 0
  | false :: p, node ll _ _ _ => ll = nil ∨ p.head? = some false
  | _, _ => True

/-- The right child of a node that leans right. -/
def RightFits : List Bool → Tree → Prop
  | false :: _, node rl _ _ _ => 0 ≤ rl.blfactor
  | true :: p, node _ _ _ rr => rr = nil ∨ p.head? = some true
  | _, _ => True

/-- Wherever an insertion along the path overloads a node, its child fits. -/
def InsertFits : List Bool → Tree → Prop
  | true :: p, node l a ht r =>
    InsertFits p l ∧ ((node l a ht r).blfactor = -1 → Grows p l → LeftFits p l)
  | false :: p, node l a ht r =>
    InsertFits p r ∧ ((node l a ht r).blfactor = 1 → Grows p r → RightFits p r)
  | _, _ => True

instance decidableGrows : ∀ p t, Decidable (Grows p t)
  | [], nil => .isTrue trivial
  | true :: p, node l _ _ _ =>
    have := decidableGrows p l
    inferInstanceAs (Decidable (_ ∧ _))
  | false :: p, node _ _ _ r =>
    have := decidableGrows p r
    inferInstanceAs (Decidable (_ ∧ _))
  | [], node .. => .isFalse id
  | true :: _, nil => .isFalse id
  | false :: _, nil => .isFalse id

instance : ∀ p t, Decidable (LeftFits p t)
  | true :: _, node .. => inferInstanceAs (Decidable (_ ≤ _))
  | false :: _, node .. => inferInstanceAs (Decidable (_ ∨ _))
  | [], _ => .isTrue trivial
  | true :: _, nil => .isTrue trivial
  | false :: _, nil => .isTrue trivial

instance : ∀ p t, Decidable (RightFits p t)
  | false :: _, node .. => inferInstanceAs (Decidable (_ ≤ _))
  | true :: _, node .. => inferInstanceAs (Decidable (_ ∨ _))
  | [], _ => .isTrue trivial
  | true :: _, nil => .isTrue trivial
  | false :: _, nil => .isTrue trivial

instance decidableInsertFits : ∀ p t, Decidable (InsertFits p t)
  | true :: p, node l _ _ _ =>
    have := decidableInsertFits p l
    inferInstanceAs (Decidable (_ ∧ (_ → _ → _)))
  | false :: p, node _ _ _ r =>
    have := decidableInsertFits p r
    inferInstanceAs (Decidable (_ ∧ (_ → _ → _)))
  | [], _ => .isTrue trivial
  | true :: _, nil => .isTrue trivial
  | false :: _, nil => .isTrue trivial

namespace Tree

@[simp] theorem getHeight_mk (l r : Tree) (a : Nat) :
    (mk l a r).getHeight = max l.getHeight r.getHeight + 1 := rfl

@[simp] theorem blfactor_mk (l r : Tree) (a : Nat) :
    (mk l a r).blfactor = (r.getHeight : Int) - l.getHeight := rfl

/-- Balanced, with exact heights. -/
structure Sound (t : Tree) : Prop where
  exact : t.Exact
  balanced : t.Balanced

theorem sound_mk {l r : Tree} (a : Nat) : (mk l a r).Sound ↔ l.Sound ∧ r.Sound ∧
    l.getHeight ≤ r.getHeight + 1 ∧ r.getHeight ≤ l.getHeight + 1 := by
  constructor
  · intro h
    have hl := h.exact.1
    have hr := h.exact.2.1
    obtain ⟨bl, br, h₁, h₂⟩ := (balanced_mk a hl hr).1 h.balanced
    exact ⟨⟨hl, bl⟩, ⟨hr, br⟩, h₁, h₂⟩
  · rintro ⟨hl, hr, h₁, h₂⟩
    exact ⟨mk_exact a hl.exact hr.exact,
      (balanced_mk a hl.exact hr.exact).2 ⟨hl.balanced, hr.balanced, h₁, h₂⟩⟩

theorem sound_nil : nil.Sound := ⟨trivial, trivial⟩

@[simp] theorem sound_mirror (t : Tree) : t.mirror.Sound ↔ t.Sound :=
  ⟨fun h => ⟨(exact_mirror t).1 h.exact, (balanced_mirror t).1 h.balanced⟩,
    fun h => ⟨(exact_mirror t).2 h.exact, (balanced_mirror t).2 h.balanced⟩⟩

end Tree

/-! Which rotation is made of a side that has become too high. -/

theorem leftBalance_single {ll lr r : Tree} (a b : Nat)
    (h : r.getHeight + 2 ≤ (mk ll b lr).getHeight) (hll : 0 < ll.getHeight)
    (hlr : lr.blfactor ≤ 0) :
    leftBalance (mk (mk ll b lr) a r) = some (mk ll b (mk lr a r)) := by
  have hb : (mk (mk ll b lr) a r).blfactor ≤ -2 := by
    rw [blfactor_mk]
    omega
  rw [leftBalance, if_pos hb, if_neg]
  · cases ll with
    | nil => simp at hll
    | node => rfl
  · simp only [mk, lchild, rchild, isNull_node, Bool.not_false, Bool.true_and, Bool.and_eq_true]
    exact fun h => Int.not_lt.2 hlr (of_decide_eq_true h.2)

theorem leftBalance_double {ll lrl lrr r : Tree} (a b c : Nat)
    (h : r.getHeight + 2 ≤ (mk ll b (mk lrl c lrr)).getHeight)
    (hlr : lrl.getHeight < lrr.getHeight) :
    leftBalance (mk (mk ll b (mk lrl c lrr)) a r) = some (mk (mk ll b lrl) c (mk lrr a r)) := by
  have hb : (mk (mk ll b (mk lrl c lrr)) a r).blfactor ≤ -2 := by
    rw [blfactor_mk]
    omega
  have hd : 0 < (mk lrl c lrr).blfactor := by
    rw [blfactor_mk]
    omega
  rw [leftBalance, if_pos hb, if_pos (by simpa [mk, lchild, rchild] using hd)]
  cases lrr with
  | nil => simp at hlr
  | node => rfl

theorem rightBalance_single {l rl rr : Tree} (a b : Nat)
    (h : l.getHeight + 2 ≤ (mk rl b rr).getHeight) (hrr : 0 < rr.getHeight)
    (hrl : 0 ≤ rl.blfactor) :
    rightBalance (mk l a (mk rl b rr)) = some (mk (mk l a rl) b rr) := by
  have e := @leftBalance_single rr.mirror rl.mirror l.mirror a b
    (by simp at h ⊢; omega) (by simpa using hrr) (by simpa using hrl)
  have m := rightBalance_mirror (mk (mk rr.mirror b rl.mirror) a l.mirror)
  simpa [e] using m

theorem rightBalance_double {l rll rlr rr : Tree} (a b c : Nat)
    (h : l.getHeight + 2 ≤ (mk (mk rll c rlr) b rr).getHeight)
    (hrl : rlr.getHeight < rll.getHeight) :
    rightBalance (mk l a (mk (mk rll c rlr) b rr)) = some (mk (mk l a rll) c (mk rlr b rr)) := by
  have e := @leftBalance_double rr.mirror rlr.mirror rll.mirror l.mirror a b c
    (by simp at h ⊢; omega) (by simpa using hrl)
  have m := rightBalance_mirror (mk (mk rr.mirror b (mk rlr.mirror c rll.mirror)) a l.mirror)
  simpa [e] using m

/-! What an insertion does to the height, as long as nothing leans on the way. -/

section
variable (c : Nat) {l r : Tree} {a ht : Nat} {p : List Bool}

theorem place_grows {t : Tree} (hx : t.Exact) (hg : Grows p t) :
    ∃ t', place c p t = some t' ∧ t'.getHeight = t.getHeight + 1 := by
  induction t generalizing p with
  | nil =>
    cases p with
    | nil => exact ⟨_, rfl, rfl⟩
    | cons b p => cases b <;> cases hg
  | node l a ht r ihl ihr =>
    obtain ⟨hxl, hxr, e⟩ := hx
    rcases p with _ | ⟨_ | _, p⟩
    · cases hg
    · obtain ⟨r', er, hr'⟩ := ihr hxr hg.2
      have hb := hg.1
      simp only [blfactor_node] at hb
      refine ⟨mk l a r', ?_, ?_⟩
      · rw [place, er, Option.bind_eq_bind, Option.bind_some]
        apply rightBalance_light
        simp
        omega
      · simp [e]
        omega
    · obtain ⟨l', el, hl'⟩ := ihl hxl hg.2
      have hb := hg.1
      simp only [blfactor_node] at hb
      refine ⟨mk l' a r, ?_, ?_⟩
      · rw [place, el, Option.bind_eq_bind, Option.bind_some]
        apply leftBalance_light
        simp
        omega
      · simp [e]
        omega

theorem place_grows_left (hl : l.Exact) (hg : Grows (true :: p) (node l a ht r)) :
    ∃ l', place c p l = some l' ∧ l'.getHeight = l.getHeight + 1 ∧
      place c (true :: p) (node l a ht r) = some (mk l' a r) := by
  obtain ⟨l', el, hl'⟩ := place_grows c hl hg.2
  have hb := hg.1
  simp only [blfactor_node] at hb
  refine ⟨l', el, hl', ?_⟩
  rw [place, el, Option.bind_eq_bind, Option.bind_some]
  apply leftBalance_light
  simp
  omega

theorem place_grows_right (hr : r.Exact) (hg : Grows (false :: p) (node l a ht r)) :
    ∃ r', place c p r = some r' ∧ r'.getHeight = r.getHeight + 1 ∧
      place c (false :: p) (node l a ht r) = some (mk l a r') := by
  obtain ⟨r', er, hr'⟩ := place_grows c hr hg.2
  have hb := hg.1
  simp only [blfactor_node] at hb
  refine ⟨r', er, hr', ?_⟩
  rw [place, er, Option.bind_eq_bind, Option.bind_some]
  apply rightBalance_light
  simp
  omega

/-- The rotation of a node leaning left whose left side `l` has grown to `l'`. -/
theorem leftBalance_grown (hl : l.Exact) (hr : r.Sound) (hlr : l.getHeight = r.getHeight + 1)
    (hg : Grows p l) (hf : LeftFits p l) {l' : Tree} (e : place c p l = some l')
    (hl' : l'.Sound) :
    ∃ t, leftBalance (mk l' a r) = some t ∧ t.Sound ∧ t.getHeight = l.getHeight + 1 := by
  rcases l with _ | ⟨ll, b, hb, lr⟩
  · simp at hlr
  obtain ⟨hxll, hxlr, eb⟩ := hl
  subst eb
  simp only [getHeight_node] at hlr ⊢
  rcases p with _ | ⟨_ | _, p⟩
  · cases hg
  · -- the path turns right at the left child
    obtain ⟨lr', elr, hlr', el⟩ := place_grows_right c hxlr hg
    have hbl := hg.1
    simp only [blfactor_node] at hbl
    rw [el, Option.some.injEq] at e
    subst e
    obtain ⟨hsl, hsr, -, -⟩ := (sound_mk b).1 hl'
    rcases hf with rfl | hp
    · -- both sides of the left child are empty: the rotation merges
      have h0 : lr = nil := hxlr.eq_nil (by simp at hbl; omega)
      subst h0
      have hr0 : r = nil := hr.exact.eq_nil (by simp at hlr; omega)
      subst hr0
      rcases p with _ | ⟨_ | _, p⟩
      · cases elr
        exact ⟨mk (mk nil b nil) c (mk nil a nil), rfl, by simp [sound_mk, sound_nil], by simp⟩
      · cases elr
      · cases elr
    · -- and right again: both rotations
      rcases p with _ | ⟨_ | _, p⟩
      · cases hp
      · rcases lr with _ | ⟨lrl, d, hd, lrr⟩
        · cases elr
        obtain ⟨hxrl, hxrr, ed⟩ := hxlr
        subst ed
        obtain ⟨lrr', -, hlrr', er⟩ := place_grows_right c hxrr hg.2
        have hbr := hg.2.1
        simp only [blfactor_node] at hbr
        rw [er, Option.some.injEq] at elr
        subst elr
        obtain ⟨hs₁, hs₂, -, -⟩ := (sound_mk d).1 hsr
        simp only [getHeight_node] at hbl hlr hlr' ⊢
        refine ⟨_, leftBalance_double a b d (by simp; omega) (by omega), ?_, ?_⟩
        · simp only [sound_mk, getHeight_mk]
          refine ⟨⟨hsl, hs₁, ?_⟩, ⟨hs₂, hr, ?_⟩, ?_⟩ <;> omega
        · simp
          omega
      · cases hp
  · -- the path turns left at the left child: one rotation
    obtain ⟨ll', -, hll', el⟩ := place_grows_left c hxll hg
    have hbl := hg.1
    simp only [blfactor_node] at hbl
    rw [el, Option.some.injEq] at e
    subst e
    obtain ⟨hsl, hsr, -, -⟩ := (sound_mk b).1 hl'
    refine ⟨_, leftBalance_single a b (by simp; omega) (by omega) hf, ?_, ?_⟩
    · simp only [sound_mk, getHeight_mk]
      refine ⟨hsl, ⟨hsr, hr, ?_⟩, ?_⟩ <;> omega
    · simp
      omega

end

/-! The right side is the left side of the mirror image. -/

theorem place_mirror (c : Nat) (p : List Bool) (t : Tree) :
    place c (p.map not) t.mirror = (place c p t).map mirror := by
  induction t generalizing p with
  | nil =>
    rcases p with _ | ⟨_ | _, p⟩ <;> rfl
  | node l a ht r ihl ihr =>
    rcases p with _ | ⟨_ | _, p⟩
    · rfl
    · simp only [List.map_cons, Bool.not_false, mirror_node, place, ihr]
      cases place c p r with
      | none => rfl
      | some r' => simpa using leftBalance_mirror (mk l a r')
    · simp only [List.map_cons, Bool.not_true, mirror_node, place, ihl]
      cases place c p l with
      | none => rfl
      | some l' => simpa using rightBalance_mirror (mk l' a r)

theorem grows_mirror (p : List Bool) (t : Tree) : Grows (p.map not) t.mirror ↔ Grows p t := by
  induction t generalizing p with
  | nil => rcases p with _ | ⟨_ | _, p⟩ <;> rfl
  | node l a ht r ihl ihr =>
    rcases p with _ | ⟨_ | _, p⟩
    · rfl
    · simp only [List.map_cons, Bool.not_false, mirror_node, Grows, ihr, blfactor_node,
        getHeight_mirror]
      apply and_congr_left
      intro _
      omega
    · simp only [List.map_cons, Bool.not_true, mirror_node, Grows, ihl, blfactor_node,
        getHeight_mirror]
      apply and_congr_left
      intro _
      omega

theorem leftFits_mirror {p : List Bool} {t : Tree} (h : RightFits p t) :
    LeftFits (p.map not) t.mirror := by
  rcases t with _ | ⟨l, a, ht, r⟩
  · rcases p with _ | ⟨_ | _, p⟩ <;> trivial
  rcases p with _ | ⟨_ | _, p⟩
  · trivial
  · simp only [RightFits] at h
    simp only [List.map_cons, Bool.not_false, mirror_node, LeftFits, blfactor_mirror]
    omega
  · rcases h with rfl | h
    · exact .inl rfl
    · refine .inr ?_
      cases p <;> simp_all

theorem rightBalance_grown (c : Nat) {l r : Tree} {a : Nat} {p : List Bool} (hl : l.Sound)
    (hr : r.Exact) (hlr : r.getHeight = l.getHeight + 1) (hg : Grows p r) (hf : RightFits p r)
    {r' : Tree} (e : place c p r = some r') (hr' : r'.Sound) :
    ∃ t, rightBalance (mk l a r') = some t ∧ t.Sound ∧ t.getHeight = r.getHeight + 1 := by
  obtain ⟨t, et, hs, hh⟩ := leftBalance_grown (a := a) c ((exact_mirror r).2 hr)
    ((sound_mirror l).2 hl) (by simpa using hlr) ((grows_mirror p r).2 hg) (leftFits_mirror hf)
    (by rw [place_mirror, e, Option.map_some]) ((sound_mirror r').2 hr')
  have h := leftBalance_mirror (mk l a r')
  rw [mk_mirror, et] at h
  cases et' : rightBalance (mk l a r') with
  | none => simp [et'] at h
  | some t' =>
    rw [et', Option.map_some, Option.some.injEq] at h
    subst h
    exact ⟨t', rfl, (sound_mirror t').1 hs, by simpa using hh⟩

/-- An insertion that fits keeps the tree balanced; its height is that of `Grows`. -/
theorem place_sound (c : Nat) {t t' : Tree} {p : List Bool} (ht : t.Sound) (hf : InsertFits p t)
    (e : place c p t = some t') :
    t'.Sound ∧ (¬Grows p t → t'.getHeight = t.getHeight) := by
  induction t generalizing p t' with
  | nil =>
    rcases p with _ | ⟨_ | _, p⟩
    · cases e
      exact ⟨by simpa [mk] using (sound_mk c).2 ⟨sound_nil, sound_nil, by simp⟩, fun h => absurd trivial h⟩
    · cases e
    · cases e
  | node l a ht r ihl ihr =>
    have hht := ht.exact.2.2
    rw [exact_eq_mk ht.exact, sound_mk] at ht
    obtain ⟨hl, hr, h₁, h₂⟩ := ht
    rcases p with _ | ⟨_ | _, p⟩
    · cases e
    · simp only [place, Option.bind_eq_bind, Option.bind_eq_some_iff] at e
      obtain ⟨r', er, e⟩ := e
      obtain ⟨hs, hh⟩ := ihr hr hf.1 er
      simp only [Grows, blfactor_node, getHeight_node]
      by_cases hg : Grows p r
      · -- the right side has grown: a rotation where it was the higher one
        obtain ⟨r'', er', hr''⟩ := place_grows c hr.exact hg
        cases er.symm.trans er'
        by_cases hb : r.getHeight = l.getHeight + 1
        · have hb' : (node l a ht r).blfactor = 1 := by
            simp
            omega
          obtain ⟨t, et, hst, hht⟩ := rightBalance_grown c hl hr.exact hb hg (hf.2 hb' hg) er hs
          cases e.symm.trans et
          exact ⟨hst, fun _ => by omega⟩
        · rw [rightBalance_light (by simp; omega), Option.some.injEq] at e
          subst e
          refine ⟨(sound_mk a).2 ⟨hl, hs, by omega, by omega⟩, fun hn => ?_⟩
          have : ¬(r.getHeight : Int) - l.getHeight = 0 := fun h => hn ⟨h, hg⟩
          simp
          omega
      · have hh := hh hg
        rw [rightBalance_light (by simp; omega), Option.some.injEq] at e
        subst e
        refine ⟨(sound_mk a).2 ⟨hl, hs, by omega, by omega⟩, fun _ => ?_⟩
        simp
        omega
    · simp only [place, Option.bind_eq_bind, Option.bind_eq_some_iff] at e
      obtain ⟨l', el, e⟩ := e
      obtain ⟨hs, hh⟩ := ihl hl hf.1 el
      simp only [Grows, blfactor_node, getHeight_node]
      by_cases hg : Grows p l
      · obtain ⟨l'', el', hl''⟩ := place_grows c hl.exact hg
        cases el.symm.trans el'
        by_cases hb : l.getHeight = r.getHeight + 1
        · have hb' : (node l a ht r).blfactor = -1 := by
            simp
            omega
          obtain ⟨t, et, hst, hht⟩ := leftBalance_grown c hl.exact hr hb hg (hf.2 hb' hg) el hs
          cases e.symm.trans et
          exact ⟨hst, fun _ => by omega⟩
        · rw [leftBalance_light (by simp; omega), Option.some.injEq] at e
          subst e
          refine ⟨(sound_mk a).2 ⟨hs, hr, by omega, by omega⟩, fun hn => ?_⟩
          have : ¬(r.getHeight : Int) - l.getHeight = 0 := fun h => hn ⟨h, hg⟩
          simp
          omega
      · have hh := hh hg
        rw [leftBalance_light (by simp; omega), Option.some.injEq] at e
        subst e
        refine ⟨(sound_mk a).2 ⟨hs, hr, by omega, by omega⟩, fun _ => ?_⟩
        simp
        omega

/-! Deletion. -/

/-- Taking the last node off makes the tree lower. -/
def ShrinksMax : Tree → Prop
  | nil => False
  | node _ _ _ nil => True
  | node l a ht r => (node l a ht r).blfactor = 1 ∧ ShrinksMax r

/-- Where taking the last node off lowers a right side, the left side is not higher. -/
def MaxFits : Tree → Prop
  | nil => True
  | node l a ht r => MaxFits r ∧ (ShrinksMax r → (node l a ht r).blfactor ≠ -1)

/-- A right child that can be rotated up: a single rotation finds its inner side not
    higher, a double one finds it higher. -/
def RightUp (r : Tree) : Prop :=
  (0 ≤ r.blfactor ∧ 0 ≤ r.lchild.blfactor) ∨
    (r.blfactor = -1 ∧ (r.rchild = nil ∨ r.lchild.blfactor < 0))

def LeftUp (l : Tree) : Prop :=
  (l.blfactor ≤ 0 ∧ l.rchild.blfactor ≤ 0) ∨
    (l.blfactor = 1 ∧ (l.lchild = nil ∨ 0 < l.rchild.blfactor))

/-- The deletion of the node at the end of the path makes the tree lower. -/
def ShrinksAt : List Bool → Tree → Prop
  | _, nil => False
  | [], node l a ht r => ht = 1 ∨ ((node l a ht r).blfactor = 1 ∧ ShrinksMax r.mirror) ∨
      ((node l a ht r).blfactor = -1 ∧ ShrinksMax l)
  | true :: p, node l a ht r => ShrinksAt p l ∧
      ((node l a ht r).blfactor = -1 ∨ ((node l a ht r).blfactor = 1 ∧ r.blfactor ≠ 0))
  | false :: p, node l a ht r => ShrinksAt p r ∧
      ((node l a ht r).blfactor = 1 ∨ ((node l a ht r).blfactor = -1 ∧ l.blfactor ≠ 0))

/-- The helper called at the end of the path meets no node that it leaves overloaded,
    and wherever a side lowered on the way back overloads a node, the other child
    can be rotated up. -/
def EraseFits : List Bool → Tree → Prop
  | _, nil => True
  | [], node l a ht r => if 0 < (node l a ht r).blfactor then MaxFits r.mirror else MaxFits l
  | true :: p, node l a ht r =>
    EraseFits p l ∧ ((node l a ht r).blfactor = 1 → ShrinksAt p l → RightUp r)
  | false :: p, node l a ht r =>
    EraseFits p r ∧ ((node l a ht r).blfactor = -1 → ShrinksAt p r → LeftUp l)

instance decidableShrinksMax : DecidablePred ShrinksMax
  | nil => .isFalse id
  | node _ _ _ nil => .isTrue trivial
  | node _ _ _ (node rl b hb rr) =>
    have := decidableShrinksMax (node rl b hb rr)
    inferInstanceAs (Decidable (_ ∧ _))

instance decidableMaxFits : DecidablePred MaxFits
  | nil => .isTrue trivial
  | node _ _ _ r =>
    have := decidableMaxFits r
    inferInstanceAs (Decidable (_ ∧ (_ → _)))

instance (r : Tree) : Decidable (RightUp r) := inferInstanceAs (Decidable (_ ∨ _))

instance (l : Tree) : Decidable (LeftUp l) := inferInstanceAs (Decidable (_ ∨ _))

instance decidableShrinksAt : ∀ p t, Decidable (ShrinksAt p t)
  | [], nil => .isFalse id
  | true :: _, nil => .isFalse id
  | false :: _, nil => .isFalse id
  | [], node .. => inferInstanceAs (Decidable (_ ∨ _))
  | true :: p, node l _ _ _ =>
    have := decidableShrinksAt p l
    inferInstanceAs (Decidable (_ ∧ _))
  | false :: p, node _ _ _ r =>
    have := decidableShrinksAt p r
    inferInstanceAs (Decidable (_ ∧ _))

instance decidableEraseFits : ∀ p t, Decidable (EraseFits p t)
  | [], nil => .isTrue trivial
  | true :: _, nil => .isTrue trivial
  | false :: _, nil => .isTrue trivial
  | [], node .. => inferInstanceAs (Decidable (ite _ _ _))
  | true :: p, node l _ _ _ =>
    have := decidableEraseFits p l
    inferInstanceAs (Decidable (_ ∧ (_ → _ → _)))
  | false :: p, node _ _ _ r =>
    have := decidableEraseFits p r
    inferInstanceAs (Decidable (_ ∧ (_ → _ → _)))

theorem dropMax_sound {t t' : Tree} (ht : t.Sound) (hf : MaxFits t) (e : dropMax t = some t') :
    t'.Sound ∧ (ShrinksMax t → t'.getHeight + 1 = t.getHeight) ∧
      (¬ShrinksMax t → t'.getHeight = t.getHeight) := by
  induction t generalizing t' with
  | nil => cases e
  | node l a ht r _ ih =>
    have hht := ht.exact.2.2
    rw [exact_eq_mk ht.exact, sound_mk] at ht
    obtain ⟨hl, hr, h₁, h₂⟩ := ht
    cases r with
    | nil =>
      cases e
      exact ⟨hl, fun _ => by simp at hht ⊢; omega, fun h => absurd trivial h⟩
    | node rl b hb rr =>
      simp only [dropMax, isNull_node, Bool.false_eq_true, if_false, Option.bind_eq_bind,
        Option.bind_eq_some_iff] at e
      obtain ⟨r', er, e⟩ := e
      obtain ⟨hs, hsh, hns⟩ := ih hr hf.1 er
      have hf := hf.2
      simp only [blfactor_node] at hf
      have hle : r'.getHeight ≤ (node rl b hb rr).getHeight := by
        by_cases h : ShrinksMax (node rl b hb rr)
        · have := hsh h
          omega
        · exact (hns h).le
      rw [rightBalance_light (by simp only [blfactor_mk]; omega), Option.some.injEq] at e
      subst e
      simp only [ShrinksMax, blfactor_node, getHeight_mk, sound_mk]
      simp only [getHeight_node] at hht h₁ h₂ hf hle hsh hns ⊢
      by_cases h : ShrinksMax (node rl b hb rr)
      · have := hsh h
        have := hf h
        refine ⟨⟨hl, hs, by omega, by omega⟩, fun h' => by omega, fun h' => ?_⟩
        have : ¬(hb : Int) - l.getHeight = 1 := fun e => h' ⟨e, h⟩
        omega
      · have := hns h
        exact ⟨⟨hl, hs, by omega, by omega⟩, fun h' => absurd h'.2 h, fun _ => by omega⟩

theorem dropMin_sound {t t' : Tree} (ht : t.Sound) (hf : MaxFits t.mirror)
    (e : dropMin t = some t') :
    t'.Sound ∧ (ShrinksMax t.mirror → t'.getHeight + 1 = t.getHeight) ∧
      (¬ShrinksMax t.mirror → t'.getHeight = t.getHeight) := by
  have h := dropMin_mirror t.mirror
  rw [mirror_mirror, e] at h
  obtain ⟨t₁, e₁, rfl⟩ := Option.map_eq_some_iff.1 h.symm
  obtain ⟨hs, hm⟩ := dropMax_sound ((sound_mirror t).2 ht) hf e₁
  exact ⟨(sound_mirror t₁).2 hs, by simpa using hm⟩

/-- The rotation of a node whose right side is two higher. -/
theorem rightBalance_up {l r : Tree} (a : Nat) (hl : l.Sound) (hr : r.Sound)
    (h : r.getHeight = l.getHeight + 2) (hu : RightUp r) :
    ∃ t, rightBalance (mk l a r) = some t ∧ t.Sound ∧
      (r.blfactor = 0 → t.getHeight = r.getHeight + 1) ∧
      (r.blfactor ≠ 0 → t.getHeight = r.getHeight) := by
  rcases r with _ | ⟨rl, b, hb, rr⟩
  · simp at h
  have e := exact_eq_mk hr.exact
  rw [e] at hr hu h ⊢
  obtain ⟨hsl, hsr, h₁, h₂⟩ := (sound_mk b).1 hr
  rcases hu with ⟨h0, hrl⟩ | ⟨h1, rfl | hrl⟩
  · -- the right side outside is at least as high
    simp only [getHeight_mk, blfactor_mk] at *
    refine ⟨_, rightBalance_single a b (by simp; omega) (by omega) hrl, ?_, ?_⟩
    · simp only [sound_mk, getHeight_mk]
      refine ⟨⟨hl, hsl, ?_⟩, hsr, ?_⟩ <;> omega
    · simp only [getHeight_mk]
      omega
  · -- it is empty: the rotation merges
    simp only [getHeight_mk, blfactor_mk, getHeight_nil] at h h1
    have hl0 : l = nil := hl.exact.eq_nil (by omega)
    subst hl0
    rcases rl with _ | ⟨rll, c, hc, rlr⟩
    · simp at h1
    have hht := hsl.exact.2.2
    simp only [getHeight_node] at h1
    have hrll : rll = nil := hsl.exact.1.eq_nil (by omega)
    have hrlr : rlr = nil := hsl.exact.2.1.eq_nil (by omega)
    subst hrll hrlr hht
    exact ⟨mk (mk nil a nil) c (mk nil b nil), rfl, by simp [sound_mk, sound_nil], by simp, by simp⟩
  · -- the inner side is higher, and its own inner side: both rotations
    rcases rl with _ | ⟨rll, c, hc, rlr⟩
    · cases hrl
    have e := exact_eq_mk hsl.exact
    rw [e] at hsl hrl h1 h h₁ h₂ ⊢
    obtain ⟨hs₁, hs₂, h₃, h₄⟩ := (sound_mk c).1 hsl
    simp only [lchild, mk, blfactor_node] at hrl
    simp only [getHeight_mk, blfactor_mk] at *
    refine ⟨_, rightBalance_double a b c (by simp; omega) (by omega), ?_, ?_⟩
    · simp only [sound_mk, getHeight_mk]
      refine ⟨⟨hl, hs₁, ?_⟩, ⟨hs₂, hsr, ?_⟩, ?_⟩ <;> omega
    · simp only [getHeight_mk]
      omega

/-- The way back over a node whose left side has been lowered when `low` holds. -/
theorem lowered_left {l l' r t : Tree} {a : Nat} {low : Prop} (hl : l'.Sound) (hr : r.Sound)
    (h₁ : l.getHeight ≤ r.getHeight + 1) (h₂ : r.getHeight ≤ l.getHeight + 1)
    (hlow : low → l'.getHeight + 1 = l.getHeight) (hno : ¬low → l'.getHeight = l.getHeight)
    (hu : (mk l a r).blfactor = 1 → low → RightUp r) (e : rightBalance (mk l' a r) = some t) :
    t.Sound ∧
      ((low ∧ ((mk l a r).blfactor = -1 ∨ ((mk l a r).blfactor = 1 ∧ r.blfactor ≠ 0))) →
        t.getHeight + 1 = (mk l a r).getHeight) ∧
      (¬(low ∧ ((mk l a r).blfactor = -1 ∨ ((mk l a r).blfactor = 1 ∧ r.blfactor ≠ 0))) →
        t.getHeight = (mk l a r).getHeight) := by
  simp only [blfactor_mk, getHeight_mk] at *
  by_cases h : low
  · have hlow := hlow h
    by_cases hb : (r.getHeight : Int) - l.getHeight = 1
    · obtain ⟨t', e', hs, h0, hn0⟩ := rightBalance_up a hl hr (by omega) (hu hb h)
      cases e.symm.trans e'
      refine ⟨hs, fun h' => ?_, fun h' => ?_⟩
      · have := hn0 (by omega)
        omega
      · have := h0 (by_contra fun hne => h' ⟨h, .inr ⟨hb, hne⟩⟩)
        omega
    · rw [rightBalance_light (by simp; omega), Option.some.injEq] at e
      subst e
      refine ⟨(sound_mk a).2 ⟨hl, hr, by omega, by omega⟩, fun h' => ?_, fun h' => ?_⟩
      · simp
        omega
      · have : ¬(r.getHeight : Int) - l.getHeight = -1 := fun e => h' ⟨h, .inl e⟩
        simp
        omega
  · have hno := hno h
    rw [rightBalance_light (by simp; omega), Option.some.injEq] at e
    subst e
    refine ⟨(sound_mk a).2 ⟨hl, hr, by omega, by omega⟩, fun h' => absurd h'.1 h, fun _ => ?_⟩
    simp [hno]

theorem rightUp_mirror {l : Tree} (h : LeftUp l) : RightUp l.mirror := by
  rcases h with ⟨h₁, h₂⟩ | ⟨h₁, h₂ | h₂⟩
  · exact .inl ⟨by simpa using h₁, by simpa using h₂⟩
  · exact .inr ⟨by simpa using h₁, .inl (by simp [h₂])⟩
  · exact .inr ⟨by simpa using h₁, .inr (by simpa using h₂)⟩

/-- The same over a node whose right side has been lowered. -/
theorem lowered_right {l r r' t : Tree} {a : Nat} {low : Prop} (hl : l.Sound) (hr : r'.Sound)
    (h₁ : l.getHeight ≤ r.getHeight + 1) (h₂ : r.getHeight ≤ l.getHeight + 1)
    (hlow : low → r'.getHeight + 1 = r.getHeight) (hno : ¬low → r'.getHeight = r.getHeight)
    (hu : (mk l a r).blfactor = -1 → low → LeftUp l) (e : leftBalance (mk l a r') = some t) :
    t.Sound ∧
      ((low ∧ ((mk l a r).blfactor = 1 ∨ ((mk l a r).blfactor = -1 ∧ l.blfactor ≠ 0))) →
        t.getHeight + 1 = (mk l a r).getHeight) ∧
      (¬(low ∧ ((mk l a r).blfactor = 1 ∨ ((mk l a r).blfactor = -1 ∧ l.blfactor ≠ 0))) →
        t.getHeight = (mk l a r).getHeight) := by
  have hb : (mk r.mirror a l.mirror).blfactor = -(mk l a r).blfactor := by
    rw [← mk_mirror, blfactor_mirror]
  have m := rightBalance_mirror (mk l a r')
  rw [e, mk_mirror, Option.map_some] at m
  obtain ⟨hs, hsh, hns⟩ := @lowered_left r.mirror r'.mirror l.mirror t.mirror a low
    ((sound_mirror r').2 hr) ((sound_mirror l).2 hl) (by simpa using h₂) (by simpa using h₁)
    (by simpa using hlow) (by simpa using hno) (fun h hlow' => rightUp_mirror (hu (by omega) hlow')) m
  have hc : ((mk r.mirror a l.mirror).blfactor = -1 ∨
      ((mk r.mirror a l.mirror).blfactor = 1 ∧ l.mirror.blfactor ≠ 0)) ↔
      ((mk l a r).blfactor = 1 ∨ ((mk l a r).blfactor = -1 ∧ l.blfactor ≠ 0)) := by
    rw [hb, blfactor_mirror]
    omega
  rw [hc, ← mk_mirror, getHeight_mirror, getHeight_mirror] at hsh hns
  exact ⟨(sound_mirror t).1 hs, hsh, hns⟩

/-- The deletion at the node itself: the side that gives up a node is never the lower one. -/
theorem dropAt_here {l r t : Tree} {a ht : Nat} (hs : (node l a ht r).Sound)
    (hf : EraseFits [] (node l a ht r)) (e : dropAt [] (node l a ht r) = some t) :
    t.Sound ∧ (ShrinksAt [] (node l a ht r) → t.getHeight + 1 = (node l a ht r).getHeight) ∧
      (¬ShrinksAt [] (node l a ht r) → t.getHeight = (node l a ht r).getHeight) := by
  have hht := hs.exact.2.2
  subst hht
  obtain ⟨hl, hr, h₁, h₂⟩ := (sound_mk a).1 hs
  simp only [dropAt, EraseFits] at e hf
  simp only [ShrinksAt, blfactor_node, getHeight_node]
  by_cases h1 : max l.getHeight r.getHeight + 1 = 1
  · rw [if_pos h1] at e
    cases e
    exact ⟨sound_nil, fun _ => by simp; omega, fun h => absurd (.inl h1) h⟩
  rw [if_neg h1] at e
  -- no rotation at the node in either case
  by_cases hb : 0 < (node l a (max l.getHeight r.getHeight + 1) r).blfactor
  · rw [if_pos hb] at e hf
    rw [blfactor_node] at hb
    obtain ⟨r', er, e⟩ := Option.bind_eq_some_iff.1 e
    obtain ⟨hsr, hsh, hns⟩ := dropMin_sound hr hf er
    by_cases h : ShrinksMax r.mirror
    · have hsh := hsh h
      rw [rightBalance_light (by simp; omega), Option.some.injEq] at e
      subst e
      refine ⟨(sound_mk a).2 ⟨hl, hsr, by omega, by omega⟩, fun _ => by simp; omega, fun h' => ?_⟩
      exact absurd (.inr (.inl ⟨by omega, h⟩)) h'
    · have hns := hns h
      rw [rightBalance_light (by simp; omega), Option.some.injEq] at e
      subst e
      refine ⟨(sound_mk a).2 ⟨hl, hsr, by omega, by omega⟩, fun h' => ?_, fun _ => by simp [hns]⟩
      rcases h' with h' | h' | h'
      · exact absurd h' h1
      · exact absurd h'.2 h
      · omega
  · rw [if_neg hb] at e hf
    rw [blfactor_node] at hb
    obtain ⟨l', el, e⟩ := Option.bind_eq_some_iff.1 e
    obtain ⟨hsl, hsh, hns⟩ := dropMax_sound hl hf el
    by_cases h : ShrinksMax l
    · have hsh := hsh h
      rw [leftBalance_light (by simp; omega), Option.some.injEq] at e
      subst e
      refine ⟨(sound_mk a).2 ⟨hsl, hr, by omega, by omega⟩, fun h' => ?_, fun h' => ?_⟩
      · rcases h' with h' | h' | h'
        · exact absurd h' h1
        · omega
        · simp
          omega
      · have : ¬(r.getHeight : Int) - l.getHeight = -1 := fun e => h' (.inr (.inr ⟨e, h⟩))
        simp
        omega
    · have hns := hns h
      rw [leftBalance_light (by simp; omega), Option.some.injEq] at e
      subst e
      refine ⟨(sound_mk a).2 ⟨hsl, hr, by omega, by omega⟩, fun h' => ?_, fun _ => by simp [hns]⟩
      rcases h' with h' | h' | h'
      · exact absurd h' h1
      · omega
      · exact absurd h'.2 h

/-- A deletion that fits keeps the tree balanced. -/
theorem dropAt_sound {t t' : Tree} {p : List Bool} (hs : t.Sound) (hf : EraseFits p t)
    (e : dropAt p t = some t') :
    t'.Sound ∧ (ShrinksAt p t → t'.getHeight + 1 = t.getHeight) ∧
      (¬ShrinksAt p t → t'.getHeight = t.getHeight) := by
  induction t generalizing p t' with
  | nil =>
    cases p with
    | nil => cases e
    | cons b p => cases b <;> cases e
  | node l a ht r ihl ihr =>
    have em := exact_eq_mk hs.exact
    have hht := hs.exact.2.2
    subst hht
    obtain ⟨hl, hr, h₁, h₂⟩ := (sound_mk a).1 hs
    rcases p with _ | ⟨_ | _, p⟩
    · exact dropAt_here hs hf e
    · simp only [dropAt, Option.bind_eq_bind, Option.bind_eq_some_iff] at e
      obtain ⟨r', er, e⟩ := e
      obtain ⟨hsr, hsh, hns⟩ := ihr hr hf.1 er
      exact lowered_right hl hsr h₁ h₂ hsh hns hf.2 e
    · simp only [dropAt, Option.bind_eq_bind, Option.bind_eq_some_iff] at e
      obtain ⟨l', el, e⟩ := e
      obtain ⟨hsl, hsh, hns⟩ := ihl hl hf.1 el
      exact lowered_left hsl hr h₁ h₂ hsh hns hf.2 e

/-! Runs. -/

section
variable {α : Type}

/-- The call fits the tree it is made on. An erasure also does when it gives up at once. -/
def Fits (comp : α → α → Int) (s : State α) : Op α → Prop
  | .insert elem => InsertFits (path comp elem s.heap s.desc.root) s.desc.root
  | .erase elem => s.desc.size = 0 ∨ EraseFits (path comp elem s.heap s.desc.root) s.desc.root

instance (comp : α → α → Int) (s : State α) : ∀ op, Decidable (Fits comp s op)
  | .insert _ => inferInstanceAs (Decidable (InsertFits _ _))
  | .erase _ => inferInstanceAs (Decidable (_ ∨ EraseFits _ _))

variable {comp : α → α → Int} (ho : TotalOrder comp) {s s' : State α} {o : Int32}
include ho

/-- One call that fits, on a balanced tree. -/
theorem step_sound [DecidableEq α] {l : List (Nat × α)} {S : Finset α} (hr : Rep comp s l S)
    (hs : s.desc.root.Sound) (op : Op α) (hf : Fits comp s op) (e : step comp s op = some (o, s')) :
    ∃ l' S', Rep comp s' l' S' ∧ s'.desc.root.Sound := by
  cases op with
  | insert x =>
    by_cases h : x ∈ S
    · rw [hr.insert_mem ho h] at e
      cases e
      exact ⟨l, S, hr, hs⟩
    · obtain ⟨t, l', e', hr', -, hp⟩ := hr.insert_not_mem ho h
      cases e.symm.trans e'
      exact ⟨l', _, hr', (place_sound _ hs hf hp).1⟩
  | erase x =>
    by_cases h : x ∈ S
    · by_cases hc : S.card % 2 ^ 32 = 0
      · rw [hr.erase_wrapped ho h hc] at e
        cases e
        exact ⟨l, S, hr, hs⟩
      · obtain ⟨t, l', e', hr', -, hp⟩ := hr.erase_mem ho h hc
        cases e.symm.trans e'
        have hf := hf.resolve_left (mt hr.size_eq_zero.1 hc)
        exact ⟨l', _, hr', (dropAt_sound hs hf hp).1⟩
    · rw [hr.erase_not_mem ho h] at e
      cases e
      exact ⟨l, S, hr, hs⟩

/-- In a run whose calls all fit, every tree reached is balanced. -/
theorem balanced_of_fits (h : Machine.Reached (step comp) (Fits comp) State.init s) :
    s.desc.root.Balanced := by
  classical
  have inv : ∃ l S, Rep comp s l S ∧ s.desc.root.Sound := by
    apply h.invariant
    · exact ⟨[], ∅, Rep.init, sound_nil⟩
    · intro s op o s' ⟨l, S, hr, hs⟩ hf e
      exact step_sound ho hr hs op hf e
  obtain ⟨l, S, -, hs⟩ := inv
  exact hs.balanced

end

theorem balanced_of_fits_byValue :
    ∃ s, Machine.run (step byValue) [.insert 4, .insert 2, .insert 3, .insert 1, .erase 4]
        State.init = some ([0, 0, 0, 0, 0], s) ∧ s.desc.root.Balanced :=
  ⟨_, rfl, balanced_of_fits byValue_total (Machine.Reached.init.of_run
    (show Machine.Along (step byValue) (Fits byValue)
      [.insert 4, .insert 2, .insert 3, .insert 1, .erase 4] State.init by decide) rfl)⟩

/-- The insertion of 25 makes 20 lean right by two. -/
theorem balanced_fails :
    ∃ s, Machine.run (step byValue)
        [.insert 50, .insert 20, .insert 60, .insert 10, .insert 30, .insert 25] State.init =
        some ([0, 0, 0, 0, 0, 0], s) ∧ ¬s.desc.root.Balanced := by
  refine ⟨_, rfl, ?_⟩
  decide

end Zhwkrfsp.AVLTree
