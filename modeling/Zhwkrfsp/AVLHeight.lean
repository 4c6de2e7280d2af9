import Mathlib.Data.Nat.Fib.Basic
import Mathlib.Data.Nat.Size
import Zhwkrfsp.AVLBalance

/- How high the tree gets. As long as the calls fit it is balanced, so its height grows
   with the logarithm of the size (`height_of_fits`). Elements inserted in
   ascending order, as in `zhwkre/tests/avltree_test.c`, always fit: they go down the
   right edge, every subtree that hangs to the left of it is perfect, and the
   single rotation that is made there makes a perfect one of two. The tree is then as
   low as any tree with as many nodes (`ascending_height`). -/
namespace Zhwkrfsp.AVLTree
open Linked AVLTree.Tree

namespace Tree

/-- The turns of a search are no more than the height. -/
theorem path_length_le {α : Type} (comp : α → α → Int) (x : α) (h : Heap α) (t : Tree) :
    (path comp x h t).length ≤ t.height := by
  induction t with
  | nil => exact Nat.le_refl 0
  | node l a ht r ihl ihr =>
    unfold path
    rw [height]
    split
    · exact Nat.zero_le _
    · split
      · exact Nat.zero_le _
      · split
        · rw [List.length_cons]
          omega
        · rw [List.length_cons]
          omega

/-- A balanced tree has at least as many nodes as a Fibonacci tree of its height. -/
theorem fib_le {t : Tree} (h : t.Balanced) : Nat.fib (t.height + 2) ≤ t.inorder.length + 1 := by
  induction t with
  | nil => exact Nat.le_refl 1
  | node l a ht r ihl ihr =>
    obtain ⟨hl, hr, h₁, h₂⟩ := h
    have hl := ihl hl
    have hr := ihr hr
    rw [height, inorder_node, List.length_append, List.length_cons]
    -- the lower side is at most one below the higher one
    have hsum : ∀ {i j : Nat}, i ≤ j → j ≤ i + 1 → Nat.fib (j + 1 + 2) ≤
        Nat.fib (i + 2) + Nat.fib (j + 2) := by
      intro i j hij hji
      have hmono : Nat.fib (j + 1) ≤ Nat.fib (i + 2) := Nat.fib_mono (by omega)
      rw [Nat.fib_add_two]
      exact Nat.add_le_add_right hmono _
    rcases Nat.le_total l.height r.height with hlr | hlr
    · have hfib := hsum hlr (by omega)
      rw [Nat.max_eq_right hlr]
      omega
    · have hfib := hsum hlr (by omega)
      rw [Nat.max_eq_left hlr]
      omega

/-- No tree of height `n` has `2 ^ n` nodes. -/
theorem length_lt (t : Tree) : t.inorder.length < 2 ^ t.height := by
  induction t with
  | nil => exact Nat.one_pos
  | node l a ht r ihl ihr =>
    rw [inorder_node, List.length_append, List.length_cons, height, Nat.pow_succ]
    have hl : 2 ^ l.height ≤ 2 ^ max l.height r.height :=
      Nat.pow_le_pow_right (by omega) (Nat.le_max_left _ _)
    have hr : 2 ^ r.height ≤ 2 ^ max l.height r.height :=
      Nat.pow_le_pow_right (by omega) (Nat.le_max_right _ _)
    omega

theorem size_le_height (t : Tree) : Nat.size t.inorder.length ≤ t.height :=
  Nat.size_le.2 t.length_lt

/-! The right edge. -/

/-- All leaves are at one depth. -/
def Perfect : Tree → Prop
  | nil => True
  | node l _ _ r => l.Perfect ∧ r.Perfect ∧ l.height = r.height

/-- What hangs to the left of the right edge is perfect. -/
def Edge : Tree → Prop
  | nil => True
  | node l _ _ r => l.Perfect ∧ r.Edge

theorem Perfect.length_eq {t : Tree} (h : t.Perfect) : t.inorder.length + 1 = 2 ^ t.height := by
  induction t with
  | nil => rfl
  | node l a ht r ihl ihr =>
    obtain ⟨hl, hr, hlr⟩ := h
    have hl := ihl hl
    have hr := ihr hr
    rw [inorder_node, List.length_append, List.length_cons, height, ← hlr, Nat.max_self,
      Nat.pow_succ, ← hl]
    rw [← hlr, ← hl] at hr
    omega

/-- Such a tree, if it is balanced, has at least half the nodes that its height has room for. -/
theorem Edge.two_pow_le {t : Tree} (h : t.Edge) (hb : t.Balanced) :
    2 ^ t.height ≤ 2 * t.inorder.length + 1 := by
  induction t with
  | nil => exact Nat.le_refl 1
  | node l a ht r _ ihr =>
    obtain ⟨hl, hr⟩ := h
    obtain ⟨-, hbr, h₁, h₂⟩ := hb
    have hlen := hl.length_eq
    have hr := ihr hr hbr
    rw [height, inorder_node, List.length_append, List.length_cons, Nat.pow_succ]
    rcases Nat.lt_or_ge l.height r.height with hlr | hlr
    · have hrl : r.height = l.height + 1 := by omega
      rw [Nat.max_eq_right (Nat.le_of_lt hlr)]
      rw [hrl, Nat.pow_succ] at hr ⊢
      omega
    · rw [Nat.max_eq_left hlr]
      omega

theorem Edge.height_eq {t : Tree} (h : t.Edge) (hb : t.Balanced) :
    t.height = Nat.size t.inorder.length := by
  apply Nat.le_antisymm _ t.size_le_height
  have hle := h.two_pow_le hb
  cases hh : t.height with
  | zero => exact Nat.zero_le _
  | succ n =>
    rw [hh, Nat.pow_succ] at hle
    exact Nat.lt_size.2 (by omega)

/-- A leaf hung at the end of the right edge. -/
structure Hung (t t' : Tree) : Prop where
  sound : t'.Sound
  edge : t'.Edge
  grown : t'.getHeight = t.getHeight ∨ (t'.getHeight = t.getHeight + 1 ∧ (t = nil ∨ t'.blfactor = 1))

theorem Perfect.blfactor_eq {t : Tree} (h : t.Perfect) (hx : t.Exact) : t.blfactor = 0 := by
  cases t with
  | nil => rfl
  | node l a ht r =>
    have hlr := h.2.2
    rw [hx.1.height_eq, hx.2.1.height_eq] at hlr
    rw [blfactor_node, hlr]
    exact Int.sub_self _

theorem place_edge (c : Nat) {t t' : Tree} {p : List Bool} (hs : t.Sound) (he : t.Edge)
    (hp : ∀ b ∈ p, b = false) (e : place c p t = some t') : Hung t t' := by
  induction t generalizing p t' with
  | nil =>
    cases p with
    | nil =>
      cases e
      exact ⟨(sound_mk c).2 ⟨sound_nil, sound_nil, by simp, by simp⟩, ⟨trivial, trivial⟩,
        .inr ⟨rfl, .inl rfl⟩⟩
    | cons b p => cases b <;> cases e
  | node l a ht r _ ihr =>
    cases p with
    | nil => cases e
    | cons b p =>
      obtain rfl := hp b List.mem_cons_self
      obtain ⟨r', er, e⟩ := Option.bind_eq_some_iff.1 e
      have hmk := exact_eq_mk hs.exact
      rw [hmk] at hs ⊢
      obtain ⟨hsl, hsr, h₁, h₂⟩ := (sound_mk a).1 hs
      obtain ⟨hel, her⟩ := he
      have ih := ihr hsr her (fun b hb => hp b (List.mem_cons_of_mem _ hb)) er
      have hlight : r'.getHeight ≤ l.getHeight + 1 → t' = mk l a r' := by
        intro hlow
        rw [rightBalance_light (by rw [blfactor_mk]; omega)] at e
        exact (Option.some.inj e).symm
      have hedge : (mk l a r').Edge := ⟨hel, ih.edge⟩
      rcases ih.grown with hsame | ⟨hmore, hlean⟩
      · obtain rfl := hlight (by omega)
        exact ⟨(sound_mk a).2 ⟨hsl, ih.sound, by omega, by omega⟩, hedge,
          .inl (by rw [getHeight_mk, getHeight_mk, hsame])⟩
      · rcases Nat.lt_or_ge l.getHeight r.getHeight with hover | hroom
        · -- the right side is two higher now, and leans right itself
          have hlean : r'.blfactor = 1 := by
            apply hlean.resolve_left
            rintro rfl
            exact Nat.not_lt_zero _ hover
          match r', ih.sound, ih.edge, hlean with
          | node rl b n rr, hs', ⟨hprl, herr⟩, hlean =>
            have hmk' := exact_eq_mk hs'.exact
            rw [hmk'] at e hs' hmore
            obtain ⟨hsrl, hsrr, -, -⟩ := (sound_mk b).1 hs'
            rw [blfactor_node] at hlean
            rw [getHeight_mk] at hmore
            have hzero := hprl.blfactor_eq hsrl.exact
            rw [rightBalance_single a b (by rw [getHeight_mk]; omega) (by omega) (by omega)] at e
            obtain rfl := Option.some.inj e
            have hequal : l.height = rl.height := by
              rw [hsl.exact.height_eq, hsrl.exact.height_eq]
              omega
            have hlow : (mk l a rl).Sound := (sound_mk a).2 ⟨hsl, hsrl, by omega, by omega⟩
            refine ⟨(sound_mk b).2 ⟨hlow, hsrr, ?_, ?_⟩, ⟨⟨hel, hprl, hequal⟩, herr⟩, .inl ?_⟩
            all_goals
              simp only [getHeight_mk]
              omega
        · obtain rfl := hlight (by omega)
          refine ⟨(sound_mk a).2 ⟨hsl, ih.sound, by omega, by omega⟩, hedge, ?_⟩
          rw [getHeight_mk, getHeight_mk, blfactor_mk]
          omega

end Tree

section
variable {α : Type} {comp : α → α → Int}

/-- The way of an element above all others turns right at every node. -/
theorem path_above {x : α} {h : Heap α} {t : Tree}
    (hc : ∀ a ∈ t.inorder, ∃ c, h.cell a = some c ∧ 0 < comp x c.data) :
    ∀ b ∈ path comp x h t, b = false := by
  induction t with
  | nil => exact fun b hb => nomatch hb
  | node l a ht r _ ihr =>
    rw [inorder_node] at hc
    obtain ⟨c, hcell, hgt⟩ := hc a (by simp)
    rw [path_right hcell hgt]
    intro b hb
    rcases List.mem_cons.1 hb with rfl | hb
    · rfl
    · exact ihr (fun d hd => hc d (by simp [hd])) b hb

variable (ho : TotalOrder comp)
include ho

/-- In a run whose calls all fit, the tree has at least as many nodes as a Fibonacci tree of
    its height, and no search makes more turns than that. -/
theorem height_of_fits {s : State α}
    (h : Machine.Reached (step comp) (Fits comp) State.init s) :
    Nat.fib (s.desc.root.height + 2) ≤ s.elems.length + 1 ∧
      ∀ x, (path comp x s.heap s.desc.root).length ≤ s.desc.root.height := by
  classical
  have inv : ∃ l S, Rep comp s l S ∧ s.desc.root.Sound := by
    apply h.invariant
    · exact ⟨[], ∅, Rep.init, sound_nil⟩
    · intro s op o s' ⟨l, S, hr, hs⟩ hf e
      exact step_sound ho hr hs op hf e
  obtain ⟨l, S, hr, hs⟩ := inv
  refine ⟨?_, fun x => path_length_le comp x s.heap s.desc.root⟩
  have hlen : s.elems.length = s.desc.root.inorder.length := by
    rw [hr.elems, hr.inorder, List.length_map, List.length_map]
  rw [hlen]
  exact fib_le hs.balanced

/-- Ascending insertions, one after the other. -/
theorem ascending_insert [DecidableEq α] (xs : List α) (hx : xs.Pairwise fun x y => comp x y < 0)
    {s : State α} {l : List (Nat × α)} {S : Finset α} (hr : Rep comp s l S)
    (hs : s.desc.root.Sound) (he : s.desc.root.Edge)
    (habove : ∀ x ∈ xs, ∀ y ∈ S, comp y x < 0) :
    ∃ s' l', Machine.run (step comp) (xs.map Op.insert) s =
        some (List.replicate xs.length 0, s') ∧
      Rep comp s' l' (S ∪ xs.toFinset) ∧ s'.desc.root.Sound ∧ s'.desc.root.Edge := by
  induction xs generalizing s l S with
  | nil => exact ⟨s, l, rfl, by simpa using hr, hs, he⟩
  | cons x xs ih =>
    obtain ⟨hxy, hxs⟩ := List.pairwise_cons.1 hx
    have hnew : x ∉ S := fun hm => ho.ne_of_lt (habove x List.mem_cons_self x hm) rfl
    obtain ⟨s₁, l₁, e₁, hr₁, -, hplace⟩ := hr.insert_not_mem ho hnew
    have hright : ∀ b ∈ path comp x s.heap s.desc.root, b = false := by
      apply path_above
      intro a ha
      rw [hr.inorder] at ha
      obtain ⟨⟨a, y⟩, hy, rfl⟩ := List.mem_map.1 ha
      obtain ⟨q, r, hcell⟩ := hr.stored.chain.cell hy
      have hyS : y ∈ S := (hr.mem y).2 (List.mem_map_of_mem hy)
      exact ⟨_, hcell, (ho.neg_iff _ _).1 (habove x List.mem_cons_self y hyS)⟩
    have hhung := place_edge _ hs he hright hplace
    obtain ⟨s', l', e, hr', hs', he'⟩ := ih hxs hr₁ hhung.sound hhung.edge (by
      intro z hz y hy
      rcases Finset.mem_insert.1 hy with rfl | hy
      · exact hxy z hz
      · exact habove z (List.mem_cons_of_mem x hz) y hy)
    have hunion : Insert.insert x S ∪ xs.toFinset = S ∪ (x :: xs).toFinset := by
      rw [List.toFinset_cons, Finset.insert_union, Finset.union_insert]
    rw [hunion] at hr'
    refine ⟨s', l', ?_, hr', hs', he'⟩
    rw [List.map_cons, Machine.run, e₁, Option.bind_eq_bind, Option.bind_some]
    dsimp only
    rw [e]
    rfl

/-- **Ascending elements.** However many elements are inserted in ascending order, every
    insertion succeeds, the tree lists them, and it is balanced and as low as any tree
    with as many nodes: no search makes more turns than their number has bits. -/
theorem ascending_height (xs : List α) (hx : xs.Pairwise fun x y => comp x y < 0) :
    ∃ s, Machine.run (step comp) (xs.map Op.insert) State.init =
        some (List.replicate xs.length 0, s) ∧
      s.elems = xs ∧ s.desc.root.Balanced ∧ s.desc.root.height = Nat.size xs.length ∧
      (∀ t : Tree, t.inorder.length = xs.length → s.desc.root.height ≤ t.height) ∧
      ∀ x, (path comp x s.heap s.desc.root).length ≤ Nat.size xs.length := by
  classical
  obtain ⟨s, l, e, hr, hs, he⟩ := ascending_insert ho xs hx Rep.init sound_nil trivial
    (fun _ _ _ hy => nomatch hy)
  rw [Finset.empty_union] at hr
  have hne : ∀ {ys : List α}, (ys.Pairwise fun x y => comp x y < 0) → ys.Nodup :=
    fun h => h.imp fun h => ho.ne_of_lt h
  have helems : s.elems = xs := by
    rw [hr.elems]
    have hperm : (l.map Prod.snd).Perm xs := by
      rw [List.perm_ext_iff_of_nodup (hne hr.stored.sorted) (hne hx)]
      intro y
      rw [← hr.mem, List.mem_toFinset]
    apply List.Perm.eq_of_pairwise _ hr.stored.sorted hx hperm
    intro a b _ _ hab hba
    have hpos := (ho.neg_iff a b).1 hab
    omega
  have hlen : s.desc.root.inorder.length = xs.length := by
    rw [← helems, hr.elems, hr.inorder, List.length_map, List.length_map]
  have hheight : s.desc.root.height = Nat.size xs.length := by
    rw [he.height_eq hs.balanced, hlen]
  refine ⟨s, e, helems, hs.balanced, hheight, fun t ht => ?_, fun x => ?_⟩
  · rw [hheight, ← ht]
    exact t.size_le_height
  · rw [← hheight]
    exact path_length_le comp x s.heap s.desc.root

end

theorem height_of_fits_byValue :
    ∃ s, Machine.run (step byValue) [.insert 4, .insert 2, .insert 3, .insert 1, .erase 4]
        State.init = some ([0, 0, 0, 0, 0], s) ∧
      Nat.fib (s.desc.root.height + 2) ≤ s.elems.length + 1 ∧
      ∀ x, (path byValue x s.heap s.desc.root).length ≤ s.desc.root.height :=
  ⟨_, rfl, height_of_fits byValue_total (Machine.Reached.init.of_run
    (show Machine.Along (step byValue) (Fits byValue)
      [.insert 4, .insert 2, .insert 3, .insert 1, .erase 4] State.init by decide) rfl)⟩

theorem ascending_height_byValue :
    ∃ s, Machine.run (step byValue) ([1, 2, 3, 4, 5, 6].map Op.insert) State.init =
        some (List.replicate 6 0, s) ∧
      s.elems = [1, 2, 3, 4, 5, 6] ∧ s.desc.root.Balanced ∧ s.desc.root.height = Nat.size 6 ∧
      (∀ t : Tree, t.inorder.length = 6 → s.desc.root.height ≤ t.height) ∧
      ∀ x, (path byValue x s.heap s.desc.root).length ≤ Nat.size 6 :=
  ascending_height byValue_total [1, 2, 3, 4, 5, 6] (by decide)

end Zhwkrfsp.AVLTree
