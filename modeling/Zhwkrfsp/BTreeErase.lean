import Zhwkrfsp.BTreeInsert

/- Erasure from a valid 2-3 tree. A subtree that lost its last pair is a node with its
   one child at 0 (`Erased.hole`); a rotation fills it from a sibling that can spare a
   pair, a merge closes it or hands it to the parent. Either way the tree reads as
   before. -/
namespace Zhwkrfsp.BTree
open Node

section
variable {κ υ : Type} {comp : κ → κ → Int} {n : Nat} {t c0 c1 c2 : Node κ υ} {p q : κ × υ}
  {xs : List (κ × υ)} {st : Int32}

/-- What an erasure from a tree of depth `n` leaves: a tree that reads `xs`, or a node
    without pairs whose only child reads `xs`. -/
inductive Erased : Nat → List (κ × υ) → Int32 → Node κ υ → Prop
  | done {n : Nat} {xs : List (κ × υ)} {t : Node κ υ} :
    Shape n t → t.toList = xs → Erased n xs 0 t
  | hole {n : Nat} {xs : List (κ × υ)} {c : Node κ υ} :
    Shape n c → c.toList = xs → Erased (n + 1) xs 1 (mk none none c null null none null)

/-- A call that returns such an outcome. -/
def Erases (n : Nat) (xs : List (κ × υ)) (r : Option (Int32 × Node κ υ)) : Prop :=
  ∃ st t, r = some (st, t) ∧ Erased n xs st t

@[simp] theorem spare_two : spare (mk (some p) none c0 c1 null none null) = false := rfl

@[simp] theorem spare_three : spare (mk (some p) (some q) c0 c1 c2 none null) = true := rfl

@[simp] theorem spare_null : spare (null : Node κ υ) = false := rfl

/-! The four ways through the work after an erasure in a child. -/

section
variable {root root' : Node κ υ} {which : Nat} {left right : Bool}

theorem postWork_zero : postWork 0 left right root which = some (0, root) := rfl

theorem postWork_left (e : rotateLeft root which = some (0, root')) :
    postWork 1 true right root which = some (0, root') := by
  rw [postWork, if_neg (by decide)]
  simp [e]

theorem postWork_right (hl : left = true → rotateLeft root which = some (-1, root))
    (e : rotateRight root which = some (0, root')) :
    postWork 1 left true root which = some (0, root') := by
  rw [postWork, if_neg (by decide)]
  cases left with
  | false => simp [e]
  | true => simp [hl rfl, e]

theorem postWork_merge (hl : left = true → rotateLeft root which = some (-1, root))
    (hr : right = true → rotateRight root which = some (-1, root)) :
    postWork 1 left right root which = merge root which := by
  rw [postWork, if_neg (by decide)]
  cases left with
  | false =>
    cases right with
    | false => rfl
    | true => simp [hr rfl]
  | true =>
    cases right with
    | false => simp [hl rfl]
    | true => simp [hl rfl, hr rfl]

end

/-- The left sibling of a leaf takes the pair only, that of a node the child too. -/
theorem absorb_two {a0 a1 c : Node κ υ} {b : κ × υ} (h1 : Shape n a1) (hc : Shape n c) :
    absorb (mk (some b) none a0 a1 null none null) (some p) (mk none none c null null none null) =
      some (mk (some b) (some p) a0 a1 c none null) := by
  cases n with
  | zero =>
    cases h1.eq_null
    cases hc.eq_null
    rfl
  | succ n => simp [absorb, h1.isNull_succ]

/-! The tree after that work, by the child and the number of pairs. -/

theorem postWork_two_zero (h0 : Erased n xs st c0) (h1 : Shape n c1) :
    Erases (n + 1) (xs ++ p :: c1.toList)
      (postWork st true false (mk (some p) none c0 c1 null none null) 0) := by
  cases h0 with
  | done h0 hxs => exact ⟨0, _, postWork_zero, .done (.two p h0 h1) (by simp [hxs])⟩
  | @hole n _ c hc hxs =>
    cases h1 with
    | two b h1 h1' =>
      refine ⟨1, _, postWork_merge (fun _ => rfl) nofun, .hole (.three p b hc h1 h1') ?_⟩
      simp [hxs]
    | three b d h1 h1' h1'' =>
      refine ⟨0, _, postWork_left rfl, .done (.two b (.two p hc h1) (.two d h1' h1'')) ?_⟩
      simp [hxs]

theorem postWork_two_one (left : Bool) (h0 : Shape n c0) (h1 : Erased n xs st c1) :
    Erases (n + 1) (c0.toList ++ p :: xs)
      (postWork st left true (mk (some p) none c0 c1 null none null) 1) := by
  cases h1 with
  | done h1 hxs => exact ⟨0, _, postWork_zero, .done (.two p h0 h1) (by simp [hxs])⟩
  | @hole n _ c hc hxs =>
    cases h0 with
    | @two _ a0 a1 b h0 h0' =>
      refine ⟨1, mk none none (mk (some b) (some p) a0 a1 c none null) null null none null, ?_,
        .hole (.three b p h0 h0' hc) ?_⟩
      · rw [postWork_merge (fun _ => rfl) (fun _ => rfl), merge, absorb_two h0' hc]
        rfl
      · simp [hxs]
    | three b d h0 h0' h0'' =>
      refine ⟨0, _, postWork_right (fun _ => rfl) rfl,
        .done (.two d (.two b h0 h0') (.two p h0'' hc)) ?_⟩
      simp [hxs]

theorem postWork_three_zero (h0 : Erased n xs st c0) (h1 : Shape n c1) (h2 : Shape n c2) :
    Erases (n + 1) (xs ++ p :: (c1.toList ++ q :: c2.toList))
      (postWork st true false (mk (some p) (some q) c0 c1 c2 none null) 0) := by
  cases h0 with
  | done h0 hxs => exact ⟨0, _, postWork_zero, .done (.three p q h0 h1 h2) (by simp [hxs])⟩
  | @hole n _ c hc hxs =>
    cases h1 with
    | two b h1 h1' =>
      refine ⟨0, _, postWork_merge (fun _ => rfl) nofun,
        .done (.two q (.three p b hc h1 h1') h2) ?_⟩
      simp [hxs]
    | three b d h1 h1' h1'' =>
      refine ⟨0, _, postWork_left rfl, .done (.three b q (.two p hc h1) (.two d h1' h1'') h2) ?_⟩
      simp [hxs]

theorem postWork_three_one (h0 : Shape n c0) (h1 : Erased n xs st c1) (h2 : Shape n c2) :
    Erases (n + 1) (c0.toList ++ p :: (xs ++ q :: c2.toList))
      (postWork st true true (mk (some p) (some q) c0 c1 c2 none null) 1) := by
  cases h1 with
  | done h1 hxs => exact ⟨0, _, postWork_zero, .done (.three p q h0 h1 h2) (by simp [hxs])⟩
  | @hole n _ c hc hxs =>
    cases h2 with
    | three b d h2 h2' h2'' =>
      refine ⟨0, _, postWork_left rfl, .done (.three p b h0 (.two q hc h2) (.two d h2' h2'')) ?_⟩
      simp [hxs]
    | two f h2 h2' =>
      cases h0 with
      | three b d h0 h0' h0'' =>
        refine ⟨0, _, postWork_right (fun _ => rfl) rfl,
          .done (.three d q (.two b h0 h0') (.two p h0'' hc) (.two f h2 h2')) ?_⟩
        simp [hxs]
      | @two _ a0 a1 b h0 h0' =>
        refine ⟨0, mk (some q) none (mk (some b) (some p) a0 a1 c none null) _ null none null, ?_,
          .done (.two q (.three b p h0 h0' hc) (.two f h2 h2')) ?_⟩
        · rw [postWork_merge (fun _ => rfl) (fun _ => rfl), merge, absorb_two h0' hc]
          rfl
        · simp [hxs]

theorem postWork_three_two (h0 : Shape n c0) (h1 : Shape n c1) (h2 : Erased n xs st c2) :
    Erases (n + 1) (c0.toList ++ p :: (c1.toList ++ q :: xs))
      (postWork st false true (mk (some p) (some q) c0 c1 c2 none null) 2) := by
  cases h2 with
  | done h2 hxs => exact ⟨0, _, postWork_zero, .done (.three p q h0 h1 h2) (by simp [hxs])⟩
  | @hole n _ c hc hxs =>
    cases h1 with
    | three b d h1 h1' h1'' =>
      refine ⟨0, _, postWork_right nofun rfl,
        .done (.three p d h0 (.two b h1 h1') (.two q h1'' hc)) ?_⟩
      simp [hxs]
    | @two _ a0 a1 b h1 h1' =>
      refine ⟨0, mk (some p) none c0 (mk (some b) (some q) a0 a1 c none null) null none null, ?_,
        .done (.two p h0 (.three b q h1 h1' hc)) ?_⟩
      · rw [postWork_merge (fun h => absurd h (by simp)) (fun _ => rfl), merge, absorb_two h1' hc]
        rfl
      · simp [hxs]

/-! The minimum. -/

theorem recursiveEraseMin_spec (hs : Shape (n + 1) t) :
    ∃ m xs, t.toList = m :: xs ∧ getMin t = some (some m) ∧
      Erases (n + 1) xs (recursiveEraseMin t) := by
  induction n generalizing t with
  | zero =>
    cases hs with
    | two p h0 h1 =>
      cases h0.eq_null
      cases h1.eq_null
      exact ⟨p, [], rfl, rfl, 1, _, by simp [recursiveEraseMin], .hole .empty rfl⟩
    | three p q h0 h1 h2 =>
      cases h0.eq_null
      cases h1.eq_null
      cases h2.eq_null
      exact ⟨p, [q], rfl, rfl, 0, _, by simp [recursiveEraseMin], .done (shape_leaf q) rfl⟩
  | succ n ih =>
    cases hs with
    | @two _ c0 c1 p h0 h1 =>
      obtain ⟨m, xs, hm, hg, st, c0', e, he⟩ := ih h0
      refine ⟨m, xs ++ p :: c1.toList, by simp [hm], by simp [getMin, h0.isNull_succ, hg], ?_⟩
      have := postWork_two_zero (p := p) he h1
      simpa [recursiveEraseMin, h0.isNull_succ, e] using this
    | @three _ c0 c1 c2 p q h0 h1 h2 =>
      obtain ⟨m, xs, hm, hg, st, c0', e, he⟩ := ih h0
      refine ⟨m, xs ++ p :: (c1.toList ++ q :: c2.toList), by simp [hm],
        by simp [getMin, h0.isNull_succ, hg], ?_⟩
      have := postWork_three_zero (p := p) (q := q) he h1 h2
      simpa [recursiveEraseMin, h0.isNull_succ, e] using this

/-! Any key. -/

theorem recursiveErase_spec (ho : TotalOrder comp) {key : κ} (hs : Shape n t)
    (hl : Sorted comp t.toList) (hkey : ¬Absent comp key t.toList) :
    Erases n (eraseKey comp key t.toList) (recursiveErase comp key t) := by
  induction hs with
  | empty => exact absurd nofun hkey
  | @two n c0 c1 p h0 h1 ih0 ih1 =>
    rw [toList_two] at hl hkey ⊢
    obtain ⟨hl0, hl1, hxp, hpy, -⟩ := sorted_append_cons.1 hl
    by_cases hp : comp key p.1 = 0
    · rw [eraseKey_mid ho hp hxp hpy]
      cases n with
      | zero =>
        cases h0.eq_null
        cases h1.eq_null
        exact ⟨1, _, by simp [recursiveErase, hp, getMin, recursiveEraseMin], .hole .empty rfl⟩
      | succ n =>
        -- the successor takes the place of the pair
        obtain ⟨m, xs, hm, hg, st, c1', e, he⟩ := recursiveEraseMin_spec h1
        have := postWork_two_one (p := m) true h0 he
        simpa [recursiveErase, hp, hg, e, hm] using this
    · obtain hlt | hgt := ho.lt_or_gt hp
      · have hkey0 : ¬Absent comp key c0.toList := fun h =>
          hkey (h.append (.of_lt ho hlt hpy))
        obtain ⟨st, c0', e, he⟩ := ih0 hl0 hkey0
        rw [eraseKey_left ho hlt hpy]
        have := postWork_two_zero (p := p) he h1
        simpa [recursiveErase, hp, hlt, e] using this
      · have hkey1 : ¬Absent comp key c1.toList := fun h => by
          refine hkey (.append (.of_gt ho hgt hxp) fun x hx => ?_)
          obtain rfl | hx := List.mem_cons.1 hx
          · exact hp
          · exact h x hx
        obtain ⟨st, c1', e, he⟩ := ih1 hl1 hkey1
        rw [eraseKey_right ho hgt hxp]
        have := postWork_two_one (p := p) false h0 he
        simpa [recursiveErase, hp, ho.not_lt hgt, e] using this
  | @three n c0 c1 c2 p q h0 h1 h2 ih0 ih1 ih2 =>
    rw [toList_three] at hl hkey ⊢
    obtain ⟨hl0, hl12, hxp, hpy, -⟩ := sorted_append_cons.1 hl
    obtain ⟨hl1, hl2, hxq, hqy, -⟩ := sorted_append_cons.1 hl12
    by_cases hp : comp key p.1 = 0
    · rw [eraseKey_mid ho hp hxp hpy]
      cases n with
      | zero =>
        cases h0.eq_null
        cases h1.eq_null
        cases h2.eq_null
        exact ⟨0, _, by simp [recursiveErase, hp, getMin, recursiveEraseMin], .done (shape_leaf q) rfl⟩
      | succ n =>
        obtain ⟨m, xs, hm, hg, st, c1', e, he⟩ := recursiveEraseMin_spec h1
        have := postWork_three_one (p := m) (q := q) h0 he h2
        simpa [recursiveErase, hp, hg, e, hm] using this
    · obtain hlt | hgt := ho.lt_or_gt hp
      · have hkey0 : ¬Absent comp key c0.toList := fun h =>
          hkey (h.append (.of_lt ho hlt hpy))
        obtain ⟨st, c0', e, he⟩ := ih0 hl0 hkey0
        rw [eraseKey_left ho hlt hpy]
        have := postWork_three_zero (p := p) (q := q) he h1 h2
        simpa [recursiveErase, hp, hlt, e] using this
      · have hkey12 : ¬Absent comp key (c1.toList ++ q :: c2.toList) := fun h => by
          refine hkey (.append (.of_gt ho hgt hxp) fun x hx => ?_)
          obtain rfl | hx := List.mem_cons.1 hx
          · exact hp
          · exact h x hx
        rw [eraseKey_right ho hgt hxp]
        by_cases hq : comp key q.1 = 0
        · rw [eraseKey_mid ho hq hxq hqy]
          cases n with
          | zero =>
            cases h0.eq_null
            cases h1.eq_null
            cases h2.eq_null
            refine ⟨0, _, ?_, .done (shape_leaf p) rfl⟩
            simp [recursiveErase, hp, ho.not_lt hgt, hq, getMin]
          | succ n =>
            obtain ⟨m, xs, hm, hg, st, c2', e, he⟩ := recursiveEraseMin_spec h2
            have := postWork_three_two (p := p) (q := m) h0 h1 he
            simpa [recursiveErase, hp, ho.not_lt hgt, hq, hg, e, hm] using this
        · obtain hlt' | hgt' := ho.lt_or_gt hq
          · have hkey1 : ¬Absent comp key c1.toList := fun h =>
              hkey12 (h.append (.of_lt ho hlt' hqy))
            obtain ⟨st, c1', e, he⟩ := ih1 hl1 hkey1
            rw [eraseKey_left ho hlt' hqy]
            have := postWork_three_one (p := p) (q := q) h0 he h2
            simpa [recursiveErase, hp, ho.not_lt hgt, hq, hlt', e] using this
          · have hkey2 : ¬Absent comp key c2.toList := fun h => by
              refine hkey12 (.append (.of_gt ho hgt' hxq) fun x hx => ?_)
              obtain rfl | hx := List.mem_cons.1 hx
              · exact hq
              · exact h x hx
            obtain ⟨st, c2', e, he⟩ := ih2 hl2 hkey2
            rw [eraseKey_right ho hgt' hxq]
            have := postWork_three_two (p := p) (q := q) h0 h1 he
            simpa [recursiveErase, hp, ho.not_lt hgt, hq, ho.not_lt hgt', e] using this

end

end Zhwkrfsp.BTree
