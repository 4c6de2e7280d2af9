import Zhwkrfsp.BTreeIterator
import Zhwkrfsp.BTreeMap

/- Runs in which every key that is inserted is above the keys that are there, as in
   `zhwkre/tests/btree_test.c`; keys are erased in any order. Such a key goes down the
   right edge, where no child 0 splits, so the B-tree never goes wrong: it is the map
   that was meant, and iteration in either direction lists it (`ascending_runs`). -/
namespace Zhwkrfsp.BTree
open Node

section
variable {κ υ : Type} (comp : κ → κ → Int)

/-- An inserted key is above those in the tree, and the size does not wrap. -/
def Above (desc : Descriptor κ υ) : Op κ υ → Prop
  | .insert pair => (∀ x ∈ desc.root.toList, 0 < comp pair.1 x.1) ∧ desc.size.toNat + 1 < 2 ^ 32
  | .erase _ => True

instance (desc : Descriptor κ υ) : (op : Op κ υ) → Decidable (Above comp desc op)
  | .insert _ => inferInstanceAs (Decidable (_ ∧ _))
  | .erase _ => .isTrue trivial

variable {comp} {n : Nat} {t : Node κ υ} {desc : Descriptor κ υ} {m : κ → Option υ}

/-- The way of a key above all others takes no child 0. -/
theorem Shape.safe_of_above (hs : Shape n t) {key : κ} (h : ∀ x ∈ t.toList, 0 < comp key x.1) :
    safe comp key t = true := by
  induction hs with
  | empty => rfl
  | @two n c0 c1 p _ _ _ ih1 =>
    rw [toList_two] at h
    have hp : ¬comp key p.1 < 0 := by
      have hp := h p (by simp)
      omega
    have h1 : ∀ x ∈ c1.toList, 0 < comp key x.1 := fun x hx => h x (by simp [hx])
    simpa [safe, way, hp] using ih1 h1
  | @three n c0 c1 c2 p q _ _ _ _ _ ih2 =>
    rw [toList_three] at h
    have hp : ¬comp key p.1 < 0 := by
      have hp := h p (by simp)
      omega
    have hq : ¬comp key q.1 < 0 := by
      have hq := h q (by simp)
      omega
    have h2 : ∀ x ∈ c2.toList, 0 < comp key x.1 := fun x hx => h x (by simp [hx])
    simpa [safe, way, hp, hq] using ih2 h2

theorem Rep.above (ho : TotalOrder comp) (hr : Rep comp desc m) {op : Op κ υ} (h : Above comp desc op) :
    fits comp desc op ∧ ∀ k ∈ inserted [op], m k = none := by
  cases op with
  | erase key => exact ⟨trivial, fun k hk => nomatch hk⟩
  | insert pair =>
    obtain ⟨n, hs⟩ := hr.shape
    refine ⟨⟨hs.safe_of_above h.1, h.2⟩, fun k hk => ?_⟩
    obtain rfl := List.mem_singleton.1 hk
    cases hm : m pair.1 with
    | none => rfl
    | some v =>
      have hself := ho.self pair.1
      have habove : 0 < comp pair.1 pair.1 := h.1 (pair.1, v) ((hr.lookup pair.1 v).1 hm)
      omega

/-- **Ascending keys.** In every run of insertions of keys above those that are there, and
    of erasures, each call answers as the map does. Afterwards `next` from `begin` visits
    the pairs of the map in ascending order and then is at an end, `prev` from `end`
    visits them in descending order, `size` is their number, and search finds a key
    exactly when the map has it. -/
theorem ascending_runs [DecidableEq κ] (ho : TotalOrder comp) (ops : List (Op κ υ))
    (hok : Machine.Along (step comp) (Above comp) ops (constructor : Descriptor κ υ)) :
    ∃ desc m xs, Machine.run (step comp) ops constructor =
        some ((Machine.runs mapStep ops fun _ => none).1, desc) ∧
      m = (Machine.runs mapStep ops fun _ => none).2 ∧
      Sorted comp xs ∧ (∀ k v, m k = some v ↔ (k, v) ∈ xs) ∧ desc.size.toNat = xs.length ∧
      (∃ its, its.map (iteratorDeref desc.root) = xs.map some ∧
        (∃ start, iterBegin desc = some start ∧ Walk (iterNext desc.root) start its none) ∧
        ∃ start, iterEnd desc = some start ∧ Walk (iterPrev desc.root) start its.reverse none) ∧
      (∀ k v, m k = some v → ∃ iter, ptrAt comp desc k = some (0, some iter) ∧
        iteratorDeref desc.root iter = some (k, v)) ∧
      ∀ k, m k = none → ptrAt comp desc k = some (-1, none) := by
  have hsim : ∀ (desc : Descriptor κ υ) (m : κ → Option υ) (op : Op κ υ), Rep comp desc m →
      Above comp desc op → ∃ desc', step comp desc op = some ((mapStep m op).1, desc') ∧
        Rep comp desc' (mapStep m op).2 := by
    intro desc m op hr h
    obtain ⟨hfits, hnew⟩ := hr.above ho h
    exact hr.sim ho op hfits hnew
  obtain ⟨desc, e, hr⟩ := Machine.refines_along hsim ops constructor _ Rep.init hok
  obtain ⟨n, hs⟩ := hr.shape
  have hdepth : n ≤ 32 := hr.depth hs
  have hn : n ≤ 100 := by omega
  refine ⟨desc, _, desc.root.toList, e, rfl, hr.sorted, hr.lookup, hr.size, ?_,
    fun k v h => hr.ptrAt_some ho h, fun k h => hr.ptrAt_none ho h⟩
  exact ⟨entries desc.root [], entries_deref hs rfl, iterBegin_walk hs hn, iterEnd_walk hs hn⟩

end

/-- Four keys, and the odd ones erased. -/
theorem ascending_runs_byValue :
    ∃ (desc : Descriptor UInt64 UInt64) (xs : List (UInt64 × UInt64)) (its : List Iterator),
      Machine.run (step byValue) [.insert (0, 1), .insert (1, 2), .insert (2, 3), .insert (3, 4),
        .erase 1, .erase 3] constructor = some ([0, 0, 0, 0, 0, 0], desc) ∧
      (0, 1) ∈ xs ∧ (2, 3) ∈ xs ∧ xs.length = 2 ∧ its.map (iteratorDeref desc.root) = xs.map some ∧
      ∃ start, iterBegin desc = some start ∧ Walk (iterNext desc.root) start its none := by
  obtain ⟨desc, m, xs, e, rfl, -, hmem, hsize, ⟨its, hits, hwalk, -⟩, -, -⟩ :=
    ascending_runs byValue_total [.insert (0, (1 : UInt64)), .insert (1, 2), .insert (2, 3),
      .insert (3, 4), .erase 1, .erase 3] (by decide)
  have hlen : desc.size.toNat = 2 := by
    cases e
    rfl
  exact ⟨desc, xs, its, e, (hmem 0 1).1 rfl, (hmem 2 3).1 rfl, hsize.symm.trans hlen, hits, hwalk⟩

end Zhwkrfsp.BTree
