import Zhwkrfsp.BTreeErase
import Zhwkrfsp.Machine
import Mathlib.Data.List.Nodup
import Mathlib.Logic.Function.Basic

/- The B-tree as a map. Runs of insertions of distinct keys and of erasures agree with a
   map as long as every insertion goes along a safe path and the size does not wrap:
   every tree reached is a valid 2-3 tree, and search finds what was inserted and not
   erased since. -/
namespace Zhwkrfsp.BTree
open Node

section
variable {κ υ : Type} {comp : κ → κ → Int} {n : Nat} {t : Node κ υ} {track : List Nat}

/-! Search. -/

theorem push_eq (h : track.length < 100) (childno : Nat) :
    push track childno = some (track ++ [childno]) := by
  rw [push, if_pos h]

variable (comp) in
/-- The search from `t` on ends at the pair, and the track records the way to it. -/
def Finds (k : κ) (v : υ) (t : Node κ υ) (track : List Nat) : Prop :=
  ∃ path which, recursiveSearch comp k t track = some (0, some ⟨track ++ path, which⟩) ∧
    iteratorDeref t ⟨path, which⟩ = some (k, v)

theorem Finds.child {k : κ} {v : υ} {c : Node κ υ} {i : Nat} (h : Finds comp k v c (track ++ [i]))
    (hc : t.child i = some c)
    (e : recursiveSearch comp k t track = recursiveSearch comp k c (track ++ [i])) :
    Finds comp k v t track := by
  obtain ⟨path, which, es, ed⟩ := h
  refine ⟨i :: path, which, ?_, ?_⟩
  · rw [e, es, List.append_assoc]
    rfl
  · rw [← ed]
    simp [iteratorDeref, Node.reach, hc]

theorem recursiveSearch_mem (ho : TotalOrder comp) {k : κ} {v : υ} (hs : Shape n t)
    (hl : Sorted comp t.toList) (h : (k, v) ∈ t.toList) (ht : track.length + n ≤ 100) :
    Finds comp k v t track := by
  have hself := ho.self k
  induction hs generalizing track with
  | empty => cases h
  | @two n c0 c1 p h0 h1 ih0 ih1 =>
    rw [toList_two] at hl h
    obtain ⟨hl0, hl1, hxp, hpy, -⟩ := sorted_append_cons.1 hl
    have hpush : ∀ i, push track i = some (track ++ [i]) := push_eq (by omega)
    have hlen : ∀ i : Nat, (track ++ [i]).length + n ≤ 100 := fun i => by simp; omega
    obtain h | h := List.mem_append.1 h
    · have hlt : comp k p.1 < 0 := hxp _ h
      have hp : comp k p.1 ≠ 0 := by omega
      exact (ih0 hl0 h (hlen 0)).child rfl (by simp [recursiveSearch, hp, hlt, hpush])
    · obtain rfl | h := List.mem_cons.1 h
      · exact ⟨[], 0, by simp [recursiveSearch, hself], rfl⟩
      · have hgt : 0 < comp k p.1 := (ho.neg_iff _ _).1 (hpy _ h)
        have hp : comp k p.1 ≠ 0 := by omega
        have hnl : ¬comp k p.1 < 0 := by omega
        -- the search does not go into a NULL child
        have hc1 : c1.isNull = false := by
          cases h1 with
          | empty => cases h
          | two => rfl
          | three => rfl
        exact (ih1 hl1 h (hlen 1)).child rfl (by simp [recursiveSearch, hp, hnl, hc1, hpush])
  | @three n c0 c1 c2 p q h0 h1 h2 ih0 ih1 ih2 =>
    rw [toList_three] at hl h
    obtain ⟨hl0, hl12, hxp, hpy, -⟩ := sorted_append_cons.1 hl
    obtain ⟨hl1, hl2, hxq, hqy, -⟩ := sorted_append_cons.1 hl12
    have hpush : ∀ i, push track i = some (track ++ [i]) := push_eq (by omega)
    have hlen : ∀ i : Nat, (track ++ [i]).length + n ≤ 100 := fun i => by simp; omega
    obtain h | h := List.mem_append.1 h
    · have hlt : comp k p.1 < 0 := hxp _ h
      have hp : comp k p.1 ≠ 0 := by omega
      exact (ih0 hl0 h (hlen 0)).child rfl (by simp [recursiveSearch, hp, hlt, hpush])
    · obtain rfl | h := List.mem_cons.1 h
      · exact ⟨[], 0, by simp [recursiveSearch, hself], rfl⟩
      · have hgt : 0 < comp k p.1 := (ho.neg_iff _ _).1 (hpy _ h)
        have hp : comp k p.1 ≠ 0 := by omega
        have hnl : ¬comp k p.1 < 0 := by omega
        obtain h | h := List.mem_append.1 h
        · have hlt : comp k q.1 < 0 := hxq _ h
          have hq : comp k q.1 ≠ 0 := by omega
          exact (ih1 hl1 h (hlen 1)).child rfl
            (by simp [recursiveSearch, hp, hnl, hq, hlt, hpush])
        · obtain rfl | h := List.mem_cons.1 h
          · exact ⟨[], 1, by simp [recursiveSearch, hp, hnl, hself], rfl⟩
          · have hgt' : 0 < comp k q.1 := (ho.neg_iff _ _).1 (hqy _ h)
            have hq : comp k q.1 ≠ 0 := by omega
            have hnl' : ¬comp k q.1 < 0 := by omega
            exact (ih2 hl2 h (hlen 2)).child rfl
              (by simp [recursiveSearch, hp, hnl, hq, hnl', hpush])

theorem recursiveSearch_absent {key : κ} (hs : Shape n t) (ha : Absent comp key t.toList)
    (ht : track.length + n ≤ 100) : recursiveSearch comp key t track = some (-1, none) := by
  induction hs generalizing track with
  | empty => rfl
  | @two n c0 c1 p h0 h1 ih0 ih1 =>
    rw [toList_two] at ha
    have hpush : ∀ i, push track i = some (track ++ [i]) := push_eq (by omega)
    have hlen : ∀ i : Nat, (track ++ [i]).length + n ≤ 100 := fun i => by simp; omega
    have hp : comp key p.1 ≠ 0 := ha p (by simp)
    have e0 := ih0 ha.left (hlen 0)
    have e1 := ih1 ha.right.tail (hlen 1)
    by_cases hlt : comp key p.1 < 0
    · simp [recursiveSearch, hp, hlt, hpush, e0]
    · cases hc1 : c1.isNull <;> simp [recursiveSearch, hp, hlt, hc1, hpush, e1]
  | @three n c0 c1 c2 p q h0 h1 h2 ih0 ih1 ih2 =>
    rw [toList_three] at ha
    have hpush : ∀ i, push track i = some (track ++ [i]) := push_eq (by omega)
    have hlen : ∀ i : Nat, (track ++ [i]).length + n ≤ 100 := fun i => by simp; omega
    have hp : comp key p.1 ≠ 0 := ha p (by simp)
    have hq : comp key q.1 ≠ 0 := ha q (by simp)
    have e0 := ih0 ha.left (hlen 0)
    have e1 := ih1 ha.right.tail.left (hlen 1)
    have e2 := ih2 ha.right.tail.right.tail (hlen 2)
    by_cases hlt : comp key p.1 < 0
    · simp [recursiveSearch, hp, hlt, hpush, e0]
    · by_cases hlt' : comp key q.1 < 0
      · simp [recursiveSearch, hp, hlt, hq, hlt', hpush, e1]
      · simp [recursiveSearch, hp, hlt, hq, hlt', hpush, e2]

/-! Erasure of the entry that an iterator points to. -/

theorem erase_spec (ho : TotalOrder comp) {desc : Descriptor κ υ} {iter : Iterator} {p : κ × υ}
    (hs : Shape n desc.root) (hl : Sorted comp desc.root.toList)
    (hd : iteratorDeref desc.root iter = some p) (hp : p ∈ desc.root.toList) :
    ∃ n' root, erase comp desc iter = some (0, ⟨desc.size - 1, root⟩) ∧
      (n' = n ∨ n' + 1 = n) ∧ Shape n' root ∧
      root.toList = eraseKey comp p.1 desc.root.toList := by
  have hkey : ¬Absent comp p.1 desc.root.toList := fun h => h p hp (ho.self p.1)
  obtain ⟨st, t, e, he⟩ := recursiveErase_spec ho hs hl hkey
  cases he with
  | done hs' hxs => exact ⟨n, t, by simp [erase, hd, e], .inl rfl, hs', hxs⟩
  | @hole n _ c hc hxs =>
    -- the root lost its last pair, and the tree a level
    exact ⟨n, c, by simp [erase, hd, e, Node.child], .inr rfl, hc, hxs⟩

end

/-! Runs. -/

section
variable {κ υ : Type} (comp : κ → κ → Int)

inductive Op (κ υ : Type) where
  | insert (pair : κ × υ)
  | erase (key : κ)

/-- Allocations succeed. `erase` is called with the iterator that `ptr_at` finds. -/
def step (desc : Descriptor κ υ) : Op κ υ → Option (Int32 × Descriptor κ υ)
  | .insert pair => do
    let ((stat, desc), _) ← insert comp desc pair []
    return (stat, desc)
  | .erase key => do
    match ← ptrAt comp desc key with
    | (_, some iter) => erase comp desc iter
    | (stat, none) => return (stat, desc)

/-- The keys that a run inserts. -/
def inserted : List (Op κ υ) → List κ
  | [] => []
  | .insert pair :: ops => pair.1 :: inserted ops
  | .erase _ :: ops => inserted ops

/-- The way to the new leaf splits no child 0 of a node with one pair, and the number of
    keys stays below `2 ^ 32`. -/
def fits (desc : Descriptor κ υ) : Op κ υ → Prop
  | .insert pair => safe comp pair.1 desc.root = true ∧ desc.size.toNat + 1 < 2 ^ 32
  | .erase _ => True

instance (desc : Descriptor κ υ) : (op : Op κ υ) → Decidable (fits comp desc op)
  | .insert _ => inferInstanceAs (Decidable (_ ∧ _))
  | .erase _ => .isTrue trivial

/-- What the tree is for. -/
def mapStep [DecidableEq κ] (m : κ → Option υ) : Op κ υ → Int32 × (κ → Option υ)
  | .insert pair =>
    if (m pair.1).isSome then (-1, m) else (0, Function.update m pair.1 (some pair.2))
  | .erase key => if (m key).isSome then (0, Function.update m key none) else (-1, m)

/-- A valid 2-3 tree that stands for a map. -/
structure Rep (desc : Descriptor κ υ) (m : κ → Option υ) : Prop where
  shape : ∃ n, Shape n desc.root
  sorted : Sorted comp desc.root.toList
  size : desc.size.toNat = desc.root.toList.length
  lookup : ∀ k v, m k = some v ↔ (k, v) ∈ desc.root.toList

end

section
variable {κ υ : Type} {comp : κ → κ → Int} {desc : Descriptor κ υ} {m : κ → Option υ}

namespace Rep

theorem init : Rep comp (constructor : Descriptor κ υ) fun _ => none :=
  ⟨⟨0, .empty⟩, sorted_nil, rfl, by simp [constructor]⟩

variable (ho : TotalOrder comp)
include ho

theorem absent (hr : Rep comp desc m) {key : κ} (h : m key = none) :
    Absent comp key desc.root.toList := by
  intro x hx e
  obtain rfl := (ho.eq_iff _ _).1 e
  rw [(hr.lookup x.1 x.2).2 hx] at h
  cases h

omit ho in
theorem depth (hr : Rep comp desc m) {n : Nat} (hs : Shape n desc.root) : n ≤ 32 :=
  hs.depth_le hr.size

theorem ptrAt_some (hr : Rep comp desc m) {k : κ} {v : υ} (h : m k = some v) :
    ∃ iter, ptrAt comp desc k = some (0, some iter) ∧
      iteratorDeref desc.root iter = some (k, v) := by
  obtain ⟨n, hs⟩ := hr.shape
  have hn := hr.depth hs
  obtain ⟨path, which, e, ed⟩ := @recursiveSearch_mem _ _ comp n _ [] ho k v hs hr.sorted
    ((hr.lookup k v).1 h) (by simp; omega)
  exact ⟨⟨path, which⟩, e, ed⟩

theorem ptrAt_none (hr : Rep comp desc m) {k : κ} (h : m k = none) :
    ptrAt comp desc k = some (-1, none) := by
  obtain ⟨n, hs⟩ := hr.shape
  have hn := hr.depth hs
  exact recursiveSearch_absent hs (hr.absent ho h) (by simp; omega)

variable [DecidableEq κ]

theorem insert (hr : Rep comp desc m) {pair : κ × υ} (h : m pair.1 = none)
    (hok : fits comp desc (.insert pair)) :
    ∃ desc', step comp desc (.insert pair) = some (0, desc') ∧
      Rep comp desc' (Function.update m pair.1 (some pair.2)) := by
  obtain ⟨n, hs⟩ := hr.shape
  have ha := hr.absent ho h
  obtain ⟨n', root, e, hs', hxs⟩ := insert_spec ho hs hr.sorted ha hok.1
  refine ⟨⟨desc.size + 1, root⟩, by simp [step, e], ⟨n', hs'⟩, ?_, ?_, fun k v => ?_⟩
  · rw [hxs]
    exact Sorted.insertPair ho hr.sorted ha
  · have hone : (1 : UInt32).toNat = 1 := rfl
    rw [hxs, length_insertPair, ← hr.size, UInt32.toNat_add, hone, Nat.mod_eq_of_lt hok.2]
  · rw [hxs, mem_insertPair, ← hr.lookup]
    by_cases hk : k = pair.1
    · subst hk
      rw [Function.update_self, h]
      simp [Prod.ext_iff, eq_comm]
    · rw [Function.update_of_ne hk]
      simp [Prod.ext_iff, hk]

theorem erase (hr : Rep comp desc m) {k : κ} {v : υ} (h : m k = some v) :
    ∃ desc', step comp desc (.erase k) = some (0, desc') ∧
      Rep comp desc' (Function.update m k none) := by
  obtain ⟨n, hs⟩ := hr.shape
  obtain ⟨iter, ep, ed⟩ := hr.ptrAt_some ho h
  have hmem := (hr.lookup k v).1 h
  obtain ⟨n', root, e, -, hs', hxs⟩ := erase_spec ho hs hr.sorted ed hmem
  refine ⟨⟨desc.size - 1, root⟩, by simp [step, ep, e], ⟨n', hs'⟩, ?_, ?_, fun k' v' => ?_⟩
  · rw [hxs]
    exact hr.sorted.eraseKey
  · have hlen := length_eraseKey ho hr.sorted hmem
    have hone : (1 : UInt32).toNat = 1 := rfl
    have hle : (1 : UInt32) ≤ desc.size := UInt32.le_iff_toNat_le.2 (by rw [hone, hr.size]; omega)
    rw [hxs, UInt32.toNat_sub_of_le _ _ hle, hone, hr.size]
    omega
  · rw [hxs, mem_eraseKey, ← hr.lookup, Ne, ho.eq_iff]
    by_cases hk : k' = k
    · subst hk
      simp
    · rw [Function.update_of_ne hk]
      simp [Ne.symm hk]

/-- One call answers as the map does. -/
theorem sim (hr : Rep comp desc m) (op : Op κ υ) (hok : fits comp desc op)
    (hnew : ∀ k ∈ inserted [op], m k = none) :
    ∃ desc', step comp desc op = some ((mapStep m op).1, desc') ∧
      Rep comp desc' (mapStep m op).2 := by
  cases op with
  | insert pair =>
    have h := hnew pair.1 (by simp [inserted])
    obtain ⟨desc', e, hr'⟩ := hr.insert ho h hok
    exact ⟨desc', by simp [mapStep, h, e], by simpa [mapStep, h] using hr'⟩
  | erase key =>
    cases h : m key with
    | none =>
      refine ⟨desc, ?_, by simpa [mapStep, h] using hr⟩
      simp [step, hr.ptrAt_none ho h, mapStep, h]
    | some v =>
      obtain ⟨desc', e, hr'⟩ := hr.erase ho h
      exact ⟨desc', by simp [mapStep, h, e], by simpa [mapStep, h] using hr'⟩

omit ho in
/-- A key that a step neither finds nor inserts is not there after it. -/
theorem mapStep_none {op : Op κ υ} {k : κ} (h : m k = none) (hk : k ∉ inserted [op]) :
    (mapStep m op).2 k = none := by
  cases op with
  | insert pair =>
    have hne : k ≠ pair.1 := by simpa [inserted] using hk
    rw [mapStep]
    split
    · exact h
    · simpa [Function.update_of_ne hne] using h
  | erase key =>
    rw [mapStep]
    split
    · simp [Function.update_apply, h]
    · exact h

theorem runs (ops : List (Op κ υ)) (hr : Rep comp desc m)
    (hnew : ∀ k ∈ inserted ops, m k = none) (hd : (inserted ops).Nodup)
    (hok : Machine.Along (step comp) (fits comp) ops desc) :
    ∃ desc', Machine.run (step comp) ops desc = some ((Machine.runs mapStep ops m).1, desc') ∧
      Rep comp desc' (Machine.runs mapStep ops m).2 := by
  induction ops generalizing desc m with
  | nil => exact ⟨desc, rfl, hr⟩
  | cons op ops ih =>
    obtain ⟨hfits, hok⟩ := hok
    have happ : inserted (op :: ops) = inserted [op] ++ inserted ops := by
      cases op <;> rfl
    rw [happ] at hnew hd
    obtain ⟨-, hd', hdisj⟩ := List.nodup_append.1 hd
    obtain ⟨desc₁, e₁, hr₁⟩ := hr.sim ho op hfits fun k hk => hnew k (by simp [hk])
    rw [e₁] at hok
    have hnew₁ : ∀ k ∈ inserted ops, (mapStep m op).2 k = none := fun k hk =>
      mapStep_none (hnew k (by simp [hk])) fun hk' => hdisj k hk' k hk rfl
    obtain ⟨desc₂, e₂, hr₂⟩ := ih hr₁ hnew₁ hd' hok
    exact ⟨desc₂, by simp [Machine.run, Machine.runs, e₁, e₂], hr₂⟩

end Rep

/-- The map, in every run of insertions of distinct keys and of erasures each of whose
    steps fits. -/
theorem map_refinement [DecidableEq κ] (ho : TotalOrder comp) (ops : List (Op κ υ))
    (hd : (inserted ops).Nodup)
    (hok : Machine.Along (step comp) (fits comp) ops (constructor : Descriptor κ υ)) :
    ∃ desc m, Machine.run (step comp) ops constructor =
        some ((Machine.runs mapStep ops fun _ => none).1, desc) ∧
      m = (Machine.runs mapStep ops fun _ => none).2 ∧
      (∃ n, Shape n desc.root) ∧ Ordered comp desc.root ∧
      desc.size.toNat = desc.root.toList.length ∧
      (∀ k v, m k = some v → ∃ iter, ptrAt comp desc k = some (0, some iter) ∧
        iteratorDeref desc.root iter = some (k, v)) ∧
      ∀ k, m k = none → ptrAt comp desc k = some (-1, none) := by
  obtain ⟨desc, e, hr⟩ := Rep.init.runs ho ops (fun _ _ => rfl) hd hok
  obtain ⟨n, hs⟩ := hr.shape
  exact ⟨desc, _, e, rfl, ⟨n, hs⟩, hs.ordered hr.sorted, hr.size,
    fun k v h => hr.ptrAt_some ho h, fun k h => hr.ptrAt_none ho h⟩

end

/-! Keys in ascending order only split on the right. -/

theorem map_refinement_byValue :
    ∃ desc : Descriptor UInt64 UInt64,
      Machine.run (step byValue) [.insert (10, 1), .insert (20, 2), .insert (30, 3),
        .insert (40, 4), .insert (50, 5), .erase 20, .erase 7] constructor =
        some ([0, 0, 0, 0, 0, 0, -1], desc) ∧
      (∃ n, Shape n desc.root) ∧ Ordered byValue desc.root ∧ ptrAt byValue desc 20 = some (-1, none) ∧
      ∃ iter, ptrAt byValue desc 40 = some (0, some iter) ∧
        iteratorDeref desc.root iter = some (40, 4) := by
  obtain ⟨desc, m, e, rfl, hs, hord, -, hsome, hnone⟩ := map_refinement byValue_total
    [.insert (10, (1 : UInt64)), .insert (20, 2), .insert (30, 3), .insert (40, 4),
      .insert (50, 5), .erase 20, .erase 7] (by decide) (by decide)
  exact ⟨desc, e, hs, hord, hnone 20 rfl, hsome 40 4 rfl⟩

/-- The last insertion splits child 0 of a node with one pair: the pairs of the root are
    out of order and the key 3 is not found. -/
theorem map_refinement_fails :
    ∃ desc : Descriptor UInt64 UInt64,
      Machine.run (step byValue) [.insert (10, 1), .insert (20, 2), .insert (30, 3),
        .insert (5, 4), .insert (3, 5)] constructor = some ([0, 0, 0, 0, 0], desc) ∧
      desc.root.kv 0 = some (some (20, 2)) ∧ desc.root.kv 1 = some (some (5, 4)) ∧
      ¬Ordered byValue desc.root ∧ ptrAt byValue desc 3 = some (-1, none) := by
  refine ⟨_, rfl, rfl, rfl, fun h => ?_, rfl⟩
  exact absurd (h.2.2.2.1 (20, 2) rfl (5, 4) rfl) (by decide)

end Zhwkrfsp.BTree
