import Zhwkrfsp.AVLMemory
import Zhwkrfsp.QSet

/- The memory of the sets of `zhwkre/containers/set.c`, any number of them in one heap.
   In a run of constructions, insertions, erasures, unions, intersections, differences and
   destructions, each result going to a set that is empty, the cells in use are at any time
   exactly the nodes of the sets, each of one of them: nothing leaks, nothing is freed
   twice, and no set sees what happens to another (`memory`). The destructor zeroes the
   descriptor with its comparator, so a destroyed set is constructed anew, or gets a result
   stored over it, before it is used again. -/
namespace Zhwkrfsp.QSet
open AVLTree Linked

section
variable {ι α : Type} (comp : α → α → Int) [DecidableEq ι]

def destructor (desc : Descriptor) (h : Heap α) : Option (Int32 × Descriptor × Heap α) :=
  AVLTree.destructor desc h

/-- A call on the sets. A result is stored over the descriptor at `k`. -/
inductive Call (ι α : Type) where
  | construct (i : ι)
  | elem (i : ι) (op : Op α)
  | union (i j k : ι)
  | intersect (i j k : ι)
  | difference (i j k : ι)
  | destroy (i : ι)

/-- Sets that share a heap, and which of the descriptors have a comparator, `comp` being
    NULL in the others. -/
structure Sets (ι α : Type) extends World ι α where
  compared : ι → Bool

def Sets.init : Sets ι α := ⟨World.init, fun _ => true⟩

def Sets.put (s : Sets ι α) (k : ι) (r : Descriptor × Heap α) (compared : Bool) : Sets ι α where
  set := Function.update s.set k r.1
  heap := r.2
  compared := Function.update s.compared k compared

/-- A set operation whose result goes to `k`. -/
def Sets.store (s : Sets ι α) (k : ι) (r : Option (Descriptor × Heap α)) :
    Option (Int32 × Sets ι α) :=
  r.map fun r => (0, s.put k r true)

/-- Where a comparator is missing that a comparison would call, there is no result. -/
def call (s : Sets ι α) : Call ι α → Option (Int32 × Sets ι α)
  | .construct i => some (0, s.put i (constructor, s.heap) true)
  | .elem i op =>
    if s.compared i then
      (step comp s.toWorld (i, op)).map fun r => (r.1, { s with toWorld := r.2 })
    else none
  | .union i j k =>
    if s.compared i then s.store k (union comp (s.set i) (s.set j) s.heap) else none
  | .intersect i j k =>
    if s.compared i && s.compared j then s.store k (intersect comp (s.set i) (s.set j) s.heap)
    else none
  | .difference i j k =>
    if s.compared i && s.compared j then s.store k (difference comp (s.set i) (s.set j) s.heap)
    else none
  | .destroy i => (destructor (s.set i) s.heap).map fun r => (r.1, s.put i r.2 false)

/-- The sets of a call have their comparators, and where a result is stored, or a set
    constructed, there is no node to lose. -/
def permitted (s : Sets ι α) : Call ι α → Prop
  | .construct k => (s.set k).root.isNull = true
  | .elem i _ => s.compared i = true
  | .union i _ k => s.compared i = true ∧ (s.set k).root.isNull = true
  | .intersect i j k | .difference i j k =>
    (s.compared i && s.compared j) = true ∧ (s.set k).root.isNull = true
  | .destroy _ => True

instance decidablePermitted (s : Sets ι α) : ∀ c, Decidable (permitted s c)
  | .construct k => inferInstanceAs (Decidable ((s.set k).root.isNull = true))
  | .elem i _ => inferInstanceAs (Decidable (s.compared i = true))
  | .union i _ k =>
    inferInstanceAs (Decidable (s.compared i = true ∧ (s.set k).root.isNull = true))
  | .intersect i j k => inferInstanceAs
    (Decidable ((s.compared i && s.compared j) = true ∧ (s.set k).root.isNull = true))
  | .difference i j k => inferInstanceAs
    (Decidable ((s.compared i && s.compared j) = true ∧ (s.set k).root.isNull = true))
  | .destroy _ => .isTrue trivial

/-- What the calls are for. -/
def setsCall [DecidableEq α] (S : ι → Finset α) : Call ι α → Int32 × (ι → Finset α)
  | .construct i => (0, Function.update S i ∅)
  | .elem i op => setsStep S (i, op)
  | .union i j k => (0, Function.update S k (S i ∪ S j))
  | .intersect i j k => (0, Function.update S k (S i ∩ S j))
  | .difference i j k => (0, Function.update S k (S i \ S j))
  | .destroy i => (0, Function.update S i ∅)

end

section
variable {ι α : Type}

/-- The cells in use are the nodes of the sets. -/
def World.Owned (w : World ι α) : Prop :=
  ∀ a, w.heap.InUse a ↔ ∃ i, a ∈ (w.set i).root.inorder

variable {comp : α → α → Int} {w : World ι α} {nodes : ι → List (Nat × α)} {S : ι → Finset α}

theorem Family.owned_iff (hf : Family comp w nodes S) :
    w.Owned ↔ ∀ a, w.heap.InUse a ↔ ∃ i, a ∈ (nodes i).map Prod.fst := by
  unfold World.Owned
  simp only [fun i => (hf.rep i).inorder]

variable [DecidableEq ι] [DecidableEq α]

/-- An insertion or an erasure. -/
theorem Family.step_owned (ho : TotalOrder comp) (hf : Family comp w nodes S) (hw : w.Owned)
    {op : ι × Op α} {rc : Int32} {w' : World ι α} (e : QSet.step comp w op = some (rc, w')) :
    w'.Owned := by
  obtain ⟨i, op⟩ := op
  have hr := hf.rep i
  obtain ⟨s₀, l₀, e₀, hf₀, -⟩ := hf.step ho i op
  have hw' : w' = ⟨Function.update w.set i s₀.desc, s₀.heap⟩ := by
    rw [QSet.step, e₀] at e
    cases e
    rfl
  rw [hf.owned_iff] at hw
  subst hw'
  rw [hf₀.owned_iff]
  have hl₀ : l₀.map Prod.fst = s₀.desc.root.inorder := by
    have h : (Function.update w.set i s₀.desc i).root.inorder = _ := (hf₀.rep i).inorder
    rw [Function.update_self, Function.update_self] at h
    exact h.symm
  clear hf₀ e
  generalize (setStep (S i) op).1 = rc₀ at e₀
  -- the nodes at `i` are those of `l₀`, the others as before
  have hsplit : ∀ a, (∃ k, a ∈ (Function.update nodes i l₀ k).map Prod.fst) ↔
      a ∈ s₀.desc.root.inorder ∨ ∃ k, k ≠ i ∧ a ∈ (nodes k).map Prod.fst := by
    intro a
    rw [← hl₀]
    constructor
    · rintro ⟨k, hk⟩
      by_cases hki : k = i
      · subst hki
        rw [Function.update_self] at hk
        exact .inl hk
      · rw [Function.update_of_ne hki] at hk
        exact .inr ⟨k, hki, hk⟩
    · rintro (h | ⟨k, hki, h⟩)
      · exact ⟨i, by rw [Function.update_self]; exact h⟩
      · exact ⟨k, by rw [Function.update_of_ne hki]; exact h⟩
  have hwhole : ∀ a, (∃ k, a ∈ (nodes k).map Prod.fst) ↔
      a ∈ (nodes i).map Prod.fst ∨ ∃ k, k ≠ i ∧ a ∈ (nodes k).map Prod.fst := by
    intro a
    constructor
    · rintro ⟨k, hk⟩
      by_cases hki : k = i
      · exact .inl (hki ▸ hk)
      · exact .inr ⟨k, hki, hk⟩
    · rintro (h | ⟨k, -, h⟩)
      · exact ⟨i, h⟩
      · exact ⟨k, h⟩
  intro a
  rw [hsplit]
  have hwa := hw a
  rw [hwhole] at hwa
  -- a call that changes nothing
  have hsame : AVLTree.step comp ⟨w.set i, w.heap⟩ op = some (-1, ⟨w.set i, w.heap⟩) →
      (s₀.heap.InUse a ↔ a ∈ s₀.desc.root.inorder ∨ ∃ k, k ≠ i ∧ a ∈ (nodes k).map Prod.fst) := by
    intro h
    rw [h] at e₀
    cases e₀
    rw [hwa, hr.inorder]
  cases op with
  | insert x =>
    by_cases hx : x ∈ S i
    · exact hsame (hr.insert_mem ho hx)
    · obtain ⟨s₁, l₁, e₁, hr₁, hp, hmem⟩ := hr.inserted ho hx
      rw [e₀] at e₁
      cases e₁
      rw [hr₁.inorder, hmem, or_assoc, ← hwa, Heap.InUse, hp]
      by_cases hb : a = w.heap.brk
      · rw [hb, Function.update_self]
        simp
      · rw [Function.update_of_ne hb]
        exact (or_iff_right hb).symm
  | erase x =>
    by_cases hx : x ∈ S i
    · by_cases hc : (S i).card % 2 ^ 32 = 0
      · exact hsame (hr.erase_wrapped ho hx hc)
      · obtain ⟨d, hd⟩ := hr.node hx
        obtain ⟨s₁, l₁, m, e₁, hr₁, hm, hp, hl⟩ := hr.erased ho hd hc
        rw [e₀] at e₁
        cases e₁
        have hfree := inUse_moveOut hp (hr.inUse hm) (hr.inUse (List.mem_map_of_mem hd)) a
        rw [hr₁.inorder, hl, hr.stored.nodup.mem_erase_iff, hfree, hwa]
        constructor
        · rintro ⟨ham, h | h⟩
          · exact .inl ⟨ham, h⟩
          · exact .inr h
        · rintro (⟨ham, h⟩ | ⟨k, hki, h⟩)
          · exact ⟨ham, .inl h⟩
          · refine ⟨?_, .inr ⟨k, hki, h⟩⟩
            rintro rfl
            exact hf.apart k i hki a h hm
    · exact hsame (hr.erase_not_mem ho hx)

/-! The operations on two sets. -/

omit [DecidableEq ι] [DecidableEq α] in
/-- What an insertion keeps, the loop keeps. -/
theorem insertFrom_keeps {keep : α → Heap α → Option Bool} {I : Descriptor → Heap α → Prop}
    (hI : ∀ desc h x r, I desc h → (insert comp desc h x).map Prod.snd = some r → I r.1 r.2)
    (turns : Nat) : ∀ {iter : Option Nat} {desc : Descriptor} {h : Heap α}
      {r : Descriptor × Heap α}, insertFrom comp keep turns iter desc h = some r → I desc h →
      I r.1 r.2 := by
  induction turns with
  | zero =>
    intro iter desc h r e hd
    cases iter with
    | none =>
      cases e
      exact hd
    | some a => cases e
  | succ turns ih =>
    intro iter desc h r e hd
    cases iter with
    | none =>
      cases e
      exact hd
    | some a =>
      obtain ⟨node, -, e⟩ := Option.bind_eq_some_iff.1 e
      obtain ⟨kept, -, e⟩ := Option.bind_eq_some_iff.1 e
      obtain ⟨⟨desc₁, h₁⟩, e₁, e⟩ := Option.bind_eq_some_iff.1 e
      obtain ⟨iter, -, e⟩ := Option.bind_eq_some_iff.1 e
      apply ih e
      unfold insertIf at e₁
      split at e₁
      · exact hI desc h _ _ hd e₁
      · cases e₁
        exact hd

variable (comp w nodes S) in
/-- A set under construction beside the sets of `w`, nothing else being in use. -/
def Building (desc : Descriptor) (h : Heap α) : Prop :=
  (∃ T, Beside comp w nodes S desc h T) ∧ (beside w desc h).Owned

omit [DecidableEq ι] [DecidableEq α] in
theorem Building.start (hf : Family comp w nodes S) (hw : w.Owned) (i : ι) :
    Building comp w nodes S constructor w.heap := by
  refine ⟨⟨∅, Beside.start hf i⟩, fun a => (hw a).trans ⟨?_, ?_⟩⟩
  · rintro ⟨k, hk⟩
    exact ⟨some k, hk⟩
  · rintro ⟨_ | k, hk⟩
    · cases hk
    · exact ⟨k, hk⟩

theorem Building.insert (ho : TotalOrder comp) {desc : Descriptor} {h : Heap α} {x : α}
    {r : Descriptor × Heap α} (hb : Building comp w nodes S desc h)
    (e : (QSet.insert comp desc h x).map Prod.snd = some r) :
    Building comp w nodes S r.1 r.2 := by
  obtain ⟨⟨T, hT⟩, hown⟩ := hb
  obtain ⟨r', e', hr'⟩ := hT.insert ho x
  rw [e] at e'
  cases e'
  refine ⟨⟨_, hr'⟩, ?_⟩
  obtain ⟨l, hfam⟩ := hT.family
  obtain ⟨⟨rc, d, h'⟩, ei, hd⟩ := Option.map_eq_some_iff.1 e
  have hr : r = (d, h') := hd.symm
  have es : QSet.step comp (beside w desc h) (none, .insert x) = some (rc, beside w d h') := by
    rw [QSet.step]
    simp only [AVLTree.step, beside, Option.elim_none]
    rw [show AVLTree.insert comp desc h x = some (rc, d, h') from ei]
    simp [elim_update]
  rw [hr]
  exact hfam.step_owned ho hown es

omit [DecidableEq α] in
/-- A set that has been built is stored where there was none. -/
theorem Building.store (hf : Family comp w nodes S) {k : ι} (hk : (w.set k).root.isNull = true)
    {r : Descriptor × Heap α} (hb : Building comp w nodes S r.1 r.2) {T : Finset α}
    (hres : Result comp w T r) :
    ∃ nodes', Family comp ⟨Function.update w.set k r.1, r.2⟩ nodes' (Function.update S k T) ∧
      World.Owned ⟨Function.update w.set k r.1, r.2⟩ := by
  obtain ⟨⟨T', hT'⟩, hown⟩ := hb
  obtain ⟨l, hfam⟩ := hT'.family
  have hnew : Rep comp ⟨r.1, r.2⟩ l T' := hfam.rep none
  have hT : T' = T := by
    ext x
    rw [← hres.members, hnew.elems, hnew.mem]
  subst hT
  have hnil : nodes k = [] := inorder_eq_nil (hf.rep k).inorder hk
  have hfam' : Family comp ⟨Function.update w.set k r.1, r.2⟩ (Function.update nodes k l)
      (Function.update S k T') := by
    refine ⟨fun i => ?_, fun i j hij a ha => ?_⟩
    · by_cases hik : i = k
      · subst hik
        simp only [Function.update_self]
        exact hnew
      · simp only [Function.update_of_ne hik]
        exact hfam.rep (some i)
    · by_cases hik : i = k
      · subst hik
        rw [Function.update_self] at ha
        rw [Function.update_of_ne (Ne.symm hij)]
        exact hfam.apart none (some j) (by simp) a ha
      · rw [Function.update_of_ne hik] at ha
        by_cases hjk : j = k
        · subst hjk
          rw [Function.update_self]
          exact hfam.apart (some i) none (by simp) a ha
        · rw [Function.update_of_ne hjk]
          exact hf.apart i j hij a ha
  refine ⟨_, hfam', hfam'.owned_iff.2 fun a => (hfam.owned_iff.1 hown a).trans ⟨?_, ?_⟩⟩
  · rintro ⟨_ | i, hi⟩
    · exact ⟨k, by rw [Function.update_self]; exact hi⟩
    · have hi : a ∈ (nodes i).map Prod.fst := hi
      have hik : i ≠ k := by
        rintro rfl
        rw [hnil] at hi
        cases hi
      exact ⟨i, by rw [Function.update_of_ne hik]; exact hi⟩
  · rintro ⟨i, hi⟩
    by_cases hik : i = k
    · subst hik
      rw [Function.update_self] at hi
      exact ⟨none, hi⟩
    · rw [Function.update_of_ne hik] at hi
      exact ⟨some i, hi⟩

/-! One call. -/

/-- A set operation, in which the loops are. -/
theorem Family.combine (ho : TotalOrder comp) (hf : Family comp w nodes S) (hw : w.Owned) {i k : ι}
    {o : Option (Descriptor × Heap α)} {T : Finset α}
    (e : ∃ r, o = some r ∧ Result comp w T r) (hk : (w.set k).root.isNull = true)
    (hloop : ∀ r, o = some r → (∀ I : Descriptor → Heap α → Prop,
      (∀ desc h x r, I desc h → (insert comp desc h x).map Prod.snd = some r → I r.1 r.2) →
      I constructor w.heap → I r.1 r.2)) :
    ∃ r nodes', o = some r ∧ Family comp ⟨Function.update w.set k r.1, r.2⟩ nodes'
        (Function.update S k T) ∧
      World.Owned ⟨Function.update w.set k r.1, r.2⟩ := by
  obtain ⟨r, rfl, hres⟩ := e
  have hb : Building comp w nodes S r.1 r.2 := by
    apply hloop r rfl (Building comp w nodes S)
    · exact fun desc h x r hd hr => hd.insert ho hr
    · exact Building.start hf hw i
  obtain ⟨nodes', hfam, hown⟩ := hb.store hf hk hres
  exact ⟨r, nodes', rfl, hfam, hown⟩

omit [DecidableEq α] in
/-- The destruction of one set. -/
theorem Family.destroy (hf : Family comp w nodes S) (hw : w.Owned) (i : ι) :
    ∃ h' nodes', destructor (w.set i) w.heap = some (0, constructor, h') ∧
      Family comp ⟨Function.update w.set i constructor, h'⟩ nodes' (Function.update S i ∅) ∧
      World.Owned ⟨Function.update w.set i constructor, h'⟩ := by
  obtain ⟨h', e, hgone, hkeep, hbrk, hm⟩ := (hf.rep i).destructor
  have hfar : ∀ k, k ≠ i → ∀ a ∈ (nodes k).map Prod.fst, h'.cell a = w.heap.cell a :=
    fun k hk a ha => hkeep a (hf.apart k i hk a ha)
  have hfam : Family comp ⟨Function.update w.set i constructor, h'⟩ (Function.update nodes i [])
      (Function.update S i ∅) := by
    refine ⟨fun k => ?_, apart_update hf.apart fun _ _ _ _ => List.not_mem_nil⟩
    by_cases hk : k = i
    · subst hk
      simp only [Function.update_self]
      exact ⟨trivial, rfl, ⟨trivial, .nil, .nil, nofun, hm.trans (hf.rep k).stored.mallocs⟩, rfl,
        rfl, by simp⟩
    · simp only [Function.update_of_ne hk]
      exact (hf.rep k).frame (hfar k hk) (Nat.le_of_eq hbrk.symm)
        (hm.trans (hf.rep k).stored.mallocs)
  rw [hf.owned_iff] at hw
  refine ⟨h', _, e, hfam, hfam.owned_iff.2 fun a => ?_⟩
  · show h'.InUse a ↔ _
    rw [Heap.inUse_iff]
    by_cases ha : a ∈ (nodes i).map Prod.fst
    · -- a node of the set
      apply iff_of_false
      · rintro ⟨c, hc⟩
        rw [hgone a ha] at hc
        cases hc
      · rintro ⟨k, hk⟩
        by_cases hki : k = i
        · rw [hki, Function.update_self] at hk
          cases hk
        · rw [Function.update_of_ne hki] at hk
          exact hf.apart k i hki a hk ha
    · have hcell : h'.cell a = w.heap.cell a := hkeep a ha
      rw [hcell, ← Heap.inUse_iff, hw]
      constructor
      · rintro ⟨k, hk⟩
        have hki : k ≠ i := by
          rintro rfl
          exact ha hk
        exact ⟨k, by rw [Function.update_of_ne hki]; exact hk⟩
      · rintro ⟨k, hk⟩
        by_cases hki : k = i
        · rw [hki, Function.update_self] at hk
          cases hk
        · rw [Function.update_of_ne hki] at hk
          exact ⟨k, hk⟩

omit [DecidableEq α] in
/-- A construction over a set without a node. -/
theorem Family.construct (hf : Family comp w nodes S) (hw : w.Owned) {i : ι}
    (hi : (w.set i).root.isNull = true) :
    ∃ nodes', Family comp ⟨Function.update w.set i constructor, w.heap⟩ nodes'
        (Function.update S i ∅) ∧
      World.Owned ⟨Function.update w.set i constructor, w.heap⟩ := by
  obtain ⟨h', nodes', e, hf', hw'⟩ := hf.destroy hw i
  -- without a node the destructor has nothing to free
  have hheap : h' = w.heap := by
    have hnone : freeFrom w.heap.brk none w.heap = some w.heap := by
      cases w.heap.brk <;> rfl
    rw [destructor, AVLTree.destructor, isNull_iff.1 hi, minNode, hnone] at e
    cases e
    rfl
  subst hheap
  exact ⟨nodes', hf', hw'⟩

theorem Family.call (ho : TotalOrder comp) {s : Sets ι α} (hf : Family comp s.toWorld nodes S)
    (hw : s.Owned) (c : Call ι α) (hc : permitted s c) :
    ∃ s' nodes', QSet.call comp s c = some ((setsCall S c).1, s') ∧
      Family comp s'.toWorld nodes' (setsCall S c).2 ∧ s'.Owned := by
  cases c with
  | construct i =>
    obtain ⟨nodes', hf', hw'⟩ := hf.construct hw hc
    exact ⟨s.put i (constructor, s.heap) true, nodes', rfl, hf', hw'⟩
  | elem i op =>
    obtain ⟨r, l, e, hf', -⟩ := hf.step ho i op
    have es : QSet.step comp s.toWorld (i, op) =
        some ((setStep (S i) op).1, ⟨Function.update s.set i r.desc, r.heap⟩) := by
      rw [QSet.step, e]
      rfl
    have hs : s.compared i = true := hc
    refine ⟨{ s with toWorld := ⟨Function.update s.set i r.desc, r.heap⟩ }, _, ?_, hf',
      hf.step_owned ho hw es⟩
    rw [QSet.call, if_pos hs, es]
    rfl
  | union i j k =>
    obtain ⟨hs, hk⟩ := hc
    obtain ⟨r, nodes', e, hf', hw'⟩ := hf.combine ho hw (hf.union ho i j) hk (i := i) (by
      intro r e I hI h₀
      obtain ⟨d, e₁, e₂⟩ := Option.bind_eq_some_iff.1 e
      exact insertFrom_keeps hI _ e₂ (insertFrom_keeps hI _ e₁ h₀))
    refine ⟨s.put k r true, nodes', ?_, hf', hw'⟩
    rw [QSet.call, if_pos hs, e]
    rfl
  | intersect i j k =>
    obtain ⟨hs, hk⟩ := hc
    obtain ⟨r, nodes', e, hf', hw'⟩ := hf.combine ho hw (hf.intersect ho i j) hk (i := i) (by
      intro r e I hI h₀
      exact insertFrom_keeps hI _ e h₀)
    refine ⟨s.put k r true, nodes', ?_, hf', hw'⟩
    rw [QSet.call, if_pos hs, e]
    rfl
  | difference i j k =>
    obtain ⟨hs, hk⟩ := hc
    obtain ⟨r, nodes', e, hf', hw'⟩ := hf.combine ho hw (hf.difference ho i j) hk (i := i) (by
      intro r e I hI h₀
      exact insertFrom_keeps hI _ e h₀)
    refine ⟨s.put k r true, nodes', ?_, hf', hw'⟩
    rw [QSet.call, if_pos hs, e]
    rfl
  | destroy i =>
    obtain ⟨h', nodes', e, hf', hw'⟩ := hf.destroy hw i
    refine ⟨s.put i (constructor, h') false, nodes', ?_, hf', hw'⟩
    rw [QSet.call, e]
    rfl

/-- **The memory of the sets.** A run of calls on sets that have their comparators, and whose
    results go to sets that are empty, does not fault and does what it is for; and the cells
    in use after it are the nodes of the sets, each the node of one. -/
theorem memory (ho : TotalOrder comp) (calls : List (Call ι α))
    (hc : Machine.Along (QSet.call comp) permitted calls Sets.init) :
    ∃ w, Machine.run (QSet.call comp) calls Sets.init =
        some ((Machine.runs setsCall calls fun _ => ∅).1, w) ∧
      (∀ i x, x ∈ State.elems ⟨w.set i, w.heap⟩ ↔
        x ∈ (Machine.runs setsCall calls fun _ => ∅).2 i) ∧
      (∀ a, w.heap.InUse a ↔ ∃ i, a ∈ (w.set i).root.inorder) ∧
      (∀ i, (w.set i).root.inorder.Nodup) ∧
      ∀ i j, i ≠ j → ∀ a ∈ (w.set i).root.inorder, a ∉ (w.set j).root.inorder := by
  have sim : ∀ (w : Sets ι α) (S : ι → Finset α) (c : Call ι α),
      (∃ nodes, Family comp w.toWorld nodes S ∧ w.Owned) → permitted w c →
      ∃ w', QSet.call comp w c = some ((setsCall S c).1, w') ∧
        ∃ nodes, Family comp w'.toWorld nodes (setsCall S c).2 ∧ w'.Owned := by
    intro w S c ⟨nodes, hf, hw⟩ hv
    obtain ⟨w', nodes', e, hf', hw'⟩ := hf.call ho hw c hv
    exact ⟨w', e, nodes', hf', hw'⟩
  have hinit : (Sets.init : Sets ι α).Owned := by
    intro a
    apply iff_of_false
    · exact Bool.false_ne_true
    · rintro ⟨i, hi⟩
      cases hi
  obtain ⟨w, e, nodes, hf, hw⟩ :=
    Machine.refines_along sim calls Sets.init _ ⟨_, Family.init, hinit⟩ hc
  refine ⟨w, e, fun i x => ?_, hw, fun i => ?_, fun i j hij => ?_⟩
  · rw [(hf.rep i).elems, ← (hf.rep i).mem]
  · have hi : (w.set i).root.inorder = (nodes i).map Prod.fst := (hf.rep i).inorder
    rw [hi]
    exact (hf.rep i).stored.nodup
  · have hi : (w.set i).root.inorder = (nodes i).map Prod.fst := (hf.rep i).inorder
    have hj : (w.set j).root.inorder = (nodes j).map Prod.fst := (hf.rep j).inorder
    rw [hi, hj]
    exact hf.apart i j hij

end

/-- The sets {1} and {1, 2}: a union stored in a third, which is destroyed, a difference in
    its place, and the second set destroyed and constructed anew. -/
theorem memory_byValue :
    ∃ w : Sets (Fin 3) UInt64,
      Machine.run (call byValue) [.elem 0 (.insert 1), .elem 1 (.insert 2), .elem 1 (.insert 1),
        .union 0 1 2, .destroy 2, .difference 1 0 2, .destroy 1, .construct 1,
        .elem 1 (.insert 3)] Sets.init = some ([0, 0, 0, 0, 0, 0, 0, 0, 0], w) ∧
      (∀ a, w.heap.InUse a ↔ ∃ i, a ∈ (w.set i).root.inorder) ∧
      State.elems ⟨w.set 2, w.heap⟩ = [2] ∧
      ∀ a, a ∈ (w.set 0).root.inorder → a ∉ (w.set 2).root.inorder := by
  have hc : Machine.Along (call byValue) permitted [.elem 0 (.insert 1), .elem 1 (.insert 2),
      .elem 1 (.insert 1), .union 0 1 2, .destroy 2, .difference 1 0 2, .destroy 1, .construct 1,
      .elem 1 (.insert 3)] (Sets.init : Sets (Fin 3) UInt64) := by decide
  obtain ⟨w, e, -, hown, -, hapart⟩ := memory byValue_total _ hc
  have hw : ((Machine.run (call byValue) [.elem 0 (.insert 1), .elem 1 (.insert 2),
      .elem 1 (.insert 1), .union 0 1 2, .destroy 2, .difference 1 0 2, .destroy 1, .construct 1,
      .elem 1 (.insert 3)] (Sets.init : Sets (Fin 3) UInt64)).map fun r =>
        State.elems ⟨r.2.set 2, r.2.heap⟩) = some [2] := by decide
  rw [e] at hw
  exact ⟨w, e, hown, Option.some.inj hw, fun a => hapart 0 2 (by decide) a⟩

/-- A set that has been destroyed has no comparator any more. -/
example : Machine.run (call byValue) [.elem 0 (.insert 1), .destroy 0, .elem 0 (.insert 1)]
    (Sets.init : Sets (Fin 3) UInt64) = none := by rfl

end Zhwkrfsp.QSet
