import Zhwkrfsp.BTreeValid

/- Iteration over a B-tree. An iterator keeps the way from the root to its node, so a
   move is local: down into the subtree next to the entry, or up to the first ancestor
   whose side is not exhausted. `entries` lists the iterators of a tree from left to
   right; the moves walk this list in both directions (`next_walk`, `prev_walk`), and
   the iterators that a search returns are in it. -/
namespace Zhwkrfsp.BTree
open Node

/-! Walks along a step function that may fail, or come to an end. -/

/-- From `start` the step visits `xs` and then is at `stop`. -/
inductive Walk {α : Type} (step : α → Option (Option α)) : Option α → List α → Option α → Prop
  | nil (stop : Option α) : Walk step stop [] stop
  | cons {a : α} {next stop : Option α} {xs : List α} : step a = some next →
    Walk step next xs stop → Walk step (some a) (a :: xs) stop

namespace Walk
variable {α : Type} {step back : α → Option (Option α)} {start mid stop : Option α} {xs ys : List α}

theorem append (h₁ : Walk step start xs mid) (h₂ : Walk step mid ys stop) :
    Walk step start (xs ++ ys) stop := by
  induction h₁ with
  | nil _ => exact h₂
  | cons e _ ih => exact .cons e (ih h₂)

/-- Where a walk that has an end starts. -/
theorem start_eq (h : Walk step start xs none) : start = xs.head? := by
  cases h with
  | nil _ => rfl
  | cons _ _ => rfl

/-- What comes after an element of a walk to the end. -/
theorem step_eq {a : α} (h : Walk step start (xs ++ a :: ys) none) : step a = some ys.head? := by
  induction xs generalizing start with
  | nil =>
    cases h with
    | cons e h => rw [e, h.start_eq]
  | cons x xs ih =>
    cases h with
    | cons _ h => exact ih h

end Walk

section
variable {κ υ : Type}

/-! The moves, as `btree.c` makes them. The result is `none` for a dereference of NULL or
    a track that is full, `some none` for an iterator that is not valid. -/

/-- The node that `childs[0]` leads to from here, again and again. -/
def goLeftmost : Node κ υ → List Nat → Option Iterator
  | null, _ => none
  | mk _ _ c0 _ _ _ _, track => do
    if c0.isNull then
      return ⟨track, 0⟩
    let track ← push track 0
    goLeftmost c0 track

/-- The same for the child behind the node's last pair. -/
def goRightmost : Node κ υ → List Nat → Option Iterator
  | null, _ => none
  | mk _ none _ c1 _ _ _, track => do
    if c1.isNull then
      return ⟨track, 0⟩
    let track ← push track 1
    goRightmost c1 track
  | mk _ (some _) _ _ c2 _ _, track => do
    if c2.isNull then
      return ⟨track, 1⟩
    let track ← push track 2
    goRightmost c2 track

/-- `qBTree_begin`. -/
def iterBegin (desc : Descriptor κ υ) : Option (Option Iterator) :=
  if desc.root.isNull then some none else (goLeftmost desc.root []).map some

/-- `qBTree_end`, which is the last entry. -/
def iterEnd (desc : Descriptor κ υ) : Option (Option Iterator) :=
  if desc.root.isNull then some none else (goRightmost desc.root []).map some

section
variable (root : Node κ υ)

/-- The way up of `qBTreeIterator_prev`; the track from its end. -/
def climbPrev : List Nat → Option Iterator
  | [] => none
  | childno :: rest => if childno = 0 then climbPrev rest else some ⟨rest.reverse, childno - 1⟩

def iterPrev (it : Iterator) : Option (Option Iterator) := do
  let node ← root.reach it.track
  let child ← node.child it.which
  if child.isNull then
    if it.which = 1 then
      return some ⟨it.track, 0⟩
    return climbPrev it.track.reverse
  let track ← push it.track it.which
  let prev ← goRightmost child track
  return some prev

/-- The way up of `qBTreeIterator_next`, which looks for a pair behind the child. -/
def climbNext : List Nat → Option (Option Iterator)
  | [] => some none
  | childno :: rest => do
    if childno = 2 then
      climbNext rest
    else
      let parent ← root.reach rest.reverse
      let kv ← parent.kv childno
      if kv.isNone then
        climbNext rest
      else
        return some ⟨rest.reverse, childno⟩

def iterNext (it : Iterator) : Option (Option Iterator) := do
  let node ← root.reach it.track
  let child ← node.child (it.which + 1)
  if child.isNull then
    let second ← node.kv 1
    if it.which = 0 ∧ second.isSome then
      return some ⟨it.track, 1⟩
    climbNext root it.track.reverse
  else
    let track ← push it.track (it.which + 1)
    let next ← goLeftmost child track
    return some next

end

/-! The iterators of a tree. -/

/-- The iterators of the pairs below a node, from left to right; `track` leads to the node. -/
def entries : Node κ υ → List Nat → List Iterator
  | null, _ => []
  | mk kv0 kv1 c0 c1 c2 _ _, track =>
    entries c0 (track ++ [0]) ++ ((if kv0.isSome then [⟨track, 0⟩] else []) ++
      (entries c1 (track ++ [1]) ++ ((if kv1.isSome then [⟨track, 1⟩] else []) ++
        entries c2 (track ++ [2]))))

variable {n : Nat} {root t c0 c1 c2 : Node κ υ} {p q : κ × υ} {track : List Nat}

theorem entries_two : entries (mk (some p) none c0 c1 null none null) track =
    entries c0 (track ++ [0]) ++ ⟨track, 0⟩ :: entries c1 (track ++ [1]) := by
  simp [entries]

theorem entries_three : entries (mk (some p) (some q) c0 c1 c2 none null) track =
    entries c0 (track ++ [0]) ++ ⟨track, 0⟩ :: (entries c1 (track ++ [1]) ++
      ⟨track, 1⟩ :: entries c2 (track ++ [2])) := by
  simp [entries]

theorem reach_append (root : Node κ υ) (track rest : List Nat) :
    root.reach (track ++ rest) = (root.reach track).bind fun node => node.reach rest := by
  induction track generalizing root with
  | nil => rfl
  | cons i track ih =>
    cases hc : root.child i with
    | none => simp [Node.reach, hc]
    | some c => simp [Node.reach, hc, ih]

theorem reach_child {c : Node κ υ} {i : Nat} (hr : root.reach track = some t)
    (hc : t.child i = some c) : root.reach (track ++ [i]) = some c := by
  rw [reach_append, hr]
  simp [Node.reach, hc]

theorem deref_reach {which : Nat} (hr : root.reach track = some t) :
    iteratorDeref root ⟨track, which⟩ = (t.kv which).bind id := by
  rw [iteratorDeref, hr]
  rfl

/-- The iterators point to the pairs, in their order. -/
theorem entries_deref (hs : Shape n t) (hr : root.reach track = some t) :
    (entries t track).map (iteratorDeref root) = t.toList.map some := by
  induction hs generalizing track with
  | empty => rfl
  | @two n c0 c1 p h0 h1 ih0 ih1 =>
    rw [entries_two, toList_two, List.map_append, List.map_append, List.map_cons, List.map_cons,
      ih0 (reach_child hr rfl), ih1 (reach_child hr rfl), deref_reach hr]
    rfl
  | @three n c0 c1 c2 p q h0 h1 h2 ih0 ih1 ih2 =>
    rw [entries_three, toList_three, List.map_append, List.map_append, List.map_cons, List.map_cons,
      List.map_append, List.map_append, List.map_cons, List.map_cons, ih0 (reach_child hr rfl),
      ih1 (reach_child hr rfl), ih2 (reach_child hr rfl), deref_reach hr, deref_reach hr]
    rfl

/-- Every iterator that points to a pair is one of them. -/
theorem mem_entries (track : List Nat) {path : List Nat} {which : Nat} {x : κ × υ}
    (h : iteratorDeref t ⟨path, which⟩ = some x) : ⟨track ++ path, which⟩ ∈ entries t track := by
  induction path generalizing t track with
  | nil =>
    rw [List.append_nil]
    cases t with
    | null => simp [iteratorDeref, Node.reach, Node.kv] at h
    | mk kv0 kv1 c0 c1 c2 e ec =>
      rcases deref_cases h with ⟨rfl, rfl⟩ | ⟨rfl, rfl⟩
      · simp [entries]
      · simp [entries]
  | cons i path ih =>
    cases hc : t.child i with
    | none => simp [iteratorDeref, Node.reach, hc] at h
    | some c =>
      have hd : iteratorDeref c ⟨path, which⟩ = some x := by
        simpa [iteratorDeref, Node.reach, hc] using h
      have hmem := ih (track ++ [i]) hd
      rw [List.append_assoc, List.singleton_append] at hmem
      cases t with
      | null => simp [Node.child] at hc
      | mk kv0 kv1 c0 c1 c2 e ec =>
        rcases child_cases hc with ⟨rfl, rfl⟩ | ⟨rfl, rfl⟩ | ⟨rfl, rfl⟩
        · simp [entries, hmem]
        · simp [entries, hmem]
        · simp [entries, hmem]

/-! Forwards. -/

/-- Where a move into the subtree `t` arrives; `stop` is where it goes on when there is no
    such subtree. -/
def Enters (go : Node κ υ → List Nat → Option Iterator) (t : Node κ υ) (track : List Nat)
    (start stop : Option Iterator) : Prop :=
  (t.isNull = true → start = stop) ∧
    (t.isNull = false → ∃ it, go t track = some it ∧ start = some it)

section
variable {start stop : Option Iterator} {c : Node κ υ} {which i : Nat}

theorem climbNext_pair {x : κ × υ} (hr : root.reach track = some t) (hi : i ≠ 2)
    (hk : t.kv i = some (some x)) :
    climbNext root (track ++ [i]).reverse = some (some ⟨track, i⟩) := by
  rw [List.reverse_append, List.reverse_singleton, List.singleton_append, climbNext, if_neg hi,
    List.reverse_reverse, hr]
  simp [hk]

theorem climbNext_last (hr : root.reach track = some t) (h : i = 2 ∨ t.kv i = some none) :
    climbNext root (track ++ [i]).reverse = climbNext root track.reverse := by
  rw [List.reverse_append, List.reverse_singleton, List.singleton_append, climbNext]
  rcases h with rfl | hk
  · rw [if_pos rfl]
  · split
    · rfl
    · rw [List.reverse_reverse, hr]
      simp [hk]

/-- The move from a pair into the subtree behind it, or past it. -/
theorem iterNext_down {second : Option (κ × υ)} (hr : root.reach track = some t)
    (hc : t.child (which + 1) = some c) (hk : t.kv 1 = some second)
    (hlen : c.isNull = false → track.length < 100)
    (he : Enters goLeftmost c (track ++ [which + 1]) start stop)
    (hup : c.isNull = true → (if which = 0 ∧ second.isSome then some (some ⟨track, 1⟩)
      else climbNext root track.reverse) = some stop) :
    iterNext root ⟨track, which⟩ = some start := by
  rw [iterNext, hr]
  cases hn : c.isNull with
  | true =>
    rw [he.1 hn, ← hup hn]
    simp [hc, hk, hn]
  | false =>
    obtain ⟨it, hgo, rfl⟩ := he.2 hn
    simp [hc, hn, push_eq (hlen hn), hgo]

/-- The move down to the first pair of a subtree. -/
theorem enters_leftmost {kv0 kv1 extrakv : Option (κ × υ)} {extrachild : Node κ υ}
    (hlen : c0.isNull = false → track.length < 100)
    (he : Enters goLeftmost c0 (track ++ [0]) start (some ⟨track, 0⟩)) :
    Enters goLeftmost (mk kv0 kv1 c0 c1 c2 extrakv extrachild) track start stop := by
  refine ⟨nofun, fun _ => ?_⟩
  cases hn : c0.isNull with
  | true => exact ⟨⟨track, 0⟩, by simp [goLeftmost, hn], he.1 hn⟩
  | false =>
    obtain ⟨it, hgo, hstart⟩ := he.2 hn
    exact ⟨it, by simp [goLeftmost, hn, push_eq (hlen hn), hgo], hstart⟩

end

/-- `next` walks the pairs of a subtree from left to right, and then goes up. -/
theorem next_walk (hs : Shape n t) {stop : Option Iterator} (hr : root.reach track = some t)
    (hlen : track.length + n ≤ 100) (hup : climbNext root track.reverse = some stop) :
    ∃ start, Enters goLeftmost t track start stop ∧
      Walk (iterNext root) start (entries t track) stop := by
  induction hs generalizing track stop with
  | empty => exact ⟨stop, ⟨fun _ => rfl, nofun⟩, .nil stop⟩
  | @two n c0 c1 p h0 h1 ih0 ih1 =>
    have hlen' : ∀ i : Nat, (track ++ [i]).length + n ≤ 100 := fun i => by simp; omega
    -- from the last child on: where a walk starts is where the pair before it leads
    obtain ⟨start₁, he₁, hw₁⟩ := ih1 (reach_child (i := 1) hr rfl) (hlen' 1)
      ((climbNext_last hr (.inr rfl)).trans hup)
    obtain ⟨start₀, he₀, hw₀⟩ := ih0 (reach_child (i := 0) hr rfl) (hlen' 0)
      (climbNext_pair hr (by decide) rfl)
    have hnext : iterNext root ⟨track, 0⟩ = some start₁ :=
      iterNext_down hr rfl rfl (fun _ => by omega) he₁ fun _ => by simpa using hup
    refine ⟨start₀, enters_leftmost (fun _ => by omega) he₀, ?_⟩
    rw [entries_two]
    exact hw₀.append (.cons hnext hw₁)
  | @three n c0 c1 c2 p q h0 h1 h2 ih0 ih1 ih2 =>
    have hlen' : ∀ i : Nat, (track ++ [i]).length + n ≤ 100 := fun i => by simp; omega
    obtain ⟨start₂, he₂, hw₂⟩ := ih2 (reach_child (i := 2) hr rfl) (hlen' 2)
      ((climbNext_last hr (.inl rfl)).trans hup)
    obtain ⟨start₁, he₁, hw₁⟩ := ih1 (reach_child (i := 1) hr rfl) (hlen' 1)
      (climbNext_pair hr (by decide) rfl)
    obtain ⟨start₀, he₀, hw₀⟩ := ih0 (reach_child (i := 0) hr rfl) (hlen' 0)
      (climbNext_pair hr (by decide) rfl)
    have hfirst : iterNext root ⟨track, 0⟩ = some start₁ :=
      iterNext_down hr rfl rfl (fun _ => by omega) he₁ fun _ => rfl
    have hsecond : iterNext root ⟨track, 1⟩ = some start₂ :=
      iterNext_down hr rfl rfl (fun _ => by omega) he₂ fun _ => by simpa using hup
    refine ⟨start₀, enters_leftmost (fun _ => by omega) he₀, ?_⟩
    rw [entries_three]
    exact hw₀.append (.cons hfirst (hw₁.append (.cons hsecond hw₂)))

/-! Backwards. -/

section
variable {start stop : Option Iterator} {c : Node κ υ} {which i : Nat}

theorem climbPrev_zero (track : List Nat) :
    climbPrev (track ++ [0]).reverse = climbPrev track.reverse := by
  rw [List.reverse_append, List.reverse_singleton, List.singleton_append, climbPrev, if_pos rfl]

theorem climbPrev_succ (track : List Nat) (i : Nat) :
    climbPrev (track ++ [i + 1]).reverse = some ⟨track, i⟩ := by
  rw [List.reverse_append, List.reverse_singleton, List.singleton_append, climbPrev,
    if_neg (Nat.succ_ne_zero i), List.reverse_reverse, Nat.add_sub_cancel]

theorem iterPrev_down (hr : root.reach track = some t) (hc : t.child which = some c)
    (hlen : c.isNull = false → track.length < 100)
    (he : Enters goRightmost c (track ++ [which]) start stop)
    (hup : c.isNull = true → (if which = 1 then some ⟨track, 0⟩
      else climbPrev track.reverse) = stop) :
    iterPrev root ⟨track, which⟩ = some start := by
  rw [iterPrev, hr]
  cases hn : c.isNull with
  | true =>
    rw [he.1 hn, ← hup hn]
    by_cases hw : which = 1
    · subst hw
      simp [hc, hn]
    · simp [hc, hn, hw]
  | false =>
    obtain ⟨it, hgo, rfl⟩ := he.2 hn
    simp [hc, hn, push_eq (hlen hn), hgo]

theorem enters_rightmost_two (hlen : c1.isNull = false → track.length < 100)
    (he : Enters goRightmost c1 (track ++ [1]) start (some ⟨track, 0⟩)) :
    Enters goRightmost (mk (some p) none c0 c1 null none null) track start stop := by
  refine ⟨nofun, fun _ => ?_⟩
  cases hn : c1.isNull with
  | true => exact ⟨⟨track, 0⟩, by simp [goRightmost, hn], he.1 hn⟩
  | false =>
    obtain ⟨it, hgo, hstart⟩ := he.2 hn
    exact ⟨it, by simp [goRightmost, hn, push_eq (hlen hn), hgo], hstart⟩

theorem enters_rightmost_three (hlen : c2.isNull = false → track.length < 100)
    (he : Enters goRightmost c2 (track ++ [2]) start (some ⟨track, 1⟩)) :
    Enters goRightmost (mk (some p) (some q) c0 c1 c2 none null) track start stop := by
  refine ⟨nofun, fun _ => ?_⟩
  cases hn : c2.isNull with
  | true => exact ⟨⟨track, 1⟩, by simp [goRightmost, hn], he.1 hn⟩
  | false =>
    obtain ⟨it, hgo, hstart⟩ := he.2 hn
    exact ⟨it, by simp [goRightmost, hn, push_eq (hlen hn), hgo], hstart⟩

end

/-- `prev` walks the pairs of a subtree from right to left, and then goes up. -/
theorem prev_walk (hs : Shape n t) {stop : Option Iterator} (hr : root.reach track = some t)
    (hlen : track.length + n ≤ 100) (hup : climbPrev track.reverse = stop) :
    ∃ start, Enters goRightmost t track start stop ∧
      Walk (iterPrev root) start (entries t track).reverse stop := by
  induction hs generalizing track stop with
  | empty => exact ⟨stop, ⟨fun _ => rfl, nofun⟩, .nil stop⟩
  | @two n c0 c1 p h0 h1 ih0 ih1 =>
    have hlen' : ∀ i : Nat, (track ++ [i]).length + n ≤ 100 := fun i => by simp; omega
    obtain ⟨start₀, he₀, hw₀⟩ := ih0 (reach_child (i := 0) hr rfl) (hlen' 0)
      ((climbPrev_zero track).trans hup)
    obtain ⟨start₁, he₁, hw₁⟩ := ih1 (reach_child (i := 1) hr rfl) (hlen' 1)
      (climbPrev_succ track 0)
    have hprev : iterPrev root ⟨track, 0⟩ = some start₀ :=
      iterPrev_down hr rfl (fun _ => by omega) he₀ fun _ => by simpa using hup
    refine ⟨start₁, enters_rightmost_two (fun _ => by omega) he₁, ?_⟩
    rw [entries_two, List.reverse_append, List.reverse_cons, List.append_assoc]
    exact hw₁.append (.cons hprev hw₀)
  | @three n c0 c1 c2 p q h0 h1 h2 ih0 ih1 ih2 =>
    have hlen' : ∀ i : Nat, (track ++ [i]).length + n ≤ 100 := fun i => by simp; omega
    obtain ⟨start₀, he₀, hw₀⟩ := ih0 (reach_child (i := 0) hr rfl) (hlen' 0)
      ((climbPrev_zero track).trans hup)
    obtain ⟨start₁, he₁, hw₁⟩ := ih1 (reach_child (i := 1) hr rfl) (hlen' 1)
      (climbPrev_succ track 0)
    obtain ⟨start₂, he₂, hw₂⟩ := ih2 (reach_child (i := 2) hr rfl) (hlen' 2)
      (climbPrev_succ track 1)
    have hfirst : iterPrev root ⟨track, 0⟩ = some start₀ :=
      iterPrev_down hr rfl (fun _ => by omega) he₀ fun _ => by simpa using hup
    have hsecond : iterPrev root ⟨track, 1⟩ = some start₁ :=
      iterPrev_down hr rfl (fun _ => by omega) he₁ fun _ => rfl
    refine ⟨start₂, enters_rightmost_three (fun _ => by omega) he₂, ?_⟩
    rw [entries_three, List.reverse_append, List.reverse_cons, List.reverse_append,
      List.reverse_cons, List.append_assoc, List.append_assoc, List.append_assoc]
    exact hw₂.append (.cons hsecond (hw₁.append (.cons hfirst hw₀)))

/-! Both directions on a whole tree. -/

theorem iterBegin_walk {desc : Descriptor κ υ} (hs : Shape n desc.root) (hn : n ≤ 100) :
    ∃ start, iterBegin desc = some start ∧
      Walk (iterNext desc.root) start (entries desc.root []) none := by
  have hroot : desc.root.reach [] = some desc.root := rfl
  obtain ⟨start, ⟨hnull, hgo⟩, hw⟩ := next_walk hs hroot (by simp; omega) rfl
  refine ⟨start, ?_, hw⟩
  rw [iterBegin]
  cases h : desc.root.isNull with
  | true => rw [hnull h]; rfl
  | false =>
    obtain ⟨it, e, rfl⟩ := hgo h
    rw [e]
    rfl

theorem iterEnd_walk {desc : Descriptor κ υ} (hs : Shape n desc.root) (hn : n ≤ 100) :
    ∃ start, iterEnd desc = some start ∧
      Walk (iterPrev desc.root) start (entries desc.root []).reverse none := by
  have hroot : desc.root.reach [] = some desc.root := rfl
  obtain ⟨start, ⟨hnull, hgo⟩, hw⟩ := prev_walk hs hroot (by simp; omega) rfl
  refine ⟨start, ?_, hw⟩
  rw [iterEnd]
  cases h : desc.root.isNull with
  | true => rw [hnull h]; rfl
  | false =>
    obtain ⟨it, e, rfl⟩ := hgo h
    rw [e]
    rfl

/-- The iterator points to the pair, or it is not valid and there is no pair. -/
def Denotes (root : Node κ υ) (it : Option Iterator) (x : Option (κ × υ)) : Prop :=
  it.map (iteratorDeref root) = x.map some

/-- The neighbours of an iterator among those of the tree. -/
theorem neighbours {desc : Descriptor κ υ} (hs : Shape n desc.root) (hn : n ≤ 100)
    {iter : Iterator} {x : κ × υ} (hd : iteratorDeref desc.root iter = some x) :
    ∃ l r next prev, desc.root.toList = l ++ x :: r ∧
      iterNext desc.root iter = some next ∧ Denotes desc.root next r.head? ∧
      iterPrev desc.root iter = some prev ∧ Denotes desc.root prev l.getLast? ∧
      ∀ it, next = some it → iterPrev desc.root it = some (some iter) := by
  obtain ⟨_, -, hfwd⟩ := iterBegin_walk hs hn
  obtain ⟨_, -, hbwd⟩ := iterEnd_walk hs hn
  have hroot : desc.root.reach [] = some desc.root := rfl
  have hmem : iter ∈ entries desc.root [] := mem_entries [] hd
  have hmap := entries_deref hs hroot
  obtain ⟨before, after, hsplit⟩ := List.append_of_mem hmem
  rw [hsplit] at hfwd hbwd hmap
  obtain ⟨l, rest, hlist, hl, hrest⟩ := List.append_eq_map_iff.1
    ((List.map_append (f := iteratorDeref desc.root)).symm.trans hmap)
  rw [List.map_cons, hd] at hrest
  obtain ⟨y, r, rfl, hy, hr⟩ := List.map_eq_cons_iff.1 hrest
  cases hy
  rw [List.reverse_append, List.reverse_cons, List.append_assoc, List.singleton_append] at hbwd
  refine ⟨l, r, after.head?, before.reverse.head?, hlist, hfwd.step_eq, ?_, hbwd.step_eq, ?_, ?_⟩
  · rw [Denotes, ← List.head?_map, ← List.head?_map, hr]
  · rw [Denotes, List.head?_reverse, ← List.getLast?_map, ← List.getLast?_map, hl]
  · intro it hit
    cases after with
    | nil => cases hit
    | cons next after =>
      cases hit
      -- backwards, `iter` comes right after the entry that follows it
      rw [List.reverse_cons, List.append_assoc, List.singleton_append] at hbwd
      exact hbwd.step_eq

end

section
variable {κ υ : Type} {comp : κ → κ → Int}

/-- **Iteration.** In an ordered tree of any depth that fits into a track, from `begin`,
    `next` visits the entries in ascending order and then is at an end; from `end`, `prev`
    visits them in descending order; and from the iterator of a present key they lead to
    the neighbouring entries, and back. The number in `size` has no part in it. -/
theorem iteration (ho : TotalOrder comp) {desc : Descriptor κ υ} {n : Nat}
    (hs : Shape n desc.root) (hn : n ≤ 100) (hord : Ordered comp desc.root) :
    (∃ its, its.map (iteratorDeref desc.root) = desc.root.toList.map some ∧
      Sorted comp desc.root.toList ∧
      (∃ start, iterBegin desc = some start ∧ Walk (iterNext desc.root) start its none) ∧
      ∃ start, iterEnd desc = some start ∧ Walk (iterPrev desc.root) start its.reverse none) ∧
    ∀ k v, (k, v) ∈ desc.root.toList → ∃ iter l r next prev,
      ptrAt comp desc k = some (0, some iter) ∧ iteratorDeref desc.root iter = some (k, v) ∧
      desc.root.toList = l ++ (k, v) :: r ∧
      iterNext desc.root iter = some next ∧ Denotes desc.root next r.head? ∧
      iterPrev desc.root iter = some prev ∧ Denotes desc.root prev l.getLast? ∧
      ∀ it, next = some it → iterPrev desc.root it = some (some iter) := by
  have hl := hs.sorted ho hord
  refine ⟨⟨entries desc.root [], entries_deref hs rfl, hl, iterBegin_walk hs hn,
    iterEnd_walk hs hn⟩, fun k v hkv => ?_⟩
  obtain ⟨path, which, e, hd⟩ := @recursiveSearch_mem _ _ comp n _ [] ho k v hs hl hkv
    (by simp; omega)
  obtain ⟨l, r, next, prev, hlist, hnext, hnd, hprev, hpd, hback⟩ := neighbours hs hn hd
  exact ⟨_, l, r, next, prev, e, hd, hlist, hnext, hnd, hprev, hpd, hback⟩

theorem iteration_inner : (∃ its start,
      its.map (iteratorDeref innerNode.root) = [some (1, 10), some (2, 20), some (3, 30)] ∧
        iterBegin innerNode = some start ∧ Walk (iterNext innerNode.root) start its none) ∧
    ∃ iter next, ptrAt byValue innerNode 2 = some (0, some iter) ∧
      iterNext innerNode.root iter = some (some next) ∧
      iteratorDeref innerNode.root next = some (3, 30) ∧
      iterPrev innerNode.root next = some (some iter) := by
  have hs : Shape 2 innerNode.root := .two _ (shape_leaf _) (shape_leaf _)
  obtain ⟨⟨its, hmap, -, ⟨start, e, hw⟩, -⟩, hkeys⟩ :=
    iteration byValue_total hs (by decide) innerNode_valid.ordered
  refine ⟨⟨its, start, hmap, e, hw⟩, ?_⟩
  obtain ⟨iter, l, r, next, -, hptr, -, hlist, hnext, hd, -, -, hback⟩ := hkeys 2 20 (by decide)
  have hr : r = [(3, 30)] := by
    have hlist' : [(1, 10), (2, 20), (3, 30)] = l ++ (2, 20) :: r := hlist
    match l with
    | [] => simp at hlist'
    | [_] => exact (by simpa using hlist'.symm : _ ∧ r = [(3, 30)]).2
    | _ :: _ :: [] => simp at hlist'
    | _ :: _ :: _ :: _ => simp at hlist'
  rw [hr] at hd
  cases next with
  | none => cases hd
  | some next => exact ⟨iter, next, hptr, hnext, Option.some.inj hd, hback next rfl⟩

end

end Zhwkrfsp.BTree
