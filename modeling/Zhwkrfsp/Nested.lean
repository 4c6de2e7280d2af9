import Mathlib.Tactic.Common

/- Nested lists, and their elements by depth. A `Forest` is a list whose elements
   may hold another such list; the path of an element is made of the positions of
   the elements that it is nested in, outermost first. `level` lists the elements of
   one depth with their paths, in the order in which they stand; among them, those
   with the path `q` are the elements of the list at `q` (`filter_level`). -/
namespace Nested

inductive Forest (α : Type) where
  | nil
  | leaf (x : α) (rest : Forest α)
  | node (x : α) (sub rest : Forest α)

/-- An element and where it stands. -/
structure Record (α : Type) where
  path : List Nat
  pos : Nat
  val : α

namespace Forest
variable {α : Type}

/-- The number of elements at any depth. -/
def size : Forest α → Nat
  | .nil => 0
  | .leaf _ rest => rest.size + 1
  | .node _ sub rest => sub.size + rest.size + 1

/-- The number of depths, where a list without elements has one too. -/
def height : Forest α → Nat
  | .nil => 1
  | .leaf _ rest => rest.height
  | .node _ sub rest => max (sub.height + 1) rest.height

/-- The elements of depth `k` of a list at `p`, the positions in it counted from `i`. -/
def level : List Nat → Nat → Nat → Forest α → List (Record α)
  | _, _, _, .nil => []
  | p, i, 0, .leaf x rest => ⟨p, i, x⟩ :: level p (i + 1) 0 rest
  | p, i, k + 1, .leaf _ rest => level p (i + 1) (k + 1) rest
  | p, i, 0, .node x _ rest => ⟨p, i, x⟩ :: level p (i + 1) 0 rest
  | p, i, k + 1, .node _ sub rest => level (p ++ [i]) 0 k sub ++ level p (i + 1) (k + 1) rest

/-- The number of elements of the first `n` depths. -/
def upTo (F : Forest α) : Nat → Nat
  | 0 => 0
  | n + 1 => F.upTo n + (F.level [] 0 n).length

/-- The list at a path; none there is the empty one. -/
def sub : Forest α → List Nat → Forest α
  | F, [] => F
  | .nil, _ :: _ => .nil
  | .leaf _ _, 0 :: _ => .nil
  | .leaf _ rest, (j + 1) :: q => rest.sub (j :: q)
  | .node _ s _, 0 :: q => s.sub q
  | .node _ _ rest, (j + 1) :: q => rest.sub (j :: q)

/-- The same shape and the same leaves, and elements that hold lists are related. -/
inductive Same (R : α → α → Prop) : Forest α → Forest α → Prop
  | nil : Same R .nil .nil
  | leaf {x : α} {r r' : Forest α} : Same R r r' → Same R (.leaf x r) (.leaf x r')
  | node {x x' : α} {s s' r r' : Forest α} : R x x' → Same R s s' → Same R r r' →
      Same R (.node x s r) (.node x' s' r')

@[simp] theorem sub_nil (F : Forest α) : F.sub [] = F := by cases F <;> rfl

@[simp] theorem nil_sub (q : List Nat) : (nil : Forest α).sub q = .nil := by cases q <;> rfl

@[simp] theorem level_nil (p : List Nat) (i k : Nat) : level p i k (nil : Forest α) = [] := by
  cases k <;> rfl

theorem height_pos (F : Forest α) : 0 < F.height := by
  induction F with
  | nil => exact Nat.one_pos
  | leaf x rest ih => exact ih
  | node x s rest _ ih => exact Nat.lt_of_lt_of_le ih (Nat.le_max_right _ _)

theorem sub_append (F : Forest α) : ∀ p q : List Nat, F.sub (p ++ q) = (F.sub p).sub q := by
  induction F with
  | nil =>
    intro p q
    rw [nil_sub, nil_sub, nil_sub]
  | leaf x rest ih =>
    intro p q
    cases p with
    | nil => rw [List.nil_append, sub_nil]
    | cons j p =>
      cases j with
      | zero => exact (nil_sub q).symm
      | succ j => exact ih (j :: p) q
  | node x s rest ihs ihr =>
    intro p q
    cases p with
    | nil => rw [List.nil_append, sub_nil]
    | cons j p =>
      cases j with
      | zero => exact ihs p q
      | succ j => exact ihr (j :: p) q

/-- Below its last depth a list has no elements. -/
theorem level_of_height_le (F : Forest α) :
    ∀ {p : List Nat} {i k : Nat}, F.height ≤ k → level p i k F = [] := by
  induction F with
  | nil =>
    intro p i k _
    exact level_nil p i k
  | leaf x rest ih =>
    intro p i k hk
    cases k with
    | zero => exact absurd hk (Nat.not_le_of_gt (height_pos _))
    | succ k => exact ih hk
  | node x s rest ihs ihr =>
    intro p i k hk
    obtain ⟨hs, hr⟩ := Nat.max_le.1 hk
    cases k with
    | zero => exact absurd hk (Nat.not_le_of_gt (height_pos _))
    | succ k => rw [level, ihs (Nat.le_of_succ_le_succ hs), ihr hr, List.nil_append]

/-! Where the elements of a depth stand. -/

theorem level_path (F : Forest α) : ∀ {p : List Nat} {i k : Nat} {r : Record α},
    r ∈ level p i k F → ∃ q : List Nat, r.path = p ++ q ∧ q.length = k ∧ ∀ j ∈ q.head?, i ≤ j := by
  induction F with
  | nil =>
    intro p i k r hr
    rw [level_nil] at hr
    cases hr
  | leaf x rest ih =>
    intro p i k r hr
    have hrest : ∀ {k}, r ∈ level p (i + 1) k rest →
        ∃ q : List Nat, r.path = p ++ q ∧ q.length = k ∧ ∀ j ∈ q.head?, i ≤ j := fun hr =>
      have ⟨q, hq, hk, hj⟩ := ih hr
      ⟨q, hq, hk, fun j h => Nat.le_of_succ_le (hj j h)⟩
    cases k with
    | zero =>
      rcases List.mem_cons.1 hr with rfl | hr
      · exact ⟨[], (List.append_nil p).symm, rfl, nofun⟩
      · exact hrest hr
    | succ k => exact hrest hr
  | node x s rest ihs ihr =>
    intro p i k r hr
    have hrest : ∀ {k}, r ∈ level p (i + 1) k rest →
        ∃ q : List Nat, r.path = p ++ q ∧ q.length = k ∧ ∀ j ∈ q.head?, i ≤ j := fun hr =>
      have ⟨q, hq, hk, hj⟩ := ihr hr
      ⟨q, hq, hk, fun j h => Nat.le_of_succ_le (hj j h)⟩
    cases k with
    | zero =>
      rcases List.mem_cons.1 hr with rfl | hr
      · exact ⟨[], (List.append_nil p).symm, rfl, nofun⟩
      · exact hrest hr
    | succ k =>
      rcases List.mem_append.1 hr with hr | hr
      · obtain ⟨q, hq, hk, -⟩ := ihs hr
        refine ⟨i :: q, by rw [hq, List.append_assoc]; rfl, congrArg (· + 1) hk, fun j hj => ?_⟩
        cases hj
        exact Nat.le_refl _
      · exact hrest hr

theorem path_length {F : Forest α} {p : List Nat} {i k : Nat} {r : Record α}
    (hr : r ∈ level p i k F) : r.path.length = p.length + k := by
  obtain ⟨q, hq, hk, -⟩ := level_path F hr
  rw [hq, List.length_append, hk]

theorem path_zero {F : Forest α} {p : List Nat} {i : Nat} {r : Record α}
    (hr : r ∈ level p i 0 F) : r.path = p := by
  obtain ⟨q, hq, hk, -⟩ := level_path F hr
  rw [hq, List.eq_nil_of_length_eq_zero hk, List.append_nil]

/-- Positions and paths depend on where a list is, their number does not. -/
theorem length_level (F : Forest α) : ∀ (p p' : List Nat) (i i' k : Nat),
    (level p i k F).length = (level p' i' k F).length := by
  induction F with
  | nil =>
    intro p p' i i' k
    rw [level_nil, level_nil]
  | leaf x rest ih =>
    intro p p' i i' k
    cases k with
    | zero => exact congrArg (· + 1) (ih p p' _ _ 0)
    | succ k => exact ih p p' _ _ (k + 1)
  | node x s rest ihs ihr =>
    intro p p' i i' k
    cases k with
    | zero => exact congrArg (· + 1) (ihr p p' _ _ 0)
    | succ k =>
      rw [level, level, List.length_append, List.length_append, ihs _ (p' ++ [i']) 0 0,
        ihr p p' (i + 1) (i' + 1)]

@[simp] theorem upTo_zero (F : Forest α) : F.upTo 0 = 0 := rfl

theorem upTo_succ (F : Forest α) (n : Nat) :
    F.upTo (n + 1) = F.upTo n + (F.level [] 0 n).length := rfl

theorem upTo_nil (n : Nat) : (nil : Forest α).upTo n = 0 := by
  induction n with
  | zero => rfl
  | succ n ih => rw [upTo_succ, ih, level_nil, List.length_nil]

theorem upTo_leaf (x : α) (rest : Forest α) (n : Nat) :
    (leaf x rest).upTo (n + 1) = rest.upTo (n + 1) + 1 := by
  induction n with
  | zero =>
    have h := length_level rest [] [] 1 0 0
    rw [upTo_succ, upTo_succ, level, List.length_cons, h, upTo_zero, upTo_zero]
    omega
  | succ n ih =>
    have h := length_level rest [] [] 1 0 (n + 1)
    rw [upTo_succ, ih, upTo_succ rest (n + 1), level, h]
    omega

theorem upTo_node (x : α) (s rest : Forest α) (n : Nat) :
    (node x s rest).upTo (n + 1) = s.upTo n + rest.upTo (n + 1) + 1 := by
  induction n with
  | zero =>
    have h := length_level rest [] [] 1 0 0
    rw [upTo_succ, upTo_succ, level, List.length_cons, h, upTo_zero, upTo_zero, upTo_zero]
    omega
  | succ n ih =>
    have hs := length_level s ([] ++ [0]) [] 0 0 n
    have hr := length_level rest [] [] 1 0 (n + 1)
    rw [upTo_succ, ih, level, List.length_append, upTo_succ rest (n + 1), upTo_succ s, hs, hr]
    omega

theorem upTo_le_size (F : Forest α) : ∀ n, F.upTo n ≤ F.size := by
  induction F with
  | nil =>
    intro n
    rw [upTo_nil]
    exact Nat.zero_le _
  | leaf x rest ih =>
    intro n
    cases n with
    | zero => exact Nat.zero_le _
    | succ n =>
      rw [upTo_leaf]
      exact Nat.succ_le_succ (ih _)
  | node x s rest ihs ihr =>
    intro n
    cases n with
    | zero => exact Nat.zero_le _
    | succ n =>
      rw [upTo_node]
      exact Nat.succ_le_succ (Nat.add_le_add (ihs n) (ihr _))

/-- Above the last depth there are elements. -/
theorem level_ne_nil (F : Forest α) : ∀ {p : List Nat} {i k : Nat}, k + 1 < F.height →
    level p i k F ≠ [] := by
  induction F with
  | nil =>
    intro p i k hk
    exact absurd (Nat.lt_of_succ_lt_succ hk) (Nat.not_lt_zero k)
  | leaf x rest ih =>
    intro p i k hk
    cases k with
    | zero => exact List.cons_ne_nil _ _
    | succ k => exact ih hk
  | node x s rest ihs ihr =>
    intro p i k hk
    cases k with
    | zero => exact List.cons_ne_nil _ _
    | succ k =>
      have hcases : k + 1 + 1 < s.height + 1 ∨ k + 1 + 1 < rest.height := by
        rw [height] at hk
        omega
      rcases hcases with hk | hk
      · exact List.append_ne_nil_of_left_ne_nil (ihs (Nat.lt_of_succ_lt_succ hk)) _
      · exact List.append_ne_nil_of_right_ne_nil _ (ihr hk)

theorem eq_nil_of_level {F : Forest α} {p : List Nat} {i : Nat} (h : level p i 0 F = []) :
    F = .nil := by
  cases F with
  | nil => rfl
  | leaf x rest => cases h
  | node x s rest => cases h

/-- Where no depth has more than `N` elements, no position reaches `N`. -/
theorem level_lt {N : Nat} (F : Forest α) : ∀ {p : List Nat} {i : Nat}, (∀ c ∈ p, c < N) →
    i + (level p i 0 F).length ≤ N → (∀ k, (level p i k F).length ≤ N) →
    ∀ {k : Nat} {r : Record α}, r ∈ level p i k F → r.pos < N ∧ ∀ c ∈ r.path, c < N := by
  induction F with
  | nil =>
    intro p i _ _ _ k r hr
    rw [level_nil] at hr
    cases hr
  | leaf x rest ih =>
    intro p i hp hi hN k r hr
    have hlen : (level p i 0 (leaf x rest)).length = (level p (i + 1) 0 rest).length + 1 := rfl
    have hrest : ∀ {k}, r ∈ level p (i + 1) k rest → r.pos < N ∧ ∀ c ∈ r.path, c < N := by
      refine ih hp (by omega) fun k => ?_
      cases k with
      | zero => omega
      | succ k => exact hN (k + 1)
    cases k with
    | zero =>
      rcases List.mem_cons.1 hr with rfl | hr
      · exact ⟨by show i < N; omega, hp⟩
      · exact hrest hr
    | succ k => exact hrest hr
  | node x s rest ihs ihr =>
    intro p i hp hi hN k r hr
    have hlen : (level p i 0 (node x s rest)).length = (level p (i + 1) 0 rest).length + 1 := rfl
    -- a deeper level has the elements below `x` and those below the rest
    have hsucc : ∀ k, (level (p ++ [i]) 0 k s).length + (level p (i + 1) (k + 1) rest).length ≤ N :=
      fun k => by
        have h := hN (k + 1)
        rwa [level, List.length_append] at h
    have hrest : ∀ {k}, r ∈ level p (i + 1) k rest → r.pos < N ∧ ∀ c ∈ r.path, c < N := by
      refine ihr hp (by omega) fun k => ?_
      cases k with
      | zero => omega
      | succ k => exact Nat.le_trans (Nat.le_add_left _ _) (hsucc k)
    cases k with
    | zero =>
      rcases List.mem_cons.1 hr with rfl | hr
      · exact ⟨by show i < N; omega, hp⟩
      · exact hrest hr
    | succ k =>
      rcases List.mem_append.1 hr with hr | hr
      · have hsub : ∀ k, (level (p ++ [i]) 0 k s).length ≤ N := fun k =>
          Nat.le_trans (Nat.le_add_right _ _) (hsucc k)
        refine ihs (fun c hc => ?_) (by rw [Nat.zero_add]; exact hsub 0) hsub hr
        rcases List.mem_append.1 hc with hc | hc
        · exact hp c hc
        · rw [List.mem_singleton.1 hc]
          omega
      · exact hrest hr

/-! The elements with one path. -/

section
variable {p q : List Nat} {i j k : Nat}

/-- No element behind position `i` is nested in the one at `i`. -/
theorem filter_rest (F : Forest α) (hij : i < j) :
    (level p j k F).filter (fun r => r.path = p ++ i :: q) = [] := by
  rw [List.filter_eq_nil_iff]
  intro r hr he
  obtain ⟨q', hq', -, hj⟩ := level_path F hr
  have he' : p ++ q' = p ++ i :: q := by
    rw [← hq']
    exact of_decide_eq_true he
  rw [List.append_cancel_left he'] at hj
  exact absurd (hj i rfl) (Nat.not_le_of_gt hij)

/-- No element nested in the one at `i` is nested in a later one. -/
theorem filter_sub (F : Forest α) (hij : i ≠ j) :
    (level (p ++ [i]) 0 k F).filter (fun r => r.path = p ++ j :: q) = [] := by
  rw [List.filter_eq_nil_iff]
  intro r hr he
  obtain ⟨q', hq', -, -⟩ := level_path F hr
  have he' : p ++ i :: q' = p ++ j :: q := by
    rw [← of_decide_eq_true he, hq', List.append_assoc]
    rfl
  exact hij (List.cons.inj (List.append_cancel_left he')).1

theorem filter_zero (F : Forest α) : (level p i 0 F).filter (fun r => r.path = p) = level p i 0 F :=
  List.filter_eq_self.2 fun _ hr => decide_eq_true (path_zero hr)

end

theorem filter_level_from (F : Forest α) : ∀ (p q : List Nat) (i j : Nat),
    (level p i (q.length + 1) F).filter (fun r => r.path = p ++ (i + j) :: q) =
      level (p ++ (i + j) :: q) 0 0 (F.sub (j :: q)) := by
  induction F with
  | nil =>
    intro p q i j
    rw [level_nil, nil_sub, level_nil]
    rfl
  | leaf x rest ih =>
    intro p q i j
    cases j with
    | zero => exact filter_rest rest (Nat.lt_succ_self i)
    | succ j =>
      have h := ih p q (i + 1) j
      rw [Nat.add_assoc, Nat.add_comm 1] at h
      exact h
  | node x s rest ihs ihr =>
    intro p q i j
    rw [level, List.filter_append]
    cases j with
    | zero =>
      rw [Nat.add_zero, filter_rest rest (Nat.lt_succ_self i), List.append_nil]
      have hp : ∀ q, p ++ i :: q = (p ++ [i]) ++ q := fun q => by rw [List.append_assoc]; rfl
      cases q with
      | nil =>
        rw [sub, sub_nil]
        exact filter_zero s
      | cons j q =>
        have h := ihs (p ++ [i]) q 0 j
        rw [Nat.zero_add] at h
        rw [hp]
        exact h
    | succ j =>
      have h := ihr p q (i + 1) j
      rw [Nat.add_assoc, Nat.add_comm 1] at h
      rw [filter_sub s (by omega), List.nil_append]
      exact h

/-- The elements whose path is `q` are those of the list there. -/
theorem filter_level (F : Forest α) (q : List Nat) :
    (level [] 0 q.length F).filter (fun r => r.path = q) = level q 0 0 (F.sub q) := by
  cases q with
  | nil =>
    rw [sub_nil]
    exact filter_zero F
  | cons j q =>
    have h := filter_level_from F [] q 0 j
    rw [Nat.zero_add] at h
    exact h

end Forest
end Nested
