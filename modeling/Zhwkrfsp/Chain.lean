import Mathlib.Data.List.Perm.Subperm
import Mathlib.Logic.Function.Basic
import Mathlib.Tactic.Common

/- Doubly linked lists in a heap. A cell holds a payload and two links; a chain
   is a list of addresses with their payloads whose cells link to their
   neighbours. Splicing a cell in, cutting one out and overwriting a payload
   act on the list as they should, and leave every other cell alone. -/
namespace Linked

/-- A cell: its payload and the addresses before and after it. -/
structure Cell (α : Type) where
  data : α
  prev : Option Nat
  next : Option Nat

/-- A heap of cells. Addresses from `brk` on have never been handed out;
    `mallocs` says which of the next allocations succeed, and when it is used up
    all do. -/
structure Heap (α : Type) where
  cell : Nat → Option (Cell α)
  brk : Nat
  mallocs : List Bool

variable {α : Type}

namespace Heap

/-- Every allocation succeeds, nothing is allocated yet. -/
def empty : Heap α := ⟨fun _ => none, 0, []⟩

/-- One allocation: whether it succeeds. -/
def malloc (h : Heap α) : Bool × Heap α :=
  match h.mallocs with
  | [] => (true, h)
  | b :: bs => (b, { h with mallocs := bs })

/-- An unlinked cell at an address of its own. -/
def new (h : Heap α) (x : α) : Nat × Heap α :=
  (h.brk, { h with cell := Function.update h.cell h.brk (some ⟨x, none, none⟩), brk := h.brk + 1 })

/-- Update of a cell; `none` when there is no cell at the address. -/
def modify (h : Heap α) (a : Nat) (f : Cell α → Cell α) : Option (Heap α) :=
  (h.cell a).map fun c => { h with cell := Function.update h.cell a (some (f c)) }

def free (h : Heap α) (a : Nat) : Option (Heap α) :=
  (h.cell a).map fun _ => { h with cell := Function.update h.cell a none }

/-- Update of the cell behind a pointer, unless that is NULL. -/
def modifyAt (h : Heap α) (o : Option Nat) (f : Cell α → Cell α) : Option (Heap α) :=
  match o with
  | some a => h.modify a f
  | none => some h

theorem modify_some {h : Heap α} {a : Nat} {c : Cell α} (e : h.cell a = some c)
    (f : Cell α → Cell α) :
    h.modify a f = some { h with cell := Function.update h.cell a (some (f c)) } := by
  simp [modify, e]

theorem free_some {h : Heap α} {a : Nat} {c : Cell α} (e : h.cell a = some c) :
    h.free a = some { h with cell := Function.update h.cell a none } := by
  simp [free, e]

theorem malloc_true {h : Heap α} (e : h.mallocs = []) : h.malloc = (true, h) := by
  simp [malloc, e]

/-! What is stored, whatever the links are. -/

/-- What is stored at an address, if it is in use. -/
def payload (h : Heap α) (a : Nat) : Option α := (h.cell a).map Cell.data

def InUse (h : Heap α) (a : Nat) : Prop := (h.payload a).isSome

theorem inUse_iff {h : Heap α} {a : Nat} : h.InUse a ↔ ∃ c, h.cell a = some c := by
  rw [InUse, payload, Option.isSome_map, Option.isSome_iff_exists]

theorem payload_modify {h h' : Heap α} {a : Nat} {f : Cell α → Cell α} {c : Cell α}
    (hc : h.cell a = some c) (e : h.modify a f = some h') :
    h'.payload = Function.update h.payload a (some (f c).data) := by
  rw [modify_some hc, Option.some.injEq] at e
  subst e
  funext b
  by_cases hb : b = a
  · subst hb
    simp [payload]
  · simp [payload, hb]

/-- A change of links. -/
theorem payload_modifyAt {h h' : Heap α} {o : Option Nat} {f : Cell α → Cell α}
    (e : h.modifyAt o f = some h') (hf : ∀ c, (f c).data = c.data) : h'.payload = h.payload := by
  cases o with
  | none =>
    cases e
    rfl
  | some a =>
    have e : h.modify a f = some h' := e
    obtain ⟨c, hc, -⟩ := Option.map_eq_some_iff.1 e
    rw [payload_modify hc e, hf]
    apply Function.update_eq_self_iff.2
    rw [payload, hc]
    rfl

theorem payload_free {h h' : Heap α} {a : Nat} (e : h.free a = some h') :
    h'.payload = Function.update h.payload a none := by
  obtain ⟨c, -, rfl⟩ := Option.map_eq_some_iff.1 e
  funext b
  by_cases hb : b = a
  · subst hb
    simp [payload]
  · simp [payload, hb]

theorem payload_new (h : Heap α) (x : α) :
    (h.new x).2.payload = Function.update h.payload h.brk (some x) := by
  funext b
  by_cases hb : b = h.brk
  · subst hb
    simp [payload, new]
  · simp [payload, new, hb]

end Heap

/-- The first address of a chain, or `n` when it is empty. -/
def first (l : List (Nat × α)) (n : Option Nat) : Option Nat := (l.head?.map Prod.fst).or n

/-- The last address of a chain, or `p` when it is empty. -/
def last (p : Option Nat) (l : List (Nat × α)) : Option Nat := (l.getLast?.map Prod.fst).or p

@[simp] theorem first_nil (n : Option Nat) : first ([] : List (Nat × α)) n = n := by simp [first]

@[simp] theorem first_cons (a : Nat × α) (l : List (Nat × α)) (n : Option Nat) :
    first (a :: l) n = some a.1 := by simp [first]

@[simp] theorem last_nil (p : Option Nat) : last p ([] : List (Nat × α)) = p := by simp [last]

@[simp] theorem last_append (p : Option Nat) (l : List (Nat × α)) (a : Nat × α) :
    last p (l ++ [a]) = some a.1 := by simp [last]

theorem last_cons (p : Option Nat) (a : Nat × α) (l : List (Nat × α)) :
    last p (a :: l) = last (some a.1) l := by
  rcases List.eq_nil_or_concat l with rfl | ⟨l, b, rfl⟩
  · simp [last]
  · rw [List.concat_eq_append, ← List.cons_append, last_append, last_append]

theorem first_append (l l' : List (Nat × α)) (n : Option Nat) :
    first (l ++ l') n = first l (first l' n) := by
  cases l <;> simp

/-- `l` is linked up in the cells of `m`, with `p` before it and `n` after it. -/
def Chain (m : Nat → Option (Cell α)) : Option Nat → List (Nat × α) → Option Nat → Prop
  | _, [], _ => True
  | p, (a, x) :: l, n => m a = some ⟨x, p, first l n⟩ ∧ Chain m (some a) l n

namespace Chain
variable {m m' : Nat → Option (Cell α)} {p n : Option Nat} {l l₁ l₂ : List (Nat × α)}
  {a c : Nat} {x y : α}

theorem append : Chain m p (l₁ ++ l₂) n ↔
    Chain m p l₁ (first l₂ n) ∧ Chain m (last p l₁) l₂ n := by
  induction l₁ generalizing p with
  | nil => simp [Chain]
  | cons b l₁ ih =>
    simp only [List.cons_append, Chain, ih, first_append, last_cons, and_assoc]

/-- A chain only depends on its own cells. -/
theorem frame (h : Chain m p l n) (e : ∀ a ∈ l.map Prod.fst, m' a = m a) : Chain m' p l n := by
  induction l generalizing p with
  | nil => trivial
  | cons b l ih =>
    obtain ⟨hb, hl⟩ := h
    refine ⟨?_, ih hl fun a ha => e a (by simp_all)⟩
    rw [e b.1 (by simp), hb]

theorem cell (h : Chain m p l n) (hx : (a, x) ∈ l) : ∃ q r, m a = some ⟨x, q, r⟩ := by
  induction l generalizing p with
  | nil => simp at hx
  | cons b l ih =>
    obtain ⟨hb, hl⟩ := h
    rcases List.mem_cons.1 hx with rfl | hx
    · exact ⟨_, _, hb⟩
    · exact ih hl hx

theorem live (h : Chain m p l n) (ha : a ∈ l.map Prod.fst) : ∃ c, m a = some c := by
  obtain ⟨⟨b, x⟩, hb, rfl⟩ := List.mem_map.1 ha
  obtain ⟨q, r, e⟩ := h.cell hb
  exact ⟨_, e⟩

/-- The cell in the middle of a chain. -/
theorem mid (h : Chain m p (l₁ ++ (a, x) :: l₂) n) :
    m a = some ⟨x, last p l₁, first l₂ n⟩ := (append.1 h).2.1

end Chain

/-! Redirecting one link, and the three changes of a chain. -/

/-- The link after `o`, if there is a cell there, becomes `v`. -/
def setNext (m : Nat → Option (Cell α)) (o v : Option Nat) : Nat → Option (Cell α) :=
  match o with
  | none => m
  | some a => Function.update m a ((m a).map fun c => { c with next := v })

/-- The link before `o`, if there is a cell there, becomes `v`. -/
def setPrev (m : Nat → Option (Cell α)) (o v : Option Nat) : Nat → Option (Cell α) :=
  match o with
  | none => m
  | some a => Function.update m a ((m a).map fun c => { c with prev := v })

theorem setNext_of_ne {m : Nat → Option (Cell α)} {o v : Option Nat} {b : Nat} (h : o ≠ some b) :
    setNext m o v b = m b := by
  cases o with
  | none => rfl
  | some a => exact Function.update_of_ne (fun e => h (by rw [e])) _ _

theorem setPrev_of_ne {m : Nat → Option (Cell α)} {o v : Option Nat} {b : Nat} (h : o ≠ some b) :
    setPrev m o v b = m b := by
  cases o with
  | none => rfl
  | some a => exact Function.update_of_ne (fun e => h (by rw [e])) _ _

theorem setNext_congr {m m' : Nat → Option (Cell α)} {b : Nat} (e : m b = m' b)
    (o v : Option Nat) : setNext m o v b = setNext m' o v b := by
  by_cases h : o = some b
  · simp [setNext, h, e]
  · rw [setNext_of_ne h, setNext_of_ne h, e]

theorem setPrev_congr {m m' : Nat → Option (Cell α)} {b : Nat} (e : m b = m' b)
    (o v : Option Nat) : setPrev m o v b = setPrev m' o v b := by
  by_cases h : o = some b
  · simp [setPrev, h, e]
  · rw [setPrev_of_ne h, setPrev_of_ne h, e]

theorem setNext_live {m : Nat → Option (Cell α)} {b : Nat} (h : ∃ c, m b = some c)
    (o v : Option Nat) : ∃ c, setNext m o v b = some c := by
  obtain ⟨c, hc⟩ := h
  by_cases e : o = some b
  · subst e
    exact ⟨{ c with next := v }, by simp [setNext, hc]⟩
  · exact ⟨c, by rw [setNext_of_ne e, hc]⟩

theorem Heap.modifyAt_next {h : Heap α} {o : Option Nat}
    (ho : ∀ a, o = some a → ∃ c, h.cell a = some c) (v : Option Nat) :
    h.modifyAt o (fun c => { c with next := v }) =
      some { h with cell := setNext h.cell o v } := by
  cases o with
  | none => rfl
  | some a =>
    obtain ⟨c, hc⟩ := ho a rfl
    simp [modifyAt, modify, setNext, hc]

theorem Heap.modifyAt_prev {h : Heap α} {o : Option Nat}
    (ho : ∀ a, o = some a → ∃ c, h.cell a = some c) (v : Option Nat) :
    h.modifyAt o (fun c => { c with prev := v }) =
      some { h with cell := setPrev h.cell o v } := by
  cases o with
  | none => rfl
  | some a =>
    obtain ⟨c, hc⟩ := ho a rfl
    simp [modifyAt, modify, setPrev, hc]

theorem last_mem {p : Option Nat} {l : List (Nat × α)} {a : Nat} (h : last p l = some a)
    (hp : p ≠ some a) : a ∈ l.map Prod.fst := by
  rcases List.eq_nil_or_concat l with rfl | ⟨l, b, rfl⟩
  · exact absurd h hp
  · rw [List.concat_eq_append, last_append, Option.some.injEq] at h
    simp [← h]

theorem first_mem {n : Option Nat} {l : List (Nat × α)} {a : Nat} (h : first l n = some a)
    (hn : n ≠ some a) : a ∈ l.map Prod.fst := by
  cases l with
  | nil => exact absurd h hn
  | cons b l => simp_all

namespace Chain
variable {m : Nat → Option (Cell α)} {p n v : Option Nat} {l l₁ l₂ : List (Nat × α)}
  {a c : Nat} {x y : α}

theorem setNext_last (h : Chain m p l n) (nd : (l.map Prod.fst).Nodup) :
    Chain (setNext m (last none l) v) p l v := by
  rcases List.eq_nil_or_concat l with rfl | ⟨l, b, rfl⟩
  · trivial
  rw [List.concat_eq_append] at h nd ⊢
  rw [List.map_append, List.nodup_append] at nd
  rw [last_append]
  refine append.2 ⟨(append.1 h).1.frame fun a ha => setNext_of_ne ?_, ?_, trivial⟩
  · rintro ⟨⟩
    exact nd.2.2 _ ha _ (by simp) rfl
  · simp [setNext, h.mid]

theorem setPrev_first (h : Chain m p l n) (nd : (l.map Prod.fst).Nodup) :
    Chain (setPrev m (first l none) v) v l n := by
  cases l with
  | nil => trivial
  | cons b l =>
    rw [List.map_cons, List.nodup_cons] at nd
    rw [first_cons]
    refine ⟨?_, h.2.frame fun a ha => setPrev_of_ne ?_⟩
    · simp [setPrev, h.1]
    · rintro ⟨⟩
      exact nd.1 ha

/-- A new cell spliced in between two halves. -/
theorem splice (h : Chain m none (l₁ ++ l₂) none) (nd : ((l₁ ++ l₂).map Prod.fst).Nodup)
    (hc : c ∉ (l₁ ++ l₂).map Prod.fst) :
    Chain (Function.update (setPrev (setNext m (last none l₁) (some c)) (first l₂ none) (some c)) c
        (some ⟨x, last none l₁, first l₂ none⟩))
      none (l₁ ++ (c, x) :: l₂) none := by
  rw [List.map_append] at nd hc
  obtain ⟨nd₁, nd₂, nd⟩ := List.nodup_append.1 nd
  have ne : ∀ b ∈ l₁.map Prod.fst ++ l₂.map Prod.fst, b ≠ c := fun b hb e => hc (e ▸ hb)
  obtain ⟨h₁, h₂⟩ := append.1 h
  refine append.2 ⟨?_, ?_, ?_⟩
  · apply (setNext_last h₁ nd₁).frame
    intro b hb
    have e : first l₂ none ≠ some b := fun e => nd _ hb _ (first_mem e nofun) rfl
    rw [Function.update_of_ne (ne b (by simp [hb])), first_cons, setPrev_of_ne e]
  · rw [Function.update_self]
  · apply (setPrev_first h₂ nd₂).frame
    intro b hb
    rw [Function.update_of_ne (ne b (by simp [hb]))]
    have hb' : setNext m (last none l₁) (some c) b = m b :=
      setNext_of_ne fun e => nd _ (last_mem e nofun) _ hb rfl
    by_cases e : first l₂ none = some b
    · rw [e]
      simp [setPrev, hb']
    · rw [setPrev_of_ne e, setPrev_of_ne e, hb']

/-- The cell in the middle cut out. -/
theorem cut (h : Chain m none (l₁ ++ (c, x) :: l₂) none)
    (nd : ((l₁ ++ (c, x) :: l₂).map Prod.fst).Nodup) :
    Chain (setPrev (setNext m (last none l₁) (first l₂ none)) (first l₂ none) (last none l₁))
      none (l₁ ++ l₂) none := by
  rw [List.map_append, List.map_cons] at nd
  obtain ⟨nd₁, nd₂, nd⟩ := List.nodup_append.1 nd
  obtain ⟨h₁, -, h₂⟩ := append.1 h
  refine append.2 ⟨?_, ?_⟩
  · refine (setNext_last h₁ nd₁).frame fun b hb => setPrev_of_ne fun e => ?_
    exact nd _ hb _ (List.mem_cons_of_mem _ (first_mem e nofun)) rfl
  · apply (setPrev_first h₂ (List.nodup_cons.1 nd₂).2).frame
    intro b hb
    have hb' : setNext m (last none l₁) (first l₂ none) b = m b :=
      setNext_of_ne fun e => nd _ (last_mem e nofun) _ (List.mem_cons_of_mem _ hb) rfl
    by_cases e : first l₂ none = some b
    · rw [e] at hb' ⊢
      simp [setPrev, hb']
    · rw [setPrev_of_ne e, setPrev_of_ne e, hb']

/-- The payload in the middle overwritten. -/
theorem write (h : Chain m p (l₁ ++ (a, x) :: l₂) n)
    (nd : ((l₁ ++ (a, x) :: l₂).map Prod.fst).Nodup) :
    Chain (Function.update m a ((m a).map fun c => { c with data := y }))
      p (l₁ ++ (a, y) :: l₂) n := by
  rw [List.map_append, List.map_cons] at nd
  obtain ⟨-, nd₂, nd⟩ := List.nodup_append.1 nd
  rw [List.nodup_cons] at nd₂
  have e := h.mid
  obtain ⟨h₁, -, h₂⟩ := append.1 h
  refine append.2 ⟨?_, ?_, ?_⟩
  · exact h₁.frame fun b hb => Function.update_of_ne (fun e => nd b hb a (by simp) e) _ _
  · simp [e]
  · refine h₂.frame fun b hb => Function.update_of_ne (fun e => ?_) _ _
    exact nd₂.1 (e ▸ hb)

end Chain

/-- Distinct addresses below `n` are at most `n`. -/
theorem length_le_of_lt {l : List (Nat × α)} {n : Nat} (nd : (l.map Prod.fst).Nodup)
    (h : ∀ a ∈ l.map Prod.fst, a < n) : l.length ≤ n := by
  have hsub : l.map Prod.fst ⊆ List.range n := fun a ha => List.mem_range.2 (h a ha)
  have hle := (List.subperm_of_subset nd hsub).length_le
  rw [List.length_map, List.length_range] at hle
  exact hle

/-! Changes that stay within a set of cells. -/

/-- The links of a cell lead to `K`. -/
def Cell.LinksIn (K : Nat → Prop) (c : Cell α) : Prop :=
  (∀ q, c.prev = some q → K q) ∧ ∀ q, c.next = some q → K q

/-- No link of a cell of `K` leads out of `K`. -/
def Closed (K : Nat → Prop) (m : Nat → Option (Cell α)) : Prop :=
  ∀ a c, K a → m a = some c → c.LinksIn K

/-- Only cells of `K` have changed, and its links still stay in it. -/
structure Within (K : Nat → Prop) (h h' : Heap α) : Prop where
  closed : Closed K h'.cell
  frame : ∀ b, ¬K b → h'.cell b = h.cell b
  brk : h.brk ≤ h'.brk

/-- A chain is closed. -/
theorem Chain.closed {m : Nat → Option (Cell α)} {l : List (Nat × α)}
    (h : Chain m none l none) : Closed (· ∈ l.map Prod.fst) m := by
  intro a c ha hc
  obtain ⟨⟨b, x⟩, hb, rfl⟩ := List.mem_map.1 ha
  obtain ⟨l₁, l₂, rfl⟩ := List.append_of_mem hb
  rw [h.mid] at hc
  cases hc
  rw [List.map_append, List.map_cons]
  refine ⟨fun q hq => ?_, fun q hq => ?_⟩
  · exact List.mem_append_left _ (last_mem hq nofun)
  · exact List.mem_append_right _ (List.mem_cons_of_mem _ (first_mem hq nofun))

namespace Within
variable {K : Nat → Prop} {h h₁ h' : Heap α} {a : Nat}

theorem refl (hc : Closed K h.cell) : Within K h h := ⟨hc, fun _ _ => rfl, Nat.le_refl _⟩

theorem trans (w : Within K h h₁) (w' : Within K h₁ h') : Within K h h' :=
  ⟨w'.closed, fun b hb => (w'.frame b hb).trans (w.frame b hb), Nat.le_trans w.brk w'.brk⟩

/-- One cell of `K` replaced or removed. -/
theorem update {v : Option (Cell α)} (hc : Closed K h.cell) (ha : K a)
    (hv : ∀ c, v = some c → c.LinksIn K) (hcell : h'.cell = Function.update h.cell a v)
    (hbrk : h.brk ≤ h'.brk) : Within K h h' := by
  refine ⟨fun b d hb hd => ?_, fun b hb => ?_, hbrk⟩
  · rw [hcell] at hd
    by_cases hba : b = a
    · rw [hba, Function.update_self] at hd
      exact hv d hd
    · rw [Function.update_of_ne hba] at hd
      exact hc b d hb hd
  · rw [hcell]
    refine Function.update_of_ne ?_ _ _
    rintro rfl
    exact hb ha

theorem modify {f : Cell α → Cell α} (hc : Closed K h.cell) (ha : K a)
    (e : h.modify a f = some h') (hf : ∀ c, h.cell a = some c → (f c).LinksIn K) :
    Within K h h' := by
  obtain ⟨c, hcell, rfl⟩ := Option.map_eq_some_iff.1 e
  refine update hc ha (fun d hd => ?_) rfl (Nat.le_refl _)
  cases hd
  exact hf c hcell

theorem modifyAt {o : Option Nat} {f : Cell α → Cell α} (hc : Closed K h.cell)
    (ho : ∀ a, o = some a → K a) (e : h.modifyAt o f = some h')
    (hf : ∀ a c, K a → h.cell a = some c → (f c).LinksIn K) : Within K h h' := by
  cases o with
  | none =>
    cases e
    exact refl hc
  | some a => exact modify hc (ho a rfl) e fun c => hf a c (ho a rfl)

theorem free (hc : Closed K h.cell) (ha : K a) (e : h.free a = some h') : Within K h h' := by
  obtain ⟨c, -, rfl⟩ := Option.map_eq_some_iff.1 e
  exact update hc ha (fun d hd => by cases hd) rfl (Nat.le_refl _)

end Within

/-- A new cell has no links, so it can join a closed set. -/
theorem Closed.new {K : Nat → Prop} {h : Heap α} (hc : Closed K h.cell) (x : α) :
    Closed (fun b => b = h.brk ∨ K b) (h.new x).2.cell := by
  intro a c ha e
  have e : Function.update h.cell h.brk (some ⟨x, none, none⟩) a = some c := e
  by_cases hb : a = h.brk
  · subst hb
    rw [Function.update_self] at e
    cases e
    exact ⟨nofun, nofun⟩
  · rw [Function.update_of_ne hb] at e
    obtain ⟨hp, hn⟩ := hc a c (ha.resolve_left hb) e
    exact ⟨fun q hq => .inr (hp q hq), fun q hq => .inr (hn q hq)⟩

/-- Everything outside `K` is as before, but for the cell at the next address. -/
def Extends (K : Nat → Prop) (h h' : Heap α) : Prop :=
  (∀ b, ¬K b → b ≠ h.brk → h'.cell b = h.cell b) ∧ h.brk ≤ h'.brk

namespace Extends
variable {K : Nat → Prop} {h h₁ h' : Heap α}

theorem refl (K : Nat → Prop) (h : Heap α) : Extends K h h := ⟨fun _ _ _ => rfl, Nat.le_refl _⟩

theorem of_within (w : Within K h h') : Extends K h h' := ⟨fun b hb _ => w.frame b hb, w.brk⟩

/-- A new cell, and then changes of it and of cells of `K`. -/
theorem of_new {x : α} (hcell : h₁.cell = (h.new x).2.cell) (hbrk : h₁.brk = h.brk + 1)
    (w : Within (fun b => b = h.brk ∨ K b) h₁ h') : Extends K h h' := by
  refine ⟨fun b hb hne => ?_, Nat.le_trans (by omega) w.brk⟩
  rw [w.frame b fun hb' => hb'.elim hne hb, hcell]
  exact Function.update_of_ne hne _ _

end Extends

/-! Several lists in one heap. -/

/-- Lists without a common cell, one of them replaced by one that meets none of the others. -/
theorem apart_update {ι : Type} [DecidableEq ι] {l : ι → List (Nat × α)} {i : ι}
    {l' : List (Nat × α)}
    (h : ∀ j k, j ≠ k → ∀ a ∈ (l j).map Prod.fst, a ∉ (l k).map Prod.fst)
    (hfar : ∀ j, j ≠ i → ∀ a ∈ (l j).map Prod.fst, a ∉ l'.map Prod.fst) (j k : ι) (hjk : j ≠ k) :
    ∀ a ∈ (Function.update l i l' j).map Prod.fst,
      a ∉ (Function.update l i l' k).map Prod.fst := by
  intro a ha
  by_cases hj : j = i
  · subst hj
    rw [Function.update_self] at ha
    rw [Function.update_of_ne hjk.symm]
    exact fun hk => hfar k hjk.symm a hk ha
  · rw [Function.update_of_ne hj] at ha
    by_cases hk : k = i
    · subst hk
      rw [Function.update_self]
      exact hfar j hj a ha
    · rw [Function.update_of_ne hk]
      exact h j k hjk a ha

end Linked
