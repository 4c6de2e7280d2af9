import Zhwkrfsp.QListRuns

/- The two pushes when allocations fail. Each links the node in before it allocates the
   block, and `q__List_push_front` checks the wrong pointer after the first allocation.
   A failing push leaves the walks from the ends as they were exactly when the link it
   wrote is one that no walk comes to, or had that value already. Nothing in a state
   that a run has reached points beyond the addresses handed out (`Bounded`), so no
   walk there comes to the node that the failing push has made. -/
namespace Zhwkrfsp.QList
open Linked BubbleSort

section
variable {α : Type}

/-- A walk from `start` comes to the node `a`. -/
def Reaches (link : Cell α → Option Nat) (h : Heap α) (start : Option Nat) (a : Nat) : Prop :=
  ∃ k, iteratorAt link h k start = some (some a)

/-- The call does not fault, and if it returns -1 then the descriptor and the walks from
    both ends are as before. -/
def Atomic (push : Descriptor → Heap (Option α) → Option (Int32 × Descriptor × Heap (Option α)))
    (desc : Descriptor) (h : Heap (Option α)) : Prop :=
  ∃ rtv desc' h', push desc h = some (rtv, desc', h') ∧
    (rtv = -1 → desc' = desc ∧
      (∀ k, iteratorAt Cell.next h' k desc'.head = iteratorAt Cell.next h k desc.head) ∧
      ∀ k, iteratorAt Cell.prev h' k desc'.tail = iteratorAt Cell.prev h k desc.tail)

/-- When a push at the back is atomic, `node` and `block` being whether its allocations
    succeed. -/
def SafeBack (node block : Bool) (desc : Descriptor) (h : Heap (Option α)) : Prop :=
  match desc.tail with
  | none => node ∧ block ∨ ¬node ∧ desc.head = none
  | some tail => ∃ c, h.cell tail = some c ∧
    (node ∧ block ∨ ¬node ∧ c.next = none ∨ ¬Reaches Cell.next h desc.head tail)

/-- When a push at the front is. -/
def SafeFront (node block : Bool) (desc : Descriptor) (h : Heap (Option α)) : Prop :=
  match desc.tail with
  | none => node ∧ block ∨ ¬node ∧ desc.head = none
  | some _ => ∃ head c, desc.head = some head ∧ h.cell head = some c ∧
    node ∧ (block ∨ ¬Reaches Cell.prev h desc.tail head)

/-! Walks in a heap with one node changed. -/

theorem iteratorAt_cons {link : Cell α → Option Nat} {h : Heap α} {a : Nat} {c : Cell α}
    (hc : h.cell a = some c) (k : Nat) :
    iteratorAt link h (k + 1) (some a) = iteratorAt link h k (link c) := by
  rw [iteratorAt, hc, Option.bind_eq_bind, Option.bind_some]

theorem iteratorAt_succ {link : Cell α → Option Nat} {h : Heap α} {k a : Nat} {start : Option Nat}
    (e : iteratorAt link h k start = some (some a)) :
    iteratorAt link h (k + 1) start = (h.cell a).map link := by
  induction k generalizing start with
  | zero =>
    cases start with
    | none => cases e
    | some b =>
      rw [iteratorAt, Option.some.injEq, Option.some.injEq] at e
      subst e
      rw [iteratorAt]
      cases h.cell b with
      | none => rfl
      | some c =>
        rw [Option.bind_eq_bind, Option.bind_some, Option.map_some]
        cases link c <;> rfl
  | succ k ih =>
    cases start with
    | none => cases e
    | some b =>
      rw [iteratorAt, Option.bind_eq_bind, Option.bind_eq_some_iff] at e
      obtain ⟨c, hc, e⟩ := e
      rw [iteratorAt_cons hc]
      exact ih e

theorem Reaches.start (link : Cell α → Option Nat) (h : Heap α) (a : Nat) :
    Reaches link h (some a) a := ⟨0, rfl⟩

theorem Reaches.cons {link : Cell α → Option Nat} {h : Heap α} {a b : Nat} {c : Cell α}
    (hc : h.cell b = some c) (hr : Reaches link h (link c) a) : Reaches link h (some b) a := by
  obtain ⟨k, e⟩ := hr
  exact ⟨k + 1, (iteratorAt_cons hc k).trans e⟩

/-- A walk only depends on the links of the nodes it comes to. -/
theorem iteratorAt_congr {link : Cell α → Option Nat} {h h' : Heap α} {start : Option Nat}
    (e : ∀ a, Reaches link h start a → (h'.cell a).map link = (h.cell a).map link) (k : Nat) :
    iteratorAt link h' k start = iteratorAt link h k start := by
  induction k generalizing start with
  | zero => cases start <;> rfl
  | succ k ih =>
    cases start with
    | none => rfl
    | some a =>
      have ha := e a (.start link h a)
      cases hc : h.cell a with
      | none =>
        rw [hc, Option.map_none, Option.map_eq_none_iff] at ha
        rw [iteratorAt, iteratorAt, ha, hc]
        rfl
      | some c =>
        rw [hc, Option.map_some, Option.map_eq_some_iff] at ha
        obtain ⟨c', hc', hlink⟩ := ha
        rw [iteratorAt_cons hc', iteratorAt_cons hc, hlink]
        exact ih fun b hb => e b (hb.cons hc)

/-- The walks stay when and only when the one link that may have changed is not on the
    way, or has not changed. -/
theorem iteratorAt_iff {link : Cell α → Option Nat} {h h' : Heap α} {start : Option Nat} {a : Nat}
    {c c' : Cell α} (hc : h.cell a = some c) (hc' : h'.cell a = some c')
    (hrest : ∀ b, b ≠ a → Reaches link h start b → h'.cell b = h.cell b) :
    (∀ k, iteratorAt link h' k start = iteratorAt link h k start) ↔
      (link c' = link c ∨ ¬Reaches link h start a) := by
  constructor
  · intro hsame
    by_cases hr : Reaches link h start a
    · left
      obtain ⟨k, e⟩ := hr
      have e' := (hsame k).trans e
      have hnext := hsame (k + 1)
      rw [iteratorAt_succ e, iteratorAt_succ e', hc, hc', Option.map_some, Option.map_some] at hnext
      exact Option.some.inj hnext
    · exact .inr hr
  · intro hlink
    refine iteratorAt_congr fun b hb => ?_
    by_cases hba : b = a
    · subst hba
      rw [hc, hc', Option.map_some, Option.map_some, hlink.resolve_right (not_not.2 hb)]
    · rw [hrest b hba hb]

theorem reaches_mallocs {link : Cell α → Option Nat} {h : Heap α} {start : Option Nat} {a : Nat}
    (ms : List Bool) : Reaches link { h with mallocs := ms } start a ↔ Reaches link h start a := by
  have e : ∀ k, iteratorAt link { h with mallocs := ms } k start = iteratorAt link h k start :=
    iteratorAt_congr fun _ _ => rfl
  simp only [Reaches, e]

/-! Addresses handed out. -/

/-- No link leads beyond the addresses handed out. -/
def Bounded (h : Heap α) : Prop := ∀ a c, h.cell a = some c → c.LinksIn (· < h.brk)

/-- Nor does an end of a list. -/
def Descriptor.Below (desc : Descriptor) (n : Nat) : Prop :=
  ∀ a, desc.head = some a ∨ desc.tail = some a → a < n

theorem lt_of_eq_some {a n : Nat} (h : a < n) : ∀ b, some a = some b → b < n := by
  intro b e
  rwa [← Option.some.inj e]

theorem lt_of_eq_none {n : Nat} : ∀ b, none = some b → b < n := by
  intro b e
  cases e

theorem Descriptor.Below.of_ends {desc : Descriptor} {n : Nat}
    (hhead : ∀ a, desc.head = some a → a < n) (htail : ∀ a, desc.tail = some a → a < n) :
    desc.Below n := by
  intro a ha
  rcases ha with ha | ha
  · exact hhead a ha
  · exact htail a ha

theorem Descriptor.Below.mono {desc : Descriptor} {m n : Nat} (hd : desc.Below m) (hle : m ≤ n) :
    desc.Below n := fun a ha => Nat.lt_of_lt_of_le (hd a ha) hle

theorem Reaches.lt {link : Cell α → Option Nat} {h : Heap α} {start : Option Nat} {a : Nat}
    (hlink : ∀ b c d, h.cell b = some c → link c = some d → d < h.brk)
    (hstart : ∀ b, start = some b → b < h.brk) (hr : Reaches link h start a) : a < h.brk := by
  obtain ⟨k, e⟩ := hr
  induction k generalizing start with
  | zero =>
    cases start with
    | none => cases e
    | some b =>
      rw [iteratorAt, Option.some.injEq, Option.some.injEq] at e
      exact hstart a (congrArg some e)
  | succ k ih =>
    cases start with
    | none => cases e
    | some b =>
      rw [iteratorAt, Option.bind_eq_bind, Option.bind_eq_some_iff] at e
      obtain ⟨c, hc, e⟩ := e
      exact ih (fun d hd => hlink b c d hc hd) e

/-- A later heap, with no link beyond its addresses either. -/
structure Grown (h h' : Heap α) : Prop where
  bounded : Bounded h'
  brk : h.brk ≤ h'.brk

theorem Grown.trans {h h₁ h' : Heap α} (g : Grown h h₁) (g' : Grown h₁ h') : Grown h h' :=
  ⟨g'.bounded, Nat.le_trans g.brk g'.brk⟩

namespace Bounded
variable {h h' : Heap α} {a : Nat} {o v : Option Nat} {f : Cell α → Cell α} {c : Cell α}

theorem grown (hb : Bounded h) : Grown h h := ⟨hb, Nat.le_refl _⟩

/-- One cell replaced or removed. -/
theorem update {u : Option (Cell α)} (hb : Bounded h) (hbrk : h.brk ≤ h'.brk)
    (hcell : h'.cell = Function.update h.cell a u)
    (hu : ∀ c, u = some c → c.LinksIn (· < h'.brk)) : Grown h h' := by
  refine ⟨fun b d hd => ?_, hbrk⟩
  rw [hcell] at hd
  by_cases hba : b = a
  · rw [hba, Function.update_self] at hd
    exact hu d hd
  · rw [Function.update_of_ne hba] at hd
    obtain ⟨hp, hn⟩ := hb b d hd
    exact ⟨fun q hq => Nat.lt_of_lt_of_le (hp q hq) hbrk,
      fun q hq => Nat.lt_of_lt_of_le (hn q hq) hbrk⟩

theorem modify (hb : Bounded h) (e : h.modify a f = some h')
    (hf : ∀ c, c.LinksIn (· < h.brk) → (f c).LinksIn (· < h.brk)) : Grown h h' := by
  obtain ⟨c, hc, rfl⟩ := Option.map_eq_some_iff.1 e
  exact hb.update (Nat.le_refl _) rfl fun d hd => by cases hd; exact hf c (hb a c hc)

theorem setData {x : α} (hb : Bounded h)
    (e : h.modify a (fun c => { c with data := x }) = some h') : Grown h h' :=
  hb.modify e fun _ hc => hc

theorem setNext (hb : Bounded h) (hv : ∀ q, v = some q → q < h.brk)
    (e : h.modifyAt o (fun c => { c with next := v }) = some h') : Grown h h' := by
  cases o with
  | none =>
    cases e
    exact hb.grown
  | some a => exact hb.modify e fun _ hc => ⟨hc.1, hv⟩

theorem setPrev (hb : Bounded h) (hv : ∀ q, v = some q → q < h.brk)
    (e : h.modifyAt o (fun c => { c with prev := v }) = some h') : Grown h h' := by
  cases o with
  | none =>
    cases e
    exact hb.grown
  | some a => exact hb.modify e fun _ hc => ⟨hv, hc.2⟩

theorem free (hb : Bounded h) (e : h.free a = some h') : Grown h h' := by
  obtain ⟨c, -, rfl⟩ := Option.map_eq_some_iff.1 e
  exact hb.update (Nat.le_refl _) rfl nofun

end Bounded

/-! What a push does, by its allocations. -/

/-- The next allocation, whatever the cells are. -/
def Draws (ms : List Bool) (ok : Bool) (ms' : List Bool) : Prop :=
  ∀ {β : Type} (cell : Nat → Option (Cell β)) (brk : Nat),
    Heap.malloc ⟨cell, brk, ms⟩ = (ok, ⟨cell, brk, ms'⟩)

theorem draws_cons (ok : Bool) (ms : List Bool) : Draws (ok :: ms) ok ms := fun _ _ => rfl

theorem exists_draws (ms : List Bool) : ∃ ok ms', Draws ms ok ms' := by
  cases ms with
  | nil => exact ⟨true, [], fun _ _ => rfl⟩
  | cons ok ms => exact ⟨ok, ms, draws_cons ok ms⟩

section
variable {h h' : Heap (Option α)} {desc : Descriptor} {a t : Nat} {x : α} {c : Cell (Option α)}
  {node block : Bool} {ms ms₁ ms₂ : List Bool}

theorem pushBack_empty (ht : desc.tail = none) (h₁ : Draws h.mallocs node ms₁)
    (h₂ : Draws ms₁ block ms₂) :
    pushBack desc x h =
      if node then
        if block then
          some (0, ⟨some h.brk, some h.brk, desc.size + 1⟩, ⟨Function.update h.cell h.brk
            (some ⟨some x, none, none⟩), h.brk + 1, ms₂⟩)
        else
          some (-1, ⟨some h.brk, some h.brk, desc.size⟩, ⟨Function.update h.cell h.brk
            (some ⟨none, none, none⟩), h.brk + 1, ms₂⟩)
      else some (-1, { desc with head := none }, ⟨h.cell, h.brk, ms₁⟩) := by
  obtain ⟨cell, brk, mallocs⟩ := h
  rw [pushBack, ht]
  cases node <;> cases block <;> simp [h₁ _ _, h₂ _ _, Heap.new, Heap.modify]

theorem pushBack_tail (ht : desc.tail = some t) (hc : h.cell t = some c) (hne : t ≠ h.brk)
    (h₁ : Draws h.mallocs node ms₁) (h₂ : Draws ms₁ block ms₂) :
    pushBack desc x h =
      if node then
        if block then
          some (0, ⟨desc.head, some h.brk, desc.size + 1⟩, ⟨Function.update (Function.update h.cell t
            (some { c with next := some h.brk })) h.brk (some ⟨some x, some t, none⟩),
            h.brk + 1, ms₂⟩)
        else
          some (-1, desc, ⟨Function.update (Function.update h.cell t
            (some { c with next := some h.brk })) h.brk (some ⟨none, some t, none⟩),
            h.brk + 1, ms₂⟩)
      else some (-1, desc, ⟨Function.update h.cell t (some { c with next := none }), h.brk,
        ms₁⟩) := by
  obtain ⟨cell, brk, mallocs⟩ := h
  dsimp only at hc hne
  rw [pushBack, ht]
  cases node <;> cases block <;>
    simp [h₁ _ _, h₂ _ _, Heap.new, Heap.modify, hc, Function.update_of_ne hne,
      Function.update_of_ne hne.symm, Function.update_comm hne]

theorem pushBack_gone (ht : desc.tail = some t) (hc : h.cell t = none) (hne : t ≠ h.brk) :
    pushBack desc x h = none := by
  obtain ⟨ok, ms, h₁⟩ := exists_draws h.mallocs
  obtain ⟨cell, brk, mallocs⟩ := h
  dsimp only at hc hne
  rw [pushBack, ht]
  cases ok <;> simp [h₁ _ _, Heap.new, Heap.modify, hc, Function.update_of_ne hne]

theorem pushFront_tail (ht : desc.tail = some t) (hh : desc.head = some a)
    (hc : h.cell a = some c) (hne : a ≠ h.brk) (h₁ : Draws h.mallocs node ms₁)
    (h₂ : Draws ms₁ block ms₂) :
    pushFront desc x h =
      if node then
        if block then
          some (0, ⟨some h.brk, desc.tail, desc.size + 1⟩, ⟨Function.update (Function.update h.cell a
            (some { c with prev := some h.brk })) h.brk (some ⟨some x, none, some a⟩),
            h.brk + 1, ms₂⟩)
        else
          some (-1, desc, ⟨Function.update (Function.update h.cell a
            (some { c with prev := some h.brk })) h.brk (some ⟨none, none, some a⟩),
            h.brk + 1, ms₂⟩)
      else none := by
  obtain ⟨cell, brk, mallocs⟩ := h
  dsimp only at hc hne
  rw [pushFront, ht]
  cases node <;> cases block <;>
    simp [listNew, h₁ _ _, h₂ _ _, Heap.new, Heap.modify, hh, hc, Function.update_of_ne hne,
      Function.update_of_ne hne.symm, Function.update_comm hne]

theorem pushFront_gone (ht : desc.tail = some t)
    (hh : ∀ a, desc.head = some a → h.cell a = none ∧ a ≠ h.brk) : pushFront desc x h = none := by
  obtain ⟨ok, ms, h₁⟩ := exists_draws h.mallocs
  obtain ⟨cell, brk, mallocs⟩ := h
  rw [pushFront, ht]
  cases e : desc.head with
  | none => cases ok <;> simp [listNew, h₁ _ _, Heap.new]
  | some a =>
    obtain ⟨hc, hne⟩ := hh a e
    dsimp only at hc hne
    cases ok <;> simp [listNew, h₁ _ _, Heap.new, Heap.modify, hc, Function.update_of_ne hne]

/-! When a push is atomic. -/

section
variable {push : Descriptor → Heap (Option α) → Option (Int32 × Descriptor × Heap (Option α))}

theorem not_atomic_none (e : push desc h = none) : ¬Atomic push desc h := by
  rintro ⟨rtv, desc', h', e', -⟩
  cases e.symm.trans e'

theorem atomic_done {desc' : Descriptor} (e : push desc h = some (0, desc', h')) :
    Atomic push desc h := ⟨0, desc', h', e, fun e => absurd e (by decide)⟩

theorem atomic_failed {desc' : Descriptor} (e : push desc h = some (-1, desc', h')) :
    Atomic push desc h ↔ desc' = desc ∧
      (∀ k, iteratorAt Cell.next h' k desc.head = iteratorAt Cell.next h k desc.head) ∧
      ∀ k, iteratorAt Cell.prev h' k desc.tail = iteratorAt Cell.prev h k desc.tail := by
  constructor
  · rintro ⟨rtv, desc₁, h₁, e', hsame⟩
    rw [e, Option.some.injEq, Prod.mk.injEq, Prod.mk.injEq] at e'
    obtain ⟨rfl, rfl, rfl⟩ := e'
    obtain ⟨rfl, hsame⟩ := hsame rfl
    exact ⟨rfl, hsame⟩
  · rintro ⟨rfl, hsame⟩
    exact ⟨-1, _, h', e, fun _ => ⟨rfl, hsame⟩⟩

end

/-- The empty list: the head is overwritten in any case, the tail once there is a node. -/
theorem atomic_empty (ht : desc.tail = none) :
    Atomic (pushBack · x ·) desc { h with mallocs := node :: block :: ms } ↔
      (node ∧ block ∨ ¬node ∧ desc.head = none) := by
  have e := pushBack_empty (h := { h with mallocs := node :: block :: ms }) (x := x) ht
    (draws_cons _ _) (draws_cons _ _)
  cases node with
  | false =>
    rw [atomic_failed e]
    constructor
    · rintro ⟨hd, -⟩
      exact .inr ⟨by simp, by rw [← hd]⟩
    · rintro (⟨hn, -⟩ | ⟨-, hh⟩)
      · cases hn
      · refine ⟨?_, iteratorAt_congr fun _ _ => rfl, iteratorAt_congr fun _ _ => rfl⟩
        rw [← hh]
  | true =>
    cases block with
    | false =>
      rw [atomic_failed e]
      refine iff_of_false ?_ (by simp)
      rintro ⟨hd, -⟩
      rw [← hd] at ht
      cases ht
    | true => exact iff_of_true (atomic_done e) (.inl ⟨rfl, rfl⟩)

/-- An old cell that was changed before a new one was added. -/
theorem linked_old {cell : Nat → Option (Cell (Option α))} {n : Nat} (hne : a ≠ n)
    (u v : Option (Cell (Option α))) : Function.update (Function.update cell a u) n v a = u := by
  rw [Function.update_of_ne hne, Function.update_self]

theorem linked_rest {cell : Nat → Option (Cell (Option α))} {n : Nat}
    (u v : Option (Cell (Option α))) (b : Nat) (hba : b ≠ a) (hlt : b < n) :
    Function.update (Function.update cell a u) n v b = cell b := by
  rw [Function.update_of_ne (Nat.ne_of_lt hlt), Function.update_of_ne hba]

/-- Walks in a heap with one old cell changed and new cells. -/
theorem walks_iff (link : Cell (Option α) → Option Nat) {start : Option Nat} {c' : Cell (Option α)}
    (hlink : ∀ b c d, h.cell b = some c → link c = some d → d < h.brk)
    (hstart : ∀ b, start = some b → b < h.brk) (hc : h.cell a = some c) (hc' : h'.cell a = some c')
    (hrest : ∀ b, b ≠ a → b < h.brk → h'.cell b = h.cell b) (ms : List Bool) :
    (∀ k, iteratorAt link h' k start = iteratorAt link { h with mallocs := ms } k start) ↔
      (link c' = link c ∨ ¬Reaches link h start a) := by
  rw [← reaches_mallocs ms]
  exact iteratorAt_iff hc hc' fun b hba hr =>
    hrest b hba (((reaches_mallocs ms).1 hr).lt hlink hstart)

variable (hb : Bounded h) (hends : desc.Below h.brk)
include hb hends

theorem walks_next {c' : Cell (Option α)} (hc : h.cell a = some c) (hc' : h'.cell a = some c')
    (hrest : ∀ b, b ≠ a → b < h.brk → h'.cell b = h.cell b) (ms : List Bool) :
    (∀ k, iteratorAt Cell.next h' k desc.head =
      iteratorAt Cell.next { h with mallocs := ms } k desc.head) ↔
      (c'.next = c.next ∨ ¬Reaches Cell.next h desc.head a) :=
  walks_iff Cell.next (fun b c d hc => (hb b c hc).2 d) (fun b e => hends b (.inl e)) hc hc' hrest ms

theorem walks_prev {c' : Cell (Option α)} (hc : h.cell a = some c) (hc' : h'.cell a = some c')
    (hrest : ∀ b, b ≠ a → b < h.brk → h'.cell b = h.cell b) (ms : List Bool) :
    (∀ k, iteratorAt Cell.prev h' k desc.tail =
      iteratorAt Cell.prev { h with mallocs := ms } k desc.tail) ↔
      (c'.prev = c.prev ∨ ¬Reaches Cell.prev h desc.tail a) :=
  walks_iff Cell.prev (fun b c d hc => (hb b c hc).1 d) (fun b e => hends b (.inr e)) hc hc' hrest ms

/-- A push at the back. -/
theorem atomic_back :
    Atomic (pushBack · x ·) desc { h with mallocs := node :: block :: ms } ↔
      SafeBack node block desc h := by
  rw [SafeBack]
  cases ht : desc.tail with
  | none => exact atomic_empty ht
  | some t =>
    have hne : t ≠ h.brk := Nat.ne_of_lt (hends t (.inr ht))
    dsimp only
    cases hc : h.cell t with
    | none =>
      refine iff_of_false (not_atomic_none (pushBack_gone ht hc hne)) ?_
      rintro ⟨c, hc', -⟩
      cases hc'
    | some c =>
      have e := pushBack_tail (h := { h with mallocs := node :: block :: ms }) (x := x) ht hc hne
        (draws_cons _ _) (draws_cons _ _)
      have hsome : ∀ q : Cell (Option α) → Prop, (∃ d, some c = some d ∧ q d) ↔ q c := by simp
      rw [hsome]
      cases node with
      | false =>
        -- the link behind the tail is overwritten with NULL
        rw [atomic_failed e, walks_next hb hends hc (Function.update_self _ _ _)
          fun b hbt _ => Function.update_of_ne hbt _ _, walks_prev hb hends hc
          (Function.update_self _ _ _) fun b hbt _ => Function.update_of_ne hbt _ _]
        simp [eq_comm]
      | true =>
        cases block with
        | false =>
          have hnew : c.next ≠ some h.brk := fun e => Nat.lt_irrefl _ ((hb t c hc).2 _ e)
          rw [atomic_failed e, walks_next hb hends hc (linked_old hne _ _) (linked_rest _ _),
            walks_prev hb hends hc (linked_old hne _ _) (linked_rest _ _)]
          simp [hnew.symm]
        | true => exact iff_of_true (atomic_done e) (.inl ⟨rfl, rfl⟩)

/-- A push at the front. -/
theorem atomic_front :
    Atomic (pushFront · x ·) desc { h with mallocs := node :: block :: ms } ↔
      SafeFront node block desc h := by
  rw [SafeFront]
  cases ht : desc.tail with
  | none =>
    have e : Atomic (pushFront · x ·) desc { h with mallocs := node :: block :: ms } ↔
        Atomic (pushBack · x ·) desc { h with mallocs := node :: block :: ms } := by
      rw [Atomic, Atomic, pushFront, ht]
    exact e.trans (atomic_empty ht)
  | some t =>
    dsimp only
    cases hc : desc.head.bind h.cell with
    | none =>
      have hgone : ∀ hd, desc.head = some hd → h.cell hd = none := by
        intro a e
        rw [e] at hc
        exact hc
      refine iff_of_false (not_atomic_none (pushFront_gone ht fun a e =>
        ⟨hgone a e, Nat.ne_of_lt (hends a (.inl e))⟩)) ?_
      rintro ⟨a, c, e, hc', -⟩
      rw [hgone a e] at hc'
      cases hc'
    | some c =>
      obtain ⟨a, hh, hc⟩ := Option.bind_eq_some_iff.1 hc
      have hne : a ≠ h.brk := Nat.ne_of_lt (hends a (.inl hh))
      have e := pushFront_tail (h := { h with mallocs := node :: block :: ms }) (x := x) ht hh hc hne
        (draws_cons _ _) (draws_cons _ _)
      have hsome : (∃ a c, desc.head = some a ∧ h.cell a = some c ∧ node ∧
          (block ∨ ¬Reaches Cell.prev h (some t) a)) ↔
          node ∧ (block ∨ ¬Reaches Cell.prev h (some t) a) := by
        rw [hh]
        simp [hc]
      rw [hsome]
      cases node with
      | false => exact iff_of_false (not_atomic_none e) fun hn => absurd hn.1 (by simp)
      | true =>
        cases block with
        | false =>
          have hnew : c.prev ≠ some h.brk := fun e => Nat.lt_irrefl _ ((hb a c hc).1 _ e)
          rw [atomic_failed e, walks_next hb hends hc (linked_old hne _ _) (linked_rest _ _),
            walks_prev hb hends hc (linked_old hne _ _) (linked_rest _ _), ht]
          simp [hnew.symm]
        | true => exact iff_of_true (atomic_done e) ⟨rfl, .inl rfl⟩

end

/-! Every call keeps the bounds. -/

section
variable {h h' : Heap (Option α)} {desc desc' : Descriptor} {a : Nat} {x : α} {rtv : Int32}

/-- The cell of a new node next to an old one, whose link to it is set. -/
theorem Bounded.link {y : Option α} {p n : Option Nat} (hb : Bounded h) (c' : Cell (Option α))
    (hc' : c'.LinksIn (· < h.brk + 1)) (hp : ∀ q, p = some q → q < h.brk)
    (hn : ∀ q, n = some q → q < h.brk) (ms : List Bool) :
    Grown h ⟨Function.update (Function.update h.cell a (some c')) h.brk (some ⟨y, p, n⟩),
      h.brk + 1, ms⟩ := by
  have g₁ : Grown h ⟨Function.update h.cell a (some c'), h.brk + 1, ms⟩ :=
    hb.update (Nat.le_succ _) rfl fun d hd => by cases hd; exact hc'
  refine g₁.trans (g₁.bounded.update (Nat.le_refl _) rfl fun d hd => ?_)
  cases hd
  exact ⟨fun q hq => Nat.lt_succ_of_lt (hp q hq), fun q hq => Nat.lt_succ_of_lt (hn q hq)⟩

theorem Bounded.linkNext (hb : Bounded h) (hc : h.cell a = some c) (hlt : a < h.brk)
    (y : Option α) (ms : List Bool) :
    Grown h ⟨Function.update (Function.update h.cell a (some { c with next := some h.brk })) h.brk
      (some ⟨y, some a, none⟩), h.brk + 1, ms⟩ := by
  have hl := hb a c hc
  apply hb.link _ _ (lt_of_eq_some hlt) lt_of_eq_none
  exact ⟨fun q hq => Nat.lt_succ_of_lt (hl.1 q hq), lt_of_eq_some (Nat.lt_succ_self _)⟩

theorem Bounded.linkPrev (hb : Bounded h) (hc : h.cell a = some c) (hlt : a < h.brk)
    (y : Option α) (ms : List Bool) :
    Grown h ⟨Function.update (Function.update h.cell a (some { c with prev := some h.brk })) h.brk
      (some ⟨y, none, some a⟩), h.brk + 1, ms⟩ := by
  have hl := hb a c hc
  apply hb.link _ _ lt_of_eq_none (lt_of_eq_some hlt)
  exact ⟨lt_of_eq_some (Nat.lt_succ_self _), fun q hq => Nat.lt_succ_of_lt (hl.2 q hq)⟩

theorem pushBack_grown (hb : Bounded h) (hends : desc.Below h.brk)
    (e : pushBack desc x h = some (rtv, desc', h')) : Grown h h' ∧ desc'.Below h'.brk := by
  obtain ⟨node, ms₁, h₁⟩ := exists_draws h.mallocs
  obtain ⟨block, ms₂, h₂⟩ := exists_draws ms₁
  have hnew := lt_of_eq_some (Nat.lt_succ_self h.brk)
  cases ht : desc.tail with
  | none =>
    have hone : ∀ y : Option α, Grown h ⟨Function.update h.cell h.brk (some ⟨y, none, none⟩),
        h.brk + 1, ms₂⟩ := by
      intro y
      refine hb.update (Nat.le_succ _) rfl fun d hd => ?_
      cases hd
      exact ⟨lt_of_eq_none, lt_of_eq_none⟩
    rw [pushBack_empty ht h₁ h₂] at e
    cases node with
    | false =>
      cases e
      exact ⟨⟨hb, Nat.le_refl _⟩, .of_ends lt_of_eq_none fun a ha => hends a (.inr ha)⟩
    | true =>
      cases block <;> cases e
      · exact ⟨hone _, .of_ends hnew hnew⟩
      · exact ⟨hone _, .of_ends hnew hnew⟩
  | some t =>
    have hlt := hends t (.inr ht)
    have hne := Nat.ne_of_lt hlt
    cases hc : h.cell t with
    | none =>
      rw [pushBack_gone ht hc hne] at e
      cases e
    | some c =>
      rw [pushBack_tail ht hc hne h₁ h₂] at e
      cases node with
      | false =>
        cases e
        refine ⟨hb.update (Nat.le_refl _) rfl fun d hd => ?_, hends⟩
        cases hd
        exact ⟨(hb t c hc).1, lt_of_eq_none⟩
      | true =>
        have hlink := fun y => hb.linkNext hc hlt y ms₂
        cases block <;> cases e
        · exact ⟨hlink _, hends.mono (Nat.le_succ _)⟩
        · exact ⟨hlink _, .of_ends (fun a ha => Nat.lt_succ_of_lt (hends a (.inl ha))) hnew⟩

theorem pushFront_grown (hb : Bounded h) (hends : desc.Below h.brk)
    (e : pushFront desc x h = some (rtv, desc', h')) : Grown h h' ∧ desc'.Below h'.brk := by
  cases ht : desc.tail with
  | none =>
    rw [pushFront, ht] at e
    exact pushBack_grown hb hends e
  | some t =>
    obtain ⟨node, ms₁, h₁⟩ := exists_draws h.mallocs
    obtain ⟨block, ms₂, h₂⟩ := exists_draws ms₁
    cases hc : desc.head.bind h.cell with
    | none =>
      have hgone : ∀ a, desc.head = some a → h.cell a = none ∧ a ≠ h.brk := by
        intro a ea
        rw [ea] at hc
        exact ⟨hc, Nat.ne_of_lt (hends a (.inl ea))⟩
      rw [pushFront_gone ht hgone] at e
      cases e
    | some c =>
      obtain ⟨a, hh, hc⟩ := Option.bind_eq_some_iff.1 hc
      have hlt := hends a (.inl hh)
      rw [pushFront_tail ht hh hc (Nat.ne_of_lt hlt) h₁ h₂] at e
      have hlink := fun y => hb.linkPrev hc hlt y ms₂
      cases node with
      | false => cases e
      | true =>
        cases block <;> cases e
        · exact ⟨hlink _, hends.mono (Nat.le_succ _)⟩
        · exact ⟨hlink _, .of_ends (lt_of_eq_some (Nat.lt_succ_self _))
            fun b hb' => Nat.lt_succ_of_lt (hends b (.inr hb'))⟩

theorem popBack_grown (hb : Bounded h) (hends : desc.Below h.brk)
    (e : popBack desc h = some (rtv, desc', h')) : Grown h h' ∧ desc'.Below h'.brk := by
  rw [popBack] at e
  cases ht : desc.tail with
  | none =>
    rw [ht] at e
    cases e
    exact ⟨hb.grown, hends⟩
  | some t =>
    simp only [ht, Option.bind_eq_bind, Option.pure_def] at e
    split at e
    · simp only [Option.bind_eq_some_iff, Option.some.injEq, Prod.mk.injEq] at e
      obtain ⟨h₁, e₁, -, rfl, rfl⟩ := e
      exact ⟨hb.free e₁, .of_ends lt_of_eq_none lt_of_eq_none⟩
    · simp only [Option.bind_eq_some_iff, Option.some.injEq, Prod.mk.injEq] at e
      obtain ⟨c, hc, b, hprev, d, -, n, -, h₁, e₁, h₂, e₂, -, rfl, rfl⟩ := e
      have g₁ := hb.free e₁
      have g := g₁.trans (g₁.bounded.setNext (o := some b) lt_of_eq_none e₂)
      refine ⟨g, .of_ends (fun a ha => ?_) (lt_of_eq_some ?_)⟩
      · exact Nat.lt_of_lt_of_le (hends a (.inl ha)) g.brk
      · exact Nat.lt_of_lt_of_le ((hb t c hc).1 b hprev) g.brk

theorem popFront_grown (hb : Bounded h) (hends : desc.Below h.brk)
    (e : popFront desc h = some (rtv, desc', h')) : Grown h h' ∧ desc'.Below h'.brk := by
  rw [popFront] at e
  cases hh : desc.head with
  | none =>
    rw [hh] at e
    cases e
    exact ⟨hb.grown, hends⟩
  | some a =>
    simp only [hh, Option.bind_eq_bind, Option.pure_def] at e
    split at e
    · simp only [Option.bind_eq_some_iff, Option.some.injEq, Prod.mk.injEq] at e
      obtain ⟨h₁, e₁, -, rfl, rfl⟩ := e
      exact ⟨hb.free e₁, .of_ends lt_of_eq_none lt_of_eq_none⟩
    · simp only [Option.bind_eq_some_iff, Option.some.injEq, Prod.mk.injEq] at e
      obtain ⟨c, hc, b, hnext, d, -, p, -, h₁, e₁, h₂, e₂, -, rfl, rfl⟩ := e
      have g₁ := hb.free e₁
      have g := g₁.trans (g₁.bounded.setPrev (o := some b) lt_of_eq_none e₂)
      refine ⟨g, .of_ends (lt_of_eq_some ?_) fun a' ha => ?_⟩
      · exact Nat.lt_of_lt_of_le ((hb a c hc).2 b hnext) g.brk
      · exact Nat.lt_of_lt_of_le (hends a' (.inr ha)) g.brk

theorem eraseElem_grown (hb : Bounded h) (hends : desc.Below h.brk)
    (e : eraseElem desc a h = some (desc', h')) : Grown h h' ∧ desc'.Below h'.brk := by
  simp only [eraseElem, Option.bind_eq_bind, Option.pure_def, Option.bind_eq_some_iff,
    Option.some.injEq, Prod.mk.injEq] at e
  obtain ⟨c, hc, h₁, e₁, h₂, e₂, h₃, e₃, rfl, rfl⟩ := e
  have hl := hb a c hc
  have g₁ := hb.setNext hl.2 e₁
  have g₂ := g₁.bounded.setPrev (fun q hq => Nat.lt_of_lt_of_le (hl.1 q hq) g₁.brk) e₂
  have g := (g₁.trans g₂).trans (g₂.bounded.free e₃)
  refine ⟨g, fun b hb' => Nat.lt_of_lt_of_le ?_ g.brk⟩
  dsimp only at hb'
  rcases hb' with hb' | hb' <;> split at hb'
  · exact hl.2 b hb'
  · exact hends b (.inl hb')
  · exact hl.1 b hb'
  · exact hends b (.inr hb')

theorem swapElem_grown {b : Nat} (hb : Bounded h) (e : swapElem a b h = some h') : Grown h h' := by
  simp only [swapElem, Option.bind_eq_bind, Option.bind_eq_some_iff] at e
  obtain ⟨ca, -, cb, -, h₁, e₁, e₂⟩ := e
  have g₁ := hb.setData e₁
  exact g₁.trans (g₁.bounded.setData e₂)

theorem destroyFrom_grown {turns : Nat} {iter : Option Nat} (hb : Bounded h)
    (e : destroyFrom turns iter h = some h') : Grown h h' := by
  induction turns generalizing h iter with
  | zero =>
    cases iter <;> cases e
    exact hb.grown
  | succ turns ih =>
    cases iter with
    | none =>
      cases e
      exact hb.grown
    | some a =>
      simp only [destroyFrom, Option.bind_eq_bind, Option.bind_eq_some_iff] at e
      obtain ⟨c, -, h₁, e₁, e⟩ := e
      have g₁ := hb.free e₁
      exact g₁.trans (ih g₁.bounded e)

theorem copyFrom_grown {turns : Nat} {iter : Option Nat} (hb : Bounded h)
    (hends : desc.Below h.brk) (e : copyFrom turns iter desc h = some (desc', h')) :
    Grown h h' ∧ desc'.Below h'.brk := by
  induction turns generalizing h iter desc with
  | zero =>
    cases iter <;> cases e
    exact ⟨hb.grown, hends⟩
  | succ turns ih =>
    cases iter with
    | none =>
      cases e
      exact ⟨hb.grown, hends⟩
    | some a =>
      simp only [copyFrom, Option.bind_eq_bind, Option.bind_eq_some_iff] at e
      obtain ⟨c, -, x, -, ⟨rtv, desc₁, h₁⟩, e₁, c₁, -, e⟩ := e
      obtain ⟨g₁, hends₁⟩ := pushBack_grown hb hends e₁
      obtain ⟨g, hends'⟩ := ih g₁.bounded hends₁ e
      exact ⟨g₁.trans g, hends'⟩

end

variable {ι : Type} [DecidableEq ι]

/-- Nothing in the lists or their heap points beyond the addresses handed out. -/
structure Sound (w : World ι α) : Prop where
  bounded : Bounded w.heap
  below : ∀ i, (w.desc i).Below w.heap.brk

namespace Sound
variable {w w' : World ι α}

omit [DecidableEq ι] in
theorem init (ms : List Bool) : Sound (World.init ms : World ι α) :=
  ⟨nofun, fun _ => .of_ends lt_of_eq_none lt_of_eq_none⟩

theorem put {i : ι} {desc' : Descriptor} {h' : Heap (Option α)} (hw : Sound w)
    (g : Grown w.heap h' ∧ desc'.Below h'.brk) : Sound (w.put i desc' h') := by
  refine ⟨g.1.bounded, fun j => ?_⟩
  show (Function.update w.desc i desc' j).Below h'.brk
  by_cases hj : j = i
  · subst hj
    rw [Function.update_self]
    exact g.2
  · rw [Function.update_of_ne hj]
    exact (hw.below j).mono g.1.brk

theorem step {op : ι × Op ι α} {rtv : Int32} (hw : Sound w)
    (e : QList.step w op = some (rtv, w')) : Sound w' := by
  obtain ⟨i, op⟩ := op
  cases op with
  | pushBack x =>
    obtain ⟨⟨r, d, h⟩, e₁, e₂⟩ := Option.bind_eq_some_iff.1 e
    cases e₂
    exact hw.put (pushBack_grown hw.bounded (hw.below i) e₁)
  | pushFront x =>
    obtain ⟨⟨r, d, h⟩, e₁, e₂⟩ := Option.bind_eq_some_iff.1 e
    cases e₂
    exact hw.put (pushFront_grown hw.bounded (hw.below i) e₁)
  | popBack =>
    obtain ⟨⟨r, d, h⟩, e₁, e₂⟩ := Option.bind_eq_some_iff.1 e
    cases e₂
    exact hw.put (popBack_grown hw.bounded (hw.below i) e₁)
  | popFront =>
    obtain ⟨⟨r, d, h⟩, e₁, e₂⟩ := Option.bind_eq_some_iff.1 e
    cases e₂
    exact hw.put (popFront_grown hw.bounded (hw.below i) e₁)
  | eraseElem k =>
    obtain ⟨o, -, e⟩ := Option.bind_eq_some_iff.1 e
    cases o with
    | none =>
      cases e
      exact hw
    | some a =>
      obtain ⟨⟨d, h⟩, e₁, e₂⟩ := Option.bind_eq_some_iff.1 e
      cases e₂
      exact hw.put (eraseElem_grown hw.bounded (hw.below i) e₁)
  | swapElem k j m =>
    obtain ⟨o, -, e⟩ := Option.bind_eq_some_iff.1 e
    obtain ⟨o', -, e⟩ := Option.bind_eq_some_iff.1 e
    cases o with
    | none =>
      cases e
      exact hw
    | some a =>
      cases o' with
      | none =>
        cases e
        exact hw
      | some b =>
        obtain ⟨h, e₁, e₂⟩ := Option.bind_eq_some_iff.1 e
        cases e₂
        have g := swapElem_grown hw.bounded e₁
        exact ⟨g.bounded, fun j => (hw.below j).mono g.brk⟩
  | copy j =>
    obtain ⟨⟨d, h⟩, e₁, e₂⟩ := Option.bind_eq_some_iff.1 e
    cases e₂
    exact hw.put (copyFrom_grown hw.bounded (fun a ha => by rcases ha with ⟨⟨⟩⟩ | ⟨⟨⟩⟩) e₁)
  | destructor =>
    obtain ⟨⟨d, h⟩, e₁, e₂⟩ := Option.bind_eq_some_iff.1 e
    cases e₂
    obtain ⟨h₁, e₁, e₂⟩ := Option.bind_eq_some_iff.1 e₁
    cases e₂
    exact hw.put ⟨destroyFrom_grown hw.bounded e₁, fun a ha => by rcases ha with ⟨⟨⟩⟩ | ⟨⟨⟩⟩⟩

theorem run {ops : List (ι × Op ι α)} {os : List Int32} (hw : Sound w)
    (e : Machine.run QList.step ops w = some (os, w')) : Sound w' := by
  induction ops generalizing w os with
  | nil =>
    cases e
    exact hw
  | cons op ops ih =>
    obtain ⟨⟨o, w₁⟩, e₁, e⟩ := Option.bind_eq_some_iff.1 e
    obtain ⟨⟨os, w₂⟩, e₂, e⟩ := Option.bind_eq_some_iff.1 e
    cases e
    exact ih (hw.step e₁) e₂

end Sound

/-- In every state of every run, whatever allocations failed before. -/
theorem push_atomic {ops : List (ι × Op ι α)} {ms : List Bool} {os : List Int32} {w : World ι α}
    (e : Machine.run step ops (World.init ms) = some (os, w)) (i : ι) (x : α) (node block : Bool)
    (rest : List Bool) :
    (Atomic (pushBack · x ·) (w.desc i) { w.heap with mallocs := node :: block :: rest } ↔
      SafeBack node block (w.desc i) w.heap) ∧
    (Atomic (pushFront · x ·) (w.desc i) { w.heap with mallocs := node :: block :: rest } ↔
      SafeFront node block (w.desc i) w.heap) := by
  have hw := (Sound.init ms).run e
  exact ⟨atomic_back hw.bounded (hw.below i), atomic_front hw.bounded (hw.below i)⟩

/-- A list of one node, and a push at the front whose first allocation fails. -/
theorem push_atomic_one :
    ∃ w : World Unit Unit, Machine.run step [((), .pushBack ())] (World.init []) = some ([0], w) ∧
      Atomic (pushBack · () ·) (w.desc ()) { w.heap with mallocs := [false, true] } ∧
      ¬Atomic (pushFront · () ·) (w.desc ()) { w.heap with mallocs := [false, true] } := by
  refine ⟨_, rfl, ?_⟩
  obtain ⟨hback, hfront⟩ := @push_atomic Unit Unit _ [((), .pushBack ())] [] [0] _ rfl () ()
    false true []
  refine ⟨hback.2 ⟨_, rfl, .inr (.inl ⟨by decide, rfl⟩)⟩, fun h => ?_⟩
  obtain ⟨head, c, -, -, hnode, -⟩ := hfront.1 h
  cases hnode

/-- On a list of one node, a push at the back whose second allocation fails leaves a
    second node behind the tail, and one at the front whose first allocation fails
    dereferences NULL. -/
theorem push_atomic_fails :
    ∃ w : World Unit Unit, Machine.run step [((), .pushBack ())] (World.init []) = some ([0], w) ∧
      ¬Atomic (pushBack · () ·) (w.desc ()) { w.heap with mallocs := [true, false] } ∧
      pushFront (w.desc ()) () { w.heap with mallocs := [false, true] } = none := by
  refine ⟨_, rfl, fun h => ?_, rfl⟩
  obtain ⟨-, hnext, -⟩ := (atomic_failed rfl).1 h
  have hone := hnext 1
  cases hone

/-! What the conditions say of a list whose pushes have all succeeded. -/

section
variable {h : Heap (Option α)} {desc : Descriptor} {l : List (Nat × α)} {node block : Bool}

omit [DecidableEq ι] in
theorem reaches_next {h : Heap α} {p : Option Nat} {l : List (Nat × α)} {a : Nat}
    (hc : Chain h.cell p l none) (ha : a ∈ l.map Prod.fst) :
    Reaches Cell.next h (first l none) a := by
  induction l generalizing p with
  | nil => cases ha
  | cons b l ih =>
    obtain ⟨e, hl⟩ := hc
    rcases List.mem_cons.1 ha with rfl | ha
    · exact .start _ _ _
    · exact (ih hl ha).cons e

omit [DecidableEq ι] in
theorem reaches_prev {h : Heap α} {n : Option Nat} {l : List (Nat × α)} {a : Nat}
    (hc : Chain h.cell none l n) (ha : a ∈ l.map Prod.fst) :
    Reaches Cell.prev h (last none l) a := by
  induction l using List.reverseRecOn generalizing n with
  | nil => cases ha
  | append_singleton l b ih =>
    rw [last_append]
    rcases mem_addresses_concat.1 ha with ha | rfl
    · exact (ih (Chain.append.1 hc).1 ha).cons hc.mid
    · exact .start _ _ _

/-- At the back only the second allocation must not be the one that fails. -/
theorem Stored.safeBack_iff (hs : Stored h desc l) :
    SafeBack node block desc h ↔ node → block := by
  have hbool : node ∧ block ∨ ¬node ↔ (node → block) := by cases node <;> simp
  rw [SafeBack, ← hbool]
  rcases List.eq_nil_or_concat l with rfl | ⟨l, ⟨a, x⟩, rfl⟩
  · rw [hs.tail, hs.head]
    simp
  · rw [List.concat_eq_append] at hs
    have hcell := hs.cell
    have hr : Reaches Cell.next h desc.head a := by
      rw [hs.head, ← first_boxed]
      exact reaches_next hs.chain (by simp)
    rw [hs.tail, last_append]
    simp [hcell, hr]

/-- At the front no allocation may fail, unless the list is empty. -/
theorem Stored.safeFront_iff (hs : Stored h desc l) :
    SafeFront node block desc h ↔ node ∧ block ∨ ¬node ∧ l = [] := by
  rw [SafeFront]
  cases l with
  | nil =>
    rw [hs.tail, hs.head]
    simp
  | cons b l =>
    obtain ⟨a, x⟩ := b
    have hfront : Stored h desc ([] ++ (a, x) :: l) := hs
    have hcell := hfront.cell
    have hr : Reaches Cell.prev h desc.tail a := by
      rw [hs.tail, ← last_boxed]
      exact reaches_prev hs.chain (by simp)
    obtain ⟨t, ht⟩ : ∃ t, desc.tail = some t := by
      rw [hs.tail, last_cons]
      cases h : last (some a) l with
      | none => simp [last] at h
      | some t => exact ⟨t, rfl⟩
    rw [ht] at hr
    rw [hs.head, ht, first_cons]
    simp [hcell, hr]

end

end

end Zhwkrfsp.QList
