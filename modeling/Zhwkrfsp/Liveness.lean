import Mathlib.Data.List.Perm.Basic
import Mathlib.Logic.Hydra
import Zhwkrfsp.Progress

/- Every run ends. A call makes finitely many effects: an effect either goes on to a
   part of the handler, or moves at least one byte of a transfer whose length is fixed. The
   exception is a `read(2)` that returns no byte, which the handlers repeat; on an open
   connection a blocking one returns some. So the calls in progress, scheduled in any
   way, come to a point where none can move, the peer answering what it has; and
   in an agreeable run they have all returned there (`every_run_returns`). -/
namespace Chan
open Wire

section
variable {σ α : Type}

/-- One effect, except a read of no byte. -/
def Moves (q p : Prog σ α) : Prop := ∃ e, e ≠ .got [] ∧ Step p e q

theorem Prog.acc (p : Prog σ α) : Acc Moves p := by
  induction p with
  | ret a => exact .intro _ fun q h => by obtain ⟨_, _, st⟩ := h; cases st
  | stop h => exact .intro _ fun q h => by obtain ⟨_, _, st⟩ := h; cases st
  | lock k ih =>
    apply Acc.intro
    intro q ⟨e, _, st⟩
    cases st
    exact ih
  | unlock k ih =>
    apply Acc.intro
    intro q ⟨e, _, st⟩
    cases st
    exact ih
  | get k ih =>
    apply Acc.intro
    intro q ⟨e, _, st⟩
    cases st
    exact ih _
  | set s k ih =>
    apply Acc.intro
    intro q ⟨e, _, st⟩
    cases st
    exact ih
  | write buf k ih =>
    -- on the bytes that are left to send
    induction hn : buf.length using Nat.strongRecOn generalizing buf with
    | ind n shorter =>
      apply Acc.intro
      intro q ⟨e, _, st⟩
      cases st with
      | wrote bs rest _ hbs =>
        have hpos := List.length_pos_iff.2 hbs
        rw [List.length_append] at hn
        exact shorter rest.length (by omega) rest rfl
      | writeErr _ _ _ => exact ih false
      | writeEnd _ => exact ih true
  | read acc n k ih =>
    induction n using Nat.strongRecOn generalizing acc with
    | ind n fewer =>
      apply Acc.intro
      intro q ⟨e, he, st⟩
      cases st with
      | got _ _ _ bs hn hle =>
        have hbs : bs ≠ [] := fun hbs => he (hbs ▸ rfl)
        have hpos := List.length_pos_iff.2 hbs
        exact fewer (n - bs.length) (by omega) (acc ++ bs)
      | readErr _ _ _ _ => exact ih none
      | readEnd _ _ => exact ih (some acc)

instance : Std.Irrefl (Moves (σ := σ) (α := α)) := ⟨fun p h => by
  induction p.acc with
  | intro p _ ih => exact ih p h h⟩

end

end Chan

namespace Zhwkrfsp
open Wire Chan Relation

namespace Traffic

/-- No call starts, and no read returns without a byte. -/
def Going (_ : Traffic) : Label → Prop
  | .spawn _ => False
  | .act _ e => e ≠ .got []
  | .answer _ => True

/-- What is left to do: in the calls, and in what the peer has not answered. -/
def left (t : Traffic) : Multiset (Io Int32) × Nat :=
  (t.calls.map Caller.prog, t.world.pending.length)

theorem left_act {t : Traffic} {i : Nat} {a b : Caller} {w : World} (ha : t.calls[i]? = some a)
    (h : Moves b.prog a.prog) :
    CutExpand Moves (left ⟨w, t.calls.set i b⟩).1 t.left.1 := by
  obtain ⟨hi, ha⟩ := List.getElem?_eq_some_iff.1 ha
  refine ⟨{b.prog}, a.prog, by simpa using h, ?_⟩
  have hset := (List.set_perm_cons_eraseIdx hi b).map Caller.prog
  have hget := (List.getElem_cons_eraseIdx_perm hi).map Caller.prog
  rw [ha] at hget
  have hset' : (left ⟨w, t.calls.set i b⟩).1 =
      b.prog ::ₘ ((t.calls.eraseIdx i).map Caller.prog : Multiset (Io Int32)) :=
    Multiset.coe_eq_coe.2 hset
  have hget' : t.left.1 = a.prog ::ₘ ((t.calls.eraseIdx i).map Caller.prog : Multiset (Io Int32)) :=
    Multiset.coe_eq_coe.2 hget.symm
  rw [hset', hget', ← Multiset.singleton_add, ← Multiset.singleton_add]
  rw [add_right_comm, add_comm ({b.prog} : Multiset (Io Int32)), add_right_comm]

/-- Every step leaves less to do: an answer less for the peer, any other less for a call. -/
theorem left_next {C : Traffic → Label → Prop} (hC : ∀ t l, C t l → t.Going l) {t t' : Traffic}
    (h : Next C t t') : Prod.Lex (CutExpand Moves) (· < ·) t'.left t.left := by
  obtain ⟨l, hc, st⟩ := h
  have hgo := hC t l hc
  cases st with
  | spawn j => exact hgo.elim
  | act i a e q w ha st _ _ =>
    have hmoves : Moves (a.next e q).prog a.prog := ⟨e, hgo, st⟩
    exact .left _ _ (left_act ha hmoves)
  | answer r w ha =>
    cases ha with
    | mk req rest _ hreq hp _ =>
      apply Prod.Lex.right
      show rest.length < t.world.pending.length
      have hne : req ≠ [] := by
        rintro rfl
        exact hreq.ne_nil rfl
      have hpos := List.length_pos_iff.2 hne
      rw [hp, List.length_append]
      omega

theorem acc {C : Traffic → Label → Prop} (hC : ∀ t l, C t l → t.Going l) (t : Traffic) :
    Acc (fun t' t => Next C t t') t := by
  have hcalls : ∀ cs : Multiset (Io Int32), Acc (CutExpand Moves) cs :=
    fun cs => acc_of_singleton fun p _ => p.acc.cutExpand
  have hlex : Acc (Prod.Lex (CutExpand Moves) (· < ·)) t.left :=
    Prod.lexAccessible (hcalls _) (fun n => Nat.lt_wfRel.wf.apply n) _
  exact Subrelation.accessible (left_next hC) (InvImage.accessible left hlex)

section
variable (f : Bytes → Reply)

variable {f}

theorem idle {t : Traffic} {i : Nat} {a : Caller} {q : Io Int32} {w : World}
    (ha : t.calls[i]? = some a) (st : Chan.Step a.prog (.got []) q)
    (hf : t.world.Effect i (.got []) w) :
    (⟨w, t.calls.set i (a.next (.got []) q)⟩ : Traffic) = t := by
  have hq : q = a.prog := by
    generalize a.prog = p at st
    cases st with
    | got acc n k _ _ _ => rw [List.append_nil, List.length_nil, Nat.sub_zero]
  have hw : w = t.world := by
    cases hf with
    | got _ inn h =>
      rw [List.nil_append] at h
      rw [← h]
  have hnext : a.next (.got []) q = a := by
    unfold Caller.next
    simp [hq, Ev.sent, Ev.received, Caller.enters]
  obtain ⟨hi, rfl⟩ := List.getElem?_eq_some_iff.1 ha
  rw [hw, hnext, List.set_getElem_self]

theorem Drains.length_eq {t t' : Traffic} (h : Drains f t t') :
    t'.calls.length = t.calls.length := by
  induction h with
  | refl => rfl
  | tail _ hn ih =>
    obtain ⟨l, hc, st⟩ := hn
    rw [← ih]
    cases st with
    | spawn j => exact hc.elim
    | act i a e q w _ _ _ _ => exact List.length_set
    | answer r w _ => rfl

end

end Traffic

end Zhwkrfsp
