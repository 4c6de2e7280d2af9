import Zhwkrfsp.Connection
import Zhwkrfsp.Locking
import Mathlib.Logic.Relation

/- Handlers that run concurrently. Any number of calls are in progress; a step is
   the start of a call, a step of one of them, or an answer of the peer. A call
   is `inside` from where it takes the mutex, or sends its first byte, to where
   it unlocks.

   `atomicity`: in a run where no call comes inside while another one is, if
   either of the two is one of those that skip the lock, the bytes of every
   request are one block of the outgoing stream and every call that returns has
   received the reply to its own request. For calls that take the lock the mutex
   sees to the condition by itself. -/
namespace Zhwkrfsp
open Wire Chan

structure Caller where
  job : Job
  prog : Io Int32
  sent : Bytes
  got : Bytes
  inside : Bool

namespace Caller

def start (j : Job) : Caller := ⟨j, j.call.prog j.locals, [], [], false⟩

/-- The steps that bring a call inside, if it is not. -/
def enters : Ev UInt32 → Bool
  | .lock => true
  | .wrote _ => true
  | _ => false

def next (a : Caller) (e : Ev UInt32) (q : Io Int32) : Caller where
  job := a.job
  prog := q
  sent := a.sent ++ e.sent
  got := a.got ++ e.received
  inside := match e with
    | .unlock => false
    | e => a.inside || enters e

theorem next_inside (a : Caller) {e : Ev UInt32} {q : Io Int32} (h : e ≠ .unlock) :
    (a.next e q).inside = (a.inside || enters e) := by
  cases e <;> first | rfl | exact absurd rfl h

end Caller

structure Traffic where
  world : World
  calls : List Caller

inductive Label where
  | spawn (j : Job)
  | act (i : Nat) (e : Ev UInt32)
  | answer (r : Reply)

namespace Traffic

def init (opuid : UInt32) : Traffic := ⟨World.init opuid, []⟩

inductive Step : Traffic → Label → Traffic → Prop
  | spawn (t : Traffic) (j) : Step t (.spawn j) { t with calls := t.calls ++ [Caller.start j] }
  | act (t : Traffic) (i a e q w) (h : t.calls[i]? = some a) (st : Chan.Step a.prog e q)
      (hf : t.world.Effect i e w) (he : e.isErr = false) :
      Step t (.act i e) { world := w, calls := t.calls.set i (a.next e q) }
  | answer (t : Traffic) (r w) (h : t.world.Answer r w) : Step t (.answer r) { t with world := w }

/-- The states of the runs whose steps all meet a condition. -/
inductive Reach (C : Traffic → Label → Prop) (opuid : UInt32) : Traffic → Prop
  | init : Reach C opuid (init opuid)
  | step {t l t'} (h : Reach C opuid t) (hc : C t l) (st : Step t l t') : Reach C opuid t'

/-- A step that brings a call inside while another one is has two calls that
    take the lock; and negative replies have no body. -/
def Orderly (t : Traffic) : Label → Prop
  | .spawn _ => True
  | .act i e => ∀ (a : Caller) (k : Nat) (b : Caller), t.calls[i]? = some a →
      a.inside = false → Caller.enters e = true → t.calls[k]? = some b → b.inside = true →
      a.job.call.skipsLock = false ∧ b.job.call.skipsLock = false
  | .answer r => r.Plain

/-- One step of a run whose steps all meet a condition. -/
def Next (C : Traffic → Label → Prop) (t t' : Traffic) : Prop := ∃ l, C t l ∧ Step t l t'

/-- A run from one state to another. -/
abbrev Later (t t' : Traffic) : Prop := Relation.ReflTransGen (Next Orderly) t t'

theorem Reach.later {opuid : UInt32} {t t' : Traffic} (h : Reach Orderly opuid t)
    (hl : Later t t') : Reach Orderly opuid t' := by
  induction hl with
  | refl => exact h
  | tail _ hn ih =>
    obtain ⟨l, hc, st⟩ := hn
    exact ih.step hc st

end Traffic

/-- The entries `i` of a list are one block. -/
def Block (i : Nat) (l : List Nat) : Prop :=
  ∃ l₁ l₂ l₃, l = l₁ ++ l₂ ++ l₃ ∧ i ∉ l₁ ∧ (∀ k ∈ l₂, k = i) ∧ i ∉ l₃

theorem Block.of_not_mem {i : Nat} {l : List Nat} (h : i ∉ l) : Block i l :=
  ⟨l, [], [], by simp, h, nofun, List.not_mem_nil⟩

/-- Entries of another call after a list. -/
theorem Block.append_other {i : Nat} {l new : List Nat} (h : Block i l) (hn : i ∉ new) :
    Block i (l ++ new) := by
  obtain ⟨l₁, l₂, l₃, rfl, h₁, h₂, h₃⟩ := h
  refine ⟨l₁, l₂, l₃ ++ new, by simp, h₁, h₂, fun hm => ?_⟩
  exact (List.mem_append.1 hm).elim h₃ hn

/-- No entry stands between two of a block. -/
theorem Block.between {i k : Nat} {l : List Nat} (h : Block i (i :: k :: i :: l)) : k = i := by
  obtain ⟨l₁, l₂, l₃, he, h₁, h₂, h₃⟩ := h
  cases l₁ with
  | cons x l₁ =>
    obtain ⟨rfl, -⟩ := List.cons.inj he
    exact absurd List.mem_cons_self h₁
  | nil =>
    match l₂ with
    | [] =>
      rw [List.nil_append, List.nil_append] at he
      exact absurd (he ▸ List.mem_cons_self) h₃
    | [x] =>
      obtain ⟨-, he⟩ := List.cons.inj he
      have hl : k :: i :: l = l₃ := he
      exact absurd (hl ▸ List.mem_cons_of_mem _ List.mem_cons_self) h₃
    | x :: y :: l₂ =>
      obtain ⟨-, he⟩ := List.cons.inj he
      obtain ⟨rfl, -⟩ := List.cons.inj he
      exact h₂ _ (List.mem_cons_of_mem _ List.mem_cons_self)

theorem tag_fst (i : Nat) (s : Bytes) : ∀ k ∈ (tag i s).map Prod.fst, k = i := by
  intro k hk
  simp only [tag, List.map_map, List.mem_map] at hk
  obtain ⟨b, -, rfl⟩ := hk
  rfl

/-! Where a call is. -/

inductive Phase (a : Caller) : Prop
  | waiting (q) (hs : a.job.call.skipsLock = false) (hp : a.prog = .lock q) (hq : Inside q)
      (ho : a.inside = false) (hn : a.sent = [] ∧ a.got = [])
  | coming (hs : a.job.call.skipsLock = true) (hp : Inside a.prog) (ho : a.inside = false)
      (hn : a.sent = [] ∧ a.got = [])
  | within (hp : Inside a.prog) (ho : a.inside = true)
  | returned (v) (hp : a.prog = .ret v) (ho : a.inside = false)

def Caller.Form (a : Caller) : Prop :=
  a.job.call.Exchanges a.job.locals a.sent a.got a.prog

theorem Call.skipsLock_accepted {c : Call} (h : c.skipsLock = true) : c.rejected = false := by
  cases c with
  | fuseOpen fn fi => cases h
  | fuseOpendir dn fi => cases h
  | fuseCreat fn mode fi => cases h
  | _ => rfl

/-- What one step of a call can be. -/
inductive Move (a : Caller) (e : Ev UInt32) (b : Caller) : Prop
  | enter (ha : a.inside = false) (hn : a.sent = [] ∧ a.got = []) (he : Caller.enters e = true)
      (hb : b.inside = true) (hl : b.job.call.skipsLock = false → e = .lock)
  | quiet (ha : a.inside = false) (hb : b.inside = false) (hn : a.sent = []) (hn' : b.sent = [])
      (he : e.sent = [] ∧ e.received = []) (hr : ∀ v, b.prog ≠ .ret v)
      (hl : e ≠ .lock ∧ e ≠ .unlock)
  | within (ha : a.inside = true) (hb : b.inside = true) (hl : e ≠ .lock ∧ e ≠ .unlock)
      (hr : ∀ v, b.prog ≠ .ret v)
  | leave (ha : a.inside = true) (hb : b.inside = false) (he : e = .unlock) (v : Int32)
      (hv : b.prog = .ret v)

/-- Before its first byte a call that skips the lock only reads `opuid`, or sends. -/
theorem Caller.Form.outside {a : Caller} (h : a.Form) (hs : a.sent = [])
    (hacc : a.job.call.rejected = false) {e : Ev UInt32} {q : Io Int32} (st : Step a.prog e q)
    (he : e.isErr = false) (hin : Inside a.prog) :
    (∃ bs, e = .wrote bs ∧ Inside q) ∨ (e.sent = [] ∧ e.received = [] ∧ e ≠ .lock ∧
      e ≠ .unlock ∧ Caller.enters e = false ∧ Inside q) := by
  have hnil : ¬a.job.call.Sends a.job.locals [] := fun hb => (sends_isRequest _ hb).ne_nil rfl
  obtain ⟨j, p, s, g, ins⟩ := a
  cases hs
  cases hin with
  | stop h => cases st
  | get k hk => cases st with | get _ u => exact .inr ⟨rfl, rfl, nofun, nofun, rfl, hk u⟩
  | set u k hk => cases st with | set _ _ => exact .inr ⟨rfl, rfl, nofun, nofun, rfl, hk⟩
  | write buf k hk =>
    cases st with
    | wrote bs rest _ _ => exact .inl ⟨bs, rfl, .write rest k hk⟩
    | writeErr _ _ _ => cases he
    | writeEnd _ => exact absurd (Exchange.write_inv h).1 hnil
  | read acc n k hk => exact absurd (Exchange.read_inv h) hnil
  | leave v =>
    rcases (Exchange.unlock_inv h).ret_cases with ⟨hrej, -⟩ | ⟨hb, -⟩ | ⟨hb, -⟩
    · rw [hrej] at hacc
      cases hacc
    · exact absurd hb hnil
    · exact absurd hb hnil

theorem Inside.not_ret {α : Type} {a : α} : ¬Inside (Prog.ret a : Io α) := nofun

/-- One step of a call, by the phase it is in. -/
theorem Phase.move {a : Caller} (hp : Phase a) (hf : a.Form) {e : Ev UInt32} {q : Io Int32}
    (st : Step a.prog e q) (he : e.isErr = false) :
    Move a e (a.next e q) ∧ Phase (a.next e q) := by
  cases hp with
  | waiting q' hs hp hq ho hn =>
    rw [hp] at st
    cases st with
    | lock =>
      have hin : (a.next .lock q).inside = true := by simp [Caller.next, Caller.enters]
      exact ⟨.enter ho hn rfl hin fun _ => rfl, .within hq hin⟩
  | coming hs hp ho hn =>
    rcases hf.outside hn.1 (Call.skipsLock_accepted hs) st he hp with
      ⟨bs, rfl, hq⟩ | ⟨hsent, hgot, hl, hu, hent, hq⟩
    · have hin : (a.next (.wrote bs) q).inside = true := by simp [Caller.next, Caller.enters]
      exact ⟨.enter ho hn rfl hin fun hc => absurd (hs.symm.trans hc) (by decide), .within hq hin⟩
    · have hin : (a.next e q).inside = false := by rw [Caller.next_inside _ hu, ho, hent]; rfl
      have hs' : (a.next e q).sent = [] ∧ (a.next e q).got = [] := by
        simp [Caller.next, hn, hsent, hgot]
      exact ⟨.quiet ho hin hn.1 hs'.1 ⟨hsent, hgot⟩ 
          (fun v (hv : q = .ret v) => Inside.not_ret (hv ▸ hq)) ⟨hl, hu⟩,
        .coming hs hq hin hs'⟩
  | within hp ho =>
    rcases hp.step st with ⟨hq, hl, hu⟩ | ⟨⟨v, rfl⟩, rfl⟩
    · have hin : (a.next e q).inside = true := by rw [Caller.next_inside _ hu, ho]; rfl
      exact ⟨.within ho hin ⟨hl, hu⟩ fun v (hv : q = .ret v) => Inside.not_ret (hv ▸ hq),
        .within hq hin⟩
    · exact ⟨.leave ho rfl rfl v rfl, .returned v rfl rfl⟩
  | returned v hp ho =>
    rw [hp] at st
    cases st

theorem lookup_set {l : List Caller} {i : Nat} {a : Caller} (h : l[i]? = some a) (b : Caller)
    (k : Nat) : (l.set i b)[k]? = if k = i then some b else l[k]? := by
  obtain ⟨hi, -⟩ := List.getElem?_eq_some_iff.1 h
  rw [List.getElem?_set]
  by_cases hk : i = k
  · rw [if_pos hk, if_pos hk.symm, if_pos (hk ▸ hi)]
  · rw [if_neg hk, if_neg (Ne.symm hk)]

/-- A fact about every call, after one of them has changed. -/
theorem forall_set {P : Nat → Caller → Prop} {l : List Caller} {i : Nat} {a b : Caller}
    (h : l[i]? = some a) (hb : P i b) (hl : ∀ k c, k ≠ i → l[k]? = some c → P k c) :
    ∀ k c, (l.set i b)[k]? = some c → P k c := by
  intro k c hc
  rw [lookup_set h] at hc
  split at hc
  · next hk =>
    cases hc
    exact hk ▸ hb
  · next hk => exact hl k c hk hc

/-! The outgoing stream. -/

/-- The bytes of every call are one block, which is the last one while the call
    is inside; a call that has sent nothing has none. -/
structure Blocks (out : Tagged) (calls : List Caller) : Prop where
  block : ∀ i, Block i (out.map Prod.fst)
  last : ∀ i a, calls[i]? = some a → a.inside = true →
    ∃ l, out = l ++ tag i a.sent ∧ i ∉ l.map Prod.fst
  fresh : ∀ i, (∀ a, calls[i]? = some a → a.sent = []) → i ∉ out.map Prod.fst

theorem Blocks.act {out : Tagged} {calls : List Caller} (h : Blocks out calls) {i : Nat}
    {a b : Caller} (ha : calls[i]? = some a) {new : Bytes} (hb : b.sent = a.sent ++ new)
    (hnew : new = [] ∨ ∀ k c, k ≠ i → calls[k]? = some c → c.inside = false)
    (hin : new ≠ [] ∨ b.inside = true → a.inside = true ∨ a.sent = []) :
    Blocks (out ++ tag i new) (calls.set i b) := by
  -- where the call's own bytes are, if it is or comes inside
  have hlast : new ≠ [] ∨ b.inside = true →
      ∃ l, out ++ tag i new = l ++ tag i b.sent ∧ i ∉ l.map Prod.fst := by
    intro hc
    rcases hin hc with hia | hs
    · obtain ⟨l, hl, hil⟩ := h.last i a ha hia
      exact ⟨l, by rw [hl, hb, tag_append, List.append_assoc], hil⟩
    · refine ⟨out, by rw [hb, hs, List.nil_append], h.fresh i fun c hc => ?_⟩
      rw [ha] at hc
      cases hc
      exact hs
  have hother : ∀ k, k ≠ i → k ∉ (tag i new).map Prod.fst :=
    fun k hk hm => hk (tag_fst i new k hm)
  refine ⟨fun k => ?_, forall_set ha (fun hc => hlast (.inr hc)) ?_, fun k hk => ?_⟩
  · by_cases hk : k = i
    · by_cases hn : new = []
      · rw [hn, tag_nil, List.append_nil]
        exact h.block k
      · obtain ⟨l, hl, hil⟩ := hlast (.inl hn)
        rw [hl, hk, List.map_append]
        exact ⟨_, _, [], (List.append_nil _).symm, hil, tag_fst i b.sent, List.not_mem_nil⟩
    · rw [List.map_append]
      exact (h.block k).append_other (hother k hk)
  · intro k c hk hc hic
    have hn : new = [] := hnew.resolve_right fun hall => by
      rw [hall k c hk hc] at hic
      cases hic
    rw [hn, tag_nil, List.append_nil]
    exact h.last k c hc hic
  · have hsame : (∀ c, calls[k]? = some c → c.sent = []) ∧ (k = i → new = []) := by
      by_cases hki : k = i
      · have hbs := hk b (by rw [lookup_set ha, if_pos hki])
        rw [hb, List.append_eq_nil_iff] at hbs
        refine ⟨fun c hc => ?_, fun _ => hbs.2⟩
        rw [hki, ha] at hc
        cases hc
        exact hbs.1
      · refine ⟨fun c hc => hk c ?_, fun h => absurd h hki⟩
        rw [lookup_set ha, if_neg hki]
        exact hc
    rw [List.map_append, List.mem_append, not_or]
    refine ⟨h.fresh k hsame.1, fun hm => ?_⟩
    have hki := tag_fst i new k hm
    rw [hsame.2 hki] at hm
    cases hm

/-! The invariant. -/

/-- Call number `i` was rejected, or it has received the answer to its request. -/
def Served (w : World) (i : Nat) (a : Caller) : Prop :=
  ∀ v, a.prog = .ret v → a.job.call.rejected = true ∨
    ∃ r, (tag i a.sent, r) ∈ w.log ∧ r.Answers a.sent ∧ a.got = r.bytes

/-- At most one call, `o`, is inside; the mutex is taken if it is one that takes
    it, and all that is on the wires belongs to it. -/
structure Order (t : Traffic) (o : Option Nat) : Prop where
  form : ∀ (i : Nat) (a : Caller), t.calls[i]? = some a → a.Form
  phase : ∀ (i : Nat) (a : Caller), t.calls[i]? = some a → Phase a
  holder : ∀ (i : Nat) (a : Caller), t.calls[i]? = some a → (a.inside = true ↔ o = some i)
  here : ∀ i : Nat, o = some i → ∃ a, t.calls[i]? = some a
  mutex : ∀ (i : Nat) (a : Caller), o = some i → t.calls[i]? = some a →
    a.job.call.skipsLock = false → t.world.locked = true
  idle : o = none → t.world.Idle
  link : ∀ (i : Nat) (a : Caller), o = some i → t.calls[i]? = some a →
    Link i a.sent a.got t.world
  blocks : Blocks t.world.out t.calls
  served : ∀ (i : Nat) (a : Caller), t.calls[i]? = some a → Served t.world i a

theorem World.Effect.out_eq {i : Nat} {w w' : World} {e : Ev UInt32} (h : w.Effect i e w') :
    w'.out = w.out ++ tag i e.sent := by
  cases h <;> simp [Ev.sent]

/-- An effect that moves no byte. -/
theorem World.Effect.still {i : Nat} {w w' : World} {e : Ev UInt32} (h : w.Effect i e w')
    (hs : e.sent = []) (hr : e.received = []) : w'.pending = w.pending ∧ w'.inn = w.inn := by
  cases h with
  | wrote bs =>
    have hbs : bs = [] := hs
    rw [hbs]
    exact ⟨List.append_nil _, rfl⟩
  | got bs inn hin =>
    have hbs : bs = [] := hr
    rw [hbs] at hin
    exact ⟨rfl, hin.symm⟩
  | _ => exact ⟨rfl, rfl⟩

theorem World.Effect.locked_eq {i : Nat} {w w' : World} {e : Ev UInt32} (h : w.Effect i e w')
    (hl : e ≠ .lock ∧ e ≠ .unlock) : w'.locked = w.locked := by
  cases h with
  | lock => exact absurd rfl hl.1
  | unlock => exact absurd rfl hl.2
  | _ => rfl

theorem Link.congr {i : Nat} {s g : Bytes} {w w' : World} (h : Link i s g w)
    (hp : w'.pending = w.pending ∧ w'.inn = w.inn) (hl : w'.log = w.log) : Link i s g w' := by
  cases h with
  | sending hp' hi hg hs => exact .sending (hp.1.trans hp') (hp.2.trans hi) hg hs
  | answered hp' hs r hlog hr hpl hg =>
    exact .answered (hp.1.trans hp') hs r (hl ▸ hlog) hr hpl (hp.2 ▸ hg)

theorem Served.mono {w w' : World} {i : Nat} {a : Caller} (h : Served w i a)
    (hl : ∀ x ∈ w.log, x ∈ w'.log) : Served w' i a := by
  intro v hv
  rcases h v hv with hrej | ⟨r, hm, hr⟩
  · exact .inl hrej
  · exact .inr ⟨r, hl _ hm, hr⟩

theorem Phase.ret_outside {a : Caller} (h : Phase a) {v : Int32} (hv : a.prog = .ret v) :
    a.inside = false := by
  cases h with
  | waiting _ _ _ _ ho _ => exact ho
  | coming _ _ ho _ => exact ho
  | within hp _ => exact absurd (hv ▸ hp) Inside.not_ret
  | returned _ _ ho => exact ho

namespace Order
variable {t : Traffic} {o : Option Nat}

theorem init (opuid : UInt32) : Order (Traffic.init opuid) none where
  form _ _ h := nomatch h
  phase _ _ h := nomatch h
  holder _ _ h := nomatch h
  here _ h := nomatch h
  mutex _ _ h := nomatch h
  idle _ := ⟨rfl, rfl⟩
  link _ _ h := nomatch h
  blocks := ⟨fun _ => .of_not_mem List.not_mem_nil, (fun _ _ h => nomatch h),
    fun _ _ => List.not_mem_nil⟩
  served _ _ h := nomatch h

/-- One step of a call that keeps or changes who is inside. -/
theorem act {o' : Option Nat} (h : Order t o) {i : Nat} {a : Caller} {e : Ev UInt32}
    {q : Io Int32} {w : World} (ha : t.calls[i]? = some a) (st : Step a.prog e q)
    (hf : t.world.Effect i e w) (he : e.isErr = false)
    (hb : (a.next e q).inside = true ↔ o' = some i)
    (ho : ∀ k, k ≠ i → (o = some k ↔ o' = some k))
    (hmutex : ∀ k c, o' = some k → (t.calls.set i (a.next e q))[k]? = some c →
      c.job.call.skipsLock = false → w.locked = true)
    (hidle : o' = none → w.Idle)
    (hlink : ∀ k c, o' = some k → (t.calls.set i (a.next e q))[k]? = some c →
      Link k c.sent c.got w)
    (hnew : e.sent = [] ∨ ∀ k c, k ≠ i → t.calls[k]? = some c → c.inside = false)
    (hin : e.sent ≠ [] ∨ (a.next e q).inside = true → a.inside = true ∨ a.sent = [])
    (hserved : Served w i (a.next e q)) :
    Order { world := w, calls := t.calls.set i (a.next e q) } o' where
  form := forall_set ha ((h.form i a ha).step st he) fun k c _ hc => h.form k c hc
  phase := forall_set ha ((h.phase i a ha).move (h.form i a ha) st he).2
    fun k c _ hc => h.phase k c hc
  holder := forall_set ha hb fun k c hk hc => (h.holder k c hc).trans (ho k hk)
  here k hk := by
    by_cases hki : k = i
    · exact ⟨_, by rw [lookup_set ha, if_pos hki]⟩
    · obtain ⟨c, hc⟩ := h.here k ((ho k hki).2 hk)
      exact ⟨c, by rw [lookup_set ha, if_neg hki]; exact hc⟩
  mutex := hmutex
  idle := hidle
  link := hlink
  blocks := by
    show Blocks w.out _
    rw [hf.out_eq]
    exact h.blocks.act ha rfl hnew hin
  served := forall_set ha hserved fun k c _ hc =>
    (h.served k c hc).mono fun x hx => by rwa [hf.log_eq]

theorem lookup_append {l : List Caller} {b c : Caller} {k : Nat}
    (h : (l ++ [b])[k]? = some c) : l[k]? = some c ∨ (k = l.length ∧ c = b) := by
  rcases Nat.lt_or_ge k l.length with hk | hk
  · rw [List.getElem?_append_left hk] at h
    exact .inl h
  · rw [List.getElem?_append_right hk, List.getElem?_singleton] at h
    split at h
    · cases h
      exact .inr ⟨by omega, rfl⟩
    · cases h

theorem phase_start (j : Job) : Phase (Caller.start j) := by
  cases hs : j.call.skipsLock with
  | false =>
    obtain ⟨q, hq, hin⟩ := Call.locks j.locals hs
    exact .waiting q hs hq hin rfl ⟨rfl, rfl⟩
  | true => exact .coming hs (Call.unlocked j.locals hs) rfl ⟨rfl, rfl⟩

theorem start_not_ret (j : Job) (v : Int32) : (Caller.start j).prog ≠ .ret v := by
  intro hv
  have hv' : j.call.prog j.locals = .ret v := hv
  cases hs : j.call.skipsLock with
  | false =>
    obtain ⟨q, hq, -⟩ := Call.locks j.locals hs
    rw [hv'] at hq
    cases hq
  | true => exact Inside.not_ret (hv' ▸ Call.unlocked j.locals hs)

theorem spawn (h : Order t o) (j : Job) :
    Order { t with calls := t.calls ++ [Caller.start j] } o := by
  -- the new call is not inside and has sent nothing
  have hne : o ≠ some t.calls.length := by
    intro ho
    obtain ⟨a, ha⟩ := h.here _ ho
    rw [List.getElem?_eq_none (Nat.le_refl _)] at ha
    cases ha
  have hold : ∀ {k a}, o = some k → (t.calls ++ [Caller.start j])[k]? = some a →
      t.calls[k]? = some a := by
    intro k a ho ha
    rcases lookup_append ha with ha | ⟨rfl, -⟩
    · exact ha
    · exact absurd ho hne
  refine ⟨?_, ?_, ?_, ?_, ?_, h.idle, ?_, ⟨h.blocks.block, ?_, ?_⟩, ?_⟩
  · intro k a ha
    rcases lookup_append ha with ha | ⟨-, rfl⟩
    · exact h.form k a ha
    · exact j.call.exchange j.locals
  · intro k a ha
    rcases lookup_append ha with ha | ⟨-, rfl⟩
    · exact h.phase k a ha
    · exact phase_start j
  · intro k a ha
    rcases lookup_append ha with ha | ⟨rfl, rfl⟩
    · exact h.holder k a ha
    · exact ⟨fun hc => (nomatch hc), fun ho => absurd ho hne⟩
  · intro k ho
    obtain ⟨a, ha⟩ := h.here k ho
    obtain ⟨hk, -⟩ := List.getElem?_eq_some_iff.1 ha
    exact ⟨a, by rw [List.getElem?_append_left hk]; exact ha⟩
  · exact fun k a ho ha => h.mutex k a ho (hold ho ha)
  · exact fun k a ho ha => h.link k a ho (hold ho ha)
  · intro k a ha hin
    rcases lookup_append ha with ha | ⟨-, rfl⟩
    · exact h.blocks.last k a ha hin
    · cases hin
  · intro k hk
    apply h.blocks.fresh k
    intro a ha
    obtain ⟨hlt, -⟩ := List.getElem?_eq_some_iff.1 ha
    exact hk a (by rw [List.getElem?_append_left hlt]; exact ha)
  · intro k a ha
    rcases lookup_append ha with ha | ⟨-, rfl⟩
    · exact h.served k a ha
    · exact fun v hv => absurd hv (start_not_ret j v)

theorem answer (h : Order t o) {r : Reply} {w : World} (ha : t.world.Answer r w) (hp : r.Plain) :
    Order { t with world := w } o := by
  have hfix : w.locked = t.world.locked ∧ w.out = t.world.out := by
    cases ha with
    | mk req rest _ _ _ _ => exact ⟨rfl, rfl⟩
  obtain ⟨req, hlog⟩ := ha.log_eq
  refine ⟨h.form, h.phase, h.holder, h.here, ?_, ?_, ?_, ?_, ?_⟩
  · exact fun i a ho hi hs => hfix.1.trans (h.mutex i a ho hi hs)
  · exact fun ho => ((h.idle ho).no_answer ha).elim
  · exact fun i a ho hi => (h.link i a ho hi).answer ha hp
  · exact hfix.2 ▸ h.blocks
  · refine fun i a hi => (h.served i a hi).mono fun x hx => ?_
    rw [hlog]
    exact List.mem_append_left _ hx

/-- No one is inside when a call comes inside in an orderly run: the mutex keeps
    out those that take it, the condition the others. -/
theorem entry (h : Order t o) {i : Nat} {a : Caller} {e : Ev UInt32} {w : World}
    (hor : t.Orderly (.act i e)) (ha : t.calls[i]? = some a) (hout : a.inside = false)
    (he : Caller.enters e = true) (hf : t.world.Effect i e w)
    (hl : a.job.call.skipsLock = false → e = .lock) : o = none := by
  cases o with
  | none => rfl
  | some k =>
    obtain ⟨b, hb⟩ := h.here k rfl
    obtain ⟨hsa, hsb⟩ := hor a k b ha hout he hb ((h.holder k b hb).2 rfl)
    have hm := h.mutex k b rfl hb hsb
    rw [hl hsa] at hf
    cases hf with
    | lock hfree =>
      rw [hm] at hfree
      cases hfree

theorem move (h : Order t o) {i : Nat} {a : Caller} {e : Ev UInt32} {q : Io Int32} {w : World}
    (hor : t.Orderly (.act i e)) (ha : t.calls[i]? = some a) (st : Step a.prog e q)
    (hf : t.world.Effect i e w) (he : e.isErr = false) :
    ∃ o', Order { world := w, calls := t.calls.set i (a.next e q) } o' := by
  obtain ⟨hm, hphase⟩ := (h.phase i a ha).move (h.form i a ha) st he
  have hform : (a.next e q).Form := (h.form i a ha).step st he
  have hat : ∀ {c}, (t.calls.set i (a.next e q))[i]? = some c → c = a.next e q := by
    intro c hc
    rw [lookup_set ha, if_pos rfl] at hc
    exact (Option.some.inj hc).symm
  have hoff : ∀ {k c}, k ≠ i → (t.calls.set i (a.next e q))[k]? = some c →
      t.calls[k]? = some c := by
    intro k c hk hc
    rwa [lookup_set ha, if_neg hk] at hc
  have hrunning : (a.next e q).inside = true → Served w i (a.next e q) := by
    intro hin v hv
    rw [hphase.ret_outside hv] at hin
    cases hin
  -- the call is inside, so no other call is
  have halone : a.inside = true → ∀ k c, k ≠ i → t.calls[k]? = some c → c.inside = false := by
    intro hin k c hk hc
    by_contra hcin
    have hki := ((h.holder k c hc).1 (by simpa using hcin)).symm.trans ((h.holder i a ha).1 hin)
    exact hk (Option.some.inj hki)
  cases hm with
  | enter hout hn hent hb hl =>
    have ho := h.entry hor ha hout hent hf hl
    subst ho
    refine ⟨some i, h.act ha st hf he (by simp [hb]) (fun k hk => ?_) ?_ nofun ?_ (.inr ?_) ?_
      (hrunning hb)⟩
    · simp [Ne.symm hk]
    · intro k c hk hc hs
      cases Option.some.inj hk
      rw [hat hc] at hs
      rw [hl hs] at hf
      cases hf
      rfl
    · intro k c hk hc
      cases Option.some.inj hk
      rw [hat hc]
      apply Link.effect (h.form i a ha) sends_isRequest st hf
      rw [hn.1, hn.2]
      exact .start (h.idle rfl)
    · intro k c _ hc
      have hc' := h.holder k c hc
      simpa using hc'
    · exact fun _ => .inr hn.1
  | quiet hout hb hn hn' hs hr hl =>
    have hstill := hf.still hs.1 hs.2
    have hne : o ≠ some i := fun ho => by
      rw [(h.holder i a ha).2 ho] at hout
      cases hout
    refine ⟨o, h.act ha st hf he (by simp [hb, hne]) (fun _ _ => Iff.rfl) ?_ ?_ ?_ (.inl hs.1) ?_
      fun v hv => absurd hv (hr v)⟩
    · intro k c hk hc hskip
      have hki : k ≠ i := fun hki => hne (hki ▸ hk)
      rw [hf.locked_eq hl]
      exact h.mutex k c hk (hoff hki hc) hskip
    · intro ho
      exact ⟨hstill.1.trans (h.idle ho).1, hstill.2.trans (h.idle ho).2⟩
    · intro k c hk hc
      have hki : k ≠ i := fun hki => hne (hki ▸ hk)
      exact (h.link k c hk (hoff hki hc)).congr hstill hf.log_eq
    · exact fun _ => .inr hn
  | within hin hb hl hr =>
    have ho := (h.holder i a ha).1 hin
    refine ⟨o, h.act ha st hf he (by simp [hb, ho]) (fun _ _ => Iff.rfl) ?_ ?_ ?_
      (.inr (halone hin)) (fun _ => .inl hin) fun v hv => absurd hv (hr v)⟩
    · intro k c hk hc hskip
      rw [ho] at hk
      cases Option.some.inj hk
      rw [hat hc] at hskip
      rw [hf.locked_eq hl]
      exact h.mutex i a ho ha hskip
    · intro hnone
      rw [ho] at hnone
      cases hnone
    · intro k c hk hc
      rw [ho] at hk
      cases Option.some.inj hk
      rw [hat hc]
      exact Link.effect (h.form i a ha) sends_isRequest st hf (h.link i a ho ha)
  | leave hin hb hev v hv =>
    have ho := (h.holder i a ha).1 hin
    have hlink := Link.effect (h.form i a ha) sends_isRequest st hf (h.link i a ho ha)
    unfold Caller.Form at hform
    rw [hv] at hform
    have hend := Link.ret hform hlink
    refine ⟨none, h.act ha st hf he (by simp [hb]) (fun k hk => ?_) (fun _ _ hk => nomatch hk)
      (fun _ => hend.1) (fun _ _ hk => nomatch hk) (.inl ?_) ?_ ?_⟩
    · rw [ho]
      simp [Ne.symm hk]
    · rw [hev]; rfl
    · exact fun _ => .inl hin
    · intro u hu
      rcases hend.2 with ⟨hrej, -⟩ | hserved
      · exact .inl hrej
      · exact .inr hserved

end Order

/-- Every state of an orderly run. -/
theorem Traffic.Reach.order {opuid : UInt32} {t : Traffic}
    (h : Traffic.Reach Traffic.Orderly opuid t) : ∃ o, Order t o := by
  induction h with
  | init => exact ⟨none, Order.init opuid⟩
  | step _ hc st ih =>
    obtain ⟨o, ho⟩ := ih
    cases st with
    | spawn j => exact ⟨o, ho.spawn j⟩
    | act i a e q w ha st hf he => exact ho.move hc ha st hf he
    | answer r w ha => exact ⟨o, ho.answer ha hc⟩

/-- **Atomicity.** In every state of an orderly run the bytes of each request are
    one block of the outgoing stream, and every call that has returned was
    rejected by the open checks or has received the reply to its own request. -/
theorem atomicity {opuid : UInt32} {t : Traffic} (h : Traffic.Reach Traffic.Orderly opuid t) :
    (∀ i, Block i (t.world.out.map Prod.fst)) ∧
      ∀ (i : Nat) (a : Caller) (v : Int32), t.calls[i]? = some a → a.prog = .ret v →
        a.job.call.rejected = true ∨
          ∃ r, (tag i a.sent, r) ∈ t.world.log ∧ r.Answers a.sent ∧ a.got = r.bytes := by
  obtain ⟨o, ho⟩ := h.order
  exact ⟨ho.blocks.block, fun i a v ha hv => ho.served i a ha v hv⟩

/-! Two runs of `fuse_unlink`. -/

/-- What `fuse_unlink` does once its request is sent, or has failed to be. -/
def unlinkRest (ok : Bool) : Io Int32 :=
  Prod.fst <$> if ok then .read [] RpHdr.codec.size (replied () (headerOnly fun _ => 0))
    else warn (-EBUSY) ()

theorem unlink_prog : (Call.fuseUnlink pathA).prog default =
    .get fun ouid => .write (unlinkMsg ouid) unlinkRest := by
  rw [Call.prog, fuseUnlink]
  simp only [converse_emission (unlink_emission _)]
  rfl

def unlinkJob : Job := Job.fresh (.fuseUnlink pathA)

theorem start_unlink : Caller.start unlinkJob =
    ⟨unlinkJob, .get fun ouid => .write (unlinkMsg ouid) unlinkRest, [], [], false⟩ := by
  rw [Caller.start, show unlinkJob.call.prog unlinkJob.locals = _ from unlink_prog]

theorem unlinkMsg_length (ouid : UInt32) : (unlinkMsg ouid).length = 4140 := by
  rw [unlinkMsg, Request.bytes_length]
  rfl

/-- Two calls of `fuse_unlink`, the second one sending its first byte between the
    first two of the other. -/
theorem atomicity_fails_unlink :
    ∃ t, Traffic.Reach (fun _ _ => True) 0 t ∧ ¬∀ i, Block i (t.world.out.map Prod.fst) := by
  obtain ⟨b, c, rest, hbc⟩ : ∃ b c rest, unlinkMsg 0 = b :: c :: rest := by
    have hlen := unlinkMsg_length 0
    match hm : unlinkMsg 0 with
    | [] => rw [hm] at hlen; cases hlen
    | [_] => rw [hm] at hlen; cases hlen
    | b :: c :: rest => exact ⟨b, c, rest, rfl⟩
  have hw := Step.wrote [b] (c :: rest) unlinkRest nofun
  have hw' := Step.wrote [c] rest unlinkRest nofun
  have h₀ : Traffic.Reach (fun _ _ => True) 0 (Traffic.init 0) := .init
  have h₁ := h₀.step trivial (.spawn _ unlinkJob)
  have h₂ := h₁.step trivial (.spawn _ unlinkJob)
  rw [start_unlink] at h₂
  have h₃ := h₂.step trivial (.act _ 0 _ (.get _) _ _ rfl (.get _ _) (.get _) rfl)
  have h₄ := h₃.step trivial (.act _ 1 _ (.get _) _ _ rfl (.get _ _) (.get _) rfl)
  have hp : (Prog.write (unlinkMsg 0) unlinkRest : Io Int32) = .write ([b] ++ c :: rest) unlinkRest := by
    rw [hbc]; rfl
  have h₅ := h₄.step trivial (.act _ 0 _ (.wrote [b]) (.write (c :: rest) unlinkRest) _ rfl
    (hp ▸ hw) (.wrote _ _) rfl)
  have h₆ := h₅.step trivial (.act _ 1 _ (.wrote [b]) (.write (c :: rest) unlinkRest) _ rfl
    (hp ▸ hw) (.wrote _ _) rfl)
  have h₇ := h₆.step trivial (.act _ 0 _ (.wrote [c]) _ _ rfl hw' (.wrote _ _) rfl)
  refine ⟨_, h₇, fun hblock => ?_⟩
  have htags : Block 0 [0, 1, 0] := hblock 0
  cases htags.between

namespace Traffic

/-- A step of a call, no other call being inside. -/
theorem Next.alone (cs : List Caller) {i : Nat} (hi : i < cs.length)
    (hout : ∀ k c, k ≠ i → cs[k]? = some c → c.inside = false) {w w' : World} {a b : Caller}
    {e : Ev UInt32} {q : Io Int32} (st : Chan.Step a.prog e q) (hf : w.Effect i e w')
    (he : e.isErr = false) (hb : a.next e q = b) :
    Next Orderly ⟨w, cs.set i a⟩ ⟨w', cs.set i b⟩ := by
  subst hb
  have ha : (cs.set i a)[i]? = some a := List.getElem?_set_self hi
  have hset : (cs.set i a).set i (a.next e q) = cs.set i (a.next e q) := List.set_set ..
  refine ⟨.act i e, ?_, hset ▸ .act _ i a e q w' ha st hf he⟩
  intro c k b hc hin _ hb hbin
  by_cases hk : k = i
  · rw [hk, hc] at hb
    cases hb
    rw [hin] at hbin
    cases hbin
  · rw [List.getElem?_set_ne (Ne.symm hk)] at hb
    rw [hout k b hk hb] at hbin
    cases hbin

/-- The refusal of request number `ouid`. -/
def refusal (ouid : UInt32) : Reply := ⟨⟨12, ouid, -2⟩, []⟩

/-- What is left of a call of `fuse_unlink` that has sent a part of its request:
    it sends the rest, the peer refuses it, and the call returns the error. -/
theorem Later.unlinkEnd (cs : List Caller) {i : Nat} (hi : i < cs.length)
    (hout : ∀ k c, k ≠ i → cs[k]? = some c → c.inside = false) (locked : Bool)
    (opuid ouid : UInt32) (out : Tagged) (log : List (Tagged × Reply)) {sent rest : Bytes}
    (hm : sent ++ rest = unlinkMsg ouid) (hne : rest ≠ []) (inside : Bool) :
    Later
      ⟨⟨locked, opuid, out, tag i sent, [], log⟩,
        cs.set i ⟨unlinkJob, .write rest unlinkRest, sent, [], inside⟩⟩
      ⟨⟨false, opuid, out ++ tag i rest, [], [], log ++ [(tag i (unlinkMsg ouid), refusal ouid)]⟩,
        cs.set i ⟨unlinkJob, .ret (-2), unlinkMsg ouid, RpHdr.codec.enc ⟨12, ouid, -2⟩, false⟩⟩ := by
  have hw := Chan.Step.wrote rest [] unlinkRest hne
  rw [List.append_nil] at hw
  have h₁ := Next.alone _ hi hout hw (.wrote ⟨locked, opuid, out, tag i sent, [], log⟩ _) rfl
    (by simp [Caller.next, Ev.sent, Ev.received, Caller.enters, hm])
    (a := ⟨unlinkJob, .write rest unlinkRest, sent, [], inside⟩)
    (b := ⟨unlinkJob, .write [] unlinkRest, unlinkMsg ouid, [], true⟩)
  rw [← tag_append, hm] at h₁
  have h₂ := Next.alone _ hi hout (.writeEnd unlinkRest)
    (.tau ⟨locked, opuid, out ++ tag i rest, tag i (unlinkMsg ouid), [], log⟩) rfl
    (by simp [Caller.next, Ev.sent, Ev.received, Caller.enters])
    (a := ⟨unlinkJob, .write [] unlinkRest, unlinkMsg ouid, [], true⟩)
    (b := ⟨unlinkJob, unlinkRest true, unlinkMsg ouid, [], true⟩)
  -- the peer's answer, received in one read
  have hreq : IsRequest ((tag i (unlinkMsg ouid)).map Prod.snd) := by
    rw [tag_snd]
    exact ⟨default, .fuseUnlink pathA, rfl, ouid, unlink_emission ouid⟩
  have hans : (refusal ouid).Answers ((tag i (unlinkMsg ouid)).map Prod.snd) := by
    refine ⟨rfl, ?_⟩
    rw [tag_snd, unlinkMsg, Request.dec_bytes]
    rfl
  have h₃ : Next Orderly
      ⟨⟨locked, opuid, out ++ tag i rest, tag i (unlinkMsg ouid), [], log⟩,
        cs.set i ⟨unlinkJob, unlinkRest true, unlinkMsg ouid, [], true⟩⟩
      ⟨⟨locked, opuid, out ++ tag i rest, [], (refusal ouid).bytes,
          log ++ [(tag i (unlinkMsg ouid), refusal ouid)]⟩,
        cs.set i ⟨unlinkJob, unlinkRest true, unlinkMsg ouid, [], true⟩⟩ :=
    ⟨.answer (refusal ouid), .inr rfl,
      .answer _ _ _ (.mk _ _ [] _ hreq (List.append_nil _).symm hans)⟩
  have hgot := Chan.Step.got [] RpHdr.codec.size
    (fun r => Prod.fst <$> replied () (headerOnly fun _ => 0) r)
    (RpHdr.codec.enc ⟨12, ouid, -2⟩) (by decide) (Nat.le_of_eq (RpHdr.codec.enc_length _))
  rw [List.nil_append, Codec.enc_length, Nat.sub_self] at hgot
  have h₄ := Next.alone _ hi hout hgot
    (.got ⟨locked, opuid, out ++ tag i rest, [], (refusal ouid).bytes,
      log ++ [(tag i (unlinkMsg ouid), refusal ouid)]⟩ _ [] rfl)
    rfl (by simp [Caller.next, Ev.sent, Ev.received, Caller.enters])
    (a := ⟨unlinkJob, unlinkRest true, unlinkMsg ouid, [], true⟩)
    (b := ⟨unlinkJob, .read (RpHdr.codec.enc ⟨12, ouid, -2⟩) 0
      (fun r => Prod.fst <$> replied () (headerOnly fun _ => 0) r), unlinkMsg ouid,
      RpHdr.codec.enc ⟨12, ouid, -2⟩, true⟩)
  have hneg : Prod.fst <$> replied () (headerOnly fun _ => 0) (some (RpHdr.codec.enc ⟨12, ouid, -2⟩)) =
      (.unlock (.ret (-2)) : Io Int32) := by
    rw [replied, Option.map_some, Codec.dec_enc_nil]
    rfl
  have h₅ := Next.alone _ hi hout (hneg ▸ Chan.Step.readEnd (RpHdr.codec.enc ⟨12, ouid, -2⟩)
      (fun r => Prod.fst <$> replied () (headerOnly fun _ => 0) r))
    (.tau ⟨locked, opuid, out ++ tag i rest, [], [],
      log ++ [(tag i (unlinkMsg ouid), refusal ouid)]⟩) rfl
    (by simp [Caller.next, Ev.sent, Ev.received, Caller.enters])
    (a := ⟨unlinkJob, .read (RpHdr.codec.enc ⟨12, ouid, -2⟩) 0
      (fun r => Prod.fst <$> replied () (headerOnly fun _ => 0) r), unlinkMsg ouid,
      RpHdr.codec.enc ⟨12, ouid, -2⟩, true⟩)
    (b := ⟨unlinkJob, .unlock (.ret (-2)), unlinkMsg ouid, RpHdr.codec.enc ⟨12, ouid, -2⟩, true⟩)
  have h₆ := Next.alone _ hi hout (.unlock (.ret (-2))) (.unlock ⟨locked, opuid,
      out ++ tag i rest, [], [], log ++ [(tag i (unlinkMsg ouid), refusal ouid)]⟩) rfl
    (by simp [Caller.next, Ev.sent, Ev.received])
    (a := ⟨unlinkJob, .unlock (.ret (-2)), unlinkMsg ouid, RpHdr.codec.enc ⟨12, ouid, -2⟩, true⟩)
    (b := ⟨unlinkJob, .ret (-2), unlinkMsg ouid, RpHdr.codec.enc ⟨12, ouid, -2⟩, false⟩)
  exact .tail (.tail (.tail (.tail (.tail (.tail .refl h₁) h₂) h₃) h₄) h₅) h₆

end Traffic

/-- With two calls, all but one is the other one. -/
theorem outside_second {a b : Caller} (hb : b.inside = false) :
    ∀ k c, k ≠ 0 → [a, b][k]? = some c → c.inside = false := by
  intro k c hk hc
  match k with
  | 0 => exact absurd rfl hk
  | 1 => cases hc; exact hb
  | k + 2 => cases hc

theorem outside_first {a b : Caller} (ha : a.inside = false) :
    ∀ k c, k ≠ 1 → [a, b][k]? = some c → c.inside = false := by
  intro k c hk hc
  match k with
  | 0 => cases hc; exact ha
  | 1 => exact absurd rfl hk
  | k + 2 => cases hc

/-- Two calls of `fuse_unlink` in progress: the first one has sent one byte, the
    second one has read `opuid`. -/
def unlinksUnderway (c : UInt8) (rest : Bytes) : Traffic :=
  ⟨⟨false, 0, tag 0 [c], tag 0 [c], [], []⟩,
    [⟨unlinkJob, .write rest unlinkRest, [c], [], true⟩,
      ⟨unlinkJob, .write (unlinkMsg 0) unlinkRest, [], [], false⟩]⟩

theorem unlinksUnderway_reach {c : UInt8} {rest : Bytes} (hm : unlinkMsg 0 = [c] ++ rest) :
    Traffic.Reach Traffic.Orderly 0 (unlinksUnderway c rest) := by
  have hget : ∀ {i : Nat} {u : UInt32} (t : Traffic), t.Orderly (.act i (.get u)) :=
    fun _ _ _ _ _ _ he => nomatch he
  have h₀ : Traffic.Reach Traffic.Orderly 0 (Traffic.init 0) := .init
  have h₁ := h₀.step (l := .spawn unlinkJob) trivial (.spawn _ unlinkJob)
  have h₂ := h₁.step (l := .spawn unlinkJob) trivial (.spawn _ unlinkJob)
  rw [start_unlink] at h₂
  generalize hp : (fun ouid => .write (unlinkMsg ouid) unlinkRest : UInt32 → Io Int32) = p at h₂
  have hp0 : p 0 = .write ([c] ++ rest) unlinkRest := by rw [← hp, ← hm]
  have h₃ := h₂.step (hget _) (.act _ 0 _ (.get _) _ _ rfl (.get _ _) (.get _) rfl)
  have h₄ := h₃.later (.single (Traffic.Next.alone [_, ⟨unlinkJob, .get p, [], [], false⟩] (i := 0)
    Nat.two_pos (outside_second rfl)
    (hp0 ▸ Chan.Step.wrote [c] rest unlinkRest nofun) (.wrote _ _) rfl rfl
    (a := ⟨unlinkJob, p 0, [], [], false⟩)))
  have h₅ := h₄.step (hget _) (.act _ 1 _ (.get _) _ _ rfl (.get _ _) (.get _) rfl)
  rw [unlinksUnderway, hm, ← hp0]
  exact h₅

/-- From there the first one is brought to its end, and then the second one. -/
theorem atomicity_unlink : ∃ c rest t, Traffic.Reach Traffic.Orderly 0 (unlinksUnderway c rest) ∧
    (∀ i, Block i ((unlinksUnderway c rest).world.out.map Prod.fst)) ∧
    Traffic.Later (unlinksUnderway c rest) t ∧ ∃ a b, t.calls = [a, b] ∧
      a.prog = .ret (-2) ∧ b.prog = .ret (-2) ∧
      t.world.out = tag 0 (unlinkMsg 0) ++ tag 1 (unlinkMsg 0) ∧
      (∀ i, Block i (t.world.out.map Prod.fst)) ∧
      (∃ r, (tag 0 a.sent, r) ∈ t.world.log ∧ r.Answers a.sent ∧ a.got = r.bytes) ∧
      ∃ r, (tag 1 b.sent, r) ∈ t.world.log ∧ r.Answers b.sent ∧ b.got = r.bytes := by
  obtain ⟨c, rest, hm⟩ : ∃ c rest, unlinkMsg 0 = [c] ++ rest :=
    List.exists_cons_of_ne_nil (Request.bytes_ne_nil _)
  have hrest : rest ≠ [] := by
    rintro rfl
    have hlen := unlinkMsg_length 0
    rw [hm] at hlen
    cases hlen
  have hl₁ : Traffic.Later (unlinksUnderway c rest) _ :=
    Traffic.Later.unlinkEnd (unlinksUnderway c rest).calls (i := 0) Nat.two_pos
      (outside_second rfl) false 0 0 (tag 0 [c]) [] hm.symm hrest true
  have hl₂ := Traffic.Later.unlinkEnd
    [⟨unlinkJob, .ret (-2), unlinkMsg 0, RpHdr.codec.enc ⟨12, 0, -2⟩, false⟩,
      ⟨unlinkJob, .write (unlinkMsg 0) unlinkRest, [], [], false⟩] (i := 1) Nat.one_lt_two
    (outside_first rfl) false 0 0 (tag 0 [c] ++ tag 0 rest)
    ([] ++ [(tag 0 (unlinkMsg 0), Traffic.refusal 0)]) (List.nil_append (unlinkMsg 0))
    (Request.bytes_ne_nil _) false
  have hl := hl₁.trans hl₂
  have h := unlinksUnderway_reach hm
  have hend := atomicity (h.later hl)
  refine ⟨c, rest, _, h, (atomicity h).1, hl, _, _, rfl, rfl, rfl, ?_, hend.1, ?_, ?_⟩
  · show tag 0 [c] ++ tag 0 rest ++ _ = _
    rw [← tag_append, ← hm]
  · exact (hend.2 0 _ (-2) rfl rfl).resolve_left nofun
  · exact (hend.2 1 _ (-2) rfl rfl).resolve_left nofun

end Zhwkrfsp
