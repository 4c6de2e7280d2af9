import Zhwkrfsp.OperationId
import Zhwkrfsp.Progress
import Mathlib.Algebra.Order.BigOperators.Group.List
import Mathlib.Algebra.Order.Group.Nat

/- Operation ids when handlers run concurrently. A call that takes the lock draws its
   number while it holds it, and no other call changes `opuid` then. So along the peer's
   sequence of operations the numbers of these calls increase, one call being ahead of
   the next by what it has drawn; as long as fewer than 2^32 are drawn, no two of their
   requests, and no two of the replies they return with, have the same `ouid`
   (`ouids_increase`). -/
namespace Zhwkrfsp
open Wire Chan

/-! The calls that skip the lock do not change `opuid`. -/

inductive Still {α : Type} : Io α → Prop
  | ret (a) : Still (.ret a)
  | stop (h) : Still (.stop h)
  | lock (k) (hk : Still k) : Still (.lock k)
  | unlock (k) (hk : Still k) : Still (.unlock k)
  | get (k) (hk : ∀ u, Still (k u)) : Still (.get k)
  | write (buf k) (hk : ∀ b, Still (k b)) : Still (.write buf k)
  | read (acc n k) (hk : ∀ r, Still (k r)) : Still (.read acc n k)

namespace Still

theorem fst {β : Type} {p : Io (Int32 × β)} (h : Still p) : Still (Prod.fst <$> p) := by
  induction h with
  | ret a => exact .ret a.1
  | stop h => exact .stop h
  | lock k _ ih => exact .lock _ ih
  | unlock k _ ih => exact .unlock _ ih
  | get k _ ih => exact .get _ ih
  | write buf k _ ih => exact .write buf _ ih
  | read acc n k _ ih => exact .read acc n _ ih

theorem step {α : Type} {p q : Io α} {e : Ev UInt32} (h : Still p) (st : Step p e q) :
    Still q ∧ ∀ u, e ≠ .set u := by
  cases st with
  | lock k => cases h with | lock _ hk => exact ⟨hk, nofun⟩
  | unlock k => cases h with | unlock _ hk => exact ⟨hk, nofun⟩
  | get k s => cases h with | get _ hk => exact ⟨hk s, nofun⟩
  | set s k => cases h
  | wrote bs rest k _ => cases h with | write _ _ hk => exact ⟨.write rest k hk, nofun⟩
  | writeErr buf k _ => cases h with | write _ _ hk => exact ⟨hk false, nofun⟩
  | writeEnd k => cases h with | write _ _ hk => exact ⟨hk true, nofun⟩
  | got acc n k bs _ _ => cases h with | read _ _ _ hk => exact ⟨.read _ _ k hk, nofun⟩
  | readErr acc n k _ => cases h with | read _ _ _ hk => exact ⟨hk none, nofun⟩
  | readEnd acc k => cases h with | read _ _ _ hk => exact ⟨hk (some acc), nofun⟩

end Still

theorem converse_still {β : Type} (req : Request) (old : β) {onReply : RpHdr → Io (Int32 × β)}
    (h : ∀ rp, Still (onReply rp)) : Still (converse req old onReply) := by
  have hwarn : ∀ rtvl, Still (warn rtvl old) := fun rtvl => .unlock _ (.ret _)
  cases e : req.emission with
  | none =>
    rw [converse, Option.map_eq_none_iff.1 e]
    exact .stop _
  | some msg =>
    rw [converse_emission e]
    refine .write _ _ fun ok => ?_
    split
    · refine .read _ _ _ fun r => ?_
      unfold replied
      split
      · exact hwarn _
      · split
        · exact hwarn _
        · exact h _
    · exact hwarn _

theorem headerOnly_still (rtvl : RpHdr → Int32) (rp : RpHdr) : Still (headerOnly rtvl rp) := by
  unfold headerOnly
  split
  · exact .stop _
  · exact .unlock _ (.ret _)

theorem Call.still (m : Locals) {c : Call} (h : c.skipsLock = true) : Still (c.prog m) := by
  have hload : ∀ {β : Type} {p : UInt32 → Io (Int32 × β)}, (∀ u, Still (p u)) →
      Still (Prod.fst <$> (Prog.load >>= p)) := fun hp => (Still.get _ hp).fst
  cases c with
  | fuseChmod fn mode => exact hload fun _ => converse_still _ _ (headerOnly_still _)
  | fuseAccess fn amode => exact hload fun _ => converse_still _ _ (headerOnly_still _)
  | fuseUnlink fn => exact hload fun _ => converse_still _ _ (headerOnly_still _)
  | fuseUtimens fn atime mtime => exact hload fun _ => converse_still _ _ (headerOnly_still _)
  | _ => cases h

theorem World.Effect.opuid_eq {i : Nat} {w w' : World} {e : Ev UInt32} (h : w.Effect i e w')
    (hs : ∀ u, e ≠ .set u) : w'.opuid = w.opuid := by
  cases h with
  | set u => exact absurd rfl (hs u)
  | _ => rfl

/-- An effect is what a trace of one event makes of `opuid`. -/
theorem World.Effect.opuidAfter {i : Nat} {w w' : World} {e : Ev UInt32} (h : w.Effect i e w') :
    Zhwkrfsp.opuidAfter w.opuid [e] = some w'.opuid := by
  cases h with
  | get => exact if_pos rfl
  | _ => rfl

/-- While a call has `opuid` for itself, what it will leave there is settled. -/
theorem Settles.effect {α : Type} {v : UInt32} {p q : Io α} {e : Ev UInt32} {i : Nat}
    {w w' : World} (h : Settles v w.opuid p) (st : Step p e q) (hf : w.Effect i e w') :
    Settles v w'.opuid q := by
  obtain ⟨u, hq, hu⟩ := h.step st hf.opuidAfter
  cases hu
  exact hq

theorem Settles.ret_eq {α : Type} {u v : UInt32} {a : α} (h : Settles v u (.ret a)) : u = v := by
  cases h
  rfl

theorem Told.act {o : Option Bytes} {a : Caller} {q : Io Int32} {e : Ev UInt32} {i : Nat}
    {w w' : World} (h : Told o w.opuid a.sent a.prog) (ho : ∀ msg, o = some msg → IsRequest msg)
    (hform : a.Form) (st : Step a.prog e q) (hf : w.Effect i e w') (he : e.isErr = false) :
    Told o w'.opuid (a.next e q).sent (a.next e q).prog := by
  obtain ⟨u, hq, hu⟩ := h.step ho hform (fun _ => sends_isRequest _) st hf.opuidAfter he
  cases hu
  exact hq

/-- The message of a call that finds `opuid` at `u`. -/
def Caller.message (a : Caller) (u : UInt32) : Option Bytes :=
  ((a.job.call.prog a.job.locals).emit u).1

theorem Caller.message_isRequest {a : Caller} {u : UInt32} {msg : Bytes}
    (h : a.message u = some msg) : IsRequest msg := Call.emit_isRequest h

/-- The `ouid` of the message. -/
theorem Caller.message_ouid {a : Caller} {u : UInt32} {msg : Bytes} (h : a.message u = some msg) :
    (OpHdr.codec.dec msg).ouid = u + UInt32.ofNat a.job.call.before := Call.emit_ouid h

/-! The numbers drawn. -/

/-- How often a call has advanced `opuid`, once it has returned. -/
def Caller.drawn (a : Caller) : Nat :=
  match a.prog with
  | .ret _ => a.job.call.advance
  | _ => 0

theorem Caller.drawn_ret {a : Caller} {v : Int32} (h : a.prog = .ret v) :
    a.drawn = a.job.call.advance := by
  rw [drawn, h]

theorem Caller.drawn_running {a : Caller} (h : ∀ v, a.prog ≠ .ret v) : a.drawn = 0 := by
  unfold drawn
  split
  · next v hv => exact absurd hv (h v)
  · rfl

theorem Caller.drawn_le (a : Caller) : a.drawn ≤ a.job.call.advance := by
  unfold drawn
  split
  · exact Nat.le_refl _
  · exact Nat.zero_le _

namespace Traffic

/-- What the calls that have returned have drawn. -/
def drawn (t : Traffic) : Nat := (t.calls.map Caller.drawn).sum

/-- What all calls have drawn and will draw. -/
def increments (t : Traffic) : Nat := (t.calls.map fun a => a.job.call.advance).sum

theorem drawn_le (t : Traffic) : t.drawn ≤ t.increments :=
  List.sum_le_sum fun a _ => a.drawn_le

/-- A call that has not returned has its increments before it. -/
theorem drawn_add_le {t : Traffic} {i : Nat} {a : Caller} (ha : t.calls[i]? = some a)
    (hz : a.drawn = 0) : t.drawn + a.job.call.advance ≤ t.increments := by
  obtain ⟨l, l', hl⟩ := List.append_of_mem (List.mem_of_getElem? ha)
  have h₁ : (l.map Caller.drawn).sum ≤ (l.map fun a => a.job.call.advance).sum :=
    List.sum_le_sum fun a _ => a.drawn_le
  have h₂ : (l'.map Caller.drawn).sum ≤ (l'.map fun a => a.job.call.advance).sum :=
    List.sum_le_sum fun a _ => a.drawn_le
  unfold drawn increments
  rw [hl]
  simp only [List.map_append, List.map_cons, List.sum_append, List.sum_cons]
  omega

end Traffic

/-- A sum over the calls, after one of them has changed. -/
theorem sum_set {f : Caller → Nat} {l : List Caller} {i : Nat} {a : Caller} (h : l[i]? = some a)
    (b : Caller) : ((l.set i b).map f).sum + f a = (l.map f).sum + f b := by
  induction l generalizing i with
  | nil => cases h
  | cons c l ih =>
    cases i with
    | zero =>
      cases h
      simp only [List.set_cons_zero, List.map_cons, List.sum_cons]
      omega
    | succ i =>
      have hl := ih (i := i) h
      simp only [List.set_cons_succ, List.map_cons, List.sum_cons]
      omega

/-- The call whose request is in the log. -/
theorem History.logged {t : Traffic} (h : History t) {x : Tagged × Reply} (hx : x ∈ t.world.log)
    {i : Nat} {s : Bytes} (hs : s ≠ []) (htag : x.1 = tag i s) :
    ∃ a, t.calls[i]? = some a ∧ a.sent = s ∧ a.job.call.Sends a.job.locals a.sent := by
  obtain ⟨k, a, ha, hreq, hsends⟩ := h.entry x hx
  obtain ⟨rfl, rfl⟩ := tag_inj (htag.symm.trans hreq) hs
  exact ⟨a, ha, rfl, hsends⟩

/-- Call number `i` takes the lock. -/
def Traffic.Takes (t : Traffic) (i : Nat) : Prop :=
  ∃ a, t.calls[i]? = some a ∧ a.job.call.skipsLock = false

/-- Call `i` finds `opuid` advanced `r i` times when it takes the lock. Outside of these
    calls `opuid` has been advanced by those that have returned. -/
structure Numbered (u : UInt32) (r : Nat → Nat) (t : Traffic) : Prop where
  counter : (∀ (i : Nat) (a : Caller), t.calls[i]? = some a → a.inside = true →
    a.job.call.skipsLock = true) → t.world.opuid = u + UInt32.ofNat t.drawn
  still : ∀ (i : Nat) (a : Caller), t.calls[i]? = some a → a.job.call.skipsLock = true →
    Still a.prog
  todo : ∀ (i : Nat) (a : Caller), t.calls[i]? = some a → a.job.call.skipsLock = false →
    a.inside = false → (∀ v, a.prog ≠ .ret v) →
    a.prog = a.job.call.prog a.job.locals ∧ a.sent = []
  turn : ∀ (i : Nat) (a : Caller), t.calls[i]? = some a → a.job.call.skipsLock = false →
    a.inside = true → r i = t.drawn ∧
      Settles (a.job.call.nextUid (u + UInt32.ofNat (r i))) t.world.opuid a.prog ∧
      Told (a.message (u + UInt32.ofNat (r i))) t.world.opuid a.sent a.prog
  done : ∀ (i : Nat) (a : Caller) (v : Int32), t.calls[i]? = some a →
    a.job.call.skipsLock = false → a.prog = .ret v → r i + a.job.call.advance ≤ t.drawn ∧
      (IsRequest a.sent → a.message (u + UInt32.ofNat (r i)) = some a.sent)
  order : t.world.log.Pairwise fun x y => ∀ (i k : Nat) (s s' : Bytes), s ≠ [] → s' ≠ [] →
    x.1 = tag i s → y.1 = tag k s' → t.Takes i → t.Takes k → r i < r k

namespace Numbered
variable {u : UInt32} {r : Nat → Nat} {t : Traffic}

theorem init (u : UInt32) (r : Nat → Nat) : Numbered u r (Traffic.init u) where
  counter _ := (UInt32.add_zero u).symm
  still _ _ h := nomatch h
  todo _ _ h := nomatch h
  turn _ _ h := nomatch h
  done _ _ _ h := nomatch h
  order := .nil

theorem spawn (h : Numbered u r t) (hist : History t) (j : Job) :
    Numbered u r { t with calls := t.calls ++ [Caller.start j] } := by
  have hold : ∀ {i : Nat} {a : Caller}, t.calls[i]? = some a → (t.calls ++ [Caller.start j])[i]? = some a := by
    intro i a ha
    obtain ⟨hi, -⟩ := List.getElem?_eq_some_iff.1 ha
    rw [List.getElem?_append_left hi]
    exact ha
  have hdrawn : Traffic.drawn { t with calls := t.calls ++ [Caller.start j] } = t.drawn := by
    unfold Traffic.drawn
    rw [List.map_append, List.sum_append, List.map_singleton, List.sum_singleton,
      Caller.drawn_running (Order.start_not_ret j), Nat.add_zero]
  refine ⟨fun hall => ?_, fun i a ha hs => ?_, fun i a ha hs hi hv => ?_, fun i a ha hs hi => ?_,
    fun i a v ha hs hv => ?_, ?_⟩
  · rw [hdrawn]
    exact h.counter fun i a ha => hall i a (hold ha)
  · rcases Order.lookup_append ha with ha | ⟨-, rfl⟩
    · exact h.still i a ha hs
    · exact Call.still j.locals hs
  · rcases Order.lookup_append ha with ha | ⟨-, rfl⟩
    · exact h.todo i a ha hs hi hv
    · exact ⟨rfl, rfl⟩
  · rw [hdrawn]
    rcases Order.lookup_append ha with ha | ⟨-, rfl⟩
    · exact h.turn i a ha hs hi
    · cases hi
  · rw [hdrawn]
    rcases Order.lookup_append ha with ha | ⟨-, rfl⟩
    · exact h.done i a v ha hs hv
    · exact absurd hv (Order.start_not_ret j v)
  · -- the new call has no request in the log
    have htakes : ∀ {x i s}, x ∈ t.world.log → s ≠ [] → x.1 = tag i s →
        Traffic.Takes { t with calls := t.calls ++ [Caller.start j] } i → t.Takes i := by
      rintro x i s hx hs htag ⟨a, ha, hskip⟩
      obtain ⟨b, hb, -, -⟩ := hist.logged hx hs htag
      have hab : a = b := Option.some.inj (ha.symm.trans (hold hb))
      exact ⟨b, hb, hab ▸ hskip⟩
    apply h.order.imp_of_mem
    intro x y hx hy hxy i k s s' hs hs' hi hk hti htk
    exact hxy i k s s' hs hs' hi hk (htakes hx hs hi hti) (htakes hy hs' hk htk)

/-! One step of a call. -/

theorem takes_set {a b : Caller} {w : World} {i : Nat} (ha : t.calls[i]? = some a)
    (hj : b.job = a.job) (k : Nat) :
    Traffic.Takes { world := w, calls := t.calls.set i b } k ↔ t.Takes k := by
  unfold Traffic.Takes
  rw [lookup_set ha]
  by_cases hk : k = i
  · rw [if_pos hk, hk, ha]
    simp [hj]
  · rw [if_neg hk]

theorem drawn_set {a b : Caller} {w : World} {i : Nat} (ha : t.calls[i]? = some a) :
    Traffic.drawn { world := w, calls := t.calls.set i b } + a.drawn = t.drawn + b.drawn :=
  sum_set ha b

/-- A call that skips the lock changes nothing of this. -/
theorem skip (h : Numbered u r t) {i : Nat} {a : Caller} {e : Ev UInt32} {q : Io Int32} {w : World}
    (ha : t.calls[i]? = some a) (hskip : a.job.call.skipsLock = true) (st : Step a.prog e q)
    (hf : t.world.Effect i e w) :
    Numbered u r { world := w, calls := t.calls.set i (a.next e q) } := by
  obtain ⟨hq, hset⟩ := (h.still i a ha hskip).step st
  have hopuid := hf.opuid_eq hset
  have hzero : a.job.call.advance = 0 := (Call.advance_eq_zero _).2 hskip
  have hdrawn : Traffic.drawn { world := w, calls := t.calls.set i (a.next e q) } = t.drawn := by
    have hset := drawn_set (w := w) (b := a.next e q) ha
    have h₁ : a.drawn ≤ 0 := hzero ▸ a.drawn_le
    have h₂ : (a.next e q).drawn ≤ 0 := hzero ▸ (a.next e q).drawn_le
    omega
  have hno : ∀ {c : Prop}, (a.next e q).job.call.skipsLock = false → c := fun hc =>
    absurd (hskip.symm.trans hc) (by decide)
  refine ⟨fun hall => ?_, forall_set ha (fun _ => hq) fun k c _ hc => h.still k c hc,
    forall_set ha hno fun k c _ hc => h.todo k c hc, forall_set ha hno fun k c _ hc => ?_,
    fun k c v hc => ?_, ?_⟩
  · show w.opuid = _
    rw [hopuid, hdrawn]
    apply h.counter
    intro k c hc hci
    by_cases hk : k = i
    · rw [hk, ha] at hc
      cases hc
      exact hskip
    · exact hall k c (by rw [lookup_set ha, if_neg hk]; exact hc) hci
  · rw [hdrawn]
    show _ → _ → _ ∧ Settles _ w.opuid _ ∧ Told _ w.opuid _ _
    rw [hopuid]
    exact h.turn k c hc
  · rw [hdrawn]
    exact forall_set (P := fun k c => c.job.call.skipsLock = false → c.prog = .ret v →
      r k + c.job.call.advance ≤ t.drawn ∧
        (IsRequest c.sent → c.message (u + UInt32.ofNat (r k)) = some c.sent)) ha
      hno (fun k c _ hc => h.done k c v hc) k c hc
  · simp only [takes_set (b := a.next e q) ha rfl]
    show w.log.Pairwise _
    rw [hf.log_eq]
    exact h.order

/-- A step of a call that takes the lock, no other call being inside. -/
theorem own {r' : Nat → Nat} (h : Numbered u r t) {i : Nat} {a b : Caller} {w : World}
    (ha : t.calls[i]? = some a) (hskip : a.job.call.skipsLock = false) (hj : b.job = a.job)
    (halone : ∀ (k : Nat) (c : Caller), k ≠ i → t.calls[k]? = some c → c.inside = false)
    (hlog : w.log = t.world.log) (hr : ∀ k, k ≠ i → r' k = r k)
    (hfresh : r' i = r i ∨ ∀ x ∈ t.world.log, ∀ s, s ≠ [] → x.1 ≠ tag i s)
    (hdrawn : t.drawn ≤ Traffic.drawn { world := w, calls := t.calls.set i b })
    (hcounter : b.inside = false →
      w.opuid = u + UInt32.ofNat (Traffic.drawn { world := w, calls := t.calls.set i b }))
    (hout : b.inside = false → ∃ v, b.prog = .ret v)
    (hturn : b.inside = true → r' i = Traffic.drawn { world := w, calls := t.calls.set i b } ∧
      Settles (b.job.call.nextUid (u + UInt32.ofNat (r' i))) w.opuid b.prog ∧
      Told (b.message (u + UInt32.ofNat (r' i))) w.opuid b.sent b.prog)
    (hdone : ∀ v, b.prog = .ret v → r' i + b.job.call.advance ≤
        Traffic.drawn { world := w, calls := t.calls.set i b } ∧
      (IsRequest b.sent → b.message (u + UInt32.ofNat (r' i)) = some b.sent)) :
    Numbered u r' { world := w, calls := t.calls.set i b } := by
  have hnext : (t.calls.set i b)[i]? = some b := by rw [lookup_set ha, if_pos rfl]
  refine ⟨fun hall => ?_, forall_set ha (fun hs => ?_) fun k c _ hc => h.still k c hc,
    forall_set ha (fun _ hi hv => ?_) fun k c _ hc => h.todo k c hc,
    forall_set ha (fun _ => hturn) fun k c hk hc _ hi => ?_, fun k c v hc => ?_, ?_⟩
  · apply hcounter
    by_contra hb
    have hs := hall i b hnext (by simpa using hb)
    rw [hj, hskip] at hs
    cases hs
  · rw [hj, hskip] at hs
    cases hs
  · obtain ⟨v, hret⟩ := hout hi
    exact absurd hret (hv v)
  · rw [halone k c hk hc] at hi
    cases hi
  · exact forall_set (P := fun k c => c.job.call.skipsLock = false → c.prog = .ret v →
      r' k + c.job.call.advance ≤ Traffic.drawn { world := w, calls := t.calls.set i b } ∧
        (IsRequest c.sent → c.message (u + UInt32.ofNat (r' k)) = some c.sent)) ha
      (fun _ => hdone v) (fun k c hk hc hs hv => by
        obtain ⟨hle, hmsg⟩ := h.done k c v hc hs hv
        rw [hr k hk]
        exact ⟨Nat.le_trans hle hdrawn, hmsg⟩) k c hc
  · simp only [takes_set (b := b) ha hj]
    show w.log.Pairwise _
    rw [hlog]
    apply h.order.imp_of_mem
    intro x y hx hy hxy k l s s' hs hs' hxk hyl hk hl
    have hsame : ∀ {z : Tagged × Reply} {n : Nat} {s : Bytes}, z ∈ t.world.log → s ≠ [] →
        z.1 = tag n s → r' n = r n := by
      intro z n s hz hs hzn
      by_cases hn : n = i
      · subst hn
        exact hfresh.resolve_right fun hno => hno z hz s hs hzn
      · exact hr n hn
    rw [hsame hx hs hxk, hsame hy hs' hyl]
    exact hxy k l s s' hs hs' hxk hyl hk hl

/-- One step of any call in an orderly run. -/
theorem act (h : Numbered u r t) (hist : History t) {o : Option Nat} (ho : Order t o) {i : Nat}
    {a : Caller} {e : Ev UInt32} {q : Io Int32} {w : World} (hor : t.Orderly (.act i e))
    (ha : t.calls[i]? = some a) (st : Step a.prog e q) (hf : t.world.Effect i e w)
    (he : e.isErr = false) :
    ∃ r', Numbered u r' { world := w, calls := t.calls.set i (a.next e q) } := by
  cases hskip : a.job.call.skipsLock with
  | true => exact ⟨r, h.skip ha hskip st hf⟩
  | false =>
  have hform := ho.form i a ha
  obtain ⟨hm, hphase⟩ := (ho.phase i a ha).move hform st he
  have hrunning : ∀ v, a.prog ≠ .ret v := by
    intro v hv
    rw [hv] at st
    cases st
  have hset := drawn_set (w := w) (b := a.next e q) ha
  rw [Caller.drawn_running hrunning, Nat.add_zero] at hset
  -- the call is inside, so no other call is
  have halone : a.inside = true →
      ∀ (k : Nat) (c : Caller), k ≠ i → t.calls[k]? = some c → c.inside = false := by
    intro hin k c hk hc
    by_contra hcin
    have hki := ((ho.holder k c hc).1 (by simpa using hcin)).symm.trans ((ho.holder i a ha).1 hin)
    exact hk (Option.some.inj hki)
  cases hm with
  | enter hout hn hent hb hl =>
    have hnone := ho.entry hor ha hout hent hf hl
    subst hnone
    have hempty : ∀ (k : Nat) (c : Caller), t.calls[k]? = some c → c.inside = false := by
      intro k c hc
      have hc' := ho.holder k c hc
      simpa using hc'
    obtain ⟨hprog, hsent⟩ := h.todo i a ha hskip hout hrunning
    have hu : t.world.opuid = u + UInt32.ofNat t.drawn := by
      apply h.counter
      intro k c hc hin
      rw [hempty k c hc] at hin
      cases hin
    have hnext : ∀ v, (a.next e q).prog ≠ .ret v := by
      intro v hv
      rw [hphase.ret_outside hv] at hb
      cases hb
    rw [Caller.drawn_running hnext, Nat.add_zero] at hset
    refine ⟨Function.update r i t.drawn, h.own ha hskip rfl (fun k c _ => hempty k c) hf.log_eq
      (fun k hk => Function.update_of_ne hk _ _) (.inr fun x hx s hs htag => ?_) (Nat.le_of_eq hset.symm)
      (fun hc => ?_) (fun hc => ?_) (fun _ => ?_) fun v hv => absurd hv (hnext v)⟩
    · obtain ⟨c, hc, hcs, -⟩ := hist.logged hx hs htag
      rw [ha] at hc
      cases hc
      exact hs (hcs.symm.trans hsent)
    · rw [hb] at hc
      cases hc
    · rw [hb] at hc
      cases hc
    · rw [Function.update_self, ← hu]
      refine ⟨hset.symm, ?_, ?_⟩
      · have hset := a.job.call.settles a.job.locals t.world.opuid
        rw [← hprog] at hset
        exact hset.effect st hf
      · apply Told.act _ (fun _ => Caller.message_isRequest) hform st hf he
        exact .before hsent (by rw [hprog]; rfl)
  | quiet hout hb hn hn' hs hr hl =>
    -- before the lock there is nothing but the lock
    obtain ⟨hprog, -⟩ := h.todo i a ha hskip hout hrunning
    obtain ⟨q', hlock, -⟩ := Call.locks a.job.locals hskip
    rw [hprog, hlock] at st
    cases st
    exact absurd rfl hl.1
  | within hin hb hl hr =>
    obtain ⟨hri, hsettles, htold⟩ := h.turn i a ha hskip hin
    rw [Caller.drawn_running hr, Nat.add_zero] at hset
    refine ⟨r, h.own ha hskip rfl (halone hin) hf.log_eq (fun _ _ => rfl) (.inl rfl)
      (Nat.le_of_eq hset.symm) (fun hc => ?_) (fun hc => ?_) (fun _ => ⟨hri.trans hset.symm, ?_, ?_⟩)
      fun v hv => absurd hv (hr v)⟩
    · rw [hb] at hc
      cases hc
    · rw [hb] at hc
      cases hc
    · exact hsettles.effect st hf
    · exact htold.act (fun _ => Caller.message_isRequest) hform st hf he
  | leave hin hb hev v hv =>
    obtain ⟨hri, hsettles, htold⟩ := h.turn i a ha hskip hin
    rw [Caller.drawn_ret hv] at hset
    have hq : q = .ret v := hv
    have hu : w.opuid = a.job.call.nextUid (u + UInt32.ofNat (r i)) := by
      have hret := hsettles.effect st hf
      rw [hq] at hret
      exact hret.ret_eq
    refine ⟨r, h.own ha hskip rfl (halone hin) hf.log_eq (fun _ _ => rfl) (.inl rfl)
      (by omega) (fun _ => ?_) (fun _ => ⟨v, hv⟩) (fun hc => ?_) fun v' _ => ⟨?_, fun hreq => ?_⟩⟩
    · rw [hu, Call.nextUid_eq, hset, UInt32.ofNat_add, hri, UInt32.add_assoc]
      rfl
    · rw [hb] at hc
      cases hc
    · rw [hset, hri]
    · exact (htold.act (fun _ => Caller.message_isRequest) hform st hf he).whole
        (fun _ => Caller.message_isRequest) hreq

/-- The peer takes the request of the call that is inside, which is ahead of all others. -/
theorem answer (h : Numbered u r t) (hist : History t) {o : Option Nat} (ho : Order t o)
    {rp : Reply} {w : World} (ha : t.world.Answer rp w) (hist' : History { t with world := w }) :
    Numbered u r { t with world := w } := by
  cases ha with
  | mk req rest _ hreq hpend hr =>
    obtain ⟨i, a, hoi, hcall, -, hall, hs⟩ := hist.takes_whole ho hreq hpend
    refine ⟨h.counter, h.still, h.todo, h.turn, h.done, ?_⟩
    apply List.pairwise_append.2
    refine ⟨h.order, List.pairwise_singleton _ _, fun x hx y hy k l s s' hs' hs'' hxk hyl hk hl => ?_⟩
    rw [List.mem_singleton.1 hy] at hyl
    obtain ⟨rfl, rfl⟩ := tag_inj (hyl.symm.trans hall) hs''
    obtain ⟨c, hc, rfl, hcs⟩ := hist.logged hx hs' hxk
    obtain ⟨a', ha', hskip⟩ := hl
    have haa : a' = a := Option.some.inj (ha'.symm.trans hcall)
    subst haa
    have hri := (h.turn l a' hcall hskip ((ho.holder l a' hcall).2 hoi)).1
    have hkl : k ≠ l := by
      rintro rfl
      -- the request would be taken twice
      rw [hc] at hcall
      cases hcall
      have honce := hist'.once
      rw [show _ = _ from List.map_append, List.nodup_append] at honce
      exact honce.2.2 _ (List.mem_map_of_mem hx) req (by simp) (hxk.trans hall.symm)
    have hkin : c.inside = false := by
      by_contra hin
      have hki := (ho.holder k c hc).1 (by simpa using hin)
      rw [hoi] at hki
      exact hkl (Option.some.inj hki).symm
    obtain ⟨c', hc', hkskip⟩ := hk
    have hcc : c' = c := Option.some.inj (hc'.symm.trans hc)
    subst hcc
    have hret : ∃ v, c'.prog = .ret v := by
      by_contra hno
      have hnil := (h.todo k c' hc hkskip hkin fun v hv => hno ⟨v, hv⟩).2
      exact (sends_isRequest _ hcs).ne_nil hnil
    obtain ⟨v, hv⟩ := hret
    have hle := (h.done k c' v hc hkskip hv).1
    have hpos : c'.job.call.advance ≠ 0 := by
      intro h0
      rw [(Call.advance_eq_zero _).1 h0] at hkskip
      cases hkskip
    omega

end Numbered

/-- Every state of an orderly run. -/
theorem Traffic.Reach.numbered {u : UInt32} {t : Traffic}
    (h : Traffic.Reach Traffic.Orderly u t) : ∃ r, Numbered u r t := by
  induction h with
  | init => exact ⟨fun _ => 0, Numbered.init u _⟩
  | step h hc st ih =>
    obtain ⟨o, ho⟩ := h.order
    obtain ⟨r, hr⟩ := ih
    have hist := h.history
    have hist' := (h.step hc st).history
    cases st with
    | spawn j => exact ⟨r, hr.spawn hist j⟩
    | act i a e q w ha st hf he => exact hr.act hist ho hc ha st hf he
    | answer rp w ha => exact ⟨r, hr.answer hist ho ha hist'⟩

/-- A request of a call that takes the lock, in the peer's sequence of operations. -/
structure Traffic.LockedAt (t : Traffic) (p i : Nat) (a : Caller) : Prop where
  call : t.calls[i]? = some a
  locks : a.job.call.skipsLock = false
  request : (t.world.log[p]?).map Prod.fst = some (tag i a.sent)

/-- The number of a request, from the byte it begins with. -/
def Traffic.number (r : Nat → Nat) (t : Traffic) (p : Nat) : Nat :=
  ((t.world.log[p]?.bind fun x => x.1.head?).map fun b => r b.1 + 1).getD 0

namespace Numbered
variable {u : UInt32} {r : Nat → Nat} {t : Traffic}

/-- A request that the peer has answered is the one its call was to send. -/
theorem locked (h : Numbered u r t) (hist : History t) {p i : Nat} {a : Caller}
    (hp : t.LockedAt p i a) : a.message (u + UInt32.ofNat (r i)) = some a.sent ∧
      r i + 1 ≤ t.increments ∧ t.number r p = r i + 1 := by
  obtain ⟨x, hx, htag⟩ := Option.map_eq_some_iff.1 hp.request
  have hmem := List.mem_of_getElem? hx
  obtain ⟨k, c, hc, hck, hcs⟩ := hist.entry x hmem
  obtain ⟨rfl, hsent⟩ := tag_inj (hck.symm.trans htag) (sends_isRequest _ hcs).ne_nil
  have ha := hp.call
  rw [hc] at ha
  cases ha
  have hreq := sends_isRequest _ hcs
  have hadv : a.job.call.advance ≠ 0 := by
    intro h0
    have hskip := hp.locks
    rw [(Call.advance_eq_zero _).1 h0] at hskip
    cases hskip
  have hnumber : t.number r p = r k + 1 := by
    obtain ⟨b, s, hs⟩ := List.exists_cons_of_ne_nil hreq.ne_nil
    rw [Traffic.number, hx, Option.bind_some, htag, hs]
    rfl
  cases hin : a.inside with
  | true =>
    obtain ⟨hri, -, htold⟩ := h.turn k a hc hp.locks hin
    refine ⟨htold.whole (fun _ => Caller.message_isRequest) hreq, ?_, hnumber⟩
    by_cases hret : ∃ v, a.prog = .ret v
    · obtain ⟨v, hv⟩ := hret
      have hle := (h.done k a v hc hp.locks hv).1
      have hall := t.drawn_le
      omega
    · have hle := Traffic.drawn_add_le hc (Caller.drawn_running fun v hv => hret ⟨v, hv⟩)
      omega
  | false =>
    have hret : ∃ v, a.prog = .ret v := by
      by_contra hno
      exact hreq.ne_nil (h.todo k a hc hp.locks hin fun v hv => hno ⟨v, hv⟩).2
    obtain ⟨v, hv⟩ := hret
    obtain ⟨hle, hmsg⟩ := h.done k a v hc hp.locks hv
    have hall := t.drawn_le
    exact ⟨hmsg hreq, by omega, hnumber⟩

/-- Along the peer's operations the numbers increase. -/
theorem number_lt (h : Numbered u r t) {p q i k : Nat} {a b : Caller} (hpq : p < q)
    (hp : t.LockedAt p i a) (hq : t.LockedAt q k b) (ha : a.sent ≠ []) (hb : b.sent ≠ []) :
    r i < r k := by
  obtain ⟨x, hx, hxi⟩ := Option.map_eq_some_iff.1 hp.request
  obtain ⟨y, hy, hyk⟩ := Option.map_eq_some_iff.1 hq.request
  obtain ⟨hplt, rfl⟩ := List.getElem?_eq_some_iff.1 hx
  obtain ⟨hqlt, rfl⟩ := List.getElem?_eq_some_iff.1 hy
  have hord := List.pairwise_iff_getElem.1 h.order p q hplt hqlt hpq
  exact hord i k a.sent b.sent ha hb hxi hyk ⟨a, hp.call, hp.locks⟩ ⟨b, hq.call, hq.locks⟩

end Numbered

/-- A call that took the lock, was not refused and has returned: where its request is in the
    peer's sequence of operations, and what it has received. -/
theorem Order.lockedAt {t : Traffic} {o : Option Nat} (ho : Order t o) {i : Nat} {a : Caller}
    {v : Int32} (ha : t.calls[i]? = some a) (hs : a.job.call.skipsLock = false)
    (hacc : a.job.call.rejected = false) (hv : a.prog = .ret v) :
    ∃ p, t.LockedAt p i a ∧ (replyHdr a.got).ouid = (OpHdr.codec.dec a.sent).ouid := by
  rcases ho.served i a ha v hv with hrej | ⟨r, hmem, hr, hgot⟩
  · exact absurd (hrej.symm.trans hacc) (by decide)
  · obtain ⟨p, hp⟩ := List.getElem?_of_mem hmem
    refine ⟨p, ⟨ha, hs, by rw [hp]; rfl⟩, ?_⟩
    rw [hgot, ← hr.ouid]
    exact congrArg RpHdr.ouid (replyHdr_enc r.head r.body)

/-- **Numbers increase.** In every state of an orderly run the requests of the calls that
    take the lock carry, in the order in which the peer has served them, the numbers
    `u + n` for ever larger `n`, up to the number of increments of the calls there are. If
    these are fewer than 2^32, any two such calls that have returned from a conversation
    with the peer have sent and received different `ouid`s. -/
theorem ouids_increase {u : UInt32} {t : Traffic} (h : Traffic.Reach Traffic.Orderly u t) :
    (∃ n : Nat → Nat,
      (∀ (p i : Nat) (a : Caller), t.LockedAt p i a →
        (OpHdr.codec.dec a.sent).ouid = u + UInt32.ofNat (n p) ∧ 0 < n p ∧ n p ≤ t.increments) ∧
      ∀ (p q i k : Nat) (a b : Caller), p < q → t.LockedAt p i a → t.LockedAt q k b →
        n p < n q) ∧
    (t.increments < 2 ^ 32 → ∀ (i k : Nat) (a b : Caller) (v v' : Int32), i ≠ k →
      t.calls[i]? = some a → t.calls[k]? = some b →
      a.job.call.skipsLock = false → b.job.call.skipsLock = false →
      a.job.call.rejected = false → b.job.call.rejected = false →
      a.prog = .ret v → b.prog = .ret v' →
      (OpHdr.codec.dec a.sent).ouid ≠ (OpHdr.codec.dec b.sent).ouid ∧
        (replyHdr a.got).ouid ≠ (replyHdr b.got).ouid) := by
  obtain ⟨r, hr⟩ := h.numbered
  obtain ⟨o, ho⟩ := h.order
  have hist := h.history
  have hnum : ∀ (p i : Nat) (a : Caller), t.LockedAt p i a →
      (OpHdr.codec.dec a.sent).ouid = u + UInt32.ofNat (t.number r p) ∧ 0 < t.number r p ∧
        t.number r p ≤ t.increments := by
    intro p i a hp
    obtain ⟨hmsg, hle, hn⟩ := hr.locked hist hp
    rw [hn]
    refine ⟨?_, Nat.succ_pos _, hle⟩
    rw [Caller.message_ouid hmsg, Call.before, hp.locks, UInt32.ofNat_add, UInt32.add_assoc]
    rfl
  have hlt : ∀ (p q i k : Nat) (a b : Caller), p < q → t.LockedAt p i a → t.LockedAt q k b →
      t.number r p < t.number r q := by
    intro p q i k a b hpq hp hq
    obtain ⟨hmsg, -, hn⟩ := hr.locked hist hp
    obtain ⟨hmsg', -, hn'⟩ := hr.locked hist hq
    have hik := hr.number_lt hpq hp hq (Caller.message_isRequest hmsg).ne_nil
      (Caller.message_isRequest hmsg').ne_nil
    omega
  refine ⟨⟨t.number r, hnum, hlt⟩, fun hfew i k a b v v' hik ha hb hsa hsb hra hrb hva hvb => ?_⟩
  obtain ⟨p, hp, hap⟩ := ho.lockedAt ha hsa hra hva
  obtain ⟨q, hq, hbq⟩ := ho.lockedAt hb hsb hrb hvb
  have hne : (OpHdr.codec.dec a.sent).ouid ≠ (OpHdr.codec.dec b.sent).ouid := by
    intro heq
    obtain ⟨hpu, -, hple⟩ := hnum p i a hp
    obtain ⟨hqu, -, hqle⟩ := hnum q k b hq
    rw [hpu, hqu] at heq
    -- numbers below 2^32 are told apart by their low 32 bits
    have hsame : t.number r p = t.number r q := by
      have hof : UInt32.ofNat (t.number r p) = UInt32.ofNat (t.number r q) := by
        simpa using heq
      have hnat := congrArg UInt32.toNat hof
      rw [UInt32.toNat_ofNat', UInt32.toNat_ofNat', Nat.mod_eq_of_lt (by omega),
        Nat.mod_eq_of_lt (by omega)] at hnat
      exact hnat
    rcases Nat.lt_trichotomy p q with hpq | hpq | hpq
    · exact Nat.ne_of_lt (hlt p q i k a b hpq hp hq) hsame
    · subst hpq
      have htag := hp.request.symm.trans hq.request
      have hnil := (Caller.message_isRequest (hr.locked hist hp).1).ne_nil
      exact hik (tag_inj (Option.some.inj htag) hnil).1
    · exact Nat.ne_of_lt (hlt q p k i b a hpq hq hp) hsame.symm
  rw [hap, hbq]
  exact ⟨hne, hne⟩

/-! Two calls of `fuse_rmdir` at once. -/

/-- While calls are brought to their end, they stay the same calls. -/
theorem Traffic.Drains.jobs {f : Bytes → Reply} {t t' : Traffic} (hd : Traffic.Drains f t t') :
    t'.calls.map Caller.job = t.calls.map Caller.job := by
  induction hd with
  | refl => rfl
  | tail _ hn ih =>
    obtain ⟨l, hc, st⟩ := hn
    cases st with
    | spawn j => exact hc.elim
    | act i a e q w ha _ _ _ =>
      rw [← ih]
      show (List.set _ i _).map Caller.job = _
      apply List.ext_getElem?
      intro k
      rw [List.getElem?_map, List.getElem?_map, lookup_set ha]
      split
      · next hk =>
        rw [hk, ha]
        rfl
      · rfl
    | answer r w _ => exact ih

def rmdirJob : Job := Job.fresh (.fuseRmdir pathA)

def twoRmdirs : Traffic := ⟨World.init 0, [Caller.start rmdirJob, Caller.start rmdirJob]⟩

theorem twoRmdirs_reach : Traffic.Reach Traffic.Agreeable 0 twoRmdirs := by
  have hsend : rmdirJob.call.Sendable ∧ ∀ n, rmdirJob.call.room = some n → n < 2 ^ 63 := by
    refine ⟨rfl, fun n hn => ?_⟩
    cases hn
  have h₀ : Traffic.Reach Traffic.Agreeable 0 (Traffic.init 0) := .init
  have h₁ := h₀.step (l := .spawn rmdirJob) hsend (.spawn _ _)
  exact h₁.step (l := .spawn rmdirJob) hsend (.spawn _ _)

theorem ouids_increase_rmdir : ∃ t, Traffic.Reach Traffic.Orderly 0 t ∧ ∃ a b, t.calls = [a, b] ∧
    (OpHdr.codec.dec a.sent).ouid ≠ (OpHdr.codec.dec b.sent).ouid ∧
      (replyHdr a.got).ouid ≠ (replyHdr b.got).ouid := by
  obtain ⟨t, hd, hlen, hend⟩ := Traffic.finish_first refuse_welcome.replies
    twoRmdirs_reach.orderly _ (Nat.le_refl _)
  have hreach := twoRmdirs_reach.drains_agreeable refuse_welcome hd
  have hgo := hend.resolve_left (hreach.of_agreeable.no_halt hreach.taken)
  have hret := Traffic.Finished.all (hlen ▸ hgo.2)
  have hjobs : t.calls.map Caller.job = [rmdirJob, rmdirJob] := Traffic.Drains.jobs hd
  match hcalls : t.calls with
  | [a, b] =>
    rw [hcalls] at hjobs hret
    obtain ⟨ha, hb⟩ : a.job = rmdirJob ∧ b.job = rmdirJob := by simpa using hjobs
    obtain ⟨v, hv⟩ := hret a (by simp)
    obtain ⟨v', hv'⟩ := hret b (by simp)
    have hfew : t.increments < 2 ^ 32 := by
      simp [Traffic.increments, hcalls, ha, hb]
      decide
    refine ⟨t, hreach.orderly, a, b, hcalls, ?_⟩
    apply (ouids_increase hreach.orderly).2 hfew 0 1 a b v v' (by decide)
    · rw [hcalls]; rfl
    · rw [hcalls]; rfl
    · rw [ha]; rfl
    · rw [hb]; rfl
    · rw [ha]; rfl
    · rw [hb]; rfl
    · exact hv
    · exact hv'
  | [] | [_] | _ :: _ :: _ :: _ =>
    have htwo := congrArg List.length hjobs
    rw [hcalls] at htwo
    simp at htwo

end Zhwkrfsp
