import Zhwkrfsp.Connection
import Zhwkrfsp.Serial
import Mathlib.Algebra.GroupWithZero.Nat

/- Operation ids. `opuid` is a counter that each handler advances by hand: fifteen
   once before they build the header, `fuse_truncate` once more after it, and
   `fuse_chmod`, `fuse_access`, `fuse_unlink` and `fuse_utimens` not at all.
   `Call.settles` says what a call leaves it at whatever happens on the way, `Told`
   what it is going to send meanwhile, and `ouid_unique` when the requests of a run
   carry different ids: when between the header of one and that of another the
   counter has moved, and not a whole number of times around. A request is one of
   which the socket has taken at least a byte. -/
namespace Zhwkrfsp
open Wire Chan

/-! What a call does to `opuid`. -/

/-- Every run that starts with `opuid` at the index and returns leaves it at `w`. -/
inductive Settles {α : Type} (w : UInt32) : UInt32 → Io α → Prop
  | ret (a) : Settles w w (.ret a)
  | stop (u h) : Settles w u (.stop h)
  | lock (u k) (hk : Settles w u k) : Settles w u (.lock k)
  | unlock (u k) (hk : Settles w u k) : Settles w u (.unlock k)
  | get (u k) (hk : Settles w u (k u)) : Settles w u (.get k)
  | set (u s k) (hk : Settles w s k) : Settles w u (.set s k)
  | write (u buf k) (hk : ∀ b, Settles w u (k b)) : Settles w u (.write buf k)
  | read (u acc n k) (hk : ∀ r, Settles w u (k r)) : Settles w u (.read acc n k)

namespace Settles

theorem fst {β : Type} {w u : UInt32} {p : Io (Int32 × β)} (h : Settles w u p) :
    Settles w u (Prod.fst <$> p) := by
  induction h with
  | ret a => exact .ret a.1
  | stop u h => exact .stop u h
  | lock u k _ ih => exact .lock u _ ih
  | unlock u k _ ih => exact .unlock u _ ih
  | get u k _ ih => exact .get u _ ih
  | set u s k _ ih => exact .set u s _ ih
  | write u buf k _ ih => exact .write u buf _ ih
  | read u acc n k _ ih => exact .read u acc n _ ih

/-- One effect keeps what is settled. -/
theorem step {α : Type} {w u v : UInt32} {p q : Io α} {e : Ev UInt32} {tr : List (Ev UInt32)}
    (h : Settles w u p) (st : Step p e q) (hu : opuidAfter u (e :: tr) = some v) :
    ∃ u', Settles w u' q ∧ opuidAfter u' tr = some v := by
  cases st with
  | lock k => cases h with | lock _ _ hk => exact ⟨u, hk, hu⟩
  | unlock k => cases h with | unlock _ _ hk => exact ⟨u, hk, hu⟩
  | get k s =>
    cases h with
    | get _ _ hk =>
      rw [opuidAfter] at hu
      by_cases hs : s = u
      · subst hs
        rw [if_pos rfl] at hu
        exact ⟨s, hk, hu⟩
      · rw [if_neg hs] at hu
        cases hu
  | set s k => cases h with | set _ _ _ hk => exact ⟨s, hk, hu⟩
  | wrote bs rest k _ => cases h with | write _ _ _ hk => exact ⟨u, .write u rest k hk, hu⟩
  | writeErr buf k _ => cases h with | write _ _ _ hk => exact ⟨u, hk false, hu⟩
  | writeEnd k => cases h with | write _ _ _ hk => exact ⟨u, hk true, hu⟩
  | got acc n k bs _ _ => cases h with | read _ _ _ _ hk => exact ⟨u, .read u _ _ k hk, hu⟩
  | readErr acc n k _ => cases h with | read _ _ _ _ hk => exact ⟨u, hk none, hu⟩
  | readEnd acc k => cases h with | read _ _ _ _ hk => exact ⟨u, hk (some acc), hu⟩

theorem run {α : Type} {w u v : UInt32} {p : Io α} {a : α} {tr : List (Ev UInt32)}
    (h : Settles w u p) (t : Run p tr (.ret a)) (hu : opuidAfter u tr = some v) : v = w := by
  generalize hq : Prog.ret a = q at t
  induction t generalizing u with
  | refl p =>
    subst hq
    cases h
    cases hu
    rfl
  | step hs _ ih =>
    obtain ⟨u', h', hu'⟩ := h.step hs hu
    exact ih h' hu' hq

end Settles

section
variable {β : Type} {w u : UInt32}

theorem warn_settles (rtvl : Int32) (old : β) : Settles w w (warn rtvl old) :=
  .unlock _ _ (.ret _)

theorem converse_settles (req : Request) (old : β) {onReply : RpHdr → Io (Int32 × β)}
    (h : ∀ rp, Settles w w (onReply rp)) : Settles w w (converse req old onReply) := by
  cases e : req.emission with
  | none =>
    rw [converse, Option.map_eq_none_iff.1 e]
    exact .stop _ _
  | some msg =>
    rw [converse_emission e]
    refine .write _ _ _ fun ok => ?_
    split
    · refine .read _ _ _ _ fun r => ?_
      unfold replied
      split
      · exact warn_settles _ old
      · split
        · exact warn_settles _ old
        · exact h _
    · exact warn_settles _ old

theorem reRead_settles (remain : UInt64) {f : Option Bytes → Io (Int32 × β)}
    (h : ∀ r, Settles w w (f r)) : Settles w w (reRead remain >>= f) := by
  unfold reRead sockread
  split
  · exact .stop _ _
  · exact .read _ _ _ _ h

theorem headerOnly_settles (rtvl : RpHdr → Int32) (rp : RpHdr) :
    Settles w w (headerOnly rtvl rp) := by
  unfold headerOnly
  split
  · exact .stop _ _
  · exact .unlock _ _ (.ret _)

theorem structBody_settles {γ : Type} (c : Codec γ) (old : β) (use : γ → β) (rp : RpHdr) :
    Settles w w (structBody c old use rp) := by
  unfold structBody
  split
  · exact .stop _ _
  · apply reRead_settles _
    intro r
    split
    · exact warn_settles _ old
    · exact .unlock _ _ (.ret _)

theorem openChecks_settles {fi : FileInfo} {unsupported : UInt32} {k : Io (Int32 × FileInfo)}
    (h : Settles w w k) : Settles w w (openChecks fi unsupported k) := by
  unfold openChecks
  split
  · exact warn_settles _ fi
  split
  · exact warn_settles _ fi
  · exact h

theorem enter_settles {p : UInt32 → Io (Int32 × β)} (h : Settles w (u + 1) (p (u + 1))) :
    Settles w u (Prod.fst <$> (enter >>= p)) :=
  .lock _ _ (.get _ _ (.set _ _ _ (.get _ _ h.fst)))

theorem load_settles {p : UInt32 → Io (Int32 × β)} (h : Settles w u (p u)) :
    Settles w u (Prod.fst <$> (Prog.load >>= p)) := .get _ _ h.fst

end

/-- Whatever the outcome, a call that returns leaves `opuid` at `nextUid`. -/
theorem Call.settles (m : Locals) (u : UInt32) (c : Call) :
    Settles (c.nextUid u) u (c.prog m) := by
  cases c with
  | fuseGetattr fn st =>
    exact enter_settles (converse_settles _ _ (structBody_settles _ _ _))
  | fuseReadlink fn dest =>
    refine enter_settles (converse_settles _ _ fun rp => ?_)
    split
    · exact .stop _ _
    · apply reRead_settles _
      intro r
      split
      · exact warn_settles _ _
      · exact .unlock _ _ (.ret _)
  | fuseMkdir dn mode => exact enter_settles (converse_settles _ _ (headerOnly_settles _))
  | fuseRmdir dn => exact enter_settles (converse_settles _ _ (headerOnly_settles _))
  | fuseSymlink fn srcfn => exact enter_settles (converse_settles _ _ (headerOnly_settles _))
  | fuseChmod fn mode => exact load_settles (converse_settles _ _ (headerOnly_settles _))
  | fuseTruncate fn pos =>
    -- the header takes the value between the two increments
    exact enter_settles (.set _ _ _ (converse_settles _ _ (headerOnly_settles _)))
  | fuseOpen fn fi =>
    exact enter_settles (openChecks_settles (converse_settles _ _ (structBody_settles _ _ _)))
  | fuseRead fn buf pos fi =>
    refine enter_settles (converse_settles _ _ fun rp => ?_)
    split
    · exact .stop _ _
    split
    · exact .stop _ _
    · apply reRead_settles _
      intro r
      split
      · exact warn_settles _ _
      · exact .unlock _ _ (.ret _)
  | fuseWrite fn buf pos fi => exact enter_settles (converse_settles _ _ (headerOnly_settles _))
  | fuseStatfs fn fstat => exact enter_settles (converse_settles _ _ (structBody_settles _ _ _))
  | fuseRelease fi => exact enter_settles (converse_settles _ _ (headerOnly_settles _))
  | fuseOpendir dn fi =>
    exact enter_settles (openChecks_settles (converse_settles _ _ (structBody_settles _ _ _)))
  | fuseReaddir dn fill offset fi =>
    refine enter_settles (converse_settles _ _ fun rp => ?_)
    split
    · exact .stop _ _
    · apply reRead_settles _
      intro r
      split
      · exact warn_settles _ _
      · exact .unlock _ _ (.ret _)
  | fuseReleasedir fi => exact enter_settles (converse_settles _ _ (headerOnly_settles _))
  | fuseAccess fn amode => exact load_settles (converse_settles _ _ (headerOnly_settles _))
  | fuseUnlink fn => exact load_settles (converse_settles _ _ (headerOnly_settles _))
  | fuseCreat fn mode fi =>
    exact enter_settles (openChecks_settles (converse_settles _ _ (structBody_settles _ _ _)))
  | fuseUtimens fn atime mtime => exact load_settles (converse_settles _ _ (headerOnly_settles _))

namespace Call

/-- How often `opuid` is advanced before `head.ouid` is set. -/
def before (c : Call) : Nat := if c.skipsLock then 0 else 1

/-- How often it is advanced after that. -/
def after : Call → Nat
  | .fuseTruncate .. => 1
  | _ => 0

def advance (c : Call) : Nat := c.before + c.after

theorem headOuid_eq (u : UInt32) (c : Call) : c.headOuid u = u + UInt32.ofNat c.before := by
  cases c <;> first | rfl | exact (UInt32.add_zero u).symm

theorem nextUid_eq (u : UInt32) (c : Call) : c.nextUid u = u + UInt32.ofNat c.advance := by
  cases c with
  | fuseTruncate fn pos => exact UInt32.add_assoc u 1 1
  | _ => first | rfl | exact (UInt32.add_zero u).symm

theorem advance_eq_zero (c : Call) : c.advance = 0 ↔ c.skipsLock = true := by
  cases c <;> simp [advance, before, after, skipsLock]

end Call

/-! What a call that has `opuid` for itself is going to send. -/

theorem opuidAfter_tail {u v : UInt32} {e : Ev UInt32} {tr : List (Ev UInt32)}
    (h : opuidAfter u (e :: tr) = some v) : ∃ u', opuidAfter u' tr = some v := by
  cases e with
  | get s => exact ⟨u, (Option.ite_none_right_eq_some.1 h).2⟩
  | set s => exact ⟨s, h⟩
  | _ => exact ⟨u, h⟩


section
variable {α : Type} {rej : Prop} {φ : Bytes → Prop} {val : α → Int32}

/-- A program that has sent `s` sends `o`, if that is a message: it has not begun and it
    would, or it is on the way, or it has. -/
inductive Told (o : Option Bytes) (u : UInt32) (s : Bytes) (p : Io α) : Prop
  | before (hs : s = []) (he : (p.emit u).1 = o)
  | during (buf k) (hp : p = .write buf k) (ho : o = some (s ++ buf))
  | after (ho : o = some s)

namespace Told
variable {o : Option Bytes} {u : UInt32} {s g : Bytes} {p q : Io α}

theorem prefix_of (h : Told o u s p) : s <+: o.getD [] := by
  cases h with
  | before hs _ => exact hs ▸ List.nil_prefix
  | during buf k _ ho => exact ho ▸ List.prefix_append s buf
  | after ho => exact ho ▸ List.prefix_rfl

theorem step {e : Ev UInt32} {tr : List (Ev UInt32)} {v : UInt32} (h : Told o u s p)
    (ho : ∀ msg, o = some msg → IsRequest msg) (hx : Exchange rej φ val s g p)
    (hφ : ∀ msg, φ msg → IsRequest msg) (st : Step p e q) (hu : opuidAfter u (e :: tr) = some v)
    (he : e.isErr = false) : ∃ u', Told o u' (s ++ e.sent) q ∧ opuidAfter u' tr = some v := by
  cases h with
  | after hsent =>
    -- a whole request has been sent, and no request is longer than that
    have hnil : e.sent = [] := by
      by_contra hne
      obtain ⟨⟨msg, hmsg, hle⟩, -⟩ := hx.sends_more hφ st hne
      have hall := IsRequest.eq_of_prefix (ho _ hsent) (hφ _ hmsg)
        ((List.prefix_append _ _).trans hle)
      have hlen := hle.length_le
      rw [List.length_append, ← hall] at hlen
      exact hne (List.eq_nil_of_length_eq_zero (by omega))
    obtain ⟨u', hu'⟩ := opuidAfter_tail hu
    rw [hnil, List.append_nil]
    exact ⟨u', .after hsent, hu'⟩
  | during buf k hp hsent =>
    rw [hp] at st
    cases st with
    | wrote bs rest _ _ =>
      exact ⟨u, .during rest k rfl (by rw [hsent, Ev.sent, List.append_assoc]), hu⟩
    | writeErr => cases he
    | writeEnd => exact ⟨u, .after hsent, hu⟩
  | before hs hemit =>
    subst hs
    have hread : ∀ {acc n k}, p ≠ .read acc n k := by
      intro acc n k hp
      subst hp
      exact (hφ _ hx.read_inv).ne_nil rfl
    cases st with
    | lock k => exact ⟨u, .before rfl hemit, hu⟩
    | unlock k => exact ⟨u, .before rfl hemit, hu⟩
    | get k v' =>
      obtain ⟨rfl, hu⟩ := Option.ite_none_right_eq_some.1 hu
      exact ⟨v', .before rfl hemit, hu⟩
    | set v' k => exact ⟨v', .before rfl hemit, hu⟩
    | wrote bs rest k _ => exact ⟨u, .during rest k rfl hemit.symm, hu⟩
    | writeErr => cases he
    | writeEnd k => exact ⟨u, .after hemit.symm, hu⟩
    | got => exact absurd rfl hread
    | readErr => exact absurd rfl hread
    | readEnd => exact absurd rfl hread

/-- What has been sent, once a whole request has. -/
theorem whole (h : Told o u s p) (ho : ∀ msg, o = some msg → IsRequest msg) (hs : IsRequest s) :
    o = some s := by
  cases h with
  | before hnil _ => exact absurd hnil hs.ne_nil
  | during buf k _ hsent =>
    rw [hsent, ← hs.eq_of_prefix (ho _ hsent) (List.prefix_append _ _)]
  | after hsent => exact hsent

end Told

/-- A call with its message, or on its way out with a part of it sent. -/
def Telling (val : α → Int32) (rej : Prop) (φ : Bytes → Prop) (o : Option Bytes) (u : UInt32)
    (s : Bytes) (p : Io α) : Prop :=
  s <+: o.getD [] ∧ ((∃ g, Exchange rej φ val s g p ∧ Told o u s p) ∨ Fails val p ∨ ∃ a, p = .ret a)

theorem Telling.step {o : Option Bytes} {u v : UInt32} {s : Bytes} {p q : Io α} {e : Ev UInt32}
    {tr : List (Ev UInt32)} (h : Telling val rej φ o u s p)
    (ho : ∀ msg, o = some msg → IsRequest msg) (hφ : ∀ msg, φ msg → IsRequest msg)
    (st : Step p e q) (hu : opuidAfter u (e :: tr) = some v) :
    ∃ u', Telling val rej φ o u' (s ++ e.sent) q ∧ opuidAfter u' tr = some v := by
  obtain ⟨hs, ⟨g, hx, ht⟩ | ⟨a, rfl, -⟩ | ⟨a, rfl⟩⟩ := h
  · cases he : e.isErr with
    | true =>
      have hsent : e.sent = [] := by
        cases e with
        | wrote bs => cases he
        | _ => rfl
      obtain ⟨u', hu'⟩ := opuidAfter_tail hu
      rw [hsent, List.append_nil]
      exact ⟨u', ⟨hs, .inr (.inl (hx.step_err st he))⟩, hu'⟩
    | false =>
      obtain ⟨u', ht', hu'⟩ := ht.step ho hx hφ st hu he
      exact ⟨u', ⟨ht'.prefix_of, .inl ⟨_, hx.step st he, ht'⟩⟩, hu'⟩
  · -- the unlock of a failed transfer
    cases st
    exact ⟨u, ⟨by simpa [Ev.sent] using hs, .inr (.inr ⟨a, rfl⟩)⟩, hu⟩
  · cases st

end

/-- Whatever happens to a call, what it has sent is a part of its message. -/
theorem Telling.run {α : Type} {val : α → Int32} {rej : Prop} {φ : Bytes → Prop} {o : Option Bytes}
    {p q : Io α} {tr : List (Ev UInt32)} (t : Run p tr q) (ho : ∀ msg, o = some msg → IsRequest msg)
    (hφ : ∀ msg, φ msg → IsRequest msg) : ∀ {u v : UInt32} {s : Bytes},
    Telling val rej φ o u s p → opuidAfter u tr = some v →
      s ++ (tr.map Ev.sent).flatten <+: o.getD [] := by
  induction t with
  | refl p =>
    intro u v s h _
    rw [List.map_nil, List.flatten_nil, List.append_nil]
    exact h.1
  | step hs _ ih =>
    intro u v s h hu
    obtain ⟨u', h', hu'⟩ := h.step ho hφ hs hu
    have hrest := ih h' hu'
    rwa [List.append_assoc] at hrest

theorem Call.emit_isRequest {m : Locals} {c : Call} {u : UInt32} {msg : Bytes}
    (h : ((c.prog m).emit u).1 = some msg) : IsRequest msg := by
  refine ⟨m, c, ?_⟩
  have hacc := (Call.emit_some h).1
  rw [Call.emit _ _ _ hacc] at h
  exact ⟨hacc, _, h⟩

theorem Call.sent_part {m : Locals} {c : Call} {u v : UInt32} {q : Io Int32}
    {tr : List (Ev UInt32)} (t : Run (c.prog m) tr q) (hu : opuidAfter u tr = some v) :
    (tr.map Ev.sent).flatten <+: ((c.prog m).emit u).1.getD [] := by
  have h₀ : Telling id (c.rejected = true) (c.Sends m) ((c.prog m).emit u).1 u [] (c.prog m) :=
    ⟨List.nil_prefix, .inl ⟨[], c.exchange m, .before rfl rfl⟩⟩
  exact Telling.run t (fun _ => Call.emit_isRequest) (fun _ => sends_isRequest _) h₀ hu

/-! The requests of a run. -/

/-- What a call of a run has put on the wire. -/
def Entry.sent (e : Entry) : Bytes := (e.trace.map Ev.sent).flatten

/-- The request of which a call of a run has sent a part, if it has sent anything. -/
def Entry.message (e : Entry) : Option Bytes :=
  if e.sent = [] then none else ((e.job.call.prog e.job.locals).emit e.opuid).1

/-- The `ouid` fields of the requests of a run. -/
def ouids (es : List Entry) : List UInt32 :=
  es.filterMap fun e => e.message.map fun msg => (OpHdr.codec.dec msg).ouid

theorem Request.dec_message (r : Request) : OpHdr.codec.dec r.message = r.head := by
  cases r with
  | opening head op => rw [message_opening, Codec.dec_enc]; rfl
  | reading head rd => rw [message_reading, Codec.dec_enc]; rfl
  | writing head wr payload => rw [message_writing, Codec.dec_enc]; rfl
  | closing head cl => rw [message_closing, Codec.dec_enc]; rfl

/-- The id of a request is `opuid` as the call found it, plus what the call adds first. -/
theorem Call.emit_ouid {m : Locals} {c : Call} {u : UInt32} {msg : Bytes}
    (h : ((c.prog m).emit u).1 = some msg) :
    (OpHdr.codec.dec msg).ouid = u + UInt32.ofNat c.before := by
  obtain ⟨-, rfl⟩ := Call.emit_some h
  rw [Request.dec_message, ← Call.headOuid_eq]
  cases c <;> rfl

/-- What a call of a run has sent is a part of its request. -/
theorem Serial.sent_part {u : UInt32} {es : List Entry} (h : Serial u es) {e : Entry}
    (he : e ∈ es) : e.sent <+: e.message.getD [] := by
  have hpart : ∀ {tr w r} {j : Job} {q : Io Int32} {u : UInt32},
      Run (j.call.prog j.locals) tr q → opuidAfter u tr = some w →
      (Entry.mk j u tr r).sent <+: (Entry.mk j u tr r).message.getD [] := by
    intro tr w r j q u run hu
    unfold Entry.message
    split
    · next hnil => exact hnil ▸ List.nil_prefix
    · exact Call.sent_part run hu
  induction h with
  | nil u => cases he
  | last run hu =>
    cases List.mem_singleton.1 he
    exact hpart run hu
  | returned run hu rest ih =>
    rcases List.mem_cons.1 he with rfl | he
    · exact hpart run hu
    · exact ih he

theorem Serial.message_ouid {u : UInt32} {es : List Entry} (h : Serial u es) {e : Entry}
    (he : e ∈ es) : (e.message.map fun msg => (OpHdr.codec.dec msg).ouid) =
      if e.sent ≠ [] then some (e.opuid + UInt32.ofNat e.job.call.before) else none := by
  have hpart := h.sent_part he
  unfold Entry.message at hpart ⊢
  by_cases hs : e.sent = []
  · rw [if_pos hs, if_neg (not_not.2 hs)]
    rfl
  · rw [if_neg hs] at hpart ⊢
    rw [if_pos hs]
    cases hm : ((e.job.call.prog e.job.locals).emit e.opuid).1 with
    | none =>
      rw [hm] at hpart
      exact absurd (List.prefix_nil.1 hpart) hs
    | some msg =>
      rw [Option.map_some, Call.emit_ouid hm]

/-! Distances in a run. -/

/-- The number of increments a list of calls makes. -/
def totalAdvance (es : List Entry) : Nat := (es.map fun e => e.job.call.advance).sum

/-- The increments from the header of `i` to that of a later `j`, `mid` being the
    calls between them. -/
def increments (i : Entry) (mid : List Entry) (j : Entry) : Nat :=
  i.job.call.after + totalAdvance mid + j.job.call.before

theorem Serial.head_opuid {u : UInt32} {e : Entry} {es : List Entry} (h : Serial u (e :: es)) :
    e.opuid = u := by
  cases h <;> rfl

/-- What follows the first calls of a run is a run from the `opuid` they leave. -/
theorem Serial.drop {u : UInt32} {pre : List Entry} {e : Entry} {es : List Entry}
    (h : Serial u (pre ++ e :: es)) :
    Serial (u + UInt32.ofNat (totalAdvance pre)) (e :: es) := by
  induction pre generalizing u with
  | nil =>
    have h0 : UInt32.ofNat (totalAdvance []) = 0 := rfl
    rwa [h0, UInt32.add_zero]
  | cons f pre ih =>
    rw [List.cons_append] at h
    generalize hl : pre ++ e :: es = l at h
    cases h with
    | last run hu => simp at hl
    | @returned j _ tr v w _ run hu rest =>
      subst hl
      have hw : w = u + UInt32.ofNat j.call.advance := by
        rw [← Call.nextUid_eq]
        exact (j.call.settles j.locals u).run run hu
      have hsum : totalAdvance (⟨j, u, tr, some v⟩ :: pre) = j.call.advance + totalAdvance pre := by
        rw [totalAdvance, List.map_cons, List.sum_cons]
        rfl
      rw [hsum, UInt32.ofNat_add, ← UInt32.add_assoc, ← hw]
      exact ih rest

/-- Two calls of a run: the second finds what the first left, advanced by the calls
    between them. -/
theorem Serial.opuid_between {u : UInt32} {pre mid post : List Entry} {i j : Entry}
    (h : Serial u (pre ++ i :: (mid ++ j :: post))) :
    j.opuid + UInt32.ofNat j.job.call.before =
      i.opuid + UInt32.ofNat i.job.call.before + UInt32.ofNat (increments i mid j) := by
  have hi := h.drop
  have hj := (@Serial.drop _ (i :: mid) j post hi).head_opuid
  have hsum : totalAdvance (i :: mid) = i.job.call.before + i.job.call.after + totalAdvance mid := by
    rw [totalAdvance, List.map_cons, List.sum_cons]
    rfl
  rw [hj, ← hi.head_opuid, hsum, increments]
  simp only [UInt32.ofNat_add, UInt32.add_assoc]

theorem ofNat_eq_zero_iff (n : Nat) : UInt32.ofNat n = 0 ↔ 2 ^ 32 ∣ n := by
  rw [← UInt32.toNat_inj, UInt32.toNat_ofNat', Nat.dvd_iff_mod_eq_zero]
  rfl

/-- A list is pairwise related when any two elements of it are, as they stand in it. -/
theorem pairwise_iff_splits {α : Type} {R : α → α → Prop} {l : List α} :
    l.Pairwise R ↔ ∀ pre a mid b post, l = pre ++ a :: (mid ++ b :: post) → R a b := by
  constructor
  · rintro h pre a mid b post rfl
    exact List.rel_of_pairwise_cons (List.pairwise_append.1 h).2.1 (by simp)
  · intro h
    induction l with
    | nil => exact .nil
    | cons a l ih =>
      refine .cons (fun b hb => ?_) (ih fun pre a' mid b post hl => ?_)
      · obtain ⟨mid, post, rfl⟩ := List.append_of_mem hb
        exact h [] a mid b post rfl
      · exact h (a :: pre) a' mid b post (by rw [hl, List.cons_append])

theorem ouids_nodup_iff {u : UInt32} {es : List Entry} (h : Serial u es) :
    (ouids es).Nodup ↔ ∀ pre i mid j post, es = pre ++ i :: (mid ++ j :: post) →
      i.sent ≠ [] → j.sent ≠ [] → ¬2 ^ 32 ∣ increments i mid j := by
  rw [ouids, List.Nodup, List.pairwise_filterMap, pairwise_iff_splits]
  refine forall₅_congr fun pre i mid j post => forall_congr' fun hes => ?_
  subst hes
  have hij := h.opuid_between
  have hi := h.message_ouid (e := i) (by simp)
  have hj := h.message_ouid (e := j) (by simp)
  simp only [hi, hj, Option.ite_none_right_eq_some, Option.some.injEq]
  rw [← ofNat_eq_zero_iff]
  constructor
  · intro hne hi hj h0
    rw [h0, UInt32.add_zero] at hij
    exact hne _ ⟨hi, rfl⟩ _ ⟨hj, rfl⟩ hij.symm
  · rintro hne _ ⟨hi, rfl⟩ _ ⟨hj, rfl⟩ heq
    rw [← heq] at hij
    exact hne hi hj (by simpa using hij.symm)

/-- With fewer than 2^32 increments in all, only a standing counter repeats an id. -/
theorem dvd_increments_iff {pre mid post : List Entry} {i j : Entry}
    (hlt : totalAdvance (pre ++ i :: (mid ++ j :: post)) < 2 ^ 32) :
    2 ^ 32 ∣ increments i mid j ↔
      i.job.call.after = 0 ∧ (∀ e ∈ mid, e.job.call.skipsLock = true) ∧
        j.job.call.skipsLock = true := by
  have hle : increments i mid j ≤ totalAdvance (pre ++ i :: (mid ++ j :: post)) := by
    simp only [totalAdvance, increments, List.map_append, List.map_cons, List.sum_append,
      List.sum_cons, Call.advance]
    omega
  have hzero : 2 ^ 32 ∣ increments i mid j ↔ increments i mid j = 0 := by
    refine ⟨fun hd => Nat.eq_zero_of_dvd_of_lt hd (Nat.lt_of_le_of_lt hle hlt), fun h0 => ?_⟩
    rw [h0]
    exact Nat.dvd_zero _
  have hmid : totalAdvance mid = 0 ↔ ∀ e ∈ mid, e.job.call.skipsLock = true := by
    clear hle hzero hlt
    induction mid with
    | nil => simp [totalAdvance]
    | cons e mid ih =>
      rw [List.forall_mem_cons, ← ih, ← Call.advance_eq_zero]
      exact Nat.add_eq_zero_iff
  have hj : j.job.call.before = 0 ↔ j.job.call.skipsLock = true := by
    rw [Call.before]
    split <;> simp_all
  rw [hzero, increments, Nat.add_eq_zero_iff, Nat.add_eq_zero_iff, hmid, hj, and_assoc]

/-- **Operation ids.** In a run of calls, with any outcomes, what each has sent is a
    part of one request, and these carry different ids exactly when the number of
    increments from the header of one to that of another is never a multiple of 2^32.
    Up to 2^32 - 1 increments that means: no call that does not advance `opuid` sends
    right after one of a handler other than `fuse_truncate`, or after further such
    calls. -/
theorem ouid_unique (u : UInt32) (es : List Entry) (h : Serial u es) :
    (∀ e ∈ es, e.sent <+: e.message.getD []) ∧
    ((ouids es).Nodup ↔ ∀ pre i mid j post, es = pre ++ i :: (mid ++ j :: post) →
      i.sent ≠ [] → j.sent ≠ [] → ¬2 ^ 32 ∣ increments i mid j) ∧
    (totalAdvance es < 2 ^ 32 →
      ((ouids es).Nodup ↔ ∀ pre i mid j post, es = pre ++ i :: (mid ++ j :: post) →
        i.sent ≠ [] → j.sent ≠ [] → ¬(i.job.call.after = 0 ∧
          (∀ e ∈ mid, e.job.call.skipsLock = true) ∧ j.job.call.skipsLock = true))) := by
  refine ⟨fun e => h.sent_part, ouids_nodup_iff h, fun hlt => ?_⟩
  rw [ouids_nodup_iff h]
  refine forall₅_congr fun pre i mid j post => forall_congr' fun hes => ?_
  subst hes
  rw [dvd_increments_iff hlt]

/-! Calls that the peer refuses, and one whose request cannot be written. -/

/-- An unlink that the peer refuses. -/
def unlinkRefused : Entry :=
  ⟨Job.fresh (.fuseUnlink pathA), 0, [.get 0, .wrote (unlinkMsg 0), .tau,
    .got (RpHdr.codec.enc (refusedHdr 0)), .tau, .unlock], some (-2)⟩

/-- An unlink whose first write fails. -/
def unlinkFailed : Entry :=
  ⟨Job.fresh (.fuseUnlink pathA), 0, [.get 0, .writeErr, .unlock], some (-EBUSY)⟩

/-- A rmdir that the peer refuses. -/
def rmdirRefused : Entry :=
  ⟨Job.fresh (.fuseRmdir pathA), 0, refusedTrace 0, some (-2)⟩

theorem unlink_eq (m : Locals) (fn : Path) : (Call.fuseUnlink fn).prog m = .get fun ouid =>
    Prod.fst <$> converse (fuseUnlink.request m fn ouid) () (headerOnly fun _ => 0) := rfl

theorem run_unlinkRefused :
    Run ((Call.fuseUnlink pathA).prog default) unlinkRefused.trace (.ret (-2)) := by
  rw [unlink_eq, unlinkRefused]
  exact .step (.get _ 0) (converse_refused (unlink_emission 0) _ _ 0)

theorem run_unlinkFailed :
    Run ((Call.fuseUnlink pathA).prog default) unlinkFailed.trace (.ret (-EBUSY)) := by
  rw [unlink_eq, unlinkFailed]
  exact .step (.get _ 0) (converse_failed (unlink_emission 0) _ _)

theorem serial_rmdir : Serial 0 [unlinkRefused, unlinkFailed, rmdirRefused] :=
  .returned (w := 0) run_unlinkRefused rfl (.returned (w := 0) run_unlinkFailed rfl
    (.returned (w := 1) (rmdir_refused 0) rfl (.nil 1)))

/-- The unlink that fails has not sent a request, and the rmdir advances `opuid`. -/
theorem ouid_unique_rmdir : (ouids [unlinkRefused, unlinkFailed, rmdirRefused]).Nodup := by
  apply ((ouid_unique 0 _ serial_rmdir).2.2 (by decide)).2
  rintro pre i mid j post hes - hsent ⟨-, -, hskip⟩
  have hj : j ∈ [unlinkFailed, rmdirRefused] := by
    cases pre with
    | nil =>
      rw [List.nil_append, List.cons.injEq] at hes
      rw [hes.2]
      simp
    | cons e pre =>
      rw [List.cons_append, List.cons.injEq] at hes
      rw [hes.2]
      simp
  rcases List.mem_cons.1 hj with rfl | hj
  · exact hsent rfl
  · cases List.mem_singleton.1 hj
    cases hskip

theorem serial_unlinks : Serial 0 [unlinkRefused, unlinkRefused] :=
  .returned (w := 0) run_unlinkRefused rfl (.returned (w := 0) run_unlinkRefused rfl (.nil 0))

/-- Two unlinks, one after the other, send whole requests with the same id. -/
theorem ouid_unique_fails : Serial 0 [unlinkRefused, unlinkRefused] ∧
    unlinkRefused.message = some unlinkRefused.sent ∧
    ¬(ouids [unlinkRefused, unlinkRefused]).Nodup := by
  have hsent : unlinkRefused.sent = unlinkMsg 0 := by
    show [] ++ (unlinkMsg 0 ++ []) = _
    rw [List.append_nil, List.nil_append]
  have hne : unlinkRefused.sent ≠ [] := hsent ▸ Request.bytes_ne_nil _
  refine ⟨serial_unlinks, ?_, fun h => ?_⟩
  · rw [Entry.message, if_neg hne, hsent]
    have hsmall := Call.Sendable.small (c := .fuseUnlink pathA) rfl default 0
    exact (Call.emit_sendable default 0 (c := .fuseUnlink pathA) rfl).trans
      (congrArg some (Request.message_eq_bytes hsmall))
  · exact (ouids_nodup_iff serial_unlinks).1 h [] _ [] _ [] rfl hne hne (Nat.dvd_zero _)

end Zhwkrfsp
