import Zhwkrfsp.Alignment
import Zhwkrfsp.Content

/- The connection the handlers share: the mutex, `opuid`, the outgoing stream,
   the peer and the stream of replies. Every outgoing byte carries the number of
   the call that sent it, so that a request, its answer and its caller can be
   told apart. The peer answers complete requests in order, each with one
   well-framed reply that echoes `ouid`.

   No request is a proper part of another (`IsRequest.eq_of_prefix`), so what
   the peer takes from the stream is what one call sent, as long as calls send
   one at a time. `Link` says where the exchange of a call stands on the wires,
   and its lemmas that a step of the call, and an answer of the peer, keep it. -/
namespace Zhwkrfsp
open Wire Chan

/-! Complete requests. -/

/-- What some call emits. -/
def IsRequest (b : Bytes) : Prop := ∃ m c, Call.Sends m c b

theorem sends_isRequest {m : Locals} {c : Call} (b : Bytes) (h : c.Sends m b) : IsRequest b :=
  ⟨m, c, h⟩

/-- The length a request announces to the peer. For a symlink it is not what `head.size` says,
    which counts the bytes of the name alone: the README has the name filled to 4096
    bytes, and the peer is taken to know that. -/
def announced (b : Bytes) : Nat :=
  if opidOf b = operWrite ∧ (structOf OpWrit.codec b).write_mode = wrSymlink then
    OpHdr.codec.size + OpWrit.codec.size + filenameLen
  else (OpHdr.codec.dec b).size.toNat

theorem announced_other {head : OpHdr} (rest : Bytes) (h : head.opid ≠ operWrite) :
    announced (OpHdr.codec.enc head ++ rest) = head.size.toNat := by
  rw [announced, if_neg (by rw [opidOf_enc]; exact fun hc => h hc.1), Codec.dec_enc]

theorem announced_writing (head : OpHdr) (wr : OpWrit) (rest : Bytes)
    (h : head.opid = operWrite) :
    announced (OpHdr.codec.enc head ++ (OpWrit.codec.enc wr ++ rest)) =
      if wr.write_mode = wrSymlink then 4140 + filenameLen else head.size.toNat := by
  rw [announced, opidOf_enc, structOf_enc, Codec.dec_enc, h]
  simp

/-- A request announces the same length whatever follows it. -/
theorem announced_message (r : Request) (hop : r.head.opid = r.oper) (rest : Bytes) :
    announced (r.message ++ rest) =
      match r with
      | .writing head wr _ =>
        if wr.write_mode = wrSymlink then 4140 + filenameLen else head.size.toNat
      | r => r.head.size.toNat := by
  cases r with
  | opening head op =>
    have hne : head.opid ≠ operWrite := by
      rw [show head.opid = operOpen from hop]; decide
    rw [Request.message_opening, List.append_assoc, announced_other _ hne]
    rfl
  | reading head rd =>
    have hne : head.opid ≠ operWrite := by
      rw [show head.opid = operRead from hop]; decide
    rw [Request.message_reading, List.append_assoc, announced_other _ hne]
    rfl
  | writing head wr payload =>
    rw [Request.message_writing, List.append_assoc, List.append_assoc]
    exact announced_writing head wr _ hop
  | closing head cl =>
    have hne : head.opid ≠ operWrite := by
      rw [show head.opid = operClose from hop]; decide
    rw [Request.message_closing, List.append_assoc, announced_other _ hne]
    rfl

theorem Call.announced_eq (m : Locals) (ouid : UInt32) (c : Call)
    (hlt : (c.request m ouid).message.length < 2 ^ 32) (rest : Bytes) :
    announced ((c.request m ouid).message ++ rest) = (c.request m ouid).message.length := by
  rw [announced_message _ (c.oper_eq m ouid)]
  cases c with
  | fuseSymlink fn srcfn => exact (fuseSymlink_size m ouid fn srcfn).2.symm
  | _ => exact Call.size_eq m ouid _ rfl hlt

namespace IsRequest

theorem announced_append {b : Bytes} (h : IsRequest b) (rest : Bytes) :
    announced (b ++ rest) = b.length := by
  obtain ⟨m, c, -, ouid, he⟩ := h
  obtain ⟨rfl, hlt⟩ := Request.emission_eq he
  exact c.announced_eq m ouid hlt rest

theorem ne_nil {b : Bytes} (h : IsRequest b) : b ≠ [] := by
  obtain ⟨m, c, -, ouid, he⟩ := h
  rw [(Request.emission_eq he).1]
  exact Request.message_ne_nil _

/-- No request is a proper part of another. -/
theorem eq_of_prefix {a b : Bytes} (ha : IsRequest a) (hb : IsRequest b) (h : a <+: b) :
    a = b := by
  obtain ⟨rest, rfl⟩ := h
  have h₁ := ha.announced_append rest
  have h₂ := hb.announced_append []
  rw [List.append_nil, h₁, List.length_append] at h₂
  have hnil : rest = [] := List.eq_nil_of_length_eq_zero (by omega)
  rw [hnil, List.append_nil]

end IsRequest

/-- A call that sends has not sent a whole request yet. -/
theorem Exchange.sends_more {α : Type} {rej : Prop} {φ : Bytes → Prop} {val : α → Int32}
    {p q : Io α} {e : Ev UInt32} {s g : Bytes} (hx : Exchange rej φ val s g p)
    (hφ : ∀ b, φ b → IsRequest b) (st : Step p e q) (hne : e.sent ≠ []) :
    (∃ msg, φ msg ∧ s ++ e.sent <+: msg) ∧ ¬φ s := by
  cases st with
  | wrote bs rest k hbs =>
    have hmsg : φ (s ++ (bs ++ rest)) := hx.write_inv.1
    refine ⟨⟨_, hmsg, ?_⟩, fun hs => ?_⟩
    · rw [← List.append_assoc]
      exact List.prefix_append _ _
    · have hall := IsRequest.eq_of_prefix (hφ _ hs) (hφ _ hmsg) (List.prefix_append _ _)
      exact hbs (List.append_eq_nil_iff.1 (List.self_eq_append_right.1 hall)).1
  | _ => exact absurd rfl hne

/-! The shared state. -/

/-- Bytes with the number of the call that sent them. -/
abbrev Tagged := List (Nat × UInt8)

def tag (i : Nat) (bs : Bytes) : Tagged := bs.map fun b => (i, b)

@[simp] theorem tag_nil (i : Nat) : tag i [] = [] := rfl

@[simp] theorem tag_append (i : Nat) (s bs : Bytes) : tag i (s ++ bs) = tag i s ++ tag i bs :=
  List.map_append

@[simp] theorem tag_snd (i : Nat) (s : Bytes) : (tag i s).map Prod.snd = s := by
  simp [tag, Function.comp_def]

structure World where
  locked : Bool
  opuid : UInt32
  /-- The outgoing stream. -/
  out : Tagged
  /-- The end of it that is not answered. -/
  pending : Tagged
  /-- The replies, less what has been received of them. -/
  inn : Bytes
  /-- The requests the peer has answered, with its replies. -/
  log : List (Tagged × Reply)

namespace World

def init (opuid : UInt32) : World := ⟨false, opuid, [], [], [], []⟩

/-- What a step of call `i` does to the world, and what the world must allow. -/
inductive Effect (i : Nat) : World → Ev UInt32 → World → Prop
  | tau (w) : Effect i w .tau w
  | lock (w : World) (h : w.locked = false) : Effect i w .lock { w with locked := true }
  | unlock (w : World) : Effect i w .unlock { w with locked := false }
  | get (w : World) : Effect i w (.get w.opuid) w
  | set (w : World) (u) : Effect i w (.set u) { w with opuid := u }
  | wrote (w : World) (bs) :
      Effect i w (.wrote bs) { w with out := w.out ++ tag i bs, pending := w.pending ++ tag i bs }
  | writeErr (w) : Effect i w .writeErr w
  | got (w : World) (bs inn) (h : w.inn = bs ++ inn) : Effect i w (.got bs) { w with inn := inn }
  | readErr (w) : Effect i w .readErr w

end World

/-- The reply is well framed and echoes the request's `ouid`. -/
structure Reply.Answers (r : Reply) (req : Bytes) : Prop where
  framed : r.WellFramed
  ouid : r.head.ouid = (OpHdr.codec.dec req).ouid

/-- The peer takes a complete request from the stream and replies. Where a request is complete
    it knows from `IsRequest`, so it takes all 4096 bytes of a symlink's source name,
    although `head.size` says less. -/
inductive World.Answer : World → Reply → World → Prop
  | mk (w : World) (req rest : Tagged) (r : Reply) (hreq : IsRequest (req.map Prod.snd))
      (hp : w.pending = req ++ rest) (hr : r.Answers (req.map Prod.snd)) :
      Answer w r { w with pending := rest, inn := w.inn ++ r.bytes, log := w.log ++ [(req, r)] }

theorem World.Effect.log_eq {i : Nat} {w w' : World} {e : Ev UInt32} (h : w.Effect i e w') :
    w'.log = w.log := by
  cases h <;> rfl

theorem World.Answer.log_eq {w w' : World} {r : Reply} (h : w.Answer r w') :
    ∃ req, w'.log = w.log ++ [(req, r)] := by
  cases h with
  | mk req rest _ _ _ _ => exact ⟨req, rfl⟩

/-- Nothing is on the way in either direction. -/
def World.Idle (w : World) : Prop := w.pending = [] ∧ w.inn = []

theorem World.Idle.no_answer {w w' : World} {r : Reply} (h : w.Idle) (ha : w.Answer r w') :
    False := by
  cases ha with
  | mk req rest _ hreq hp _ =>
    rw [h.1] at hp
    rw [(List.append_eq_nil_iff.1 hp.symm).1] at hreq
    exact hreq.ne_nil rfl

/-! One exchange on the wires. -/

/-- The exchange of call `i`, which has sent `s` and received `g`: its request is
    not complete or not answered, or it is answered and the rest of the answer
    is all that is on the way. -/
inductive Link (i : Nat) (s g : Bytes) (w : World) : Prop
  | sending (hp : w.pending = tag i s) (hi : w.inn = []) (hg : g = [])
      (hs : s = [] ∨ ∃ msg, IsRequest msg ∧ s <+: msg)
  | answered (hp : w.pending = []) (hs : IsRequest s) (r : Reply) (hl : (tag i s, r) ∈ w.log)
      (hr : r.Answers s) (hpl : r.Plain) (hg : g ++ w.inn = r.bytes)

namespace Link
variable {i : Nat} {s g : Bytes} {w w' : World}

theorem start (h : w.Idle) : Link i [] [] w := .sending h.1 h.2 rfl (.inl rfl)

/-- An answer of the peer is to this call's request. -/
theorem answer {r : Reply} (h : Link i s g w) (ha : w.Answer r w') (hpl : r.Plain) :
    Link i s g w' := by
  cases h with
  | sending hp hi hg hs =>
    cases ha with
    | mk req rest _ hreq hpend hr =>
      rw [hp] at hpend
      have hpre : req.map Prod.snd <+: s := by
        refine ⟨rest.map Prod.snd, ?_⟩
        rw [← List.map_append, ← hpend, tag_snd]
      rcases hs with rfl | ⟨msg, hmsg, hsm⟩
      · exact absurd (List.prefix_nil.1 hpre) hreq.ne_nil
      · have hall := hreq.eq_of_prefix hmsg (hpre.trans hsm)
        have hs : s = msg := by
          have := hall ▸ hpre
          exact hsm.eq_of_length_le this.length_le
        have hreqs : req = tag i s ∧ rest = [] := by
          have hlen : (tag i s).length = req.length := by
            rw [tag, List.length_map, hs, ← hall, List.length_map]
          rw [hpend, List.length_append] at hlen
          have hnil : rest = [] := List.eq_nil_of_length_eq_zero (by omega)
          rw [hnil, List.append_nil] at hpend
          exact ⟨hpend.symm, hnil⟩
        obtain ⟨rfl, rfl⟩ := hreqs
        rw [tag_snd] at hr
        refine .answered rfl (hs ▸ hmsg) r ?_ hr hpl ?_
        · exact List.mem_append_right _ (List.mem_singleton.2 rfl)
        · rw [hg, hi]; rfl
  | answered hp hs =>
    cases ha with
    | mk req rest _ hreq hpend hr =>
      rw [hp] at hpend
      rw [(List.append_eq_nil_iff.1 hpend.symm).1] at hreq
      exact absurd rfl hreq.ne_nil

/-- A call that has sent nothing has left nothing on the way. -/
theorem idle_of_nil (h : Link i [] g w) : w.Idle := by
  cases h with
  | sending hp hi _ _ => exact ⟨hp, hi⟩
  | answered _ hs => exact absurd rfl hs.ne_nil

/-- A step of the call that is no I/O error keeps its place on the wires. -/
theorem effect {α : Type} {rej : Prop} {φ : Bytes → Prop} {val : α → Int32} {p q : Io α}
    {e : Ev UInt32} (hx : Exchange rej φ val s g p) (hφ : ∀ b, φ b → IsRequest b)
    (st : Step p e q) (hf : w.Effect i e w') (h : Link i s g w) :
    Link i (s ++ e.sent) (g ++ e.received) w' := by
  cases hf with
  | wrote bs =>
    cases st with
    | wrote bs rest k hne =>
      cases hx with
      | write _ _ _ hs hk hr hfail =>
        cases h with
        | sending hp hi hg hs' =>
          refine .sending ?_ hi rfl (.inr ⟨_, hφ _ hs, ?_⟩)
          · show w.pending ++ tag i bs = _
            rw [hp, ← tag_append]; rfl
          · rw [← List.append_assoc]
            exact List.prefix_append _ _
        | answered hp hs' =>
          have hall := hs'.eq_of_prefix (hφ _ hs) (List.prefix_append _ _)
          have hnil := List.self_eq_append_right.1 hall
          exact absurd (List.append_eq_nil_iff.1 hnil).1 hne
  | got bs inn hin =>
    simp only [Ev.sent, Ev.received, List.append_nil]
    cases h with
    | sending hp hi hg hs =>
      rw [hin] at hi
      obtain ⟨rfl, rfl⟩ := List.append_eq_nil_iff.1 hi
      exact .sending hp rfl (by rw [hg]; rfl) hs
    | answered hp hs r hl hr hpl hg =>
      refine .answered hp hs r hl hr hpl ?_
      rw [← hg, hin, List.append_assoc]
  | _ =>
    simp only [Ev.sent, Ev.received, List.append_nil]
    cases h with
    | sending hp hi hg hs => exact .sending hp hi hg hs
    | answered hp hs r hl hr hpl hg => exact .answered hp hs r hl hr hpl hg

/-- A call that returns leaves nothing on the way, and has received the answer
    to its own request unless it was rejected. -/
theorem ret {α : Type} {rej : Prop} {φ : Bytes → Prop} {val : α → Int32} {a : α}
    (hx : Exchange rej φ val s g (.ret a)) (h : Link i s g w) :
    w.Idle ∧ ((rej ∧ s = [] ∧ g = []) ∨
      ∃ r, (tag i s, r) ∈ w.log ∧ r.Answers s ∧ g = r.bytes) := by
  have hcase := hx.ret_cases
  cases h with
  | sending hp hi hg hs =>
    have hz : ¬RpHdr.codec.size ≤ g.length := by rw [hg]; decide
    rcases hcase with hc | ⟨-, hc, -⟩ | ⟨-, hc, -⟩
    · refine ⟨⟨?_, hi⟩, .inl hc⟩
      rw [hp, hc.2.1]; rfl
    · exact absurd (Nat.le_of_eq hc.symm) hz
    · exact absurd hc hz
  | answered hp hs r hl hr hpl hg =>
    have hpre : g <+: r.bytes ++ [] := by
      rw [← hg, List.append_nil]
      exact List.prefix_append _ _
    have hall := hx.ret_aligned (fun hc => hs.ne_nil hc.2) hr.framed hpl hpre
    rw [hall, List.append_right_eq_self] at hg
    exact ⟨⟨hp, hg⟩, .inr ⟨r, hl, hr, hall⟩⟩

end Link

end Zhwkrfsp
