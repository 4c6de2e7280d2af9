import Zhwkrfsp.Connection

/- Replies and requests when transfers fail. Calls are made one at a time over a
   socket on which any single `read` or `write` may return -1. An error of a call
   that has already sent a byte leaves the streams in the middle of something
   (`dirty`): the call returns `-EBUSY`, its request may be cut and its reply is
   still to come. A call that starts before any such error, and that returns
   something else than `-EBUSY`, has acted on the reply to its own request
   (`reply_pairing`); one that starts after it need not have. -/
namespace Zhwkrfsp
open Wire Chan

/-- A call in progress, or one that has returned. -/
structure Act where
  job : Job
  prog : Io Int32
  sent : Bytes
  got : Bytes
  /-- An I/O call of it returned -1. -/
  failed : Bool
  /-- No call before it failed after its first byte. -/
  clean : Bool

/-- One step of the program, with the bytes it moves. -/
def Act.next (a : Act) (e : Ev UInt32) (q : Io Int32) : Act :=
  { a with
    prog := q
    sent := a.sent ++ e.sent
    got := a.got ++ e.received
    failed := a.failed || e.isErr }

/-- Calls one at a time: the one in progress and those before it, in order. -/
structure Line where
  world : World
  cur : Option Act
  done : List Act
  dirty : Bool

namespace Line

def init (opuid : UInt32) : Line := ⟨World.init opuid, none, [], false⟩

/-- An error that hits a call after its first byte. -/
def spoils (a : Act) (e : Ev UInt32) : Bool := e.isErr && a.sent ≠ []

inductive Step : Line → Line → Prop
  | begin (l : Line) (j : Job) (h : l.cur = none) :
      Step l { l with cur := some ⟨j, j.call.prog j.locals, [], [], false, !l.dirty⟩ }
  | act (l : Line) (a e q w) (h : l.cur = some a) (st : Chan.Step a.prog e q)
      (hf : l.world.Effect l.done.length e w) :
      Step l { l with world := w, cur := some (a.next e q), dirty := l.dirty || spoils a e }
  | finish (l : Line) (a v) (h : l.cur = some a) (hr : a.prog = .ret v) :
      Step l { l with cur := none, done := l.done ++ [a] }
  | answer (l : Line) (r w) (h : l.world.Answer r w) : Step l { l with world := w }

/-- The states of a run. -/
inductive Reach (opuid : UInt32) : Line → Prop
  | init : Reach opuid (init opuid)
  | step {l l'} (h : Reach opuid l) (st : Step l l') : Reach opuid l'

end Line

/-- Call number `i` was rejected before it sent anything, or the log has its
    request, and what it received is the reply to it. -/
def Paired (w : World) (i : Nat) (a : Act) : Prop :=
  a.job.call.rejected = true ∨ ∃ r, (tag i a.sent, r) ∈ w.log ∧ r.Answers a.sent ∧ a.got = r.bytes

/-! The invariant. -/

/-- The call in progress, before an error. -/
structure Working (l : Line) (a : Act) : Prop where
  form : Exchange (a.job.call.rejected = true) (a.job.call.Sends a.job.locals) id a.sent a.got a.prog
  clean : a.clean = !l.dirty
  link : l.dirty = false → Link l.done.length a.sent a.got l.world

/-- The call in progress, after an error: all it does is to return `-EBUSY`. -/
structure Leaving (l : Line) (a : Act) : Prop where
  form : Fails id a.prog ∨ a.prog = .ret (-EBUSY)
  idle : l.dirty = false → l.world.Idle

structure Inv (l : Line) : Prop where
  idle : l.cur = none → l.dirty = false → l.world.Idle
  working : ∀ a, l.cur = some a → a.failed = false → Working l a
  leaving : ∀ a, l.cur = some a → a.failed = true → Leaving l a
  done : ∀ i a, l.done[i]? = some a → a.clean = true →
    ∀ v, a.prog = .ret v → v ≠ -EBUSY → Paired l.world i a

theorem Paired.mono {w w' : World} {i : Nat} {a : Act} (h : Paired w i a)
    (hl : ∀ x ∈ w.log, x ∈ w'.log) : Paired w' i a := by
  rcases h with h | ⟨r, hm, hr⟩
  · exact .inl h
  · exact .inr ⟨r, hl _ hm, hr⟩

/-- One step of a call that has not failed. -/
theorem Working.act {l : Line} {a : Act} {e : Ev UInt32} {q : Io Int32} {w : World}
    (h : Working l a) (st : Step a.prog e q) (hf : l.world.Effect l.done.length e w)
    (he : e.isErr = false) :
    Working { l with world := w, cur := some (a.next e q), dirty := l.dirty || Line.spoils a e }
      (a.next e q) where
  form := h.form.step st he
  clean := by simp [Act.next, Line.spoils, he, h.clean]
  link := by
    intro hd
    have hd' : l.dirty = false := by simpa [Line.spoils, he] using hd
    exact Link.effect h.form sends_isRequest st hf (h.link hd')

/-- The step of a call that fails. -/
theorem Working.fail {l : Line} {a : Act} {e : Ev UInt32} {q : Io Int32} {w : World}
    (h : Working l a) (st : Step a.prog e q) (hf : l.world.Effect l.done.length e w)
    (he : e.isErr = true) :
    Leaving { l with world := w, cur := some (a.next e q), dirty := l.dirty || Line.spoils a e }
      (a.next e q) where
  form := .inl (h.form.step_err st he)
  idle := by
    intro hd
    have hd' : l.dirty = false ∧ a.sent = [] := by simpa [Line.spoils, he] using hd
    have hidle := (hd'.2 ▸ h.link hd'.1).idle_of_nil
    cases hf with
    | writeErr => exact hidle
    | readErr => exact hidle
    | _ => cases he

/-- A step of a call on its way out. -/
theorem Leaving.act {l : Line} {a : Act} {e : Ev UInt32} {q : Io Int32} {w : World}
    (h : Leaving l a) (st : Step a.prog e q) (hf : l.world.Effect l.done.length e w) :
    Leaving { l with world := w, cur := some (a.next e q), dirty := l.dirty || Line.spoils a e }
      (a.next e q) := by
  rcases h.form with ⟨v, hv, hval⟩ | hret
  · rw [hv] at st
    cases st with
    | unlock =>
      cases hf with
      | unlock =>
        refine ⟨.inr (congrArg Prog.ret hval), fun hd => ?_⟩
        have hd' : l.dirty = false := by simpa [Line.spoils, Ev.isErr] using hd
        exact h.idle hd'
  · rw [hret] at st
    cases st

namespace Inv

theorem init (opuid : UInt32) : Inv (Line.init opuid) where
  idle _ _ := ⟨rfl, rfl⟩
  working _ h := nomatch h
  leaving _ h := nomatch h
  done _ _ h := nomatch h

theorem begin {l : Line} (h : Inv l) (j : Job) (hc : l.cur = none) :
    Inv { l with cur := some ⟨j, j.call.prog j.locals, [], [], false, !l.dirty⟩ } where
  idle hn := nomatch hn
  working := by
    rintro a ha -
    cases ha
    exact ⟨j.call.exchange j.locals, rfl, fun hd => .start (h.idle hc hd)⟩
  leaving := by
    rintro a ha hfail
    cases ha
    cases hfail
  done := h.done

theorem act {l : Line} (h : Inv l) {a : Act} {e : Ev UInt32} {q : Io Int32} {w : World}
    (hc : l.cur = some a) (st : Step a.prog e q) (hf : l.world.Effect l.done.length e w) :
    Inv { l with world := w, cur := some (a.next e q), dirty := l.dirty || Line.spoils a e } where
  idle hn := nomatch hn
  working := by
    intro b hb hfail
    cases hb
    obtain ⟨hfa, he⟩ := Bool.or_eq_false_iff.1 hfail
    exact (h.working a hc hfa).act st hf he
  leaving := by
    intro b hb hfail
    cases hb
    cases hfa : a.failed with
    | true => exact (h.leaving a hc hfa).act st hf
    | false =>
      have he : e.isErr = true := by simpa [Act.next, hfa] using hfail
      exact (h.working a hc hfa).fail st hf he
  done i b hb hclean v hv hne :=
    (h.done i b hb hclean v hv hne).mono fun x hx => by rwa [hf.log_eq]

theorem finish {l : Line} (h : Inv l) {a : Act} {v : Int32} (hc : l.cur = some a)
    (hr : a.prog = .ret v) : Inv { l with cur := none, done := l.done ++ [a] } := by
  -- the streams are idle, and a call that did not fail is paired
  have hend : (l.dirty = false → l.world.Idle) ∧
      (a.clean = true → v ≠ -EBUSY → Paired l.world l.done.length a) := by
    cases hfa : a.failed with
    | true =>
      have hl := h.leaving a hc hfa
      refine ⟨hl.idle, fun _ hne => absurd ?_ hne⟩
      rcases hl.form with ⟨b, hb, -⟩ | hret
      · rw [hr] at hb
        cases hb
      · rw [hr] at hret
        exact Prog.ret.inj hret
    | false =>
      have hw := h.working a hc hfa
      have hx := hr ▸ hw.form
      refine ⟨fun hd => ((hw.link hd).ret hx).1, fun hclean _ => ?_⟩
      have hd : l.dirty = false := by simpa [hw.clean] using hclean
      rcases ((hw.link hd).ret hx).2 with ⟨hrej, -⟩ | hpair
      · exact .inl hrej
      · exact .inr hpair
  refine ⟨fun _ hd => hend.1 hd, (fun _ hn => nomatch hn), (fun _ hn => nomatch hn), ?_⟩
  intro i b hb hclean u hu hne
  rcases Nat.lt_or_ge i l.done.length with hi | hi
  · rw [List.getElem?_append_left hi] at hb
    exact h.done i b hb hclean u hu hne
  · rw [List.getElem?_append_right hi, List.getElem?_singleton] at hb
    split at hb
    · next hi0 =>
      cases hb
      rw [hr] at hu
      rw [show i = l.done.length by omega]
      cases hu
      exact hend.2 hclean hne
    · cases hb

theorem answer {l : Line} (h : Inv l) {r : Reply} {w : World} (ha : l.world.Answer r w)
    (hp : r.Plain) : Inv { l with world := w } := by
  obtain ⟨req, hlog⟩ := ha.log_eq
  refine ⟨fun hc hd => ((h.idle hc hd).no_answer ha).elim, ?_, ?_, ?_⟩
  · intro a hc hfa
    have hw := h.working a hc hfa
    exact ⟨hw.form, hw.clean, fun hd => (hw.link hd).answer ha hp⟩
  · intro a hc hfa
    have hl := h.leaving a hc hfa
    exact ⟨hl.form, fun hd => ((hl.idle hd).no_answer ha).elim⟩
  · intro i a hi hclean v hv hne
    apply (h.done i a hi hclean v hv hne).mono
    intro x hx
    rw [hlog]
    exact List.mem_append_left _ hx

end Inv

/-- Every reachable state, as long as negative replies have no body. -/
theorem Line.Reach.inv {opuid : UInt32} {l : Line} (h : Line.Reach opuid l) :
    (∀ x ∈ l.world.log, x.2.Plain) → Inv l := by
  induction h with
  | init => exact fun _ => Inv.init opuid
  | step _ st ih =>
    intro hp
    cases st with
    | begin j hc => exact (ih hp).begin j hc
    | act a e q w hc st hf => exact (ih (by rwa [hf.log_eq] at hp)).act hc st hf
    | finish a v hc hr => exact (ih hp).finish hc hr
    | answer r w ha =>
      obtain ⟨req, hlog⟩ := ha.log_eq
      rw [hlog] at hp
      exact (ih fun x hx => hp x (List.mem_append_left _ hx)).answer ha
        (hp (req, r) (List.mem_append_right _ (List.mem_singleton.2 rfl)))

/-- **Reply pairing.** A call that returns something else than `-EBUSY`, and
    before which no call failed after its first byte, was rejected by the open
    checks or has received exactly the reply to its own request, which carries
    the `ouid` it sent. -/
theorem reply_pairing {opuid : UInt32} {l : Line} (h : Line.Reach opuid l)
    (hp : ∀ x ∈ l.world.log, x.2.Plain) {i : Nat} {a : Act} (ha : l.done[i]? = some a)
    (hclean : a.clean = true) {v : Int32} (hv : a.prog = .ret v) (hne : v ≠ -EBUSY) :
    a.job.call.rejected = true ∨
      (∃ r, (tag i a.sent, r) ∈ l.world.log ∧ a.got = r.bytes) ∧
        (replyHdr a.got).ouid = (OpHdr.codec.dec a.sent).ouid := by
  rcases (h.inv hp).done i a ha hclean v hv hne with hrej | ⟨r, hlog, hr, hgot⟩
  · exact .inl hrej
  · refine .inr ⟨⟨r, hlog, hgot⟩, ?_⟩
    rw [hgot, Reply.bytes, replyHdr_enc]
    exact hr.ouid

/-! Two runs of `fuse_rmdir`. -/

/-- What `fuse_rmdir` does with the reply header it has received, if any. -/
def rmdirReply (r : Option Bytes) : Io Int32 :=
  Prod.fst <$> replied () (headerOnly fun _ => 0) r

/-- What it does once its request is sent, or has failed to be. -/
def rmdirRest (ok : Bool) : Io Int32 :=
  Prod.fst <$> if ok then .read [] RpHdr.codec.size (replied () (headerOnly fun _ => 0))
    else warn (-EBUSY) ()

theorem rmdir_prog : (Call.fuseRmdir pathA).prog default =
    .lock (.get fun u => .set (u + 1) (.get fun ouid => .write (rmdirMsg ouid) rmdirRest)) := by
  rw [Call.prog, fuseRmdir]
  simp only [converse_emission (rmdir_emission _)]
  rfl

theorem rmdirReply_negative (rp : RpHdr) (h : rp.rtvl < 0) :
    rmdirReply (some (RpHdr.codec.enc rp)) = .unlock (.ret rp.rtvl) := by
  rw [rmdirReply, replied, Option.map_some, Codec.dec_enc_nil]
  simp only [if_pos h]
  rfl

/-- From rest, a call of `fuse_rmdir` can get to where it sends its request. -/
theorem Line.Reach.start {u : UInt32} {l : Line} (h : Line.Reach u l) (hc : l.cur = none)
    (hl : l.world.locked = false) : Line.Reach u
      { l with
        world := { l.world with locked := true, opuid := l.world.opuid + 1 }
        cur := some ⟨Job.fresh (.fuseRmdir pathA), .write (rmdirMsg (l.world.opuid + 1)) rmdirRest,
          [], [], false, !l.dirty⟩ } := by
  have h₁ := h.step (.begin l (Job.fresh (.fuseRmdir pathA)) hc)
  rw [show (Job.fresh (.fuseRmdir pathA)).call.prog (Job.fresh (.fuseRmdir pathA)).locals = _
    from rmdir_prog] at h₁
  have h₂ := h₁.step (.act _ _ .lock _ _ rfl (.lock _) (.lock _ hl))
  have h₃ := h₂.step (.act _ _ (.get _) _ _ rfl (.get _ _) (.get _))
  have h₄ := h₃.step (.act _ _ (.set _) _ _ rfl (.set _ _) (.set _ _))
  have h₅ := h₄.step (.act _ _ (.get _) _ _ rfl (.get _ _) (.get _))
  simpa [Act.next, Line.spoils, Ev.isErr, Ev.sent, Ev.received] using h₅

/-- From rest, it can get to where it waits for its reply. -/
theorem Line.Reach.rmdir {u : UInt32} {l : Line} (h : Line.Reach u l) (hc : l.cur = none)
    (hl : l.world.locked = false) : Line.Reach u
      { l with
        world := { l.world with
          locked := true
          opuid := l.world.opuid + 1
          out := l.world.out ++ tag l.done.length (rmdirMsg (l.world.opuid + 1))
          pending := l.world.pending ++ tag l.done.length (rmdirMsg (l.world.opuid + 1)) }
        cur := some ⟨Job.fresh (.fuseRmdir pathA), .read [] RpHdr.codec.size rmdirReply,
          rmdirMsg (l.world.opuid + 1), [], false, !l.dirty⟩ } := by
  have h₁ := h.start hc hl
  have hw := Step.wrote (rmdirMsg (l.world.opuid + 1)) [] rmdirRest (Request.bytes_ne_nil _)
  rw [List.append_nil] at hw
  have h₂ := h₁.step (.act _ _ (.wrote _) _ _ rfl hw (.wrote _ _))
  have h₃ := h₂.step (.act _ _ .tau _ _ rfl (.writeEnd _) (.tau _))
  have hr : rmdirRest true = .read [] 12 rmdirReply := rfl
  simpa [Act.next, Line.spoils, Ev.isErr, Ev.sent, Ev.received, hr] using h₃

/-- From rest, it can fail before its first byte, and return. -/
theorem Line.Reach.writeErr {u : UInt32} {l : Line} (h : Line.Reach u l) (hc : l.cur = none)
    (hl : l.world.locked = false) : Line.Reach u
      { l with
        world := { l.world with opuid := l.world.opuid + 1 }
        done := l.done ++
          [⟨Job.fresh (.fuseRmdir pathA), .ret (-EBUSY), [], [], true, !l.dirty⟩] } := by
  have h₁ := h.start hc hl
  have h₂ := h₁.step (.act _ _ .writeErr _ _ rfl (.writeErr _ _ (Request.bytes_ne_nil _))
    (.writeErr _))
  have h₃ := h₂.step (.act _ _ .unlock (.ret (-EBUSY)) _ rfl (.unlock _) (.unlock _))
  have h₄ := h₃.step (.finish _ _ _ rfl rfl)
  simpa [Act.next, Line.spoils, Ev.isErr, Ev.sent, Ev.received, hc, hl] using h₄

/-- Waiting for the reply, the call can fail, and return. -/
theorem Line.Reach.readErr {u : UInt32} {l : Line} (h : Line.Reach u l) {a : Act}
    (hc : l.cur = some a) (hp : a.prog = .read [] RpHdr.codec.size rmdirReply)
    (hs : a.sent ≠ []) : Line.Reach u
      { l with
        world := { l.world with locked := false }
        cur := none
        done := l.done ++ [{ a with prog := .ret (-EBUSY), failed := true }]
        dirty := true } := by
  have herr := Step.readErr [] RpHdr.codec.size rmdirReply (by decide)
  rw [← hp] at herr
  have h₁ := h.step (.act _ _ .readErr _ _ hc herr (.readErr _))
  have h₂ := h₁.step (.act _ _ .unlock (.ret (-EBUSY)) _ rfl (.unlock _) (.unlock _))
  have h₃ := h₂.step (.finish _ _ _ rfl rfl)
  simpa [Act.next, Line.spoils, Ev.isErr, Ev.sent, Ev.received, hs] using h₃

/-- Waiting for the reply, the call can receive a negative one and return. -/
theorem Line.Reach.negative {u : UInt32} {l : Line} (h : Line.Reach u l) {a : Act} (rp : RpHdr)
    (inn : Bytes) (hc : l.cur = some a) (hp : a.prog = .read [] RpHdr.codec.size rmdirReply)
    (hneg : rp.rtvl < 0) (hin : l.world.inn = RpHdr.codec.enc rp ++ inn) : Line.Reach u
      { l with
        world := { l.world with locked := false, inn := inn }
        cur := none
        done := l.done ++ [{ a with prog := .ret rp.rtvl, got := a.got ++ RpHdr.codec.enc rp }] } := by
  have hgot := Step.got [] RpHdr.codec.size rmdirReply (RpHdr.codec.enc rp) (by decide)
    (Nat.le_of_eq (RpHdr.codec.enc_length rp))
  rw [List.nil_append, Codec.enc_length, Nat.sub_self, ← hp] at hgot
  have h₁ := h.step (.act _ _ (.got _) _ _ hc hgot (.got _ _ _ hin))
  have h₂ := h₁.step (.act _ _ .tau _ _ rfl (.readEnd _ _) (.tau _))
  rw [rmdirReply_negative rp hneg] at h₂
  have h₃ := h₂.step (.act _ _ .unlock (.ret rp.rtvl) _ rfl (.unlock _) (.unlock _))
  have h₄ := h₃.step (.finish _ _ _ rfl rfl)
  simpa [Act.next, Line.spoils, Ev.isErr, Ev.sent, Ev.received] using h₄

theorem rmdirMsg_isRequest (ouid : UInt32) : IsRequest (rmdirMsg ouid) :=
  ⟨default, .fuseRmdir pathA, rfl, ouid, rmdir_emission ouid⟩

theorem rmdirMsg_ouid (ouid : UInt32) : (OpHdr.codec.dec (rmdirMsg ouid)).ouid = ouid := by
  rw [rmdirMsg, Request.dec_bytes]
  rfl

/-- The peer answers a pending `fuse_rmdir` with an error. -/
theorem Line.Reach.answerRmdir {u : UInt32} {l : Line} (h : Line.Reach u l) (i : Nat)
    (ouid : UInt32) (hp : l.world.pending = tag i (rmdirMsg ouid)) : Line.Reach u
      { l with
        world := { l.world with
          pending := []
          inn := l.world.inn ++ RpHdr.codec.enc ⟨12, ouid, -2⟩
          log := l.world.log ++ [(tag i (rmdirMsg ouid), ⟨⟨12, ouid, -2⟩, []⟩)] } } := by
  have ha := World.Answer.mk l.world (tag i (rmdirMsg ouid)) [] ⟨⟨12, ouid, -2⟩, []⟩
    (by rw [tag_snd]; exact rmdirMsg_isRequest ouid) (by rw [hp, List.append_nil])
    ⟨rfl, by rw [tag_snd, rmdirMsg_ouid]⟩
  have h₁ := h.step (.answer _ _ _ ha)
  rwa [Reply.bytes, List.append_nil] at h₁

/-- The first call fails where it waits for its reply; the second one returns
    that reply, which has the first one's `ouid`. -/
theorem pairing_fails_readErr : ∃ l, Line.Reach 0 l ∧ (∀ x ∈ l.world.log, x.2.Plain) ∧
    ∃ (i : Nat) (a : Act) (v : Int32), l.done[i]? = some a ∧ a.prog = .ret v ∧ v ≠ -EBUSY ∧
      a.job.call.rejected = false ∧
      (replyHdr a.got).ouid ≠ (OpHdr.codec.dec a.sent).ouid := by
  have h₀ : Line.Reach 0 (Line.init 0) := .init
  have h₁ := h₀.rmdir rfl rfl
  have h₂ := h₁.readErr rfl rfl (Request.bytes_ne_nil _)
  have h₃ := h₂.answerRmdir 0 (0 + 1) (List.nil_append _)
  have h₄ := h₃.rmdir rfl rfl
  have h₅ := h₄.negative ⟨12, 0 + 1, -2⟩ [] rfl rfl (by decide) (List.append_nil _).symm
  refine ⟨_, h₅, ?_, 1, _, -2, rfl, rfl, by decide, rfl, ?_⟩
  · intro x hx
    rw [List.mem_singleton.1 hx]
    exact .inr rfl
  · rw [rmdirMsg_ouid, List.nil_append, ← List.append_nil (RpHdr.codec.enc _), replyHdr_enc]
    decide

/-- Three calls of `fuse_rmdir`. The first one fails before its first byte, which
    does no harm; the second one is answered; the third one fails where it waits
    for its reply. -/
theorem pairing_rmdir : ∃ l, Line.Reach 0 l ∧ ∃ a b c, l.done = [a, b, c] ∧ l.dirty = true ∧
    a.prog = .ret (-EBUSY) ∧ c.prog = .ret (-EBUSY) ∧
    b.prog = .ret (-2) ∧ ((∃ r, (tag 1 b.sent, r) ∈ l.world.log ∧ b.got = r.bytes) ∧
      (replyHdr b.got).ouid = (OpHdr.codec.dec b.sent).ouid) := by
  have h₀ : Line.Reach 0 (Line.init 0) := .init
  have h₁ := h₀.writeErr rfl rfl
  have h₂ := h₁.rmdir rfl rfl
  have h₃ := h₂.answerRmdir 1 (0 + 1 + 1) (List.nil_append _)
  have h₄ := h₃.negative ⟨12, 0 + 1 + 1, -2⟩ [] rfl rfl (by decide) (List.append_nil _).symm
  have h₅ := h₄.rmdir rfl rfl
  have h₆ := h₅.readErr rfl rfl (Request.bytes_ne_nil _)
  have hp : ∀ x ∈ ([] ++ [(tag 1 (rmdirMsg (0 + 1 + 1)), (⟨⟨12, 0 + 1 + 1, -2⟩, []⟩ : Reply))] :
      List (Tagged × Reply)), x.2.Plain := by
    intro x hx
    rw [List.mem_singleton.1 hx]
    exact .inr rfl
  have h := reply_pairing h₆ hp (i := 1) (v := -2) rfl rfl rfl (by decide)
  rcases h with hrej | hpair
  · cases hrej
  · exact ⟨_, h₆, _, _, _, rfl, rfl, rfl, rfl, rfl, hpair⟩

end Zhwkrfsp
