import Zhwkrfsp.Framing

/- Alignment of the reply stream. A reply is well framed when its `size` counts
   the header and the body. A handler is `Aligned` on a reply when every
   error-free run of it that returns has taken exactly that reply from the
   stream. The handlers return on a negative `rtvl` before they look at `size`,
   so a body after such a header stays in the stream; in every other case they
   are aligned, and a session of such calls gives each call its own reply. -/
namespace Zhwkrfsp
open Wire Chan

/-- A reply: its header and the bytes after it. -/
structure Reply where
  head : RpHdr
  body : Bytes

namespace Reply

def bytes (r : Reply) : Bytes := RpHdr.codec.enc r.head ++ r.body

def WellFramed (r : Reply) : Prop := r.head.size.toNat = RpHdr.codec.size + r.body.length

/-- The replies whose body, if any, the handlers read. -/
def Plain (r : Reply) : Prop := ¬r.head.rtvl < 0 ∨ r.body = []

end Reply

/-- The bytes a run received. -/
def receivedIn (tr : List (Ev UInt32)) : Bytes := (tr.map Ev.received).flatten

/-- Every error-free run on a stream that starts with the reply takes `size`
    bytes of it before it returns. -/
def Aligned (m : Locals) (c : Call) (r : Reply) : Prop :=
  ∀ tr v rest, Run (c.prog m) tr (.ret v) → (∀ e ∈ tr, e.isErr = false) →
    receivedIn tr <+: r.bytes ++ rest → (receivedIn tr).length = r.head.size.toNat

namespace Exchange
variable {α : Type} {rej : Prop} {φ : Bytes → Prop} {val : α → Int32}

/-- Whatever has arrived of a reply, its header is the reply's. -/
theorem replyHdr_of_isPrefix {g rest : Bytes} {r : Reply} (hg : RpHdr.codec.size ≤ g.length)
    (h : g <+: r.bytes ++ rest) : replyHdr g = r.head := by
  obtain ⟨rest', e⟩ := h
  rw [← replyHdr_append hg rest', e, Reply.bytes, List.append_assoc, replyHdr_enc]

/-- At the return, a reply that is plain has been taken as a whole. -/
theorem ret_aligned {s g rest : Bytes} {a : α} {r : Reply} (h : Exchange rej φ val s g (.ret a))
    (hs : ¬(rej ∧ s = [])) (hf : r.WellFramed) (hp : r.Plain) (hg : g <+: r.bytes ++ rest) :
    g = r.bytes := by
  have hlen : g.length = r.head.size.toNat := by
    rcases h.ret_cases with ⟨h0, h1, -⟩ | ⟨-, h12, hneg, -⟩ | ⟨-, h12, -, hall⟩
    · exact absurd ⟨h0, h1⟩ hs
    · rw [replyHdr_of_isPrefix (Nat.le_of_eq h12.symm) hg] at hneg
      have hb := hp.resolve_left (not_not.2 hneg)
      rw [hf, hb, h12]; rfl
    · rw [hall, replyHdr_of_isPrefix h12 hg]
  have hr : r.bytes.length = r.head.size.toNat := by
    rw [hf, Reply.bytes, List.length_append, Codec.enc_length]
  exact (List.prefix_of_prefix_length_le hg (List.prefix_append _ _) (by omega)).eq_of_length
    (by omega)

/-- The first bytes a handler reads are a header, and a negative one ends it. -/
theorem header_inv {s g : Bytes} {n : Nat} {k : Option Bytes → Io α}
    (h : Exchange rej φ val s g (.read [] n k)) (hg : g = []) (hd : Bytes) (hlen : hd.length = n)
    (hneg : (replyHdr hd).rtvl < 0) : ∃ a, k (some hd) = .unlock (.ret a) := by
  cases h with
  | header _ _ _ _ _ _ _ hk _ => simpa using hk hd hlen hneg
  | body _ h' _ _ _ _ hh =>
    rw [List.append_nil] at hg
    rw [hg] at hh
    cases hh

/-- On a negative `rtvl` the header is all a handler takes. -/
theorem negative_run {s g buf : Bytes} {k : Bool → Io α} (h : Exchange rej φ val s g (.write buf k))
    (hb : buf ≠ []) (rp : RpHdr) (hneg : rp.rtvl < 0) :
    ∃ tr a, Run (.write buf k) tr (.ret a) ∧ (∀ e ∈ tr, e.isErr = false) ∧
      receivedIn tr = RpHdr.codec.enc rp := by
  obtain ⟨-, hk, r, hr⟩ := h.write_inv
  rw [hr] at hk
  have hhdr : replyHdr (RpHdr.codec.enc rp) = rp := by
    simpa using replyHdr_enc rp []
  have hlen := RpHdr.codec.enc_length rp
  have hne : RpHdr.codec.enc rp ≠ [] := by
    intro h0
    rw [h0] at hlen
    cases hlen
  obtain ⟨a, ha⟩ := hk.header_inv rfl (RpHdr.codec.enc rp) hlen (by rwa [hhdr])
  have tw := Run.write_all k hb
  have tr := Run.read_all r hne
  rw [hr] at tw
  rw [hlen, ha] at tr
  refine ⟨_, a, (tw.trans tr).trans (.single (.unlock _)), ?_, ?_⟩
  · simp [Ev.isErr]
  · simp [receivedIn, Ev.received]

end Exchange

/-! One call. -/

theorem Request.message_ne_nil (r : Request) : r.message ≠ [] := by
  intro h
  have hlen := r.message_length
  rw [h] at hlen
  cases r with
  | writing head wr payload =>
    cases payload with
    | none => cases hlen
    | some payload => exact absurd hlen (by simp only [List.length_nil]; omega)
  | _ => cases hlen

/-- A run that returns has taken exactly the reply, if the reply is plain. -/
theorem Call.run_aligned {m : Locals} {c : Call} (hc : c.rejected = false) {r : Reply}
    (hf : r.WellFramed) (hp : r.Plain) {tr : List (Ev UInt32)} {v : Int32} {rest : Bytes}
    (t : Run (c.prog m) tr (.ret v)) (he : ∀ e ∈ tr, e.isErr = false)
    (hg : receivedIn tr <+: r.bytes ++ rest) : receivedIn tr = r.bytes :=
  ((c.exchange m).run t he).ret_aligned (by simp [hc]) hf hp hg

/-- A call that emits its request is aligned on a well-framed reply exactly when
    the reply is plain. -/
theorem aligned_iff {m : Locals} {uid : UInt32} {c : Call} {msg : Bytes}
    (hsend : ((c.prog m).emit uid).1 = some msg) {r : Reply} (hf : r.WellFramed) :
    Aligned m c r ↔ r.Plain := by
  have hlen : r.bytes.length = r.head.size.toNat := by
    rw [hf, Reply.bytes, List.length_append, Codec.enc_length]
  constructor
  · intro hal
    by_contra hp
    rw [Reply.Plain, not_or, not_not] at hp
    obtain ⟨hneg, hbody⟩ := hp
    have hmsg : msg ≠ [] := (Call.emit_some hsend).2 ▸ Request.message_ne_nil _
    obtain ⟨tr, k, t, he, hr⟩ := Run.to_emit (Prod.ext hsend rfl)
    have hx := (c.exchange m).run t he
    obtain ⟨tr', v, t', he', hr'⟩ := hx.negative_run hmsg r.head hneg
    have hrec : receivedIn (tr ++ tr') = RpHdr.codec.enc r.head := by
      rw [receivedIn, List.map_append, List.flatten_append, hr]
      exact hr'
    have hall := hal _ v [] (t.trans t') (fun e h => (List.mem_append.1 h).elim (he e) (he' e))
      (by rw [hrec, Reply.bytes, List.append_assoc]; exact List.prefix_append _ _)
    rw [hrec, Codec.enc_length, hf] at hall
    exact hbody (List.eq_nil_of_length_eq_zero (by omega))
  · intro hp tr v rest t he hg
    rw [Call.run_aligned (Call.emit_some hsend).1 hf hp t he hg, hlen]

/-! Sessions. -/

/-- One call of a session with the peer's reply to it; a call that the open
    checks reject has none. -/
structure Turn where
  job : Job
  reply : Option Reply

namespace Turn

def bytes (t : Turn) : Bytes := (t.reply.map Reply.bytes).getD []

/-- The call sends and gets a well-framed reply, or it is rejected and gets none. -/
def Answered (t : Turn) : Prop :=
  match t.reply with
  | none => t.job.call.rejected = true
  | some r =>
    (∃ uid msg, ((t.job.call.prog t.job.locals).emit uid).1 = some msg) ∧ r.WellFramed

/-- The call takes exactly its reply. -/
def Aligned (t : Turn) : Prop :=
  ∀ r, t.reply = some r → Zhwkrfsp.Aligned t.job.locals t.job.call r

/-- `rtvl` is not negative, or the body is empty. -/
def Plain (t : Turn) : Prop := ∀ r, t.reply = some r → ¬r.head.rtvl < 0 ∨ r.body = []

end Turn

/-- Calls made one after another, each returning without an I/O error, with
    their traces. -/
inductive Session : List Turn → List (List (Ev UInt32)) → Prop
  | nil : Session [] []
  | cons {t tr v ts trs} (run : Run (t.job.call.prog t.job.locals) tr (.ret v))
      (ok : ∀ e ∈ tr, e.isErr = false) (rest : Session ts trs) : Session (t :: ts) (tr :: trs)

/-- One call of a session takes exactly the bytes of its turn. -/
theorem turn_aligned {t : Turn} (ha : t.Answered) (hp : t.Plain) {tr : List (Ev UInt32)} {v : Int32}
    {rest : Bytes} (run : Run (t.job.call.prog t.job.locals) tr (.ret v))
    (ok : ∀ e ∈ tr, e.isErr = false) (hg : receivedIn tr <+: t.bytes ++ rest) :
    receivedIn tr = t.bytes := by
  obtain ⟨j, reply⟩ := t
  cases reply with
  | none =>
    have hrej : j.call.rejected = true := ha
    rcases Call.sent_of_run j.locals run ok with ⟨-, -, hr⟩ | ⟨hacc, -⟩
    · exact hr
    · rw [hrej] at hacc
      cases hacc
  | some r =>
    obtain ⟨⟨uid, msg, hsend⟩, hf⟩ := ha
    exact Call.run_aligned (Call.emit_some hsend).1 hf (hp r rfl) run ok hg

theorem session_aligned : ∀ {ts : List Turn} {trs : List (List (Ev UInt32))} {rest : Bytes},
    Session ts trs → (∀ t ∈ ts, t.Answered) → (∀ t ∈ ts, t.Plain) →
    (trs.map receivedIn).flatten <+: (ts.map Turn.bytes).flatten ++ rest →
    trs.map receivedIn = ts.map Turn.bytes
  | _, _, _, .nil, _, _, _ => rfl
  | t :: ts, tr :: trs, rest, .cons run ok hs, ha, hp, hg => by
    simp only [List.map_cons, List.flatten_cons, List.append_assoc] at hg ⊢
    have h₁ := turn_aligned (ha t List.mem_cons_self) (hp t List.mem_cons_self) run ok
      ((List.prefix_append _ _).trans hg)
    rw [h₁, List.prefix_append_right_inj] at hg
    rw [h₁, session_aligned hs (fun t' h => ha t' (List.mem_cons_of_mem _ h))
      (fun t' h => hp t' (List.mem_cons_of_mem _ h)) hg]

/-- **Reply alignment.** In a sequence of calls with well-framed replies, a call
    is aligned exactly when its reply's `rtvl` is not negative or its body is
    empty; and if all are, every call of a session takes exactly its own reply,
    so that each `wait_reply` starts at a reply header. -/
theorem reply_alignment (ts : List Turn) (h : ∀ t ∈ ts, t.Answered) :
    (∀ t ∈ ts, t.Aligned ↔ t.Plain) ∧
      ((∀ t ∈ ts, t.Plain) → ∀ trs rest, Session ts trs →
        (trs.map receivedIn).flatten <+: (ts.map Turn.bytes).flatten ++ rest →
        trs.map receivedIn = ts.map Turn.bytes) := by
  refine ⟨fun t ht => forall_congr' fun r => forall_congr' fun hr => ?_,
    fun hp trs rest hs hg => session_aligned hs h hp hg⟩
  have ha := h t ht
  rw [Turn.Answered, hr] at ha
  obtain ⟨⟨uid, msg, hsend⟩, hf⟩ := ha
  exact aligned_iff hsend hf

/-- An open that fails, the reply carrying a `struct RpOpen` all the same. -/
theorem alignment_fails_negative :
    let r : Reply := ⟨⟨28, 1, -2⟩, List.replicate 16 0⟩
    r.WellFramed ∧ ¬Aligned default (.fuseOpen pathA ⟨0, false, false, 0⟩) r := by
  have hsend : (((Call.fuseOpen pathA ⟨0, false, false, 0⟩).prog default).emit 0).1 = some _ :=
    Call.emit_sendable default 0 rfl
  have hf : Reply.WellFramed ⟨⟨28, 1, -2⟩, List.replicate 16 0⟩ := rfl
  refine ⟨hf, fun hal => ?_⟩
  rcases (aligned_iff hsend hf).1 hal with h | h
  · exact h (by decide)
  · cases h

/-! A session of three calls. -/

def rmdirMsg (ouid : UInt32) : Bytes := (fuseRmdir.request default pathA ouid).bytes

def unlinkMsg (ouid : UInt32) : Bytes := (fuseUnlink.request default pathA ouid).bytes

theorem rmdir_emission (ouid : UInt32) :
    (fuseRmdir.request default pathA ouid).emission = some (rmdirMsg ouid) :=
  Request.emission_of_small (Call.Sendable.small (c := .fuseRmdir pathA) rfl default ouid)

theorem unlink_emission (ouid : UInt32) :
    (fuseUnlink.request default pathA ouid).emission = some (unlinkMsg ouid) :=
  Request.emission_of_small (Call.Sendable.small (c := .fuseUnlink pathA) rfl default ouid)

/-- The reply header with which the peer refuses a request. -/
def refusedHdr (ouid : UInt32) : RpHdr := ⟨12, ouid, -2⟩

/-- A handler whose request and whose reply header pass in one piece each. -/
theorem converse_run {β : Type} {req : Request} {msg : Bytes} (he : req.emission = some msg)
    (old : β) (onReply : RpHdr → Io (Int32 × β)) (rp : RpHdr) :
    Run (Prod.fst <$> converse req old onReply)
      [.wrote msg, .tau, .got (RpHdr.codec.enc rp), .tau]
      (Prod.fst <$> if rp.rtvl < 0 then warn rp.rtvl old else onReply rp) := by
  have hne : msg ≠ [] := (Request.emission_eq he).1 ▸ Request.message_ne_nil _
  have hlen := RpHdr.codec.enc_length rp
  have hhdr : RpHdr.codec.enc rp ≠ [] := by
    intro h0
    rw [h0] at hlen
    cases hlen
  have hw := Run.write_all (fun ok => Prod.fst <$> if ok then
    .read [] RpHdr.codec.size (replied old onReply) else warn (-EBUSY) old) hne
  have hr := Run.read_all (fun r => Prod.fst <$> replied old onReply r) hhdr
  rw [hlen, replied, Option.map_some, Codec.dec_enc_nil] at hr
  rw [converse_emission he]
  exact hw.trans hr

theorem converse_refused {β : Type} {req : Request} {msg : Bytes} (he : req.emission = some msg)
    (old : β) (onReply : RpHdr → Io (Int32 × β)) (ouid : UInt32) :
    Run (Prod.fst <$> converse req old onReply)
      [.wrote msg, .tau, .got (RpHdr.codec.enc (refusedHdr ouid)), .tau, .unlock] (.ret (-2)) :=
  (converse_run he old onReply (refusedHdr ouid)).trans (.single (.unlock _))

/-- A handler whose first write fails. -/
theorem converse_failed {β : Type} {req : Request} {msg : Bytes} (he : req.emission = some msg)
    (old : β) (onReply : RpHdr → Io (Int32 × β)) :
    Run (Prod.fst <$> converse req old onReply) [.writeErr, .unlock] (.ret (-EBUSY)) := by
  have hne : msg ≠ [] := (Request.emission_eq he).1 ▸ Request.message_ne_nil _
  rw [converse_emission he]
  exact .step (.writeErr _ _ hne) (.single (.unlock _))

theorem converse_passed {β : Type} {req : Request} {msg : Bytes} (he : req.emission = some msg)
    (old : β) (onReply : RpHdr → Io (Int32 × β)) {rp : RpHdr} (hpos : ¬rp.rtvl < 0) :
    Run (Prod.fst <$> converse req old onReply) [.wrote msg, .tau, .got (RpHdr.codec.enc rp), .tau]
      (Prod.fst <$> onReply rp) := by
  have h := converse_run he old onReply rp
  rwa [if_neg hpos] at h

/-- A handler whose reply has one struct. -/
theorem structBody_run {β γ : Type} (c : Codec γ) (hc : c.size < 2 ^ 31) (hpos : 0 < c.size)
    (old : β) (use : γ → β) {rp : RpHdr} (hsize : rp.size.toUInt64 = sizeof RpHdr.codec + sizeof c)
    (x : γ) : Run (Prod.fst <$> structBody c old use rp) [.got (c.enc x), .tau, .unlock]
      (.ret 0 : Io Int32) := by
  have hne : c.enc x ≠ [] := by
    intro h0
    have hlen := c.enc_length x
    rw [h0] at hlen
    rw [← hlen] at hpos
    cases hpos
  have hread : reRead (sizeof c) = Prog.recv c.size := sockread_ofNat hc
  rw [structBody, if_neg (not_not.2 hsize), hread]
  have hr := fun k : Option Bytes → Io Int32 => Run.read_all k hne
  simp only [c.enc_length] at hr
  exact (hr _).trans (.single (.unlock _))

theorem rmdir_eq (m : Locals) (dn : Path) : (Call.fuseRmdir dn).prog m =
    .lock (.get fun u => .set (u + 1) (.get fun ouid =>
      Prod.fst <$> converse (fuseRmdir.request m dn ouid) () (headerOnly fun _ => 0))) := rfl

/-- What `fuse_rmdir` does, finding `opuid` at `u`, when the peer refuses it. -/
def refusedTrace (u : UInt32) : List (Ev UInt32) :=
  [.lock, .get u, .set (u + 1), .get (u + 1), .wrote (rmdirMsg (u + 1)), .tau,
    .got (RpHdr.codec.enc (refusedHdr (u + 1))), .tau, .unlock]

theorem rmdir_refused (u : UInt32) :
    Run ((Call.fuseRmdir pathA).prog default) (refusedTrace u) (.ret (-2)) := by
  rw [rmdir_eq, refusedTrace]
  exact .step (.lock _) (.step (.get _ u) (.step (.set _ _) (.step (.get _ (u + 1))
    (converse_refused (rmdir_emission (u + 1)) _ _ (u + 1)))))

theorem statfs_eq (m : Locals) (fn : Path) (fstat : Statvfs) : (Call.fuseStatfs fn fstat).prog m =
    .lock (.get fun u => .set (u + 1) (.get fun ouid => Prod.fst <$> converse
      (fuseStatfs.request m fn ouid) fstat (structBody Ustatvfs.codec fstat fallStatvfs))) := rfl

/-- What `fuse_statfs` does when it is answered with `x`. -/
def statfsTrace (u : UInt32) (x : Ustatvfs) : List (Ev UInt32) :=
  [.lock, .get u, .set (u + 1), .get (u + 1), .wrote (fuseStatfs.request default pathA (u + 1)).bytes,
    .tau, .got (RpHdr.codec.enc ⟨100, u + 1, 0⟩), .tau, .got (Ustatvfs.codec.enc x), .tau, .unlock]

theorem statfs_answered (u : UInt32) (x : Ustatvfs) :
    Run ((Call.fuseStatfs pathA default).prog default) (statfsTrace u x) (.ret 0) := by
  have he : (fuseStatfs.request default pathA (u + 1)).emission = some _ :=
    Request.emission_of_small
      (Call.Sendable.small (c := .fuseStatfs pathA default) rfl default (u + 1))
  have hpos : ¬(⟨100, u + 1, 0⟩ : RpHdr).rtvl < 0 := show ¬(0 : Int32) < 0 by decide
  have hsize : (100 : UInt32).toUInt64 = sizeof RpHdr.codec + sizeof Ustatvfs.codec := rfl
  have hbody : Run (Prod.fst <$> structBody Ustatvfs.codec (default : Statvfs) fallStatvfs
      ⟨100, u + 1, 0⟩) [.got (Ustatvfs.codec.enc x), .tau, .unlock] (.ret 0 : Io Int32) :=
    structBody_run Ustatvfs.codec (by decide) (by decide) _ _ hsize x
  have hrun := (converse_passed he (default : Statvfs)
    (structBody Ustatvfs.codec default fallStatvfs) hpos).trans hbody
  rw [statfs_eq, statfsTrace]
  exact .step (.lock _) (.step (.get _ u) (.step (.set _ _) (.step (.get _ (u + 1)) hrun)))

/-- An open that the checks reject, a rmdir that the peer refuses, and a statfs. -/
def threeTurns : List Turn :=
  [⟨Job.fresh (.fuseOpen pathA ⟨0, true, false, 0⟩), none⟩,
    ⟨Job.fresh (.fuseRmdir pathA), some ⟨refusedHdr 2, []⟩⟩,
    ⟨Job.fresh (.fuseStatfs pathA default),
      some ⟨⟨100, 3, 0⟩, Ustatvfs.codec.enc (unifyStatvfs default)⟩⟩]

def threeTraces : List (List (Ev UInt32)) :=
  [[.lock, .get 0, .set 1, .get 1, .unlock], refusedTrace 1, statfsTrace 2 (unifyStatvfs default)]

theorem threeTurns_session : Session threeTurns threeTraces := by
  have hopen : Run ((Call.fuseOpen pathA ⟨0, true, false, 0⟩).prog default)
      [.lock, .get 0, .set 1, .get 1, .unlock] (.ret (-22)) :=
    .step (.lock _) (.step (.get _ 0) (.step (.set 1 _) (.step (.get _ 1) (.single (.unlock _)))))
  refine .cons hopen ?_ (.cons (rmdir_refused 1) ?_ (.cons (statfs_answered 2 _) ?_ .nil))
  · decide
  · simp [refusedTrace, Ev.isErr]
  · simp [statfsTrace, Ev.isErr]

theorem threeTurns_answered : ∀ t ∈ threeTurns, t.Answered := by
  have hstatfs : Reply.WellFramed ⟨⟨100, 3, 0⟩, Ustatvfs.codec.enc (unifyStatvfs default)⟩ := by
    rw [Reply.WellFramed, Codec.enc_length]
    rfl
  unfold threeTurns
  simp only [List.forall_mem_cons]
  exact ⟨rfl, ⟨⟨0, _, Call.emit_sendable default 0 (c := .fuseRmdir pathA) rfl⟩, rfl⟩,
    ⟨⟨0, _, Call.emit_sendable default 0 (c := .fuseStatfs pathA default) rfl⟩, hstatfs⟩,
    List.forall_mem_nil _⟩

theorem alignment_statfs : Session threeTurns threeTraces ∧
    (∀ t ∈ threeTurns, t.Aligned) ∧ threeTraces.map receivedIn = threeTurns.map Turn.bytes := by
  have h := reply_alignment threeTurns threeTurns_answered
  have hp : ∀ t ∈ threeTurns, t.Plain := by
    unfold threeTurns
    simp only [List.forall_mem_cons]
    refine ⟨nofun, fun r hr => ?_, fun r hr => ?_, List.forall_mem_nil _⟩
    · cases hr
      exact .inr rfl
    · cases hr
      exact .inl (by decide)
  refine ⟨threeTurns_session, fun t ht => (h.1 t ht).2 (hp t ht),
    h.2 hp threeTraces [] threeTurns_session ?_⟩
  simp [threeTraces, threeTurns, refusedTrace, statfsTrace, receivedIn, Ev.received, Turn.bytes,
    Reply.bytes]

end Zhwkrfsp
