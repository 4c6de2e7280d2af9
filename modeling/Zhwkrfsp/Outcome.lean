import Zhwkrfsp.Alignment
import Zhwkrfsp.Reading

/- What a handler makes of a reply. `Call.outcome` reads the value a handler returns
   and its out-parameter off the reply alone, as if the peer were called directly:
   neither `opuid`, nor what the frame held before, nor how the bytes arrive enters
   into it. `reply_outcome` says that every error-free run which takes the reply
   ends so, and that every reply the handler accepts (`Call.Accepts`) is taken. -/
namespace Zhwkrfsp
open Wire Chan

namespace Call

/-- The out-parameter of a handler; for `fuse_readdir`, the calls of `fill`. -/
def Out : Call → Type
  | .fuseGetattr .. => Stat
  | .fuseReadlink .. => Bytes
  | .fuseOpen .. => FileInfo
  | .fuseRead .. => Bytes
  | .fuseStatfs .. => Statvfs
  | .fuseOpendir .. => FileInfo
  | .fuseReaddir .. => List FillArg
  | .fuseCreat .. => FileInfo
  | _ => Unit

/-- The handler with its out-parameter. -/
def handler (m : Locals) : (c : Call) → Io (Int32 × c.Out)
  | .fuseGetattr fn st => Zhwkrfsp.fuseGetattr m fn st
  | .fuseReadlink fn dest => Zhwkrfsp.fuseReadlink m fn dest
  | .fuseMkdir dn mode => Zhwkrfsp.fuseMkdir m dn mode
  | .fuseRmdir dn => Zhwkrfsp.fuseRmdir m dn
  | .fuseSymlink fn srcfn => Zhwkrfsp.fuseSymlink m fn srcfn
  | .fuseChmod fn mode => Zhwkrfsp.fuseChmod m fn mode
  | .fuseTruncate fn pos => Zhwkrfsp.fuseTruncate m fn pos
  | .fuseOpen fn fi => Zhwkrfsp.fuseOpen m fn fi
  | .fuseRead fn buf pos fi => Zhwkrfsp.fuseRead m fn buf pos fi
  | .fuseWrite fn buf pos fi => Zhwkrfsp.fuseWrite m fn buf pos fi
  | .fuseStatfs fn fstat => Zhwkrfsp.fuseStatfs m fn fstat
  | .fuseRelease fi => Zhwkrfsp.fuseRelease m fi
  | .fuseOpendir dn fi => Zhwkrfsp.fuseOpendir m dn fi
  | .fuseReaddir dn fill offset fi => Zhwkrfsp.fuseReaddir m dn fill offset fi
  | .fuseReleasedir fi => Zhwkrfsp.fuseReleasedir m fi
  | .fuseAccess fn amode => Zhwkrfsp.fuseAccess m fn amode
  | .fuseUnlink fn => Zhwkrfsp.fuseUnlink m fn
  | .fuseCreat fn mode fi => Zhwkrfsp.fuseCreat m fn mode fi
  | .fuseUtimens fn atime mtime => Zhwkrfsp.fuseUtimens m fn atime mtime

theorem prog_eq (m : Locals) (c : Call) : c.prog m = Prod.fst <$> c.handler m := by
  cases c with
  | _ => rfl

/-- The out-parameter before the call. -/
def param : (c : Call) → c.Out
  | .fuseGetattr _ st => st
  | .fuseReadlink _ dest => dest
  | .fuseOpen _ fi => fi
  | .fuseRead _ buf _ _ => buf
  | .fuseStatfs _ fstat => fstat
  | .fuseOpendir _ fi => fi
  | .fuseReaddir .. => []
  | .fuseCreat _ _ fi => fi
  | .fuseMkdir .. | .fuseRmdir .. | .fuseSymlink .. | .fuseChmod .. | .fuseTruncate ..
  | .fuseWrite .. | .fuseRelease .. | .fuseReleasedir .. | .fuseAccess .. | .fuseUnlink ..
  | .fuseUtimens .. => ()

/-- What a reply that reports no error is made into. -/
def made : (c : Call) → Reply → Int32 × c.Out
  | .fuseGetattr .., r => (0, fallStat (Ustat.codec.dec r.body))
  | .fuseReadlink _ dest, r => (0, r.body ++ dest.drop r.body.length)
  | .fuseOpen _ fi, r => (0, setHandle fi (RpOpen.codec.dec r.body))
  | .fuseRead _ buf _ _, r => (r.head.rtvl, r.body ++ buf.drop r.body.length)
  | .fuseStatfs .., r => (0, fallStatvfs (Ustatvfs.codec.dec r.body))
  | .fuseOpendir _ fi, r => (0, setHandle fi (RpOpen.codec.dec r.body))
  | .fuseReaddir _ fill _ _, r =>
    (0, fillLoop fill (dirents (r.body.length / Udirent.codec.size) r.body) [])
  | .fuseCreat _ _ fi, r => (0, setHandle fi (RpOpen.codec.dec r.body))
  | .fuseWrite .., r => (r.head.rtvl, ())
  | .fuseMkdir .., _ | .fuseRmdir .., _ | .fuseSymlink .., _ | .fuseChmod .., _
  | .fuseTruncate .., _ | .fuseRelease .., _ | .fuseReleasedir .., _ | .fuseAccess .., _
  | .fuseUnlink .., _ | .fuseUtimens .., _ => (0, ())

/-- The value and the out-parameter, given the reply. -/
def outcome (c : Call) (r : Reply) : Int32 × c.Out :=
  if r.head.rtvl < 0 then (r.head.rtvl, c.param) else c.made r

end Call

/-! What is known at a return. -/

section
variable {β : Type} {old : β} {use : Reply → Int32 × β}

/-- The result is that of a call rejected before its request, when nothing has been
    received, and what `use` makes of the reply, when that is what has been received. -/
def Makes (old : β) (use : Reply → Int32 × β) (out : Int32 × β) (g : Bytes) : Prop :=
  (g = [] → out = (-EINVAL, old)) ∧
    ∀ r : Reply, g = r.bytes → out = if r.head.rtvl < 0 then (r.head.rtvl, old) else use r

theorem Reply.bytes_ne_nil (r : Reply) : r.bytes ≠ [] := by
  intro h
  have hlen := congrArg List.length h
  rw [Reply.bytes, List.length_append, Codec.enc_length, RpHdr.size_codec] at hlen
  simp at hlen

/-- A reply is its header, as it has been received, and its body. -/
theorem Reply.eq_of_bytes {hd body : Bytes} {r : Reply} (hlen : hd.length = RpHdr.codec.size)
    (h : hd ++ body = r.bytes) : r.head = replyHdr hd ∧ r.body = body := by
  have henc : hd.length = (RpHdr.codec.enc r.head).length := by rw [hlen, Codec.enc_length]
  obtain ⟨rfl, rfl⟩ := List.append_inj h henc
  have hhdr := replyHdr_enc r.head []
  rw [List.append_nil] at hhdr
  exact ⟨hhdr.symm, rfl⟩

theorem Makes.rejected : Makes old use (-EINVAL, old) [] :=
  ⟨fun _ => rfl, fun r h => absurd h.symm r.bytes_ne_nil⟩

/-- At a return after a header `hd` and a body. -/
theorem Makes.received {hd body : Bytes} {out : Int32 × β} (hlen : hd.length = RpHdr.codec.size)
    (h : ∀ r : Reply, r.head = replyHdr hd → r.body = body →
      out = if r.head.rtvl < 0 then (r.head.rtvl, old) else use r) :
    Makes old use out (hd ++ body) := by
  refine ⟨fun hnil => ?_, fun r hr => ?_⟩
  · rw [(List.append_eq_nil_iff.1 hnil).1] at hlen
    cases hlen
  · obtain ⟨hh, hb⟩ := Reply.eq_of_bytes hlen hr
    exact h r hh hb

/-! The shared parts of the handlers. -/

theorem converse_ends (req : Request) {onReply : RpHdr → Io (Int32 × β)}
    (h : ∀ hd, hd.length = RpHdr.codec.size → ¬(replyHdr hd).rtvl < 0 →
      (onReply (replyHdr hd)).Ends (Makes old use) hd) :
    (converse req old onReply).Ends (Makes old use) [] := by
  cases e : req.emission with
  | none =>
    rw [converse, Option.map_eq_none_iff.1 e]
    trivial
  | some msg =>
    rw [converse_emission e]
    intro hd hlen
    have hdec : RpHdr.codec.dec hd = replyHdr hd := by
      rw [replyHdr, List.take_of_length_le (Nat.le_of_eq hlen)]
    rw [List.nil_append, replied, Option.map_some, hdec]
    show (if (replyHdr hd).rtvl < 0 then warn (replyHdr hd).rtvl old
      else onReply (replyHdr hd)).Ends (Makes old use) hd
    split
    · next hneg =>
      have hm : Makes old use ((replyHdr hd).rtvl, old) (hd ++ []) := by
        apply Makes.received hlen
        intro r hh _
        rw [hh, if_pos hneg]
      rwa [List.append_nil] at hm
    · next hpos => exact h hd hlen hpos

/-- Receiving the rest of a reply. -/
theorem reRead_ends {R : Int32 × β → Bytes → Prop} {remain : UInt64} {g : Bytes}
    {f : Option Bytes → Io (Int32 × β)}
    (h : ∀ body, body.length = remain.toUInt32.toNat → (f (some body)).Ends R (g ++ body)) :
    (reRead remain >>= f).Ends R g := by
  rw [reRead, sockread_toInt32]
  split
  · exact h
  · trivial

theorem headerOnly_ends {rtvl : RpHdr → Int32} {hd : Bytes}
    (hlen : hd.length = RpHdr.codec.size) (hpos : ¬(replyHdr hd).rtvl < 0) :
    (headerOnly rtvl (replyHdr hd)).Ends (Makes () fun r => (rtvl r.head, ())) hd := by
  unfold headerOnly
  split
  · trivial
  · have hm : Makes () (fun r => (rtvl r.head, ())) (rtvl (replyHdr hd), ()) (hd ++ []) := by
      apply Makes.received hlen
      intro r hh _
      rw [hh, if_neg hpos]
    rwa [List.append_nil] at hm

theorem structBody_ends {γ : Type} (c : Codec γ) (use : γ → β) {hd : Bytes}
    (hlen : hd.length = RpHdr.codec.size) (hpos : ¬(replyHdr hd).rtvl < 0) :
    (structBody c old use (replyHdr hd)).Ends (Makes old fun r => (0, use (c.dec r.body))) hd := by
  unfold structBody
  split
  · trivial
  · apply reRead_ends
    intro body _
    apply Makes.received hlen
    intro r hh hb
    rw [hh, hb, if_neg hpos]

end

/-! The handlers whose body has no fixed size. -/

section
variable {hd : Bytes} (hlen : hd.length = RpHdr.codec.size) (hpos : ¬(replyHdr hd).rtvl < 0)
include hlen hpos

theorem readlinkOn_ends (dest : Bytes) : (readlinkOn dest (replyHdr hd)).Ends
    (Makes dest fun r => (0, r.body ++ dest.drop r.body.length)) hd := by
  unfold readlinkOn
  split
  · trivial
  · apply reRead_ends
    intro body _
    apply Makes.received hlen
    intro r hh hb
    rw [hh, hb, if_neg hpos]

theorem readOn_ends (buf : Bytes) : (readOn buf (replyHdr hd)).Ends
    (Makes buf fun r => (r.head.rtvl, r.body ++ buf.drop r.body.length)) hd := by
  unfold readOn
  split
  · trivial
  split
  · trivial
  · apply reRead_ends
    intro body _
    apply Makes.received hlen
    intro r hh hb
    rw [hh, hb, if_neg hpos]

theorem readdirOn_ends (fill : Fill) : (readdirOn fill (replyHdr hd)).Ends
    (Makes [] fun r =>
      (0, fillLoop fill (dirents (r.body.length / Udirent.codec.size) r.body) [])) hd := by
  unfold readdirOn
  split
  · trivial
  · next hsize =>
    apply reRead_ends
    intro body hbody
    -- the number of records is taken from the header's `size`
    have hdircnt : (((replyHdr hd).size.toUInt64 - sizeof RpHdr.codec) /
        sizeof Udirent.codec).toNat = body.length / Udirent.codec.size := by
      have hs : (sizeof RpHdr.codec).toNat = 12 := rfl
      have hu : (sizeof Udirent.codec).toNat = 280 := rfl
      have hlt := (replyHdr hd).size.toNat_lt
      rw [UInt64.lt_iff_toNat_lt, UInt32.toNat_toUInt64, hs] at hsize
      rw [sub_hdr_toNat, if_pos (by omega)] at hbody
      rw [UInt64.toNat_div, UInt64.toNat_sub, UInt32.toNat_toUInt64, hs, hu, hbody,
        Udirent.size_codec]
      omega
    apply Makes.received hlen
    intro r hh hb
    rw [hh, hb, if_neg hpos, hdircnt]

end

/-! Whole handlers. -/

/-- A handler that makes its result of its reply. -/
structure Yields {β : Type} (old : β) (use : Reply → Int32 × β) (p : Io (Int32 × β)) : Prop where
  ends : p.Ends (Makes old use) []

section
variable {β : Type} {old : β} {use : Reply → Int32 × β} {p : UInt32 → Io (Int32 × β)}

theorem enter_yields (h : ∀ ouid, Yields old use (p ouid)) : Yields old use (enter >>= p) :=
  ⟨fun _ ouid => (h ouid).ends⟩

theorem load_yields (h : ∀ ouid, Yields old use (p ouid)) : Yields old use (Prog.load >>= p) :=
  ⟨fun ouid => (h ouid).ends⟩

theorem store_yields {u : UInt32} {p : Io (Int32 × β)} (h : Yields old use p) :
    Yields old use (Prog.store u >>= fun _ => p) := ⟨h.ends⟩

theorem openChecks_yields {fi : FileInfo} {use : Reply → Int32 × FileInfo} {unsupported : UInt32}
    {k : Io (Int32 × FileInfo)} (h : Yields fi use k) :
    Yields fi use (openChecks fi unsupported k) := by
  unfold openChecks
  split
  · exact ⟨Makes.rejected⟩
  split
  · exact ⟨Makes.rejected⟩
  · exact h

theorem headerOnly_yields (req : Request) (rtvl : RpHdr → Int32) :
    Yields () (fun r => (rtvl r.head, ())) (converse req () (headerOnly rtvl)) :=
  ⟨converse_ends req fun _ hlen hpos => headerOnly_ends hlen hpos⟩

theorem structBody_yields {γ : Type} (req : Request) (c : Codec γ) (old : β) (use : γ → β) :
    Yields old (fun r => (0, use (c.dec r.body))) (converse req old (structBody c old use)) :=
  ⟨converse_ends req fun _ hlen hpos => structBody_ends c use hlen hpos⟩

theorem open_yields (req : Request) (fi : FileInfo) (unsupported : UInt32) :
    Yields fi (fun r => (0, setHandle fi (RpOpen.codec.dec r.body)))
      (openChecks fi unsupported
        (converse req fi (structBody RpOpen.codec fi (setHandle fi)))) :=
  openChecks_yields (structBody_yields req RpOpen.codec fi (setHandle fi))

end

/-- Every handler makes its outcome of the reply. -/
theorem Call.handler_yields (m : Locals) (c : Call) :
    Yields c.param c.made (c.handler m) := by
  cases c with
  | fuseGetattr fn st =>
    apply enter_yields
    intro ouid
    exact structBody_yields (fuseGetattr.request m fn ouid) Ustat.codec st fallStat
  | fuseReadlink fn dest =>
    apply enter_yields
    intro ouid
    exact ⟨converse_ends (fuseReadlink.request m fn ouid) fun _ hl hp => readlinkOn_ends hl hp dest⟩
  | fuseMkdir dn mode =>
    apply enter_yields
    intro ouid
    exact headerOnly_yields (fuseMkdir.request m dn mode ouid) fun _ => 0
  | fuseRmdir dn =>
    apply enter_yields
    intro ouid
    exact headerOnly_yields (fuseRmdir.request m dn ouid) fun _ => 0
  | fuseSymlink fn srcfn =>
    apply enter_yields
    intro ouid
    exact headerOnly_yields (fuseSymlink.request m fn srcfn ouid) fun _ => 0
  | fuseChmod fn mode =>
    apply load_yields
    intro ouid
    exact headerOnly_yields (fuseChmod.request m fn mode ouid) fun _ => 0
  | fuseTruncate fn pos =>
    apply enter_yields
    intro ouid
    exact store_yields (headerOnly_yields (fuseTruncate.request m fn pos ouid) fun _ => 0)
  | fuseOpen fn fi =>
    apply enter_yields
    intro ouid
    exact open_yields (fuseOpen.request m fn fi ouid) fi unsupportedOpen
  | fuseRead fn buf pos fi =>
    apply enter_yields
    intro ouid
    exact ⟨converse_ends (fuseRead.request m fn (UInt64.ofNat buf.length) pos fi ouid)
      fun _ hl hp => readOn_ends hl hp buf⟩
  | fuseWrite fn buf pos fi =>
    apply enter_yields
    intro ouid
    exact headerOnly_yields (fuseWrite.request m fn buf pos fi ouid) RpHdr.rtvl
  | fuseStatfs fn fstat =>
    apply enter_yields
    intro ouid
    exact structBody_yields (fuseStatfs.request m fn ouid) Ustatvfs.codec fstat fallStatvfs
  | fuseRelease fi =>
    apply enter_yields
    intro ouid
    exact headerOnly_yields (fuseRelease.request m fi ouid) fun _ => 0
  | fuseOpendir dn fi =>
    apply enter_yields
    intro ouid
    exact open_yields (fuseOpendir.request m dn fi ouid) fi unsupportedOpendir
  | fuseReaddir dn fill offset fi =>
    apply enter_yields
    intro ouid
    exact ⟨converse_ends (fuseReaddir.request m dn offset fi ouid)
      fun _ hl hp => readdirOn_ends hl hp fill⟩
  | fuseReleasedir fi =>
    apply enter_yields
    intro ouid
    exact headerOnly_yields (fuseReleasedir.request m fi ouid) fun _ => 0
  | fuseAccess fn amode =>
    apply load_yields
    intro ouid
    exact headerOnly_yields (fuseAccess.request m fn amode ouid) fun _ => 0
  | fuseUnlink fn =>
    apply load_yields
    intro ouid
    exact headerOnly_yields (fuseUnlink.request m fn ouid) fun _ => 0
  | fuseCreat fn mode fi =>
    apply enter_yields
    intro ouid
    exact open_yields (fuseCreat.request m fn mode fi ouid) fi unsupportedOpen
  | fuseUtimens fn atime mtime =>
    apply load_yields
    intro ouid
    exact headerOnly_yields (fuseUtimens.request m fn atime mtime ouid) fun _ => 0

/-! The replies a handler accepts. -/

/-- The handler does not abort on the reply. -/
def Call.Accepts : Call → Reply → Prop
  | .fuseGetattr .., r => r.body.length = Ustat.codec.size
  | .fuseStatfs .., r => r.body.length = Ustatvfs.codec.size
  | .fuseOpen .., r | .fuseOpendir .., r | .fuseCreat .., r => r.body.length = RpOpen.codec.size
  | .fuseReadlink _ dest, r => r.body.length ≤ dest.length ∧ r.body.length < 2 ^ 31
  | .fuseRead _ buf _ _, r =>
    r.head.size.toNat ≤ buf.length ∧ r.head.rtvl.toInt = r.body.length
  | .fuseReaddir .., r => r.body.length < 2 ^ 31
  | _, r => r.body = []

section
variable {β : Type} {old : β} {use : Reply → Int32 × β} {r : Reply}

/-- The handler receives exactly the reply, and returns what `use` makes of it. -/
structure Takes (old : β) (use : Reply → Int32 × β) (r : Reply) (p : Io (Int32 × β)) : Prop where
  returns : p.Returns (fun out rest =>
    out = (if r.head.rtvl < 0 then (r.head.rtvl, old) else use r) ∧ rest = []) r.bytes

theorem enter_takes {p : UInt32 → Io (Int32 × β)} (h : ∀ ouid, Takes old use r (p ouid)) :
    Takes old use r (enter >>= p) := ⟨fun _ ouid => (h ouid).returns⟩

theorem load_takes {p : UInt32 → Io (Int32 × β)} (h : ∀ ouid, Takes old use r (p ouid)) :
    Takes old use r (Prog.load >>= p) := ⟨fun ouid => (h ouid).returns⟩

theorem store_takes {u : UInt32} {p : Io (Int32 × β)} (h : Takes old use r p) :
    Takes old use r (Prog.store u >>= fun _ => p) := ⟨h.returns⟩

theorem openChecks_takes {fi : FileInfo} {use : Reply → Int32 × FileInfo} {unsupported : UInt32}
    {k : Io (Int32 × FileInfo)} (hacc : (fi.writepage || ifflag fi.flags unsupported) = false)
    (h : Takes fi use r k) : Takes fi use r (openChecks fi unsupported k) := by
  obtain ⟨hw, hf⟩ := Bool.or_eq_false_iff.1 hacc
  rw [openChecks, if_neg (by simp [hw]), if_neg (by simp [hf])]
  exact h

/-- What is left of a handler after the header takes the body. -/
abbrev TakesBody (use : Reply → Int32 × β) (r : Reply) (p : Io (Int32 × β)) : Prop :=
  p.Returns (fun out rest => out = use r ∧ rest = []) r.body

theorem converse_takes {req : Request} {msg : Bytes} (he : req.emission = some msg)
    {onReply : RpHdr → Io (Int32 × β)} (hp : r.Plain)
    (h : ¬r.head.rtvl < 0 → TakesBody use r (onReply r.head)) :
    Takes old use r (converse req old onReply) := by
  constructor
  rw [converse_emission he, Reply.bytes]
  show 12 ≤ (RpHdr.codec.enc r.head ++ r.body).length ∧
    (replied old onReply (some ([] ++ (RpHdr.codec.enc r.head ++ r.body).take RpHdr.codec.size))).Returns
      _ ((RpHdr.codec.enc r.head ++ r.body).drop RpHdr.codec.size)
  rw [Codec.take_enc, Codec.drop_enc, List.nil_append, replied, Option.map_some,
    Codec.dec_enc_nil]
  refine ⟨by rw [List.length_append, Codec.enc_length]; simp, ?_⟩
  show (if r.head.rtvl < 0 then warn r.head.rtvl old else onReply r.head).Returns _ _
  split
  · next hneg => exact ⟨rfl, hp.resolve_left (not_not.2 hneg)⟩
  · next hpos => exact h hpos

theorem headerOnly_takes {req : Request} {msg : Bytes} (he : req.emission = some msg)
    {r : Reply} (hf : r.WellFramed) (hb : r.body = []) (rtvl : RpHdr → Int32) :
    Takes () (fun r => (rtvl r.head, ())) r (converse req () (headerOnly rtvl)) := by
  apply converse_takes he (.inr hb)
  intro _
  have hsize : r.head.size.toUInt64 = sizeof RpHdr.codec := by
    rw [← UInt64.toNat_inj, UInt32.toNat_toUInt64, hf, hb]
    rfl
  rw [headerOnly, if_neg (not_not.2 hsize)]
  exact ⟨rfl, hb⟩

theorem structBody_takes {req : Request} {msg : Bytes} (he : req.emission = some msg)
    {γ : Type} (c : Codec γ) (hc : c.size < 2 ^ 31) (use : γ → β) {r : Reply}
    (hf : r.WellFramed) (hp : r.Plain) (hb : ¬r.head.rtvl < 0 → r.body.length = c.size) :
    Takes old (fun r => (0, use (c.dec r.body))) r (converse req old (structBody c old use)) := by
  apply converse_takes he hp
  intro hpos
  have hb := hb hpos
  have hsize : r.head.size.toUInt64 = sizeof RpHdr.codec + sizeof c := by
    rw [← UInt64.toNat_inj, UInt32.toNat_toUInt64, hf, hb, UInt64.toNat_add]
    simp [sizeof]
    omega
  have hn : (sizeof c).toUInt32.toNat = c.size := by
    simp [sizeof]
    omega
  rw [TakesBody, structBody, if_neg (not_not.2 hsize), returns_reRead hn hc hb]
  exact ⟨rfl, rfl⟩

theorem open_takes {req : Request} {msg : Bytes} (he : req.emission = some msg) {fi : FileInfo}
    {unsupported : UInt32} (hacc : (fi.writepage || ifflag fi.flags unsupported) = false)
    {r : Reply} (hf : r.WellFramed) (hp : r.Plain)
    (hb : ¬r.head.rtvl < 0 → r.body.length = RpOpen.codec.size) :
    Takes fi (fun r => (0, setHandle fi (RpOpen.codec.dec r.body))) r
      (openChecks fi unsupported
        (converse req fi (structBody RpOpen.codec fi (setHandle fi)))) :=
  openChecks_takes hacc
    (structBody_takes he RpOpen.codec (by decide) (setHandle fi) hf hp hb)

end

/-- The rest of a well-framed reply, as the header counts it. -/
theorem Reply.WellFramed.rest {r : Reply} (hf : r.WellFramed) (hlt : r.body.length < 2 ^ 31) :
    (r.head.size.toUInt64 - sizeof RpHdr.codec).toUInt32.toNat = r.body.length := by
  rw [sub_hdr_toNat, hf, RpHdr.size_codec, if_pos (by omega)]
  omega

section
variable {r : Reply} (hf : r.WellFramed)
include hf

theorem readlinkOn_takes (dest : Bytes) (hd : dest.length < 2 ^ 63)
    (hle : r.body.length ≤ dest.length) (hlt : r.body.length < 2 ^ 31) :
    TakesBody (fun r => (0, r.body ++ dest.drop r.body.length)) r (readlinkOn dest r.head) := by
  have hsize : ¬r.head.size.toUInt64 > sizeof RpHdr.codec + UInt64.ofNat dest.length := by
    have hs : (sizeof RpHdr.codec).toNat = 12 := rfl
    have h64 : dest.length < 2 ^ 64 := by omega
    rw [gt_iff_lt, UInt64.lt_iff_toNat_lt, UInt64.toNat_add, UInt32.toNat_toUInt64, hs, hf,
      UInt64.toNat_ofNat_of_lt' h64, RpHdr.size_codec]
    omega
  rw [TakesBody, readlinkOn, if_neg hsize, returns_reRead (hf.rest hlt) hlt rfl]
  exact ⟨rfl, rfl⟩

theorem readOn_takes (buf : Bytes) (hb : buf.length < 2 ^ 63)
    (hle : r.head.size.toNat ≤ buf.length) (hrt : r.head.rtvl.toInt = r.body.length)
    (hpos : ¬r.head.rtvl < 0) :
    TakesBody (fun r => (r.head.rtvl, r.body ++ buf.drop r.body.length)) r
      (readOn buf r.head) := by
  obtain ⟨hnat, hlt⟩ := toNat_toInt64 hpos
  have hlen : r.head.rtvl.toUInt32.toNat = r.body.length := by
    have hint := BitVec.toInt_eq_toNat_of_lt (x := r.head.rtvl.toBitVec)
      (by have h : r.head.rtvl.toBitVec.toNat < 2 ^ 31 := hlt; omega)
    have hrt' : r.head.rtvl.toBitVec.toInt = r.body.length := hrt
    have hn : r.head.rtvl.toUInt32.toNat = r.head.rtvl.toBitVec.toNat := rfl
    omega
  have h64 : buf.length < 2 ^ 64 := by omega
  have hbig : ¬r.head.size.toUInt64 > UInt64.ofNat buf.length := by
    rw [gt_iff_lt, UInt64.lt_iff_toNat_lt, UInt32.toNat_toUInt64, UInt64.toNat_ofNat_of_lt' h64]
    omega
  have hsize : r.head.size.toUInt64 = sizeof RpHdr.codec + r.head.rtvl.toInt64.toUInt64 := by
    have hs : (sizeof RpHdr.codec).toNat = 12 := rfl
    rw [← UInt64.toNat_inj, UInt64.toNat_add, UInt32.toNat_toUInt64, hnat, hlen, hs, hf,
      RpHdr.size_codec]
    omega
  have hn : r.head.rtvl.toInt64.toUInt64.toUInt32.toNat = r.body.length := by
    rw [UInt64.toNat_toUInt32, hnat]
    omega
  rw [TakesBody, readOn, if_neg hbig, if_neg (not_not.2 hsize),
    returns_reRead hn (by omega) rfl]
  exact ⟨rfl, rfl⟩

theorem readdirOn_takes (fill : Fill) (hlt : r.body.length < 2 ^ 31) :
    TakesBody (fun r =>
      (0, fillLoop fill (dirents (r.body.length / Udirent.codec.size) r.body) [])) r
      (readdirOn fill r.head) := by
  have hs : (sizeof RpHdr.codec).toNat = 12 := rfl
  have hu : (sizeof Udirent.codec).toNat = 280 := rfl
  have hlow : ¬r.head.size.toUInt64 < sizeof RpHdr.codec := by
    rw [UInt64.lt_iff_toNat_lt, UInt32.toNat_toUInt64, hs, hf, RpHdr.size_codec]
    omega
  have hdircnt : ((r.head.size.toUInt64 - sizeof RpHdr.codec) / sizeof Udirent.codec).toNat =
      r.body.length / Udirent.codec.size := by
    rw [UInt64.toNat_div, UInt64.toNat_sub, UInt32.toNat_toUInt64, hs, hu, hf, RpHdr.size_codec,
      Udirent.size_codec]
    omega
  rw [TakesBody, readdirOn, if_neg hlow, returns_reRead (hf.rest hlt) hlt rfl]
  refine ⟨?_, rfl⟩
  rw [hdircnt]

end

/-- A call whose request can be sent takes every reply it accepts. -/
theorem Call.handler_takes (m : Locals) {c : Call} (hs : c.Sendable)
    (hroom : ∀ n, c.room = some n → n < 2 ^ 63) {r : Reply} (hf : r.WellFramed) (hp : r.Plain)
    (ha : ¬r.head.rtvl < 0 → c.Accepts r) : Takes c.param c.made r (c.handler m) := by
  have he : ∀ ouid, (c.request m ouid).emission = some (c.request m ouid).bytes := fun ouid =>
    Request.emission_of_small (hs.small m ouid)
  cases c with
  | fuseGetattr fn st =>
    apply enter_takes
    intro ouid
    exact structBody_takes (he ouid) Ustat.codec (by decide) fallStat hf hp ha
  | fuseReadlink fn dest =>
    apply enter_takes
    intro ouid
    apply converse_takes (he ouid) hp
    intro hpos
    exact readlinkOn_takes hf dest (hroom _ rfl) (ha hpos).1 (ha hpos).2
  | fuseMkdir dn mode =>
    apply enter_takes
    intro ouid
    exact headerOnly_takes (he ouid) hf (hp.elim ha id) fun _ => 0
  | fuseRmdir dn =>
    apply enter_takes
    intro ouid
    exact headerOnly_takes (he ouid) hf (hp.elim ha id) fun _ => 0
  | fuseSymlink fn srcfn =>
    apply enter_takes
    intro ouid
    exact headerOnly_takes (he ouid) hf (hp.elim ha id) fun _ => 0
  | fuseChmod fn mode =>
    apply load_takes
    intro ouid
    exact headerOnly_takes (he ouid) hf (hp.elim ha id) fun _ => 0
  | fuseTruncate fn pos =>
    apply enter_takes
    intro ouid
    exact store_takes (headerOnly_takes (he ouid) hf (hp.elim ha id) fun _ => 0)
  | fuseOpen fn fi =>
    apply enter_takes
    intro ouid
    exact open_takes (he ouid) hs hf hp ha
  | fuseRead fn buf pos fi =>
    apply enter_takes
    intro ouid
    apply converse_takes (he ouid) hp
    intro hpos
    exact readOn_takes hf buf (hroom _ rfl) (ha hpos).1 (ha hpos).2 hpos
  | fuseWrite fn buf pos fi =>
    apply enter_takes
    intro ouid
    exact headerOnly_takes (he ouid) hf (hp.elim ha id) RpHdr.rtvl
  | fuseStatfs fn fstat =>
    apply enter_takes
    intro ouid
    exact structBody_takes (he ouid) Ustatvfs.codec (by decide) fallStatvfs hf hp ha
  | fuseRelease fi =>
    apply enter_takes
    intro ouid
    exact headerOnly_takes (he ouid) hf (hp.elim ha id) fun _ => 0
  | fuseOpendir dn fi =>
    apply enter_takes
    intro ouid
    exact open_takes (he ouid) hs hf hp ha
  | fuseReaddir dn fill offset fi =>
    apply enter_takes
    intro ouid
    apply converse_takes (he ouid) hp
    intro hpos
    exact readdirOn_takes hf fill (ha hpos)
  | fuseReleasedir fi =>
    apply enter_takes
    intro ouid
    exact headerOnly_takes (he ouid) hf (hp.elim ha id) fun _ => 0
  | fuseAccess fn amode =>
    apply load_takes
    intro ouid
    exact headerOnly_takes (he ouid) hf (hp.elim ha id) fun _ => 0
  | fuseUnlink fn =>
    apply load_takes
    intro ouid
    exact headerOnly_takes (he ouid) hf (hp.elim ha id) fun _ => 0
  | fuseCreat fn mode fi =>
    apply enter_takes
    intro ouid
    exact open_takes (he ouid) hs hf hp ha
  | fuseUtimens fn atime mtime =>
    apply load_takes
    intro ouid
    exact headerOnly_takes (he ouid) hf (hp.elim ha id) fun _ => 0

/-- An error-free run of a handler ends in what the handler makes of the bytes received. -/
theorem Call.run_makes {m : Locals} {c : Call} {tr : List (Ev UInt32)} {out : Int32 × c.Out}
    (t : Run (c.handler m) tr (.ret out)) (he : ∀ e ∈ tr, e.isErr = false) :
    Makes c.param c.made out (receivedIn tr) := by
  have h := t.ends (Call.handler_yields m c).ends he
  rwa [List.nil_append] at h

/-- **The outcome of a call.** Take a call that passes the open checks, and a well-framed
    reply that has no body when it reports an error. However the reply is delivered, a run
    without an I/O error that returns has received exactly the reply, and its value and
    out-parameter are the call's `outcome`; and if the handler accepts the reply, it does
    return. -/
theorem reply_outcome (m : Locals) (c : Call) (hc : c.rejected = false) (r : Reply)
    (hf : r.WellFramed) (hp : r.Plain) :
    (∀ tr out rest, Run (c.handler m) tr (.ret out) → (∀ e ∈ tr, e.isErr = false) →
      receivedIn tr <+: r.bytes ++ rest → receivedIn tr = r.bytes ∧ out = c.outcome r) ∧
    (c.Sendable → (∀ n, c.room = some n → n < 2 ^ 63) → (¬r.head.rtvl < 0 → c.Accepts r) →
      (c.handler m).Returns (fun out rest => out = c.outcome r ∧ rest = []) r.bytes) := by
  refine ⟨fun tr out rest t he hg => ?_, fun hs hroom ha => ?_⟩
  · have t' : Run (c.prog m) tr (.ret out.1) := by
      rw [Call.prog_eq]
      exact t.map Prod.fst
    have hall := Call.run_aligned hc hf hp t' he hg
    exact ⟨hall, (Call.run_makes t he).2 r hall⟩
  · exact (Call.handler_takes m hs hroom hf hp ha).returns

/-- `fuse_statfs`, answered with the peer's numbers. -/
theorem reply_outcome_statfs :
    ((Call.fuseStatfs pathA default).handler default).Returns
      (fun out rest => out = (0, { (default : Statvfs) with f_bfree := 7 }) ∧ rest = [])
      (Reply.bytes ⟨⟨100, 1, 0⟩,
        Ustatvfs.codec.enc (unifyStatvfs { (default : Statvfs) with f_bfree := 7 })⟩) := by
  generalize (default : Locals) = m
  generalize hv : { (default : Statvfs) with f_bfree := 7 } = vfs
  have hf : Reply.WellFramed ⟨⟨100, 1, 0⟩, Ustatvfs.codec.enc (unifyStatvfs vfs)⟩ := by
    rw [Reply.WellFramed, Codec.enc_length]
    rfl
  have hplain : Reply.Plain ⟨⟨100, 1, 0⟩, Ustatvfs.codec.enc (unifyStatvfs vfs)⟩ :=
    .inl (show ¬(0 : Int32) < 0 by decide)
  have hroom : ∀ n, (Call.fuseStatfs pathA default).room = some n → n < 2 ^ 63 := by
    intro n hn
    rw [← Option.some.inj hn, Ustatvfs.size_codec]
    omega
  have hout : (Call.fuseStatfs pathA default).outcome
      ⟨⟨100, 1, 0⟩, Ustatvfs.codec.enc (unifyStatvfs vfs)⟩ = (0, vfs) := by
    have hdec := Ustatvfs.codec.dec_enc_nil (unifyStatvfs vfs)
    exact congrArg (fun s => (0, fallStatvfs s)) hdec
  obtain ⟨-, h⟩ := reply_outcome m (.fuseStatfs pathA default) rfl _ hf hplain
  rw [hout] at h
  exact h rfl hroom fun _ => Ustatvfs.codec.enc_length (unifyStatvfs vfs)

end Zhwkrfsp
