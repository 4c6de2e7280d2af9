import Zhwkrfsp.Exchange

/- Framing of the request stream. `emitAll` is what a sequence of calls sends,
   `receiveAll` a receiver that reads it back with `wait_operation` and the
   `as_*` function of each `opid`. A request is `Framed` when `head.size` counts
   its bytes; a stream of framed requests is read back exactly. Every handler
   but `fuse_symlink` sends framed requests: its `head.size` counts
   `strlen(srcfn)` bytes of payload where it appends `FILENAME_LEN`. -/
namespace Zhwkrfsp
open Wire Chan

/-! What is sent. -/

/-- A call with the stack frame it starts from. -/
structure Job where
  locals : Locals
  call : Call

namespace Call

/-- `head.ouid`, `opuid` being `uid` before the call. -/
def headOuid (uid : UInt32) : Call → UInt32
  | .fuseChmod .. | .fuseAccess .. | .fuseUnlink .. | .fuseUtimens .. => uid
  | _ => uid + 1

/-- `opuid` after the call. -/
def nextUid (uid : UInt32) : Call → UInt32
  | .fuseChmod .. | .fuseAccess .. | .fuseUnlink .. | .fuseUtimens .. => uid
  | .fuseTruncate .. => uid + 1 + 1
  | _ => uid + 1

def isSymlink : Call → Bool
  | .fuseSymlink .. => true
  | _ => false

/-- The call sends a request: the open checks pass, and the payload of a write
    fits the send buffer. -/
def Sendable : Call → Prop
  | .fuseWrite _ buf _ _ => buf.length < 2 ^ 31 - 4140
  | c => c.rejected = false

end Call

/-- The messages a sequence of calls emits, `opuid` being `uid` before it. -/
def emitAll : UInt32 → List Job → List Bytes
  | _, [] => []
  | uid, j :: js =>
    match (j.call.prog j.locals).emit uid with
    | (none, uid') => emitAll uid' js
    | (some msg, uid') => msg :: emitAll uid' js

/-- The requests of a sequence of calls, as the handlers hold them. -/
def sentAll : UInt32 → List Job → List Request
  | _, [] => []
  | uid, j :: js =>
    j.call.request j.locals (j.call.headOuid uid) :: sentAll (j.call.nextUid uid) js

/-! What is received. -/

/-- `wait_operation`, then the `as_*` function for `opid`. -/
def receiveRequest : Io (Option Request) := do
  match ← waitOperation with
  | none => return none
  | some head =>
    if head.opid = operOpen then return (← asOpen).map (.opening head)
    else if head.opid = operRead then return (← asRead).map (.reading head)
    else if head.opid = operWrite then
      return (← asWrite (head.size.toUInt64 - sizeof OpHdr.codec)).map
        fun r => .writing head r.1 (some r.2)
    else if head.opid = operClose then return (← asClose).map (.closing head)
    else return none

/-- Receive requests to the end of the stream, at most `n` of them. -/
def receiveAll : Nat → Bytes → Option (List Request)
  | _, [] => some []
  | 0, _ => none
  | n + 1, inp => do
    let (r, rest) ← receiveRequest.feed inp
    let r ← r
    let rs ← receiveAll n rest
    return r :: rs

namespace Request

/-- A request as `receiveRequest` delivers it: a write without payload has an
    empty one. -/
def received : Request → Request
  | .writing head wr none => .writing head wr (some [])
  | r => r

/-- The operation the request's struct belongs to. -/
def oper : Request → UInt32
  | .opening .. => operOpen
  | .reading .. => operRead
  | .writing .. => operWrite
  | .closing .. => operClose

structure Framed (r : Request) : Prop where
  oper : r.head.opid = r.oper
  size : r.head.size.toNat = r.bytes.length
  small : r.bytes.length < 2 ^ 31

/-- The bytes start with the header. -/
theorem bytes_eq (r : Request) : ∃ rest, r.bytes = OpHdr.codec.enc r.head ++ rest := by
  cases r with
  | writing head wr payload => cases payload <;> exact ⟨_, List.flatten_cons⟩
  | _ => exact ⟨_, List.flatten_cons⟩

theorem bytes_ne_nil (r : Request) : r.bytes ≠ [] := by
  obtain ⟨rest, h⟩ := r.bytes_eq
  intro h0
  have hlen := congrArg List.length (h.symm.trans h0)
  simp at hlen

theorem dec_bytes (r : Request) : OpHdr.codec.dec r.bytes = r.head := by
  obtain ⟨rest, h⟩ := r.bytes_eq
  rw [h, Codec.dec_enc]

end Request

/-- The framing law for a sequence of calls. -/
def FramingHolds (uid : UInt32) (js : List Job) : Prop :=
  (∀ msg ∈ emitAll uid js, (OpHdr.codec.dec msg).size.toNat = msg.length) ∧
    receiveAll (emitAll uid js).flatten.length (emitAll uid js).flatten =
      some ((sentAll uid js).map Request.received)

/-! The size field. -/

theorem Request.bytes_length (r : Request) : r.bytes.length =
    match r with
    | .opening .. => 4112
    | .reading .. => 4140
    | .writing _ _ none => 4140
    | .writing _ _ (some payload) => 4140 + payload.length
    | .closing .. => 28 := by
  cases r with
  | writing head wr payload =>
    cases payload with
    | none => simp [bytes, parts]
    | some payload => simp [bytes, parts]; omega
  | _ => simp [bytes, parts]

theorem Request.message_length (r : Request) : r.message.length =
    match r with
    | .opening .. => 4112
    | .reading .. => 4140
    | .writing _ _ none => 4140
    | .writing _ _ (some payload) => 4140 + payload.length % 2 ^ 32
    | .closing .. => 28 := by
  cases r with
  | writing head wr payload =>
    cases payload with
    | none => simp [message, parts]
    | some payload => simp [message, parts]; omega
  | _ => simp [message, parts]

/-- `head.size` of a write with an `n`-byte payload. -/
theorem size_writing (n : Nat) : (sizehdr OpWrit.codec + UInt64.ofNat n).toUInt32.toNat =
    (4140 + n) % 2 ^ 32 := by
  have h : (sizehdr OpWrit.codec).toNat = 4140 := rfl
  rw [UInt64.toNat_toUInt32, UInt64.toNat_add, h, UInt64.toNat_ofNat']
  omega

/-- `fuse_symlink` counts `strlen(srcfn)` bytes of payload and sends 4096. -/
theorem fuseSymlink_size (m : Locals) (ouid : UInt32) (fn srcfn : Path) :
    (fuseSymlink.request m fn srcfn ouid).head.size.toNat = 4140 + srcfn.str.length ∧
      (fuseSymlink.request m fn srcfn ouid).message.length = 4140 + filenameLen := by
  have hs := srcfn.short
  constructor
  · refine (size_writing srcfn.str.length).trans (Nat.mod_eq_of_lt ?_)
    rw [filenameLen] at hs; omega
  · rw [Request.message_length]
    show 4140 + (fncpy m.srcbuf srcfn).val.length % 2 ^ 32 = _
    rw [CArr.len]; rfl

/-- Every handler but `fuse_symlink` sets `head.size` to the length of what it
    emits. -/
theorem Call.size_eq (m : Locals) (ouid : UInt32) (c : Call) (hc : c.isSymlink = false)
    (hlt : (c.request m ouid).message.length < 2 ^ 32) :
    (c.request m ouid).head.size.toNat = (c.request m ouid).message.length := by
  rw [Request.message_length] at hlt ⊢
  cases c with
  | fuseSymlink fn srcfn => cases hc
  | fuseWrite fn buf pos fi =>
    have hlt : 4140 + buf.length % 2 ^ 32 < 2 ^ 32 := hlt
    apply (size_writing buf.length).trans
    show _ = 4140 + buf.length % 2 ^ 32
    omega
  | fuseChmod fn mode => simp [request, fuseChmod.request, Request.head, sizehdr, sizeof]
  | fuseAccess fn amode => simp [request, fuseAccess.request, Request.head, sizehdr, sizeof]
  | fuseUtimens fn atime mtime => simp [request, fuseUtimens.request, Request.head, sizehdr, sizeof]
  | _ => rfl

/-! Receiving framed requests. -/

theorem feed_receive {α β : Type} (c : Codec α) (hc : c.size < 2 ^ 31) (a : α) (rest : Bytes)
    (k : Option α → Io β) : (receive c >>= k).feed (c.enc a ++ rest) = (k (some a)).feed rest := by
  rw [Prog.feed_bind, receive_feed c hc]
  rfl

theorem feed_asWrite {β : Type} (wr : OpWrit) (payload rest : Bytes) (remain : UInt64)
    (hr : remain.toNat = OpWrit.codec.size + payload.length) (hlt : payload.length < 2 ^ 31)
    (k : Option (OpWrit × Bytes) → Io β) :
    (asWrite remain >>= k).feed (OpWrit.codec.enc wr ++ (payload ++ rest)) =
      (k (some (wr, payload))).feed rest := by
  have hx : (remain - sizeof OpWrit.codec).toUInt32.toNat = payload.length := by
    have hs : (sizeof OpWrit.codec).toNat = OpWrit.codec.size := rfl
    have hle : sizeof OpWrit.codec ≤ remain := by rw [UInt64.le_iff_toNat_le, hs]; omega
    rw [UInt64.toNat_toUInt32, UInt64.toNat_sub_of_le _ _ hle, hs]
    omega
  rw [asWrite, Prog.bind_assoc, feed_receive _ (by decide)]
  simp only [sockread_toInt32, hx, if_pos hlt]
  simp [Prog.recv, Prog.feed]

/-- A write request is received whatever its payload is. -/
theorem receiveRequest_writing (head : OpHdr) (wr : OpWrit) (payload rest : Bytes)
    (hop : head.opid = operWrite)
    (hsize : head.size.toNat = OpHdr.codec.size + (OpWrit.codec.size + payload.length))
    (hlt : payload.length < 2 ^ 31) :
    receiveRequest.feed (OpHdr.codec.enc head ++ (OpWrit.codec.enc wr ++ (payload ++ rest))) =
      some (some (.writing head wr (some payload)), rest) := by
  have hr : (head.size.toUInt64 - sizeof OpHdr.codec).toNat =
      OpWrit.codec.size + payload.length := by
    have hs : (sizeof OpHdr.codec).toNat = OpHdr.codec.size := rfl
    have hle : sizeof OpHdr.codec ≤ head.size.toUInt64 := by
      rw [UInt64.le_iff_toNat_le, hs, UInt32.toNat_toUInt64]; omega
    rw [UInt64.toNat_sub_of_le _ _ hle, hs, UInt32.toNat_toUInt64]
    omega
  have h0 : operWrite ≠ operOpen := by decide
  have h1 : operWrite ≠ operRead := by decide
  rw [receiveRequest, waitOperation, feed_receive _ (by decide)]
  simp only [hop, if_neg h0, if_neg h1, if_true]
  rw [feed_asWrite wr payload rest _ hr hlt]
  rfl

/-- Receiving a framed request delivers it and leaves what follows it. -/
theorem receiveRequest_framed {r : Request} (h : r.Framed) (rest : Bytes) :
    receiveRequest.feed (r.bytes ++ rest) = some (some r.received, rest) := by
  obtain ⟨hop, hsize, hsmall⟩ := h
  cases r with
  | opening head op =>
    have hop : head.opid = operOpen := hop
    simp only [Request.bytes, Request.parts, List.flatten_cons, List.flatten_nil, List.append_nil,
      List.append_assoc]
    rw [receiveRequest, waitOperation, feed_receive _ (by decide)]
    simp only [hop, if_true]
    rw [asOpen, feed_receive _ (by decide)]
    rfl
  | reading head rd =>
    have hop : head.opid = operRead := hop
    have h0 : operRead ≠ operOpen := by decide
    simp only [Request.bytes, Request.parts, List.flatten_cons, List.flatten_nil, List.append_nil,
      List.append_assoc]
    rw [receiveRequest, waitOperation, feed_receive _ (by decide)]
    simp only [hop, if_neg h0, if_true]
    rw [asRead, feed_receive _ (by decide)]
    rfl
  | writing head wr payload =>
    cases payload with
    | none =>
      have hlen : (Request.writing head wr none).bytes.length =
          OpHdr.codec.size + OpWrit.codec.size := by simp [Request.bytes, Request.parts]
      have hr := receiveRequest_writing head wr [] rest hop (hsize.trans hlen) (by decide)
      simpa [Request.bytes, Request.parts, Request.received] using hr
    | some payload =>
      have hlen : (Request.writing head wr (some payload)).bytes.length =
          OpHdr.codec.size + (OpWrit.codec.size + payload.length) := by
        simp [Request.bytes, Request.parts]
      have hr := receiveRequest_writing head wr payload rest hop (hsize.trans hlen) (by omega)
      simpa [Request.bytes, Request.parts, Request.received] using hr
  | closing head cl =>
    have hop : head.opid = operClose := hop
    have h0 : operClose ≠ operOpen := by decide
    have h1 : operClose ≠ operRead := by decide
    have h2 : operClose ≠ operWrite := by decide
    simp only [Request.bytes, Request.parts, List.flatten_cons, List.flatten_nil, List.append_nil,
      List.append_assoc]
    rw [receiveRequest, waitOperation, feed_receive _ (by decide)]
    simp only [hop, if_neg h0, if_neg h1, if_neg h2, if_true]
    rw [asClose, feed_receive _ (by decide)]
    rfl

/-- Of a symlink request the receiver takes `strlen(srcfn)` bytes of payload; the
    rest of `srcbuf` stays in the stream. -/
theorem receiveRequest_symlink (m : Locals) (fn srcfn : Path) (ouid : UInt32) (rest : Bytes) :
    ∃ wr pad, pad.length = filenameLen - srcfn.str.length ∧
      receiveRequest.feed ((fuseSymlink.request m fn srcfn ouid).bytes ++ rest) =
        some (some (.writing (fuseSymlink.request m fn srcfn ouid).head wr (some srcfn.str)),
          pad ++ rest) := by
  have hs := srcfn.short
  have hbuf : (fncpy m.srcbuf srcfn).val =
      srcfn.str ++ ([0] ++ m.srcbuf.val.drop (srcfn.str ++ [0]).length) := by
    rw [fncpy, CArr.put_val _ (by simp; omega), List.append_assoc]
  refine ⟨{ m.wr with filename := fncpy m.wr.filename fn, write_mode := wrSymlink },
    [0] ++ m.srcbuf.val.drop (srcfn.str ++ [0]).length, ?_, ?_⟩
  · simp [m.srcbuf.len]; omega
  · have hr := receiveRequest_writing (fuseSymlink.request m fn srcfn ouid).head
      { m.wr with filename := fncpy m.wr.filename fn, write_mode := wrSymlink } srcfn.str
      ([0] ++ m.srcbuf.val.drop (srcfn.str ++ [0]).length ++ rest) rfl
      ((fuseSymlink_size m ouid fn srcfn).1.trans (by rw [Nat.add_comm 4140]; simp; omega))
      (by rw [filenameLen] at hs; omega)
    simpa [Request.bytes, Request.parts, fuseSymlink.request, Request.head, hbuf] using hr

theorem receiveAll_framed : ∀ (rs : List Request) (n : Nat), (∀ r ∈ rs, r.Framed) →
    (rs.map Request.bytes).flatten.length ≤ n →
    receiveAll n (rs.map Request.bytes).flatten = some (rs.map Request.received)
  | [], n, _, _ => by simp [receiveAll]
  | r :: rs, n, h, hn => by
    have hne : 0 < r.bytes.length := List.length_pos_iff.2 r.bytes_ne_nil
    simp only [List.map_cons, List.flatten_cons, List.length_append] at hn ⊢
    obtain ⟨n, rfl⟩ : ∃ n', n = n' + 1 := ⟨n - 1, by omega⟩
    have ih := receiveAll_framed rs n (fun r' hr' => h r' (List.mem_cons_of_mem _ hr')) (by omega)
    obtain ⟨b, bs, hb⟩ := List.exists_cons_of_ne_nil
      (List.append_ne_nil_of_left_ne_nil r.bytes_ne_nil (rs.map Request.bytes).flatten)
    rw [hb, receiveAll, ← hb, receiveRequest_framed (h r List.mem_cons_self)]
    · simp [ih]
    · simp

/-! Sending. -/

theorem emit_map {σ α β : Type} (f : α → β) (p : Prog σ α) :
    ∀ s, (f <$> p).emit s = p.emit s := by
  induction p with
  | ret a => intro s; rfl
  | stop h => intro s; rfl
  | lock k ih => exact ih
  | unlock k ih => exact ih
  | get k ih => exact fun s => ih s s
  | set s' k ih => exact fun _ => ih s'
  | write buf k ih => intro s; rfl
  | read acc n k ih => intro s; rfl

theorem converse_emit {β : Type} (req : Request) (old : β) (onReply : RpHdr → Io (Int32 × β))
    (uid : UInt32) : (converse req old onReply).emit uid = (req.emission, uid) := by
  unfold converse Request.emission
  cases Bss.constructor.appendAll req.parts <;> rfl

theorem enter_bind_emit {α : Type} (p : UInt32 → Io α) (uid : UInt32) :
    (enter >>= p).emit uid = (p (uid + 1)).emit (uid + 1) := rfl

theorem store_bind_emit {α : Type} (u : UInt32) (p : Unit → Io α) (uid : UInt32) :
    (Prog.store u >>= p).emit uid = (p ()).emit u := rfl

section
variable {fi : FileInfo} {unsupported : UInt32} {k : Io (Int32 × FileInfo)}

theorem openChecks_accepted (h : (fi.writepage || ifflag fi.flags unsupported) = false) :
    openChecks fi unsupported k = k := by
  rw [Bool.or_eq_false_iff] at h
  rw [openChecks, if_neg (by simp [h.1]), if_neg (by simp [h.2])]

theorem openChecks_rejected (h : (fi.writepage || ifflag fi.flags unsupported) = true) :
    openChecks fi unsupported k = warn (-EINVAL) fi := by
  cases hp : fi.writepage with
  | true => rw [openChecks, if_pos hp]
  | false =>
    rw [hp, Bool.false_or] at h
    rw [openChecks, if_neg (by simp [hp]), if_pos h]

end

section
variable {β : Type} (req : UInt32 → Request) (old : β) (onReply : RpHdr → Io (Int32 × β))
  (uid : UInt32)

theorem enter_emit :
    (Prod.fst <$> (enter >>= fun ouid => converse (req ouid) old onReply)).emit uid =
      ((req (uid + 1)).emission, uid + 1) := by
  rw [emit_map, enter_bind_emit, converse_emit]

theorem load_emit :
    (Prod.fst <$> (Prog.load >>= fun ouid => converse (req ouid) old onReply)).emit uid =
      ((req uid).emission, uid) := by
  rw [emit_map]
  exact converse_emit _ _ _ uid

theorem checked_emit (fi : FileInfo) (unsupported : UInt32)
    (onReply : RpHdr → Io (Int32 × FileInfo))
    (h : (fi.writepage || ifflag fi.flags unsupported) = false) :
    (Prod.fst <$> (enter >>= fun ouid =>
      openChecks fi unsupported (converse (req ouid) fi onReply))).emit uid =
      ((req (uid + 1)).emission, uid + 1) := by
  simp only [openChecks_accepted h]
  exact enter_emit req fi onReply uid

end

theorem rejected_emit (fi : FileInfo) (unsupported : UInt32) (k : UInt32 → Io (Int32 × FileInfo))
    (uid : UInt32) (h : (fi.writepage || ifflag fi.flags unsupported) = true) :
    (Prod.fst <$> (enter >>= fun ouid => openChecks fi unsupported (k ouid))).emit uid =
      (none, uid + 1) := by
  rw [emit_map, enter_bind_emit, openChecks_rejected h]
  rfl

/-- What a call emits, and the `opuid` it leaves. -/
theorem Call.emit (m : Locals) (uid : UInt32) (c : Call) (h : c.rejected = false) :
    (c.prog m).emit uid = ((c.request m (c.headOuid uid)).emission, c.nextUid uid) := by
  cases c with
  | fuseGetattr fn st => exact enter_emit _ _ _ _
  | fuseReadlink fn dest => exact enter_emit _ _ _ _
  | fuseMkdir dn mode => exact enter_emit _ _ _ _
  | fuseRmdir dn => exact enter_emit _ _ _ _
  | fuseSymlink fn srcfn => exact enter_emit _ _ _ _
  | fuseChmod fn mode => exact load_emit _ _ _ _
  | fuseTruncate fn pos =>
    apply (emit_map _ _ _).trans
    rw [Zhwkrfsp.fuseTruncate, enter_bind_emit, store_bind_emit, converse_emit]
    rfl
  | fuseOpen fn fi => exact checked_emit _ _ _ _ _ h
  | fuseRead fn buf pos fi => exact enter_emit _ _ _ _
  | fuseWrite fn buf pos fi => exact enter_emit _ _ _ _
  | fuseStatfs fn fstat => exact enter_emit _ _ _ _
  | fuseRelease fi => exact enter_emit _ _ _ _
  | fuseOpendir dn fi => exact checked_emit _ _ _ _ _ h
  | fuseReaddir dn fill offset fi => exact enter_emit _ _ _ _
  | fuseReleasedir fi => exact enter_emit _ _ _ _
  | fuseAccess fn amode => exact load_emit _ _ _ _
  | fuseUnlink fn => exact load_emit _ _ _ _
  | fuseCreat fn mode fi => exact checked_emit _ _ _ _ _ h
  | fuseUtimens fn atime mtime => exact load_emit _ _ _ _

theorem Call.emit_rejected (m : Locals) (uid : UInt32) (c : Call) (h : c.rejected = true) :
    (c.prog m).emit uid = (none, c.nextUid uid) := by
  cases c with
  | fuseOpen fn fi => exact rejected_emit _ _ _ _ h
  | fuseOpendir dn fi => exact rejected_emit _ _ _ _ h
  | fuseCreat fn mode fi => exact rejected_emit _ _ _ _ h
  | _ => cases h

/-! The framing law. -/

namespace Call

theorem Sendable.accepted {c : Call} (h : c.Sendable) : c.rejected = false := by
  cases c with
  | fuseWrite fn buf pos fi => rfl
  | _ => exact h

/-- Only a write can be long. -/
theorem small (c : Call) (m : Locals) (ouid : UInt32)
    (h : ∀ fn buf pos fi, c = .fuseWrite fn buf pos fi → buf.length < 2 ^ 31 - 4140) :
    (c.request m ouid).bytes.length < 2 ^ 31 := by
  rw [Request.bytes_length]
  cases c with
  | fuseWrite fn buf pos fi =>
    have hb := h fn buf pos fi rfl
    show 4140 + buf.length < 2 ^ 31
    omega
  | fuseSymlink fn srcfn =>
    show 4140 + (fncpy m.srcbuf srcfn).val.length < 2 ^ 31
    rw [CArr.len]; decide
  | fuseChmod fn mode => simp [request, fuseChmod.request]
  | fuseAccess fn amode => simp [request, fuseAccess.request]
  | fuseUtimens fn atime mtime => simp [request, fuseUtimens.request]
  | _ => exact Nat.le_of_ble_eq_true rfl

theorem Sendable.small {c : Call} (h : c.Sendable) (m : Locals) (ouid : UInt32) :
    (c.request m ouid).bytes.length < 2 ^ 31 := by
  apply c.small
  intro fn buf pos fi hc
  rw [hc] at h
  exact h

end Call

/-- A request whose bytes 32 bits can count is sent as it is. -/
theorem Request.message_eq_bytes {r : Request} (h : r.bytes.length < 2 ^ 31) :
    r.message = r.bytes :=
  (Request.emission_eq (Request.emission_of_small h)).1.symm

/-- A call that emits something was not rejected and emits its request. -/
theorem Call.emit_some {m : Locals} {uid : UInt32} {c : Call} {msg : Bytes}
    (h : ((c.prog m).emit uid).1 = some msg) :
    c.rejected = false ∧ msg = (c.request m (c.headOuid uid)).message := by
  cases hr : c.rejected with
  | false =>
    rw [c.emit m uid hr] at h
    exact ⟨rfl, (Request.emission_eq h).1⟩
  | true =>
    rw [c.emit_rejected m uid hr] at h
    cases h

/-- A sendable call emits its request. -/
theorem Call.emit_sendable (m : Locals) (uid : UInt32) {c : Call} (h : c.Sendable) :
    ((c.prog m).emit uid).1 = some (c.request m (c.headOuid uid)).message := by
  rw [c.emit m uid h.accepted, Request.emission_of_small (h.small _ _),
    Request.message_eq_bytes (h.small _ _)]

theorem emitAll_eq : ∀ (uid : UInt32) (js : List Job), (∀ j ∈ js, j.call.Sendable) →
    emitAll uid js = (sentAll uid js).map Request.bytes
  | _, [], _ => rfl
  | uid, j :: js, h => by
    have hj := h j List.mem_cons_self
    have ih := emitAll_eq (j.call.nextUid uid) js fun j' h' => h j' (List.mem_cons_of_mem _ h')
    rw [emitAll, Call.emit _ _ _ hj.accepted, Request.emission_of_small (hj.small _ _), sentAll,
      List.map_cons, ← ih]

theorem mem_sentAll : ∀ (uid : UInt32) {js : List Job} {j : Job}, j ∈ js →
    ∃ ouid, j.call.request j.locals ouid ∈ sentAll uid js
  | uid, j' :: js, j, h => by
    rcases List.mem_cons.1 h with rfl | h
    · exact ⟨_, List.mem_cons_self⟩
    · obtain ⟨ouid, hm⟩ := mem_sentAll (j'.call.nextUid uid) h
      exact ⟨ouid, List.mem_cons_of_mem _ hm⟩

theorem sentAll_mem : ∀ {uid : UInt32} {js : List Job} {r : Request}, r ∈ sentAll uid js →
    ∃ j ∈ js, ∃ ouid, r = j.call.request j.locals ouid
  | uid, j :: js, r, h => by
    rcases List.mem_cons.1 h with rfl | h
    · exact ⟨j, List.mem_cons_self, _, rfl⟩
    · obtain ⟨j', hj', ouid, e⟩ := sentAll_mem h
      exact ⟨j', List.mem_cons_of_mem _ hj', ouid, e⟩

theorem Call.oper_eq (m : Locals) (ouid : UInt32) (c : Call) :
    (c.request m ouid).head.opid = (c.request m ouid).oper := by
  cases c <;> rfl

theorem Call.framed (m : Locals) (ouid : UInt32) {c : Call} (h : c.Sendable)
    (hc : c.isSymlink = false) : (c.request m ouid).Framed := by
  have hsmall := h.small m ouid
  have hmsg := Request.message_eq_bytes hsmall
  refine ⟨c.oper_eq m ouid, ?_, hsmall⟩
  rw [← hmsg]
  exact c.size_eq m ouid hc (by rw [hmsg]; omega)

theorem Call.misframed (m : Locals) (ouid : UInt32) {c : Call} (h : c.Sendable)
    (hc : c.isSymlink = true) :
    (c.request m ouid).head.size.toNat ≠ (c.request m ouid).bytes.length := by
  cases c with
  | fuseSymlink fn srcfn =>
    obtain ⟨hsize, hlen⟩ := fuseSymlink_size m ouid fn srcfn
    rw [← Request.message_eq_bytes (h.small m ouid)]
    have hs := srcfn.short
    show (fuseSymlink.request m fn srcfn ouid).head.size.toNat ≠
      (fuseSymlink.request m fn srcfn ouid).message.length
    omega
  | _ => cases hc

/-- **Framing.** A sequence of sending calls obeys the framing law exactly when
    none of them is `fuse_symlink`. -/
theorem framing_iff (uid : UInt32) (js : List Job) (h : ∀ j ∈ js, j.call.Sendable) :
    FramingHolds uid js ↔ ∀ j ∈ js, j.call.isSymlink = false := by
  rw [FramingHolds, emitAll_eq uid js h]
  constructor
  · rintro ⟨hsize, -⟩ j hj
    obtain ⟨ouid, hm⟩ := mem_sentAll uid hj
    have hb := hsize _ (List.mem_map_of_mem hm)
    rw [Request.dec_bytes] at hb
    exact Bool.eq_false_iff.2 fun hc => Call.misframed j.locals ouid (h j hj) hc hb
  · intro hns
    have hf : ∀ r ∈ sentAll uid js, r.Framed := by
      intro r hr
      obtain ⟨j, hj, ouid, rfl⟩ := sentAll_mem hr
      exact Call.framed j.locals ouid (h j hj) (hns j hj)
    refine ⟨?_, receiveAll_framed _ _ hf (Nat.le_refl _)⟩
    intro msg hmsg
    obtain ⟨r, hr, rfl⟩ := List.mem_map.1 hmsg
    rw [Request.dec_bytes]
    exact (hf r hr).size

/-- A job with a cleared stack frame. -/
def Job.fresh (c : Call) : Job := ⟨default, c⟩

def pathA : Path := ⟨[0x61], by decide, by decide⟩
def pathB : Path := ⟨[0x62], by decide, by decide⟩

theorem framing_fails_symlink :
    (∀ j ∈ [Job.fresh (.fuseSymlink pathB pathA)], j.call.Sendable) ∧
      ¬FramingHolds 0 [Job.fresh (.fuseSymlink pathB pathA)] := by
  have hs : ∀ j ∈ [Job.fresh (.fuseSymlink pathB pathA)], j.call.Sendable := by
    intro j hj
    cases List.mem_singleton.1 hj
    rfl
  refine ⟨hs, fun h => ?_⟩
  have hb := h.1
  rw [emitAll_eq 0 _ hs] at hb
  have hsize := hb _ (List.mem_singleton.2 rfl)
  rw [Request.dec_bytes] at hsize
  exact Call.misframed default 1 (hs _ (List.mem_singleton.2 rfl)) rfl hsize

theorem framing_statfs_write :
    FramingHolds 0 [Job.fresh (.fuseStatfs pathA default),
      Job.fresh (.fuseWrite pathA [1, 2, 3] 0 ⟨0, false, false, 7⟩)] := by
  have hs : ∀ j ∈ [Job.fresh (.fuseStatfs pathA default),
      Job.fresh (.fuseWrite pathA [1, 2, 3] 0 ⟨0, false, false, 7⟩)], j.call.Sendable := by
    intro j hj
    simp only [List.mem_cons, List.not_mem_nil, or_false] at hj
    rcases hj with rfl | rfl
    · rfl
    · show 3 < 2 ^ 31 - 4140
      decide
  apply (framing_iff 0 _ hs).2
  intro j hj
  simp only [List.mem_cons, List.not_mem_nil, or_false] at hj
  rcases hj with rfl | rfl <;> rfl

end Zhwkrfsp
