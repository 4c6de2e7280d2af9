import Zhwkrfsp.Framing

/- What a request says. `Operation` is a request in the terms of the README: the
   operation, the path it is about, its selector, the fields that carry
   arguments (`none` where the README leaves a field open) and the content after
   the struct; `Operation.Reads` says that a message, read as its `opid` tells,
   is that request, and `Call.operation` which request a call stands for. libfuse
   calls `symlink(target, linkpath)`, so the first argument of `fuseSymlink` is
   the target.

   A call that the open checks let pass emits such a message unless it is a symlink
   with two different names, whose names are exchanged, an unlink, which has no
   content, or a write so long that the message overruns the send buffer or that a
   32-bit length cannot count the content. -/
namespace Zhwkrfsp
open Wire Chan

/-! Requests as the README prescribes them. -/

/-- The bits of `OpOpen.flags`, from the lowest. -/
structure OpenBits where
  creation : Bool
  direct : Bool
  directory : Bool
  nofollow : Bool
  truncate : Bool
  mkdir : Bool

def OpenBits.Reads (o : OpenBits) (flags : UInt8) : Prop :=
  flags = (if o.creation then 1 else 0) + (if o.direct then 2 else 0) +
    (if o.directory then 4 else 0) + (if o.nofollow then 8 else 0) +
    (if o.truncate then 16 else 0) + (if o.mkdir then 32 else 0)

/-- The content after an operation struct. -/
inductive Content where
  | nothing
  | exactly (bs : Bytes)
  /-- A path, filled to 4096 bytes. -/
  | filled (path : Bytes)
  | times (atime mtime : Timespec)

def Content.Reads : Content → Bytes → Prop
  | .nothing, bs => bs = []
  | .exactly cs, bs => bs = cs
  | .filled path, bs => bs.length = 4096 ∧ cstr bs = path
  | .times atime mtime, bs =>
    let t := TimeModder.codec.dec bs
    bs.length = TimeModder.codec.size ∧ t.atime = atime.tv_sec ∧ t.atime_nsec = atime.tv_nsec ∧
      t.mtime = mtime.tv_sec ∧ t.mtime_nsec = mtime.tv_nsec ∧ t.flags < 16 ∧
      (t.flags &&& 1 ≠ 0 ↔ atime.tv_nsec = utimeNow) ∧
      (t.flags &&& 2 ≠ 0 ↔ atime.tv_nsec = utimeOmit) ∧
      (t.flags &&& 4 ≠ 0 ↔ mtime.tv_nsec = utimeNow) ∧
      (t.flags &&& 8 ≠ 0 ↔ mtime.tv_nsec = utimeOmit)

/-- The argument fields of a read or a write. -/
structure Args where
  handle : Option UInt64
  offset : Option UInt64
  count : Option UInt64

/-- `x` is the value a field is given, if it is given one. -/
def Carries {α : Type} (o : Option α) (x : α) : Prop := ∀ a, o = some a → x = a

inductive Operation where
  | opening (path : Bytes) (bits : OpenBits) (mode : Option UInt16)
  | reading (path : Bytes) (mode : UInt8) (args : Args)
  | writing (path : Bytes) (mode : UInt8) (args : Args) (content : Content)
  | closing (handle : UInt64) (isDir : Bool)

/-! Reading a message. -/

def opidOf (msg : Bytes) : UInt32 := (OpHdr.codec.dec msg).opid

def structOf {α : Type} (c : Codec α) (msg : Bytes) : α := c.dec (msg.drop OpHdr.codec.size)

def contentOf {α : Type} (c : Codec α) (msg : Bytes) : Bytes :=
  msg.drop (OpHdr.codec.size + c.size)

namespace Operation

/-- The header and the struct of `msg` are those of the operation. -/
def ReadsStruct : Operation → Bytes → Prop
  | .opening path bits mode, msg =>
    let op := structOf OpOpen.codec msg
    opidOf msg = 0 ∧ cstr op.filename.val = path ∧ bits.Reads op.flags ∧ Carries mode op.mode
  | .reading path mode args, msg =>
    let rd := structOf OpRead.codec msg
    opidOf msg = 1 ∧ cstr rd.filename.val = path ∧ rd.read_mode = mode ∧
      Carries args.handle rd.file_handle ∧ Carries args.offset rd.offset ∧
      Carries args.count rd.count
  | .writing path mode args _, msg =>
    let wr := structOf OpWrit.codec msg
    opidOf msg = 2 ∧ cstr wr.filename.val = path ∧ wr.write_mode = mode ∧
      Carries args.handle wr.file_handle ∧ Carries args.offset wr.offset ∧
      Carries args.count wr.count
  | .closing handle isDir, msg =>
    let cl := structOf OpClos.codec msg
    opidOf msg = 3 ∧ cl.file_handle = handle ∧ cl.is_dir = if isDir then 1 else 0

/-- What follows the struct in `msg` is the operation's content. -/
def ReadsContent : Operation → Bytes → Prop
  | .opening .., msg => contentOf OpOpen.codec msg = []
  | .reading .., msg => contentOf OpRead.codec msg = []
  | .writing _ _ _ content, msg => content.Reads (contentOf OpWrit.codec msg)
  | .closing .., msg => contentOf OpClos.codec msg = []

def Reads (o : Operation) (msg : Bytes) : Prop := o.ReadsStruct msg ∧ o.ReadsContent msg

end Operation

/-! The operation a call stands for. -/

def Args.none : Args := ⟨.none, .none, .none⟩

def openBits (fi : FileInfo) : OpenBits where
  creation := false
  direct := fi.direct_io
  directory := false
  nofollow := ifflag fi.flags oNofollow
  truncate := ifflag fi.flags oTrunc
  mkdir := false

def Call.operation : Call → Operation
  | .fuseGetattr fn _ => .reading fn.str 1 Args.none
  | .fuseReadlink fn _ => .reading fn.str 3 Args.none
  | .fuseMkdir dn mode =>
    .opening dn.str ⟨false, false, false, false, false, true⟩ (some mode.toUInt16)
  | .fuseRmdir dn => .writing dn.str 6 Args.none .nothing
  | .fuseSymlink target linkpath => .writing linkpath.str 2 Args.none (.filled target.str)
  | .fuseChmod fn mode => .writing fn.str 1 Args.none (.exactly (Codec.u32.enc mode))
  | .fuseTruncate fn pos => .writing fn.str 4 ⟨none, some pos.toUInt64, none⟩ .nothing
  | .fuseOpen fn fi => .opening fn.str (openBits fi) none
  | .fuseRead fn buf pos fi =>
    .reading fn.str 0 ⟨some fi.fh, some pos.toUInt64, some (UInt64.ofNat buf.length)⟩
  | .fuseWrite fn buf pos fi =>
    .writing fn.str 0 ⟨some fi.fh, some pos.toUInt64, some (UInt64.ofNat buf.length)⟩ (.exactly buf)
  | .fuseStatfs fn _ => .reading fn.str 2 Args.none
  | .fuseRelease fi => .closing fi.fh false
  | .fuseOpendir dn fi =>
    .opening dn.str ⟨false, false, true, ifflag fi.flags oNofollow, false, false⟩ none
  | .fuseReaddir dn _ offset fi => .reading dn.str 4 ⟨some fi.fh, some offset.toUInt64, none⟩
  | .fuseReleasedir fi => .closing fi.fh true
  | .fuseAccess fn amode => .writing fn.str 5 Args.none (.exactly (Codec.u32.enc amode.toUInt32))
  | .fuseUnlink fn => .writing fn.str 3 Args.none (.filled fn.str)
  | .fuseCreat fn mode fi =>
    .opening fn.str { openBits fi with creation := true } (some mode.toUInt16)
  | .fuseUtimens fn atime mtime => .writing fn.str 7 Args.none (.times atime mtime)

/-! Reading what a handler sends. -/

theorem cstr_fncpy (dst : CArr filenameLen) (src : Path) : cstr (fncpy dst src).val = src.str := by
  have hs := src.short
  rw [fncpy, CArr.put_val _ (by simp; omega), List.append_assoc]
  exact cstr_append src.noNul _

section
variable {α : Type} (head : OpHdr) (c : Codec α) (a : α) (bs : Bytes)

theorem opidOf_enc (msg : Bytes) : opidOf (OpHdr.codec.enc head ++ msg) = head.opid := by
  rw [opidOf, Codec.dec_enc]

theorem structOf_enc : structOf c (OpHdr.codec.enc head ++ (c.enc a ++ bs)) = a := by
  rw [structOf, Codec.drop_enc, Codec.dec_enc]

theorem contentOf_enc : contentOf c (OpHdr.codec.enc head ++ (c.enc a ++ bs)) = bs := by
  rw [contentOf, ← List.drop_drop, Codec.drop_enc, Codec.drop_enc]

end

namespace Request

theorem message_opening (head : OpHdr) (op : OpOpen) : (opening head op).message =
    OpHdr.codec.enc head ++ (OpOpen.codec.enc op ++ []) := by
  rw [message_eq_bytes (by simp [bytes_length])]; rfl

theorem message_reading (head : OpHdr) (rd : OpRead) : (reading head rd).message =
    OpHdr.codec.enc head ++ (OpRead.codec.enc rd ++ []) := by
  rw [message_eq_bytes (by simp [bytes_length])]; rfl

theorem message_writing (head : OpHdr) (wr : OpWrit) (payload : Option Bytes) :
    (writing head wr payload).message =
      OpHdr.codec.enc head ++ (OpWrit.codec.enc wr ++ (payload.map Bss.counted).getD []) := by
  have hh : Bss.counted (OpHdr.codec.enc head) = OpHdr.codec.enc head :=
    Bss.counted_of_lt (by simp)
  have hw : Bss.counted (OpWrit.codec.enc wr) = OpWrit.codec.enc wr :=
    Bss.counted_of_lt (by simp)
  cases payload <;> simp [message, parts, hh, hw]

theorem message_closing (head : OpHdr) (cl : OpClos) : (closing head cl).message =
    OpHdr.codec.enc head ++ (OpClos.codec.enc cl ++ []) := by
  rw [message_eq_bytes (by simp [bytes_length])]; rfl

end Request

/-- What a message says about a request, by the request's kind. -/
theorem readsStruct_opening (head : OpHdr) (op : OpOpen) (path : Bytes) (bits : OpenBits)
    (mode : Option UInt16) :
    (Operation.opening path bits mode).ReadsStruct (Request.opening head op).message ↔
      head.opid = 0 ∧ cstr op.filename.val = path ∧ bits.Reads op.flags ∧ Carries mode op.mode := by
  rw [Request.message_opening, Operation.ReadsStruct, opidOf_enc, structOf_enc]

theorem readsStruct_reading (head : OpHdr) (rd : OpRead) (path : Bytes) (mode : UInt8)
    (args : Args) :
    (Operation.reading path mode args).ReadsStruct (Request.reading head rd).message ↔
      head.opid = 1 ∧ cstr rd.filename.val = path ∧ rd.read_mode = mode ∧
        Carries args.handle rd.file_handle ∧ Carries args.offset rd.offset ∧
        Carries args.count rd.count := by
  rw [Request.message_reading, Operation.ReadsStruct, opidOf_enc, structOf_enc]

theorem readsStruct_writing (head : OpHdr) (wr : OpWrit) (payload : Option Bytes) (path : Bytes)
    (mode : UInt8) (args : Args) (content : Content) :
    (Operation.writing path mode args content).ReadsStruct
        (Request.writing head wr payload).message ↔
      head.opid = 2 ∧ cstr wr.filename.val = path ∧ wr.write_mode = mode ∧
        Carries args.handle wr.file_handle ∧ Carries args.offset wr.offset ∧
        Carries args.count wr.count := by
  rw [Request.message_writing, Operation.ReadsStruct, opidOf_enc, structOf_enc]

theorem readsContent_writing (head : OpHdr) (wr : OpWrit) (payload : Option Bytes) (path : Bytes)
    (mode : UInt8) (args : Args) (content : Content) :
    (Operation.writing path mode args content).ReadsContent
        (Request.writing head wr payload).message ↔
      content.Reads ((payload.map Bss.counted).getD []) := by
  rw [Request.message_writing, Operation.ReadsContent, contentOf_enc]

theorem readsStruct_closing (head : OpHdr) (cl : OpClos) (handle : UInt64) (isDir : Bool) :
    (Operation.closing handle isDir).ReadsStruct (Request.closing head cl).message ↔
      head.opid = 3 ∧ cl.file_handle = handle ∧ cl.is_dir = if isDir then 1 else 0 := by
  rw [Request.message_closing, Operation.ReadsStruct, opidOf_enc, structOf_enc]

@[simp] theorem carries_none {α : Type} (x : α) : Carries none x := nofun

@[simp] theorem carries_some {α : Type} (a x : α) : Carries (some a) x ↔ x = a :=
  ⟨fun h => h a rfl, fun h b e => by cases e; exact h⟩

/-! The flags the handlers compose, bit by bit. -/

theorem openFlags_reads (trunc nofollow direct : Bool) :
    OpenBits.Reads ⟨false, direct, false, nofollow, trunc, false⟩
      (orIf (orIf (orIf 0 trunc openTrunc) nofollow openNofollow) direct openDirect) := by
  cases trunc <;> cases nofollow <;> cases direct <;> rfl

theorem creatFlags_reads (trunc nofollow direct : Bool) :
    OpenBits.Reads ⟨true, direct, false, nofollow, trunc, false⟩
      (orIf (orIf (orIf 0 trunc openTrunc) nofollow openNofollow) direct openDirect |||
        openCreat) := by
  cases trunc <;> cases nofollow <;> cases direct <;> rfl

theorem opendirFlags_reads (nofollow : Bool) :
    OpenBits.Reads ⟨false, false, true, nofollow, false, false⟩
      (orIf 0 nofollow openNofollow ||| openDirectory) := by
  cases nofollow <;> rfl

/-- The two flags of either time, whatever the times are. -/
theorem timeFlags_reads (atime mtime : Timespec) :
    timeFlags atime mtime < 16 ∧
      (timeFlags atime mtime &&& 1 ≠ 0 ↔ atime.tv_nsec = utimeNow) ∧
      (timeFlags atime mtime &&& 2 ≠ 0 ↔ atime.tv_nsec = utimeOmit) ∧
      (timeFlags atime mtime &&& 4 ≠ 0 ↔ mtime.tv_nsec = utimeNow) ∧
      (timeFlags atime mtime &&& 8 ≠ 0 ↔ mtime.tv_nsec = utimeOmit) := by
  -- a time is now, or omitted, or neither
  have hcase : ∀ n : Int64, (n = utimeNow ∧ n ≠ utimeOmit) ∨ (n ≠ utimeNow ∧ n = utimeOmit) ∨
      (n ≠ utimeNow ∧ n ≠ utimeOmit) := by
    intro n
    have hne : utimeNow ≠ utimeOmit := by decide
    by_cases hn : n = utimeNow
    · exact .inl ⟨hn, hn ▸ hne⟩
    · by_cases ho : n = utimeOmit
      · exact .inr (.inl ⟨hn, ho⟩)
      · exact .inr (.inr ⟨hn, ho⟩)
  unfold timeFlags
  rcases hcase atime.tv_nsec with ⟨ha, ha'⟩ | ⟨ha, ha'⟩ | ⟨ha, ha'⟩ <;>
    rcases hcase mtime.tv_nsec with ⟨hm, hm'⟩ | ⟨hm, hm'⟩ | ⟨hm, hm'⟩ <;>
    simp only [ha, ha', hm, hm', if_true, if_false, iff_true, iff_false] <;> decide

/-! The calls that deviate. -/

/-- A symlink whose names differ. -/
def Call.SwapsNames : Call → Prop
  | .fuseSymlink target linkpath => target.str ≠ linkpath.str
  | _ => False

/-- An unlink, or a write longer than 32 bits can count. -/
def Call.LacksContent : Call → Prop
  | .fuseUnlink _ => True
  | .fuseWrite _ buf _ _ => 2 ^ 32 ≤ buf.length
  | _ => False

/-- No message comes about: the open checks return first, or the append of a write's
    payload, counted in 32 bits, overruns the send buffer. -/
def Call.Silent : Call → Prop
  | .fuseWrite _ buf _ _ => 2 ^ 31 ≤ 4140 + buf.length % 2 ^ 32
  | c => c.rejected = true

/-! Which calls send at all. -/

theorem fuseWrite_emission (m : Locals) (ouid : UInt32) (fn : Path) (buf : Bytes) (pos : Int64)
    (fi : FileInfo) : (fuseWrite.request m fn buf pos fi ouid).emission.isSome ↔
      4140 + buf.length % 2 ^ 32 < 2 ^ 31 := by
  obtain ⟨head, wr, hr⟩ : ∃ head wr, fuseWrite.request m fn buf pos fi ouid =
      .writing head wr (some buf) := ⟨_, _, rfl⟩
  have hh : Bss.counted (OpHdr.codec.enc head) = OpHdr.codec.enc head := Bss.counted_of_lt (by simp)
  have hw : Bss.counted (OpWrit.codec.enc wr) = OpWrit.codec.enc wr := Bss.counted_of_lt (by simp)
  have hparts : (Request.writing head wr (some buf)).parts.map Bss.counted =
      [OpHdr.codec.enc head, OpWrit.codec.enc wr, Bss.counted buf] := by
    simp [Request.parts, hh, hw]
  rw [hr, Request.emission, Option.isSome_map, ← Bss.appendAll_counted, hparts,
    Bss.appendAll_isSome_iff _ Bss.Holds.constructor]
  · have hlen : ([OpHdr.codec.enc head, OpWrit.codec.enc wr, Bss.counted buf] : List Bytes).flatten.length
        = 4140 + buf.length % 2 ^ 32 := by
      simp
      omega
    have h64 : Bss.constructor.capacity.toNat = 64 := rfl
    rw [h64, List.length_nil, Bss.fits_constructor, hlen]
    constructor
    · rintro ⟨pre, hp, hlt, hle⟩
      -- the header and the struct alone are far below half of 2^31 bytes
      by_contra hge
      have hsub : pre.flatten.length ≤ 4140 ∨ pre.flatten.length = 4140 + buf.length % 2 ^ 32 := by
        rcases List.prefix_cons_iff.1 hp with rfl | ⟨p₁, rfl, hp₁⟩
        · exact .inl (by simp)
        rcases List.prefix_cons_iff.1 hp₁ with rfl | ⟨p₂, rfl, hp₂⟩
        · exact .inl (by simp)
        rcases List.prefix_cons_iff.1 hp₂ with rfl | ⟨p₃, rfl, hp₃⟩
        · exact .inl (by simp)
        · rw [List.prefix_nil.1 hp₃, hlen]
          exact .inr rfl
      omega
    · intro hlt
      exact ⟨_, List.prefix_rfl, by rw [hlen]; exact hlt, by rw [hlen]; omega⟩
  · intro s hs
    simp only [List.mem_cons, List.not_mem_nil, or_false] at hs
    rcases hs with rfl | rfl | rfl
    · simp
    · simp
    · rw [Bss.counted_length]
      exact Nat.mod_lt _ (by omega)

theorem Call.write_or_not (c : Call) : (∃ fn buf pos fi, c = .fuseWrite fn buf pos fi) ∨
    (c.Silent ↔ c.rejected = true) ∧ (c.Sendable ↔ c.rejected = false) := by
  cases c with
  | fuseWrite fn buf pos fi => exact .inl ⟨fn, buf, pos, fi, rfl⟩
  | _ => exact .inr ⟨Iff.rfl, Iff.rfl⟩

/-- A call has a request to send unless it is silent. -/
theorem Call.emit_isSome_iff (m : Locals) (uid : UInt32) (c : Call) :
    ((c.prog m).emit uid).1.isSome ↔ ¬c.Silent := by
  rcases c.write_or_not with ⟨fn, buf, pos, fi, rfl⟩ | ⟨hsilent, hsendable⟩
  · rw [Call.emit m uid _ rfl, Silent, Nat.not_le]
    exact fuseWrite_emission m _ fn buf pos fi
  · rw [hsilent]
    cases hr : c.rejected with
    | true =>
      rw [c.emit_rejected m uid hr]
      simp
    | false =>
      rw [c.emit_sendable m uid (hsendable.2 hr)]
      simp

section
variable (m : Locals) (ouid : UInt32)

theorem Call.readsStruct_iff (c : Call) :
    c.operation.ReadsStruct (c.request m ouid).message ↔ ¬c.SwapsNames := by
  cases c with
  | fuseGetattr fn st =>
    apply (readsStruct_reading _ _ _ _ _).trans
    simp [operRead, rdStat, cstr_fncpy, Args.none, SwapsNames]
  | fuseReadlink fn dest =>
    apply (readsStruct_reading _ _ _ _ _).trans
    simp [operRead, rdLink, cstr_fncpy, Args.none, SwapsNames]
  | fuseMkdir dn mode =>
    apply (readsStruct_opening _ _ _ _ _).trans
    simp [operOpen, openMkdir, OpenBits.Reads, cstr_fncpy, SwapsNames]
  | fuseRmdir dn =>
    apply (readsStruct_writing _ _ _ _ _ _ _).trans
    simp [operWrite, wrRmdir, cstr_fncpy, Args.none, SwapsNames]
  | fuseSymlink target linkpath =>
    apply (readsStruct_writing _ _ _ _ _ _ _).trans
    simp [operWrite, wrSymlink, cstr_fncpy, Args.none, SwapsNames]
  | fuseChmod fn mode =>
    apply (readsStruct_writing _ _ _ _ _ _ _).trans
    simp [operWrite, wrChmod, cstr_fncpy, Args.none, SwapsNames]
  | fuseTruncate fn pos =>
    apply (readsStruct_writing _ _ _ _ _ _ _).trans
    simp [operWrite, wrTrunc, cstr_fncpy, SwapsNames]
  | fuseOpen fn fi =>
    apply (readsStruct_opening _ _ _ _ _).trans
    exact iff_of_true ⟨rfl, cstr_fncpy _ _, openFlags_reads _ _ _, carries_none _⟩ id
  | fuseRead fn buf pos fi =>
    apply (readsStruct_reading _ _ _ _ _).trans
    simp [operRead, rdRegular, cstr_fncpy, SwapsNames]
  | fuseWrite fn buf pos fi =>
    apply (readsStruct_writing _ _ _ _ _ _ _).trans
    simp [operWrite, wrRegular, cstr_fncpy, SwapsNames]
  | fuseStatfs fn fstat =>
    apply (readsStruct_reading _ _ _ _ _).trans
    simp [operRead, rdStatfs, cstr_fncpy, Args.none, SwapsNames]
  | fuseRelease fi =>
    apply (readsStruct_closing _ _ _ _).trans
    simp [operClose, SwapsNames]
  | fuseOpendir dn fi =>
    apply (readsStruct_opening _ _ _ _ _).trans
    exact iff_of_true ⟨rfl, cstr_fncpy _ _, opendirFlags_reads _, carries_none _⟩ id
  | fuseReaddir dn fill offset fi =>
    apply (readsStruct_reading _ _ _ _ _).trans
    simp [operRead, rdDir, cstr_fncpy, SwapsNames]
  | fuseReleasedir fi =>
    apply (readsStruct_closing _ _ _ _).trans
    simp [operClose, SwapsNames]
  | fuseAccess fn amode =>
    apply (readsStruct_writing _ _ _ _ _ _ _).trans
    simp [operWrite, wrAcces, cstr_fncpy, Args.none, SwapsNames]
  | fuseUnlink fn =>
    apply (readsStruct_writing _ _ _ _ _ _ _).trans
    simp [operWrite, wrRemove, cstr_fncpy, Args.none, SwapsNames]
  | fuseCreat fn mode fi =>
    apply (readsStruct_opening _ _ _ _ _).trans
    exact iff_of_true ⟨rfl, cstr_fncpy _ _, creatFlags_reads _ _ _, (carries_some _ _).2 rfl⟩ id
  | fuseUtimens fn atime mtime =>
    apply (readsStruct_writing _ _ _ _ _ _ _).trans
    simp [operWrite, wrModtime, cstr_fncpy, Args.none, SwapsNames]

theorem filled_fncpy (dst : CArr filenameLen) (src : Path) (path : Bytes) :
    (Content.filled path).Reads (Bss.counted (fncpy dst src).val) ↔ src.str = path := by
  rw [Bss.counted_of_lt (by rw [CArr.len]; decide), Content.Reads, CArr.len, cstr_fncpy]
  exact and_iff_right rfl

theorem counted_eq_iff (s : Bytes) : Bss.counted s = s ↔ s.length < 2 ^ 32 := by
  refine ⟨fun h => ?_, Bss.counted_of_lt⟩
  have hlen := congrArg List.length h
  rw [Bss.counted_length] at hlen
  omega

theorem Call.readsContent_iff (c : Call) :
    c.operation.ReadsContent (c.request m ouid).message ↔ ¬c.SwapsNames ∧ ¬c.LacksContent := by
  have op_reads : ∀ (head : OpHdr) (op : OpOpen),
      contentOf OpOpen.codec (Request.opening head op).message = [] := fun head op => by
    rw [Request.message_opening, contentOf_enc]
  have rd_reads : ∀ (head : OpHdr) (rd : OpRead),
      contentOf OpRead.codec (Request.reading head rd).message = [] := fun head rd => by
    rw [Request.message_reading, contentOf_enc]
  have wr_reads : ∀ (head : OpHdr) (wr : OpWrit),
      contentOf OpWrit.codec (Request.writing head wr none).message = [] := fun head wr => by
    rw [Request.message_writing, contentOf_enc]; rfl
  have cl_reads : ∀ (head : OpHdr) (cl : OpClos),
      contentOf OpClos.codec (Request.closing head cl).message = [] := fun head cl => by
    rw [Request.message_closing, contentOf_enc]
  cases c with
  | fuseGetattr fn st => exact iff_of_true (rd_reads _ _) ⟨id, id⟩
  | fuseReadlink fn dest => exact iff_of_true (rd_reads _ _) ⟨id, id⟩
  | fuseMkdir dn mode => exact iff_of_true (op_reads _ _) ⟨id, id⟩
  | fuseRmdir dn => exact iff_of_true (wr_reads _ _) ⟨id, id⟩
  -- the struct has the target, and the payload the path of the link
  | fuseSymlink target linkpath =>
    apply (readsContent_writing _ _ _ _ _ _ _).trans
    apply (filled_fncpy _ _ _).trans
    simp [SwapsNames, LacksContent, eq_comm]
  | fuseChmod fn mode =>
    refine iff_of_true ((readsContent_writing _ _ _ _ _ _ _).2 ?_) ⟨id, id⟩
    exact Bss.counted_of_lt (by simp)
  | fuseTruncate fn pos => exact iff_of_true (wr_reads _ _) ⟨id, id⟩
  | fuseOpen fn fi => exact iff_of_true (op_reads _ _) ⟨id, id⟩
  | fuseRead fn buf pos fi => exact iff_of_true (rd_reads _ _) ⟨id, id⟩
  | fuseWrite fn buf pos fi =>
    apply (readsContent_writing _ _ _ _ _ _ _).trans
    apply (counted_eq_iff buf).trans
    simp [SwapsNames, LacksContent]
  | fuseStatfs fn fstat => exact iff_of_true (rd_reads _ _) ⟨id, id⟩
  | fuseRelease fi => exact iff_of_true (cl_reads _ _) ⟨id, id⟩
  | fuseOpendir dn fi => exact iff_of_true (op_reads _ _) ⟨id, id⟩
  | fuseReaddir dn fill offset fi => exact iff_of_true (rd_reads _ _) ⟨id, id⟩
  | fuseReleasedir fi => exact iff_of_true (cl_reads _ _) ⟨id, id⟩
  | fuseAccess fn amode =>
    refine iff_of_true ((readsContent_writing _ _ _ _ _ _ _).2 ?_) ⟨id, id⟩
    exact Bss.counted_of_lt (by simp)
  | fuseUnlink fn =>
    apply (readsContent_writing _ _ _ _ _ _ _).trans
    simp [LacksContent, Content.Reads]
  | fuseCreat fn mode fi => exact iff_of_true (op_reads _ _) ⟨id, id⟩
  | fuseUtimens fn atime mtime =>
    refine iff_of_true ((readsContent_writing _ _ _ _ _ _ _).2 ?_) ⟨id, id⟩
    have hc : Bss.counted (TimeModder.codec.enc (fuseUtimens.tmdr m atime mtime)) =
        TimeModder.codec.enc (fuseUtimens.tmdr m atime mtime) := Bss.counted_of_lt (by simp)
    rw [Option.map_some, Option.getD_some, hc, Content.Reads, Codec.dec_enc_nil]
    exact ⟨Codec.enc_length _ _, rfl, rfl, rfl, rfl, timeFlags_reads atime mtime⟩

end

/-- What a call emits, `opuid` being `uid` before it, is as `P` says; a call that the
    open checks reject is to emit nothing. -/
def Call.Emits (m : Locals) (uid : UInt32) (c : Call) (P : Bytes → Prop) : Prop :=
  c.rejected = false → ∃ msg, ((c.prog m).emit uid).1 = some msg ∧ P msg

theorem Call.emits_iff (m : Locals) (uid : UInt32) (c : Call) (P : Bytes → Prop) :
    c.Emits m uid P ↔
      c.rejected = true ∨ ¬c.Silent ∧ P (c.request m (c.headOuid uid)).message := by
  unfold Call.Emits
  rw [← c.emit_isSome_iff m uid]
  cases hc : c.rejected with
  | true => simp
  | false =>
    constructor
    · intro h
      obtain ⟨msg, hmsg, hp⟩ := h rfl
      rw [(Call.emit_some hmsg).2] at hp
      exact .inr ⟨Option.isSome_of_eq_some hmsg, hp⟩
    · intro h _
      obtain ⟨hsome, hp⟩ := h.resolve_left (by decide)
      obtain ⟨msg, hmsg⟩ := Option.isSome_iff_exists.1 hsome
      exact ⟨msg, hmsg, (Call.emit_some hmsg).2 ▸ hp⟩

/-- **Request content.** A call emits the request the README prescribes for it
    exactly when it does not overrun the send buffer and neither swaps two names
    nor lacks content, and a request with such a struct exactly when it does not
    overrun the buffer and swaps no names. -/
theorem content_conforms_iff (m : Locals) (uid : UInt32) (c : Call) :
    (c.Emits m uid c.operation.Reads ↔
      c.rejected = true ∨ ¬c.Silent ∧ ¬c.SwapsNames ∧ ¬c.LacksContent) ∧
    (c.Emits m uid c.operation.ReadsStruct ↔ c.rejected = true ∨ ¬c.Silent ∧ ¬c.SwapsNames) := by
  rw [Call.emits_iff, Call.emits_iff, Operation.Reads, Call.readsStruct_iff, Call.readsContent_iff]
  have hboth : ¬c.SwapsNames ∧ ¬c.SwapsNames ∧ ¬c.LacksContent ↔
      ¬c.SwapsNames ∧ ¬c.LacksContent := and_self_left
  rw [hboth]
  exact ⟨Iff.rfl, Iff.rfl⟩

/-- `symlink("a", "b")` asks for a link named `a`, and `unlink("a")` sends no
    name after its struct. -/
theorem content_fails :
    (∃ msg, (((Call.fuseSymlink pathA pathB).prog default).emit 0).1 = some msg ∧
      ¬(Call.fuseSymlink pathA pathB).operation.Reads msg) ∧
    ∃ msg, (((Call.fuseUnlink pathA).prog default).emit 0).1 = some msg ∧
      ¬(Call.fuseUnlink pathA).operation.Reads msg := by
  refine ⟨⟨_, Call.emit_sendable default 0 rfl, fun h => ?_⟩,
    ⟨_, Call.emit_sendable default 0 rfl, fun h => ?_⟩⟩
  · have hne : pathA.str ≠ pathB.str := by decide
    exact (Call.readsStruct_iff default 1 _).1 h.1 hne
  · exact ((Call.readsContent_iff default 0 _).1 h.2).2 trivial

theorem content_conforms_truncate : ∃ msg,
    (((Call.fuseTruncate pathA 5).prog default).emit 0).1 = some msg ∧
      (Call.fuseTruncate pathA 5).operation.Reads msg :=
  (content_conforms_iff default 0 (.fuseTruncate pathA 5)).1.2
    (.inr ⟨Bool.false_ne_true, id, id⟩) rfl

end Zhwkrfsp
