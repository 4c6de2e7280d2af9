import Zhwkrfsp.Prot
import Zhwkrfsp.Ustruct

/- The nineteen request handlers of `fuse_server.c`. A handler is a program over
   `mu`, `opuid` and the socket; its C return value comes with the new value of
   its out-parameter. `Locals` is what the handler's stack frame holds before the
   handler writes to it, so an unset field or the tail of a name is an arbitrary
   value and not a zero. A handler's request is a definition of its own
   (`fuseGetattr.request`, and so on): the header and the struct as the handler
   fills them, with the payload it appends after them.

   `converse` is the part all handlers share: build the message, `sockwrite` it,
   `wait_reply`, and return through WARN or WARNE on an I/O error or a negative
   `rtvl`. Fifteen handlers lock `mu` and advance `opuid` first; `fuse_chmod`,
   `fuse_access`, `fuse_unlink` and `fuse_utimens` do neither, and
   `fuse_truncate` advances it twice. -/
namespace Zhwkrfsp
open Wire Chan

def EBUSY : Int32 := 16
def EINVAL : Int32 := 22

/-! Open flags and special times of the platform. -/

def oExcl : UInt32 := 0x80
def oTrunc : UInt32 := 0x200
def oAppend : UInt32 := 0x400
def oDsync : UInt32 := 0x1000
def oAsync : UInt32 := 0x2000
def oNofollow : UInt32 := 0x20000
def oCloexec : UInt32 := 0x80000
def oSync : UInt32 := 0x101000
def utimeNow : Int64 := 0x3fffffff
def utimeOmit : Int64 := 0x3ffffffe

/-- A path argument: a C string that fits a `filename` field. -/
structure Path where
  str : Bytes
  noNul : (0 : UInt8) ∉ str
  short : str.length < filenameLen

/-- The fields of `struct fuse_file_info` the handlers use. -/
structure FileInfo where
  flags : UInt32
  writepage : Bool
  direct_io : Bool
  fh : UInt64
  deriving DecidableEq

/-- The local variables of a handler before it writes to them. -/
structure Locals where
  op : OpOpen
  rd : OpRead
  wr : OpWrit
  cl : OpClos
  tmdr : TimeModder
  srcbuf : CArr filenameLen
  deriving Inhabited

/-- `FNCPY`, and the `strcpy` with an explicit terminator of the older handlers. -/
def fncpy (dst : CArr filenameLen) (src : Path) : CArr filenameLen := dst.put (src.str ++ [0])

/-! Requests. -/

/-- A request as a handler holds it before it is appended to the send buffer. -/
inductive Request where
  | opening (head : OpHdr) (op : OpOpen)
  | reading (head : OpHdr) (rd : OpRead)
  | writing (head : OpHdr) (wr : OpWrit) (payload : Option Bytes)
  | closing (head : OpHdr) (cl : OpClos)
  deriving DecidableEq

/-- What is appended to the send buffer, in order. -/
def Request.parts : Request → List Bytes
  | .opening head op => [OpHdr.codec.enc head, OpOpen.codec.enc op]
  | .reading head rd => [OpHdr.codec.enc head, OpRead.codec.enc rd]
  | .writing head wr none => [OpHdr.codec.enc head, OpWrit.codec.enc wr]
  | .writing head wr (some payload) => [OpHdr.codec.enc head, OpWrit.codec.enc wr, payload]
  | .closing head cl => [OpHdr.codec.enc head, OpClos.codec.enc cl]

/-- The request's bytes on the wire. -/
def Request.bytes (r : Request) : Bytes := r.parts.flatten

def Request.head : Request → OpHdr
  | .opening head _ => head
  | .reading head _ => head
  | .writing head _ _ => head
  | .closing head _ => head

/-- `SIZEHDR(st)`; `head.size` keeps its low 32 bits. -/
def sizehdr {α : Type} (c : Codec α) : UInt64 := sizeof OpHdr.codec + sizeof c

/-! The parts the handlers share. -/

/-- `WARN` and `WARNE`: unlock and return, the out-parameter untouched. -/
def warn {β : Type} (rtvl : Int32) (old : β) : Io (Int32 × β) := do
  Prog.release
  return (rtvl, old)

def bumpOpuid : Io Unit := do
  let opuid ← Prog.load
  Prog.store (opuid + 1)

/-- `mu.lock(mu); opuid ++;` and the value `head.ouid` is set to. -/
def enter : Io UInt32 := do
  Prog.acquire
  bumpOpuid
  Prog.load

/-- Build the message, send it and wait for the reply header. -/
def converse {β : Type} (req : Request) (old : β) (onReply : RpHdr → Io (Int32 × β)) :
    Io (Int32 × β) :=
  match Bss.constructor.appendAll req.parts with
  | none => Prog.halt .fault
  | some sb => do
    if ← sockwrite sb then
      match ← waitReply with
      | none => warn (-EBUSY) old
      | some rp => if rp.rtvl < 0 then warn rp.rtvl old else onReply rp
    else warn (-EBUSY) old

/-- A reply that is the header alone. -/
def headerOnly (rtvl : RpHdr → Int32) (rp : RpHdr) : Io (Int32 × Unit) :=
  if rp.size.toUInt64 ≠ sizeof RpHdr.codec then Prog.halt .abort
  else do
    Prog.release
    return (rtvl rp, ())

/-- A reply whose body is one struct. -/
def structBody {β γ : Type} (c : Codec γ) (old : β) (use : γ → β) (rp : RpHdr) : Io (Int32 × β) :=
  if rp.size.toUInt64 ≠ sizeof RpHdr.codec + sizeof c then Prog.halt .abort
  else do
    match ← reRead (sizeof c) with
    | none => warn (-EBUSY) old
    | some body =>
      Prog.release
      return (0, use (c.dec body))

/-- A flag bit of a C `if` chain. -/
def orIf (flags : UInt8) (c : Bool) (flag : UInt8) : UInt8 := if c then flags ||| flag else flags

/-- `IFFLAG`. -/
def ifflag (flg tst : UInt32) : Bool := flg &&& tst ≠ 0

/-- The checks of the open handlers, before anything is sent. -/
def openChecks (fi : FileInfo) (unsupported : UInt32) (k : Io (Int32 × FileInfo)) :
    Io (Int32 × FileInfo) :=
  if fi.writepage then warn (-EINVAL) fi
  else if ifflag fi.flags unsupported then warn (-EINVAL) fi
  else k

/-- What the open handlers do with `struct RpOpen`. -/
def setHandle (fi : FileInfo) (ro : RpOpen) : FileInfo :=
  if ro.ignore_above = 0 then { fi with fh := ro.file_handle } else fi

/-! Handlers. -/

section
variable (m : Locals)

def fuseGetattr.request (fn : Path) (ouid : UInt32) : Request :=
  .reading ⟨(sizehdr OpRead.codec).toUInt32, ouid, operRead⟩
    { m.rd with filename := fncpy m.rd.filename fn, read_mode := rdStat }

def fuseGetattr (fn : Path) (st : Stat) : Io (Int32 × Stat) := do
  let ouid ← enter
  converse (fuseGetattr.request m fn ouid) st (structBody Ustat.codec st fallStat)

def fuseReadlink.request (fn : Path) (ouid : UInt32) : Request :=
  .reading ⟨(sizehdr OpRead.codec).toUInt32, ouid, operRead⟩
    { m.rd with filename := fncpy m.rd.filename fn, read_mode := rdLink }

/-- `dest` is the caller's buffer of `buflen` bytes. -/
def fuseReadlink (fn : Path) (dest : Bytes) : Io (Int32 × Bytes) := do
  let ouid ← enter
  converse (fuseReadlink.request m fn ouid) dest fun rp =>
    if rp.size.toUInt64 > sizeof RpHdr.codec + UInt64.ofNat dest.length then Prog.halt .abort
    else do
      match ← reRead (rp.size.toUInt64 - sizeof RpHdr.codec) with
      | none => warn (-EBUSY) dest
      | some body =>
        Prog.release
        return (0, body ++ dest.drop body.length)

def fuseMkdir.request (dn : Path) (mode : UInt32) (ouid : UInt32) : Request :=
  .opening ⟨(sizehdr OpOpen.codec).toUInt32, ouid, operOpen⟩
    { m.op with filename := fncpy m.op.filename dn, flags := openMkdir, mode := mode.toUInt16 }

def fuseMkdir (dn : Path) (mode : UInt32) : Io (Int32 × Unit) := do
  let ouid ← enter
  converse (fuseMkdir.request m dn mode ouid) () (headerOnly fun _ => 0)

def fuseRmdir.request (dn : Path) (ouid : UInt32) : Request :=
  .writing ⟨(sizehdr OpWrit.codec).toUInt32, ouid, operWrite⟩
    { m.wr with filename := fncpy m.wr.filename dn, write_mode := wrRmdir } none

def fuseRmdir (dn : Path) : Io (Int32 × Unit) := do
  let ouid ← enter
  converse (fuseRmdir.request m dn ouid) () (headerOnly fun _ => 0)

/-- `head.size` counts `strlen(srcfn)` bytes of payload, and `FILENAME_LEN` are
    appended. -/
def fuseSymlink.request (fn srcfn : Path) (ouid : UInt32) : Request :=
  .writing ⟨(sizehdr OpWrit.codec + UInt64.ofNat srcfn.str.length).toUInt32, ouid, operWrite⟩
    { m.wr with filename := fncpy m.wr.filename fn, write_mode := wrSymlink }
    (some (fncpy m.srcbuf srcfn).val)

def fuseSymlink (fn srcfn : Path) : Io (Int32 × Unit) := do
  let ouid ← enter
  converse (fuseSymlink.request m fn srcfn ouid) () (headerOnly fun _ => 0)

def fuseChmod.request (fn : Path) (mode : UInt32) (ouid : UInt32) : Request :=
  .writing ⟨(sizehdr OpWrit.codec + sizeof Codec.u32).toUInt32, ouid, operWrite⟩
    { m.wr with filename := fncpy m.wr.filename fn, write_mode := wrChmod }
    (some (Codec.u32.enc mode))

/-- No lock and no new `opuid`; every return path unlocks. -/
def fuseChmod (fn : Path) (mode : UInt32) : Io (Int32 × Unit) := do
  let ouid ← Prog.load
  converse (fuseChmod.request m fn mode ouid) () (headerOnly fun _ => 0)

def fuseTruncate.request (fn : Path) (pos : Int64) (ouid : UInt32) : Request :=
  .writing ⟨(sizehdr OpWrit.codec).toUInt32, ouid, operWrite⟩
    { m.wr with filename := fncpy m.wr.filename fn, write_mode := wrTrunc, offset := pos.toUInt64 }
    none

/-- `head.ouid = opuid ++`: a second increment, after the value is taken. -/
def fuseTruncate (fn : Path) (pos : Int64) : Io (Int32 × Unit) := do
  let ouid ← enter
  Prog.store (ouid + 1)
  converse (fuseTruncate.request m fn pos ouid) () (headerOnly fun _ => 0)

def unsupportedOpen : UInt32 := oAppend ||| oAsync ||| oCloexec ||| oDsync ||| oExcl ||| oSync

def fuseOpen.request (fn : Path) (fi : FileInfo) (ouid : UInt32) : Request :=
  let flags := orIf 0 (ifflag fi.flags oTrunc) openTrunc
  let flags := orIf flags (ifflag fi.flags oNofollow) openNofollow
  let flags := orIf flags fi.direct_io openDirect
  .opening ⟨(sizehdr OpOpen.codec).toUInt32, ouid, operOpen⟩
    { m.op with filename := fncpy m.op.filename fn, flags := flags }

def fuseOpen (fn : Path) (fi : FileInfo) : Io (Int32 × FileInfo) := do
  let ouid ← enter
  openChecks fi unsupportedOpen <|
    converse (fuseOpen.request m fn fi ouid) fi (structBody RpOpen.codec fi (setHandle fi))

def fuseRead.request (fn : Path) (bufsize : UInt64) (pos : Int64) (fi : FileInfo) (ouid : UInt32) :
    Request :=
  .reading ⟨(sizehdr OpRead.codec).toUInt32, ouid, operRead⟩
    { m.rd with
      filename := fncpy m.rd.filename fn
      file_handle := fi.fh
      read_mode := rdRegular
      offset := pos.toUInt64
      count := bufsize }

/-- `buf` is the caller's buffer of `bufsize` bytes. -/
def fuseRead (fn : Path) (buf : Bytes) (pos : Int64) (fi : FileInfo) : Io (Int32 × Bytes) := do
  let ouid ← enter
  converse (fuseRead.request m fn (UInt64.ofNat buf.length) pos fi ouid) buf fun rp =>
    if rp.size.toUInt64 > UInt64.ofNat buf.length then Prog.halt .abort
    else if rp.size.toUInt64 ≠ sizeof RpHdr.codec + rp.rtvl.toInt64.toUInt64 then Prog.halt .abort
    else do
      match ← reRead rp.rtvl.toInt64.toUInt64 with
      | none => warn (-EBUSY) buf
      | some body =>
        Prog.release
        return (rp.rtvl, body ++ buf.drop body.length)

def fuseWrite.request (fn : Path) (buf : Bytes) (pos : Int64) (fi : FileInfo) (ouid : UInt32) :
    Request :=
  .writing ⟨(sizehdr OpWrit.codec + UInt64.ofNat buf.length).toUInt32, ouid, operWrite⟩
    { m.wr with
      filename := fncpy m.wr.filename fn
      file_handle := fi.fh
      write_mode := wrRegular
      offset := pos.toUInt64
      count := UInt64.ofNat buf.length }
    (some buf)

/-- `buf` holds the `bufsize` bytes to write. -/
def fuseWrite (fn : Path) (buf : Bytes) (pos : Int64) (fi : FileInfo) : Io (Int32 × Unit) := do
  let ouid ← enter
  converse (fuseWrite.request m fn buf pos fi ouid) () (headerOnly RpHdr.rtvl)

def fuseStatfs.request (fn : Path) (ouid : UInt32) : Request :=
  .reading ⟨(sizehdr OpRead.codec).toUInt32, ouid, operRead⟩
    { m.rd with filename := fncpy m.rd.filename fn, read_mode := rdStatfs }

def fuseStatfs (fn : Path) (fstat : Statvfs) : Io (Int32 × Statvfs) := do
  let ouid ← enter
  converse (fuseStatfs.request m fn ouid) fstat (structBody Ustatvfs.codec fstat fallStatvfs)

def fuseRelease.request (fi : FileInfo) (ouid : UInt32) : Request :=
  .closing ⟨(sizehdr OpClos.codec).toUInt32, ouid, operClose⟩ { m.cl with file_handle := fi.fh, is_dir := 0 }

def fuseRelease (fi : FileInfo) : Io (Int32 × Unit) := do
  let ouid ← enter
  converse (fuseRelease.request m fi ouid) () (headerOnly fun _ => 0)

def unsupportedOpendir : UInt32 :=
  oTrunc ||| oAppend ||| oAsync ||| oCloexec ||| oDsync ||| oExcl ||| oSync

def fuseOpendir.request (dn : Path) (fi : FileInfo) (ouid : UInt32) : Request :=
  let flags := orIf 0 (ifflag fi.flags oNofollow) openNofollow
  let flags := flags ||| openDirectory
  .opening ⟨(sizehdr OpOpen.codec).toUInt32, ouid, operOpen⟩
    { m.op with filename := fncpy m.op.filename dn, flags := flags }

def fuseOpendir (dn : Path) (fi : FileInfo) : Io (Int32 × FileInfo) := do
  let ouid ← enter
  openChecks fi unsupportedOpendir <|
    converse (fuseOpendir.request m dn fi ouid) fi (structBody RpOpen.codec fi (setHandle fi))

/-- The arguments of one call of the `fill` callback. -/
structure FillArg where
  name : CArr 256
  st_ino : UInt64
  st_mode : UInt32
  deriving DecidableEq

/-- Whether `fill` returns non-zero, given the calls before and this one. -/
abbrev Fill := List FillArg → FillArg → Bool

/-- The `dircnt` records at the start of the reply. -/
def dirents (dircnt : Nat) (repcont : Bytes) : List Udirent :=
  (List.range dircnt).map fun i => Udirent.codec.dec (repcont.drop (i * Udirent.codec.size))

/-- The loop of `fuse_readdir`: the calls of `fill` it makes. -/
def fillLoop (fill : Fill) : List Udirent → List FillArg → List FillArg
  | [], calls => calls
  | dirit :: rest, calls =>
    let a : FillArg := ⟨dirit.d_name, dirit.d_ino, dirit.d_type.toUInt32 <<< 12⟩
    if fill calls a then calls ++ [a] else fillLoop fill rest (calls ++ [a])

def fuseReaddir.request (dn : Path) (offset : Int64) (fi : FileInfo) (ouid : UInt32) : Request :=
  .reading ⟨(sizehdr OpRead.codec).toUInt32, ouid, operRead⟩
    { m.rd with
      filename := fncpy m.rd.filename dn
      file_handle := fi.fh
      read_mode := rdDir
      offset := offset.toUInt64 }

def fuseReaddir (dn : Path) (fill : Fill) (offset : Int64) (fi : FileInfo) :
    Io (Int32 × List FillArg) := do
  let ouid ← enter
  converse (fuseReaddir.request m dn offset fi ouid) [] fun rp =>
    if rp.size.toUInt64 < sizeof RpHdr.codec then Prog.halt .abort
    else do
      match ← reRead (rp.size.toUInt64 - sizeof RpHdr.codec) with
      | none => warn (-EBUSY) []
      | some repcont =>
        let dircnt := (rp.size.toUInt64 - sizeof RpHdr.codec) / sizeof Udirent.codec
        Prog.release
        return (0, fillLoop fill (dirents dircnt.toNat repcont) [])

def fuseReleasedir.request (fi : FileInfo) (ouid : UInt32) : Request :=
  .closing ⟨(sizehdr OpClos.codec).toUInt32, ouid, operClose⟩ { m.cl with file_handle := fi.fh, is_dir := 1 }

def fuseReleasedir (fi : FileInfo) : Io (Int32 × Unit) := do
  let ouid ← enter
  converse (fuseReleasedir.request m fi ouid) () (headerOnly fun _ => 0)

def fuseAccess.request (fn : Path) (amode : Int32) (ouid : UInt32) : Request :=
  .writing ⟨(sizehdr OpWrit.codec + sizeof Codec.u32).toUInt32, ouid, operWrite⟩
    { m.wr with filename := fncpy m.wr.filename fn, write_mode := wrAcces }
    (some (Codec.i32.enc amode))

def fuseAccess (fn : Path) (amode : Int32) : Io (Int32 × Unit) := do
  let ouid ← Prog.load
  converse (fuseAccess.request m fn amode ouid) () (headerOnly fun _ => 0)

def fuseUnlink.request (fn : Path) (ouid : UInt32) : Request :=
  .writing ⟨(sizehdr OpWrit.codec).toUInt32, ouid, operWrite⟩
    { m.wr with filename := fncpy m.wr.filename fn, write_mode := wrRemove } none

def fuseUnlink (fn : Path) : Io (Int32 × Unit) := do
  let ouid ← Prog.load
  converse (fuseUnlink.request m fn ouid) () (headerOnly fun _ => 0)

def fuseCreat.request (fn : Path) (mode : UInt32) (fi : FileInfo) (ouid : UInt32) : Request :=
  let flags := orIf 0 (ifflag fi.flags oTrunc) openTrunc
  let flags := orIf flags (ifflag fi.flags oNofollow) openNofollow
  let flags := orIf flags fi.direct_io openDirect
  let flags := flags ||| openCreat
  .opening ⟨(sizehdr OpOpen.codec).toUInt32, ouid, operOpen⟩
    { m.op with filename := fncpy m.op.filename fn, flags := flags, mode := mode.toUInt16 }

def fuseCreat (fn : Path) (mode : UInt32) (fi : FileInfo) : Io (Int32 × FileInfo) := do
  let ouid ← enter
  openChecks fi unsupportedOpen <|
    converse (fuseCreat.request m fn mode fi ouid) fi (structBody RpOpen.codec fi (setHandle fi))

/-- The `NOW` / `IGNORE` flags of `struct TimeModder`. -/
def timeFlags (atime mtime : Timespec) : UInt8 :=
  let flags := if atime.tv_nsec = utimeNow then tmAnow
    else if atime.tv_nsec = utimeOmit then tmAign else 0
  if mtime.tv_nsec = utimeNow then flags ||| tmMnow
  else if mtime.tv_nsec = utimeOmit then flags ||| tmMign else flags

def fuseUtimens.tmdr (atime mtime : Timespec) : TimeModder :=
  { m.tmdr with
    atime := atime.tv_sec
    atime_nsec := atime.tv_nsec
    mtime := mtime.tv_sec
    mtime_nsec := mtime.tv_nsec
    flags := timeFlags atime mtime }

def fuseUtimens.request (fn : Path) (atime mtime : Timespec) (ouid : UInt32) : Request :=
  .writing ⟨(sizehdr OpWrit.codec + sizeof TimeModder.codec).toUInt32, ouid, operWrite⟩
    { m.wr with filename := fncpy m.wr.filename fn, write_mode := wrModtime }
    (some (TimeModder.codec.enc (fuseUtimens.tmdr m atime mtime)))

/-- `atime` and `mtime` are `tv[0]` and `tv[1]`. -/
def fuseUtimens (fn : Path) (atime mtime : Timespec) : Io (Int32 × Unit) := do
  let ouid ← Prog.load
  converse (fuseUtimens.request m fn atime mtime ouid) () (headerOnly fun _ => 0)

end

/-! Calls: a handler with its arguments. -/

inductive Call where
  | fuseGetattr (fn : Path) (st : Stat)
  | fuseReadlink (fn : Path) (dest : Bytes)
  | fuseMkdir (dn : Path) (mode : UInt32)
  | fuseRmdir (dn : Path)
  | fuseSymlink (fn srcfn : Path)
  | fuseChmod (fn : Path) (mode : UInt32)
  | fuseTruncate (fn : Path) (pos : Int64)
  | fuseOpen (fn : Path) (fi : FileInfo)
  | fuseRead (fn : Path) (buf : Bytes) (pos : Int64) (fi : FileInfo)
  | fuseWrite (fn : Path) (buf : Bytes) (pos : Int64) (fi : FileInfo)
  | fuseStatfs (fn : Path) (fstat : Statvfs)
  | fuseRelease (fi : FileInfo)
  | fuseOpendir (dn : Path) (fi : FileInfo)
  | fuseReaddir (dn : Path) (fill : Fill) (offset : Int64) (fi : FileInfo)
  | fuseReleasedir (fi : FileInfo)
  | fuseAccess (fn : Path) (amode : Int32)
  | fuseUnlink (fn : Path)
  | fuseCreat (fn : Path) (mode : UInt32) (fi : FileInfo)
  | fuseUtimens (fn : Path) (atime mtime : Timespec)

namespace Call

/-- The handler's program, down to the value it returns to libfuse. -/
def prog (m : Locals) : Call → Io Int32
  | .fuseGetattr fn st => Prod.fst <$> Zhwkrfsp.fuseGetattr m fn st
  | .fuseReadlink fn dest => Prod.fst <$> Zhwkrfsp.fuseReadlink m fn dest
  | .fuseMkdir dn mode => Prod.fst <$> Zhwkrfsp.fuseMkdir m dn mode
  | .fuseRmdir dn => Prod.fst <$> Zhwkrfsp.fuseRmdir m dn
  | .fuseSymlink fn srcfn => Prod.fst <$> Zhwkrfsp.fuseSymlink m fn srcfn
  | .fuseChmod fn mode => Prod.fst <$> Zhwkrfsp.fuseChmod m fn mode
  | .fuseTruncate fn pos => Prod.fst <$> Zhwkrfsp.fuseTruncate m fn pos
  | .fuseOpen fn fi => Prod.fst <$> Zhwkrfsp.fuseOpen m fn fi
  | .fuseRead fn buf pos fi => Prod.fst <$> Zhwkrfsp.fuseRead m fn buf pos fi
  | .fuseWrite fn buf pos fi => Prod.fst <$> Zhwkrfsp.fuseWrite m fn buf pos fi
  | .fuseStatfs fn fstat => Prod.fst <$> Zhwkrfsp.fuseStatfs m fn fstat
  | .fuseRelease fi => Prod.fst <$> Zhwkrfsp.fuseRelease m fi
  | .fuseOpendir dn fi => Prod.fst <$> Zhwkrfsp.fuseOpendir m dn fi
  | .fuseReaddir dn fill offset fi => Prod.fst <$> Zhwkrfsp.fuseReaddir m dn fill offset fi
  | .fuseReleasedir fi => Prod.fst <$> Zhwkrfsp.fuseReleasedir m fi
  | .fuseAccess fn amode => Prod.fst <$> Zhwkrfsp.fuseAccess m fn amode
  | .fuseUnlink fn => Prod.fst <$> Zhwkrfsp.fuseUnlink m fn
  | .fuseCreat fn mode fi => Prod.fst <$> Zhwkrfsp.fuseCreat m fn mode fi
  | .fuseUtimens fn atime mtime => Prod.fst <$> Zhwkrfsp.fuseUtimens m fn atime mtime

/-- The request a handler builds, `head.ouid` being `ouid`. -/
def request (m : Locals) (ouid : UInt32) : Call → Request
  | .fuseGetattr fn _ => fuseGetattr.request m fn ouid
  | .fuseReadlink fn _ => fuseReadlink.request m fn ouid
  | .fuseMkdir dn mode => fuseMkdir.request m dn mode ouid
  | .fuseRmdir dn => fuseRmdir.request m dn ouid
  | .fuseSymlink fn srcfn => fuseSymlink.request m fn srcfn ouid
  | .fuseChmod fn mode => fuseChmod.request m fn mode ouid
  | .fuseTruncate fn pos => fuseTruncate.request m fn pos ouid
  | .fuseOpen fn fi => fuseOpen.request m fn fi ouid
  | .fuseRead fn buf pos fi => fuseRead.request m fn (UInt64.ofNat buf.length) pos fi ouid
  | .fuseWrite fn buf pos fi => fuseWrite.request m fn buf pos fi ouid
  | .fuseStatfs fn _ => fuseStatfs.request m fn ouid
  | .fuseRelease fi => fuseRelease.request m fi ouid
  | .fuseOpendir dn fi => fuseOpendir.request m dn fi ouid
  | .fuseReaddir dn _ offset fi => fuseReaddir.request m dn offset fi ouid
  | .fuseReleasedir fi => fuseReleasedir.request m fi ouid
  | .fuseAccess fn amode => fuseAccess.request m fn amode ouid
  | .fuseUnlink fn => fuseUnlink.request m fn ouid
  | .fuseCreat fn mode fi => fuseCreat.request m fn mode fi ouid
  | .fuseUtimens fn atime mtime => fuseUtimens.request m fn atime mtime ouid

/-- Whether the open checks return before anything is sent. -/
def rejected : Call → Bool
  | .fuseOpen _ fi => fi.writepage || ifflag fi.flags unsupportedOpen
  | .fuseOpendir _ fi => fi.writepage || ifflag fi.flags unsupportedOpendir
  | .fuseCreat _ _ fi => fi.writepage || ifflag fi.flags unsupportedOpen
  | _ => false

end Call
end Zhwkrfsp
