import Zhwkrfsp.Prog
import Zhwkrfsp.Bss

/- The wire structs of `prot.h` and the transfer functions of `netwrap.c` and
   `prot.c`. A struct is a Lean structure with its padding as fields, so that an
   uninitialised struct is an arbitrary value and its image on the wire is all
   of its bytes; the layout is the x86-64 one and the codecs fix it. `sockread`
   and `sockwrite` are the two transfer loops (the `read` and `write` nodes of
   `Chan.Prog`); a negative length is the undefined variable-length array of
   `sockread`. The shared variable of these programs is `opuid`. -/
namespace Zhwkrfsp
open Wire Chan

/-- Programs over the connection, `mu` and `opuid`. -/
abbrev Io := Prog UInt32

def filenameLen : Nat := 4096

def operOpen : UInt32 := 0
def operRead : UInt32 := 1
def operWrite : UInt32 := 2
def operClose : UInt32 := 3

structure OpHdr where
  size : UInt32
  ouid : UInt32
  opid : UInt32
  deriving DecidableEq, Inhabited

structure RpHdr where
  size : UInt32
  ouid : UInt32
  rtvl : Int32
  deriving DecidableEq, Inhabited

def openCreat : UInt8 := 1
def openDirect : UInt8 := 2
def openDirectory : UInt8 := 4
def openNofollow : UInt8 := 8
def openTrunc : UInt8 := 16
def openMkdir : UInt8 := 32

structure OpOpen where
  filename : CArr filenameLen
  flags : UInt8
  pad : CArr 1
  mode : UInt16
  deriving DecidableEq, Inhabited

structure RpOpen where
  file_handle : UInt64
  ignore_above : UInt8
  pad : CArr 7
  deriving DecidableEq, Inhabited

def rdRegular : UInt8 := 0
def rdStat : UInt8 := 1
def rdStatfs : UInt8 := 2
def rdLink : UInt8 := 3
def rdDir : UInt8 := 4

structure OpRead where
  filename : CArr filenameLen
  file_handle : UInt64
  offset : UInt64
  count : UInt64
  read_mode : UInt8
  pad : CArr 7
  deriving DecidableEq, Inhabited

def wrRegular : UInt8 := 0
def wrChmod : UInt8 := 1
def wrSymlink : UInt8 := 2
def wrRemove : UInt8 := 3
def wrTrunc : UInt8 := 4
def wrAcces : UInt8 := 5
def wrRmdir : UInt8 := 6
def wrModtime : UInt8 := 7

structure OpWrit where
  filename : CArr filenameLen
  file_handle : UInt64
  offset : UInt64
  count : UInt64
  write_mode : UInt8
  pad : CArr 7
  deriving DecidableEq, Inhabited

def tmAnow : UInt8 := 1
def tmAign : UInt8 := 2
def tmMnow : UInt8 := 4
def tmMign : UInt8 := 8

structure TimeModder where
  atime : Int64
  atime_nsec : Int64
  mtime : Int64
  mtime_nsec : Int64
  flags : UInt8
  pad : CArr 7
  deriving DecidableEq, Inhabited

structure OpClos where
  file_handle : UInt64
  is_dir : UInt8
  pad : CArr 7
  deriving DecidableEq, Inhabited

/-! Layouts. -/

def OpHdr.codec : Codec OpHdr :=
  (Codec.u32.pair <| Codec.u32.pair Codec.u32).iso
    (fun h => (h.size, h.ouid, h.opid)) (fun t => ⟨t.1, t.2.1, t.2.2⟩) fun _ => rfl

def RpHdr.codec : Codec RpHdr :=
  (Codec.u32.pair <| Codec.u32.pair Codec.i32).iso
    (fun h => (h.size, h.ouid, h.rtvl)) (fun t => ⟨t.1, t.2.1, t.2.2⟩) fun _ => rfl

def OpOpen.codec : Codec OpOpen :=
  ((Codec.raw filenameLen).pair <| Codec.u8.pair <| (Codec.raw 1).pair Codec.u16).iso
    (fun o => (o.filename, o.flags, o.pad, o.mode))
    (fun t => ⟨t.1, t.2.1, t.2.2.1, t.2.2.2⟩) fun _ => rfl

def RpOpen.codec : Codec RpOpen :=
  (Codec.u64.pair <| Codec.u8.pair (Codec.raw 7)).iso
    (fun r => (r.file_handle, r.ignore_above, r.pad)) (fun t => ⟨t.1, t.2.1, t.2.2⟩) fun _ => rfl

def OpRead.codec : Codec OpRead :=
  ((Codec.raw filenameLen).pair <| Codec.u64.pair <| Codec.u64.pair <| Codec.u64.pair <|
    Codec.u8.pair (Codec.raw 7)).iso
    (fun r => (r.filename, r.file_handle, r.offset, r.count, r.read_mode, r.pad))
    (fun t => ⟨t.1, t.2.1, t.2.2.1, t.2.2.2.1, t.2.2.2.2.1, t.2.2.2.2.2⟩) fun _ => rfl

def OpWrit.codec : Codec OpWrit :=
  ((Codec.raw filenameLen).pair <| Codec.u64.pair <| Codec.u64.pair <| Codec.u64.pair <|
    Codec.u8.pair (Codec.raw 7)).iso
    (fun w => (w.filename, w.file_handle, w.offset, w.count, w.write_mode, w.pad))
    (fun t => ⟨t.1, t.2.1, t.2.2.1, t.2.2.2.1, t.2.2.2.2.1, t.2.2.2.2.2⟩) fun _ => rfl

def TimeModder.codec : Codec TimeModder :=
  (Codec.i64.pair <| Codec.i64.pair <| Codec.i64.pair <| Codec.i64.pair <|
    Codec.u8.pair (Codec.raw 7)).iso
    (fun t => (t.atime, t.atime_nsec, t.mtime, t.mtime_nsec, t.flags, t.pad))
    (fun t => ⟨t.1, t.2.1, t.2.2.1, t.2.2.2.1, t.2.2.2.2.1, t.2.2.2.2.2⟩) fun _ => rfl

def OpClos.codec : Codec OpClos :=
  (Codec.u64.pair <| Codec.u8.pair (Codec.raw 7)).iso
    (fun c => (c.file_handle, c.is_dir, c.pad)) (fun t => ⟨t.1, t.2.1, t.2.2⟩) fun _ => rfl

section
variable {α : Type}

/-- `sizeof` as a `size_t`. -/
def sizeof (c : Codec α) : UInt64 := UInt64.ofNat c.size

end

@[simp] theorem OpHdr.size_codec : OpHdr.codec.size = 12 := rfl
@[simp] theorem RpHdr.size_codec : RpHdr.codec.size = 12 := rfl
@[simp] theorem OpOpen.size_codec : OpOpen.codec.size = 4100 := rfl
@[simp] theorem RpOpen.size_codec : RpOpen.codec.size = 16 := rfl
@[simp] theorem OpRead.size_codec : OpRead.codec.size = 4128 := rfl
@[simp] theorem OpWrit.size_codec : OpWrit.codec.size = 4128 := rfl
@[simp] theorem TimeModder.size_codec : TimeModder.codec.size = 40 := rfl
@[simp] theorem OpClos.size_codec : OpClos.codec.size = 16 := rfl

/-! `netwrap.c`. -/

/-- `sockread` into a fresh buffer, as every caller uses it: the bytes, or
    `none` for -1. -/
def sockread (intended : Int32) : Io (Option Bytes) :=
  if intended < 0 then Prog.halt .fault else Prog.recv intended.toInt.toNat

/-- `sockwrite`; whether it returned 0. -/
def sockwrite (bss : Bss) : Io Bool := Prog.send bss.content

/-! `prot.c`. -/

/-- The common body of the fixed-size receivers: `sizeof` bytes into a struct. -/
def receive {α : Type} (c : Codec α) : Io (Option α) := do
  match ← sockread (sizeof c).toUInt32.toInt32 with
  | none => return none
  | some recvbuf => return some (c.dec recvbuf)

def waitOperation : Io (Option OpHdr) := receive OpHdr.codec
def asOpen : Io (Option OpOpen) := receive OpOpen.codec
def asRead : Io (Option OpRead) := receive OpRead.codec
def asClose : Io (Option OpClos) := receive OpClos.codec
def waitReply : Io (Option RpHdr) := receive RpHdr.codec
def reOpen : Io (Option RpOpen) := receive RpOpen.codec

/-- `as_write`: the struct, then `remain - sizeof` further bytes as the payload. -/
def asWrite (remain : UInt64) : Io (Option (OpWrit × Bytes)) := do
  let extra := (remain - sizeof OpWrit.codec).toUInt32.toInt32
  match ← receive OpWrit.codec with
  | none => return none
  | some dest =>
    match ← sockread extra with
    | none => return none
    | some buffer => return some (dest, buffer)

def reRead (remain : UInt64) : Io (Option Bytes) := sockread remain.toUInt32.toInt32

/-! What the receivers do. -/

/-- A length from 2^31 on is a negative `int`. -/
theorem sockread_toInt32 (x : UInt32) :
    sockread x.toInt32 = if x.toNat < 2 ^ 31 then Prog.recv x.toNat else Prog.halt .fault := by
  have hneg : x.toInt32 < 0 ↔ 2 ^ 31 ≤ x.toNat := by
    rw [Int32.lt_iff_toInt_lt]
    show x.toBitVec.toInt < 0 ↔ 2 ^ 31 ≤ x.toBitVec.toNat
    rw [BitVec.toInt_neg_iff]
    omega
  by_cases h : x.toNat < 2 ^ 31
  · have hint : x.toInt32.toInt = x.toNat :=
      BitVec.toInt_eq_toNat_of_lt (x := x.toBitVec) (by rw [UInt32.toNat_toBitVec]; omega)
    rw [sockread, if_neg (by rw [hneg]; omega), if_pos h, hint, Int.toNat_natCast]
  · rw [sockread, if_pos (by rw [hneg]; omega), if_neg h]

theorem sockread_ofNat {n : Nat} (h : n < 2 ^ 31) :
    sockread (UInt64.ofNat n).toUInt32.toInt32 = Prog.recv n := by
  have e : (UInt64.ofNat n).toUInt32.toNat = n := by simp; omega
  rw [sockread_toInt32, e, if_pos h]

section
variable {α : Type} (c : Codec α)

theorem receive_eq (h : c.size < 2 ^ 31) :
    receive c = .read [] c.size fun r => .ret (r.map c.dec) := by
  rw [receive, sizeof, sockread_ofNat h]
  simp only [Prog.recv, Prog.read_bind, Prog.ret_bind]
  congr 1
  funext r
  cases r <;> rfl

theorem receive_feed (h : c.size < 2 ^ 31) (a : α) (rest : Bytes) :
    (receive c).feed (c.enc a ++ rest) = some (some a, rest) := by
  rw [receive_eq c h]
  simp [Prog.feed]

end

end Zhwkrfsp
