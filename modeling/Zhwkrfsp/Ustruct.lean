import Zhwkrfsp.Codec

/- The unified structures of `ustruct.h` and their conversions to and from the
   platform ones. Of the platform structs only the fields that are converted
   appear; a time is its seconds and nanoseconds. -/
namespace Zhwkrfsp
open Wire

structure Timespec where
  tv_sec : Int64
  tv_nsec : Int64
  deriving DecidableEq, Inhabited

structure Stat where
  st_dev : UInt64
  st_ino : UInt64
  st_mode : UInt32
  st_nlink : UInt64
  st_uid : UInt32
  st_gid : UInt32
  st_rdev : UInt64
  st_size : Int64
  st_atim : Timespec
  st_mtim : Timespec
  st_ctim : Timespec
  deriving DecidableEq, Inhabited

structure Ustat where
  st_dev : UInt64
  st_ino : UInt64
  st_mode : UInt32
  pad : CArr 4
  st_nlink : UInt64
  st_uid : UInt32
  st_gid : UInt32
  st_rdev : UInt64
  st_size : UInt64
  st_atim : Int64
  st_atimensec : UInt64
  st_mtim : Int64
  st_mtimensec : UInt64
  st_ctim : Int64
  st_ctimensec : UInt64
  deriving DecidableEq, Inhabited

structure Statvfs where
  f_bsize : UInt64
  f_frsize : UInt64
  f_blocks : UInt64
  f_bfree : UInt64
  f_bavail : UInt64
  f_files : UInt64
  f_ffree : UInt64
  f_favail : UInt64
  f_fsid : UInt64
  f_flag : UInt64
  f_namemax : UInt64
  deriving DecidableEq, Inhabited

/-- `struct Ustatvfs` has the fields of `Statvfs`, in its order. -/
abbrev Ustatvfs := Statvfs

structure Dirent where
  d_ino : UInt64
  d_off : Int64
  d_reclen : UInt16
  d_type : UInt8
  d_name : CArr 256
  deriving DecidableEq, Inhabited

structure Udirent where
  d_ino : UInt64
  d_off : UInt64
  d_reclen : UInt16
  d_type : UInt8
  d_name : CArr 256
  pad : CArr 5
  deriving DecidableEq, Inhabited

def Ustat.codec : Codec Ustat :=
  (Codec.u64.pair <| Codec.u64.pair <| Codec.u32.pair <| (Codec.raw 4).pair <| Codec.u64.pair <|
    Codec.u32.pair <| Codec.u32.pair <| Codec.u64.pair <| Codec.u64.pair <| Codec.i64.pair <|
    Codec.u64.pair <| Codec.i64.pair <| Codec.u64.pair <| Codec.i64.pair Codec.u64).iso
    (fun s => (s.st_dev, s.st_ino, s.st_mode, s.pad, s.st_nlink, s.st_uid, s.st_gid, s.st_rdev,
      s.st_size, s.st_atim, s.st_atimensec, s.st_mtim, s.st_mtimensec, s.st_ctim, s.st_ctimensec))
    (fun (a, b, c, d, e, f, g, h, i, j, k, l, m, n, o) => ⟨a, b, c, d, e, f, g, h, i, j, k, l, m, n, o⟩)
    fun _ => rfl

def Ustatvfs.codec : Codec Ustatvfs :=
  (Codec.u64.pair <| Codec.u64.pair <| Codec.u64.pair <| Codec.u64.pair <| Codec.u64.pair <|
    Codec.u64.pair <| Codec.u64.pair <| Codec.u64.pair <| Codec.u64.pair <|
    Codec.u64.pair Codec.u64).iso
    (fun s => (s.f_bsize, s.f_frsize, s.f_blocks, s.f_bfree, s.f_bavail, s.f_files, s.f_ffree,
      s.f_favail, s.f_fsid, s.f_flag, s.f_namemax))
    (fun (a, b, c, d, e, f, g, h, i, j, k) => ⟨a, b, c, d, e, f, g, h, i, j, k⟩) fun _ => rfl

def Udirent.codec : Codec Udirent :=
  (Codec.u64.pair <| Codec.u64.pair <| Codec.u16.pair <| Codec.u8.pair <|
    (Codec.raw 256).pair (Codec.raw 5)).iso
    (fun d => (d.d_ino, d.d_off, d.d_reclen, d.d_type, d.d_name, d.pad))
    (fun (a, b, c, d, e, f) => ⟨a, b, c, d, e, f⟩) fun _ => rfl

@[simp] theorem Ustat.size_codec : Ustat.codec.size = 104 := rfl
@[simp] theorem Ustatvfs.size_codec : Ustatvfs.codec.size = 88 := rfl
@[simp] theorem Udirent.size_codec : Udirent.codec.size = 280 := rfl

/-- `unify_stat`, over the destination's old padding. -/
def unifyStat (pad : CArr 4) (st : Stat) : Ustat where
  st_dev := st.st_dev
  st_ino := st.st_ino
  st_mode := st.st_mode
  pad := pad
  st_nlink := st.st_nlink
  st_uid := st.st_uid
  st_gid := st.st_gid
  st_rdev := st.st_rdev
  st_size := st.st_size.toUInt64
  st_atim := st.st_atim.tv_sec
  st_atimensec := st.st_atim.tv_nsec.toUInt64
  st_mtim := st.st_mtim.tv_sec
  st_mtimensec := st.st_mtim.tv_nsec.toUInt64
  st_ctim := st.st_ctim.tv_sec
  st_ctimensec := st.st_ctim.tv_nsec.toUInt64

def fallStat (ustat : Ustat) : Stat where
  st_dev := ustat.st_dev
  st_ino := ustat.st_ino
  st_mode := ustat.st_mode
  st_nlink := ustat.st_nlink
  st_uid := ustat.st_uid
  st_gid := ustat.st_gid
  st_rdev := ustat.st_rdev
  st_size := ustat.st_size.toInt64
  st_atim := ⟨ustat.st_atim, ustat.st_atimensec.toInt64⟩
  st_mtim := ⟨ustat.st_mtim, ustat.st_mtimensec.toInt64⟩
  st_ctim := ⟨ustat.st_ctim, ustat.st_ctimensec.toInt64⟩

/-- `unify_statvfs` and `fall_statvfs` copy field by field. -/
def unifyStatvfs (vfs : Statvfs) : Ustatvfs := vfs
def fallStatvfs (uvfs : Ustatvfs) : Statvfs := uvfs

/-- `unify_dirent`, over the destination's old padding. -/
def unifyDirent (pad : CArr 5) (dir : Dirent) : Udirent where
  d_ino := dir.d_ino
  d_off := dir.d_off.toUInt64
  d_reclen := dir.d_reclen
  d_type := dir.d_type
  d_name := dir.d_name
  pad := pad

def fallDirent (udir : Udirent) : Dirent where
  d_ino := udir.d_ino
  d_off := udir.d_off.toInt64
  d_reclen := udir.d_reclen
  d_type := udir.d_type
  d_name := udir.d_name

/-! What one side unifies the other side gets back. -/

theorem fallStat_unifyStat (pad : CArr 4) (st : Stat) : fallStat (unifyStat pad st) = st := rfl

theorem fallDirent_unifyDirent (pad : CArr 5) (dir : Dirent) :
    fallDirent (unifyDirent pad dir) = dir := rfl

end Zhwkrfsp
