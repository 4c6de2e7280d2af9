import Mathlib.Algebra.Group.Int.Defs
import Mathlib.Algebra.Group.Nat.Defs
import Mathlib.Tactic.Common

/- Fixed-width binary codecs. A `Codec α` writes every `α` as exactly `size`
   bytes and reads it back from any stream that starts with them; `pair` and
   `iso` build the codec of a C struct from the codecs of its fields, padding
   included, and carry the round trip with them, so no struct proves its own.
   Integers are little-endian. A C array is a byte list of the array's length
   (`CArr`), and `cstr` is what a C reader sees of one: the bytes before the
   first NUL. Nothing here names a protocol. -/
namespace Wire

abbrev Bytes := List UInt8

/-! Little-endian numbers. -/

/-- The `w` low base-256 digits of `n`, least significant first. -/
def leBytes : Nat → Nat → Bytes
  | 0, _ => []
  | w + 1, n => UInt8.ofNat n :: leBytes w (n / 256)

def ofLe : Bytes → Nat
  | [] => 0
  | b :: bs => b.toNat + 256 * ofLe bs

@[simp] theorem leBytes_length : ∀ w n, (leBytes w n).length = w
  | 0, _ => rfl
  | w + 1, n => by simp [leBytes, leBytes_length w]

theorem ofLe_leBytes : ∀ w n, ofLe (leBytes w n) = n % 256 ^ w
  | 0, n => by simp [leBytes, ofLe, Nat.mod_one]
  | w + 1, n => by
    have h : (UInt8.ofNat n).toNat = n % 256 := by simp
    rw [leBytes, ofLe, ofLe_leBytes w, h, Nat.pow_succ, Nat.mul_comm (256 ^ w), Nat.mod_mul]

theorem ofLe_lt : ∀ bs : Bytes, ofLe bs < 256 ^ bs.length
  | [] => Nat.one_pos
  | b :: bs => by
    have hb : b.toNat < 256 := by simpa using b.toNat_lt
    have ih := ofLe_lt bs
    rw [ofLe, List.length_cons, Nat.pow_succ]
    omega

/-- Every byte string is the digits of its number. -/
theorem leBytes_ofLe : ∀ bs : Bytes, leBytes bs.length (ofLe bs) = bs
  | [] => rfl
  | b :: bs => by
    have hb : b.toNat < 256 := by simpa using b.toNat_lt
    have hdiv : (b.toNat + 256 * ofLe bs) / 256 = ofLe bs := by omega
    have hlow : UInt8.ofNat (b.toNat + 256 * ofLe bs) = b := by
      rw [← UInt8.toNat_inj, UInt8.toNat_ofNat']
      omega
    rw [List.length_cons, ofLe, leBytes, hlow, hdiv, leBytes_ofLe bs]

/-! C arrays and the strings in them. -/

/-- A C array of `n` bytes. -/
structure CArr (n : Nat) where
  val : Bytes
  len : val.length = n
  deriving DecidableEq

namespace CArr

@[ext] theorem ext {n : Nat} {a b : CArr n} (h : a.val = b.val) : a = b := by
  cases a; cases b; cases h; rfl

/-- The first `n` bytes of a stream. -/
def ofBytes (n : Nat) (bs : Bytes) : CArr n :=
  ⟨(bs ++ List.replicate n 0).take n, by simp⟩

theorem ofBytes_val {n : Nat} (a : CArr n) (rest : Bytes) : ofBytes n (a.val ++ rest) = a := by
  apply ext
  simp only [ofBytes, List.append_assoc]
  exact List.take_left' a.len

/-- `memcpy` of `s` to the start of the array. -/
def put {n : Nat} (a : CArr n) (s : Bytes) : CArr n :=
  ⟨(s ++ a.val.drop s.length).take n, by simp [a.len]; omega⟩

theorem put_val {n : Nat} (a : CArr n) {s : Bytes} (h : s.length ≤ n) :
    (a.put s).val = s ++ a.val.drop s.length := by
  refine List.take_of_length_le ?_
  simp [a.len]; omega

def zero (n : Nat) : CArr n := ⟨List.replicate n 0, by simp⟩

instance (n : Nat) : Inhabited (CArr n) := ⟨zero n⟩

end CArr

/-- The C string a byte block starts with. -/
def cstr (bs : Bytes) : Bytes := bs.takeWhile (· != 0)

theorem cstr_append {s : Bytes} (h : (0 : UInt8) ∉ s) (rest : Bytes) :
    cstr (s ++ 0 :: rest) = s := by
  induction s with
  | nil => simp [cstr]
  | cons b s ih =>
    simp only [List.mem_cons, not_or] at h
    have hb : (b != 0) = true := by simpa using fun e => h.1 e.symm
    simpa [cstr, hb] using ih h.2

/-- `strlen` of a byte block; nothing for one without a NUL. -/
def strlen (bs : Bytes) : Option Nat := if 0 ∈ bs then some (cstr bs).length else none

theorem strlen_append {s : Bytes} (h : 0 ∉ s) (rest : Bytes) :
    strlen (s ++ 0 :: rest) = some s.length := by
  rw [strlen, if_pos (by simp), cstr_append h]

/-! Codecs. -/

/-- A fixed-width encoding: `enc` writes exactly `size` bytes, and `dec` reads
    the value back whatever follows them. -/
structure Codec (α : Type) where
  size : Nat
  enc : α → Bytes
  dec : Bytes → α
  enc_length : ∀ a, (enc a).length = size
  dec_enc : ∀ a rest, dec (enc a ++ rest) = a

namespace Codec
variable {α β : Type}

attribute [simp] enc_length dec_enc

@[simp] theorem dec_enc_nil (c : Codec α) (a : α) : c.dec (c.enc a) = a := by
  simpa using c.dec_enc a []

theorem enc_injective (c : Codec α) {a b : α} (h : c.enc a = c.enc b) : a = b := by
  rw [← c.dec_enc_nil a, h, c.dec_enc_nil]

@[simp] theorem take_enc (c : Codec α) (a : α) (rest : Bytes) :
    (c.enc a ++ rest).take c.size = c.enc a := List.take_left' (c.enc_length a)

@[simp] theorem drop_enc (c : Codec α) (a : α) (rest : Bytes) :
    (c.enc a ++ rest).drop c.size = rest := List.drop_left' (c.enc_length a)

/-- A `w`-byte little-endian integer. -/
def word (w : Nat) (toN : α → Nat) (ofN : Nat → α) (h : ∀ a, ofN (toN a % 256 ^ w) = a) :
    Codec α where
  size := w
  enc a := leBytes w (toN a)
  dec bs := ofN (ofLe (bs.take w))
  enc_length := by simp
  dec_enc a rest := by
    rw [List.take_left' (leBytes_length w _), ofLe_leBytes, h]

def u8 : Codec UInt8 :=
  word 1 UInt8.toNat UInt8.ofNat fun a => by
    rw [Nat.mod_eq_of_lt (by simpa using a.toNat_lt)]; simp

def u16 : Codec UInt16 :=
  word 2 UInt16.toNat UInt16.ofNat fun a => by
    rw [Nat.mod_eq_of_lt (by simpa using a.toNat_lt)]; simp

def u32 : Codec UInt32 :=
  word 4 UInt32.toNat UInt32.ofNat fun a => by
    rw [Nat.mod_eq_of_lt (by simpa using a.toNat_lt)]; simp

def u64 : Codec UInt64 :=
  word 8 UInt64.toNat UInt64.ofNat fun a => by
    rw [Nat.mod_eq_of_lt (by simpa using a.toNat_lt)]; simp

/-- An array field, or padding. -/
def raw (n : Nat) : Codec (CArr n) where
  size := n
  enc a := a.val
  dec := CArr.ofBytes n
  enc_length a := a.len
  dec_enc := CArr.ofBytes_val

/-- One field after another. -/
def pair (c : Codec α) (d : Codec β) : Codec (α × β) where
  size := c.size + d.size
  enc p := c.enc p.1 ++ d.enc p.2
  dec bs := (c.dec bs, d.dec (bs.drop c.size))
  enc_length p := by simp
  dec_enc p rest := by simp

/-- The codec of a struct, from the codec of its fields' tuple. -/
def iso (c : Codec α) (f : β → α) (g : α → β) (h : ∀ b, g (f b) = b) : Codec β where
  size := c.size
  enc b := c.enc (f b)
  dec bs := g (c.dec bs)
  enc_length b := c.enc_length (f b)
  dec_enc b rest := by simp [h]

/-- Two's complement 32-bit integers. -/
def i32 : Codec Int32 := u32.iso Int32.toUInt32 UInt32.toInt32 fun _ => rfl

/-- Two's complement 64-bit integers. -/
def i64 : Codec Int64 := u64.iso Int64.toUInt64 UInt64.toInt64 fun _ => rfl

theorem enc_dec_u32 {s : Bytes} (h : s.length = 4) : u32.enc (u32.dec s) = s := by
  have hlt := ofLe_lt s
  rw [h] at hlt
  have hdec : (u32.dec s).toNat = ofLe s := by
    show (UInt32.ofNat (ofLe (s.take 4))).toNat = ofLe s
    rw [List.take_of_length_le (Nat.le_of_eq h), UInt32.toNat_ofNat_of_lt' hlt]
  show leBytes 4 (u32.dec s).toNat = s
  rw [hdec, ← h, leBytes_ofLe]

@[simp] theorem size_u8 : u8.size = 1 := rfl
@[simp] theorem size_u16 : u16.size = 2 := rfl
@[simp] theorem size_u32 : u32.size = 4 := rfl
@[simp] theorem size_u64 : u64.size = 8 := rfl
@[simp] theorem size_i32 : i32.size = 4 := rfl
@[simp] theorem size_i64 : i64.size = 8 := rfl
@[simp] theorem size_raw (n : Nat) : (raw n).size = n := rfl

end Codec
end Wire
