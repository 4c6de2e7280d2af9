import Mathlib.Data.List.TakeWhile
import Zhwkrfsp.Bss

/- The address texts of `zhwkre/network/socket.c` and `tcp.c`. A text is a block of memory
   that begins with a C string. `str_to_ipv4addr` copies the part before the separator
   into an array on the stack without a NUL behind it, and has `inet_pton` write the four
   bytes of the address to the start of a `struct sockaddr_in`, where the family and
   the port are; what it returns is the address field, which is still zero. Of the C
   library, `inet_pton` is a parameter, and so is what `%hd` stores of a number that no
   `short` can hold. `none` is an access outside a block, or a string without an end. -/
namespace Zhwkrfsp.Address
open Wire

/-! What the functions use of the C library. -/

/-- Decimal digits, as `%d` writes them. -/
def decimal (n : Nat) : Bytes :=
  if n < 10 then [UInt8.ofNat (48 + n)] else decimal (n / 10) ++ [UInt8.ofNat (48 + n % 10)]

def isspace (c : UInt8) : Bool := c = 32 || (9 ≤ c && c ≤ 13)

def isdigit (c : UInt8) : Bool := 48 ≤ c && c ≤ 57

def digitsVal (s : Bytes) : Nat := s.foldl (fun n c => 10 * n + (c.toNat - 48)) 0

/-- The number that `%d` reads, if there is one. -/
def scanD (s : Bytes) : Option Int :=
  let s := s.dropWhile isspace
  let t := if s.head? = some 43 ∨ s.head? = some 45 then s.tail else s
  let digits := t.takeWhile isdigit
  if digits = [] then none
  else if s.head? = some 45 then some (-(digitsVal digits : Int)) else some (digitsVal digits)

/-- The four bytes of an address, in network order. -/
abbrev InAddr := CArr 4

/-- The bytes of a 16-bit number exchanged. -/
def htons (x : UInt16) : UInt16 := UInt16.ofNat (x.toNat % 256 * 256 + x.toNat / 256)

def ntohs (x : UInt16) : UInt16 := htons x

/-- `inet_ntoa`. -/
def inetNtoa (a : InAddr) : Bytes := List.intercalate [46] (a.val.map fun b => decimal b.toNat)

structure SockaddrIn where
  sin_family : UInt16
  sin_port : UInt16
  sin_addr : InAddr
  sin_zero : CArr 8
  deriving DecidableEq

namespace SockaddrIn

def codec : Codec SockaddrIn :=
  ((Codec.u16.pair Codec.u16).pair ((Codec.raw 4).pair (Codec.raw 8))).iso
    (fun s => ((s.sin_family, s.sin_port), (s.sin_addr, s.sin_zero)))
    (fun t => ⟨t.1.1, t.1.2, t.2.1, t.2.2⟩) fun _ => rfl

def zero : SockaddrIn := ⟨0, 0, CArr.zero 4, CArr.zero 8⟩

end SockaddrIn

/-- `qIPv4`. -/
def afInet : Int32 := 2

/-- `htonl(INADDR_ANY)`. -/
def inaddrAny : InAddr := CArr.zero 4

/-- `qSocket`. -/
structure Socket where
  desc : Int32
  domain : Int32
  type : Int32
  protocol : Int32
  quickack : Int32
  deriving DecidableEq

inductive Err where
  | sockDomainInval
  | sockAddrInval
  | sockBindFail
  | tcpConnectFail
  | tcpAcceptFail
  deriving DecidableEq

/-- The status, the error set, and the address that the system call was made with. -/
structure Outcome where
  rc : Int32
  err : Option Err
  used : Option SockaddrIn

/-! The functions. -/

/-- The loop of `find_byte` from `i` on; no index for -1. -/
def findByteFrom (target : UInt8) : Bytes → Nat → Nat → Option (Option Nat)
  | _, 0, _ => some none
  | [], _ + 1, _ => none
  | c :: str, size + 1, i =>
    if c = target then some (some i) else findByteFrom target str size (i + 1)

/-- `find_byte`. -/
def findByte (str : Bytes) (target : UInt8) (size : Nat) : Option (Option Nat) :=
  findByteFrom target str size 0

section
variable (inetPton : Bytes → Option InAddr)

/-- `inet_pton(AF_INET, src, dst)`. -/
def inetPtonTo (src dst : Bytes) : Option Bytes :=
  if 0 ∈ src then
    match inetPton (cstr src) with
    | some a => memcpy dst 0 a.val
    | none => some dst
  else none

/-- `str_to_ipv4addr`, with what its array `tmpv` holds at first. -/
def strToIpv4addr (addrxport : Bytes) (tmpv : CArr 50) : Option InAddr := do
  let divid ← findByte addrxport 58 (← strlen addrxport)
  let tmpv ← match divid with
    | some divid => memcpy tmpv.val 0 (addrxport.take divid)
    | none => memcpy tmpv.val 0 (cstr addrxport ++ [0])
  let tmpsck ← inetPtonTo inetPton tmpv (SockaddrIn.codec.enc SockaddrIn.zero)
  return (SockaddrIn.codec.dec tmpsck).sin_addr

/-- The text behind the separator, copied to `portstr` and scanned. -/
def portOf (scan : Bytes → UInt16) (addrxport : Bytes) (separator_pos len : Nat) :
    Option UInt16 := do
  let portstr ← memcpy (List.replicate 10 0) 0
    ((addrxport.drop (separator_pos + 1)).take (len - separator_pos - 1))
  if 0 ∈ portstr then return scan (cstr portstr) else none

/-- The address before the separator, or the wildcard. -/
def hostOf (addrxport : Bytes) (tmpv : CArr 50) (separator_pos : Nat) : Option InAddr :=
  if separator_pos ≠ 0 then strToIpv4addr inetPton addrxport tmpv else some inaddrAny

/-- What `qSocket_bind` and `qStreamSocket_connect` have in common: they differ in how they
    scan the port, in the system call, and in the error they set when it fails. -/
def useAddr (scan : Bytes → UInt16) (call : SockaddrIn → Int32) (failed : Err) (sock : Socket)
    (addrxport : Bytes) (tmpv : CArr 50) : Option Outcome := do
  if sock.domain ≠ afInet then return ⟨-1, some .sockDomainInval, none⟩
  let len ← strlen addrxport
  match ← findByte addrxport 58 len with
  | none => return ⟨-1, some .sockAddrInval, none⟩
  | some separator_pos =>
    let hostport ← portOf scan addrxport separator_pos len
    let sin_addr ← hostOf inetPton addrxport tmpv separator_pos
    let addr : SockaddrIn := ⟨2, htons hostport, sin_addr, CArr.zero 8⟩
    if call addr = -1 then return ⟨-1, some failed, some addr⟩
    return ⟨0, none, some addr⟩

/-- `%d` into an `int` that is 0 at first, made a port. -/
def scanInt (portstr : Bytes) : UInt16 := UInt16.ofInt ((scanD portstr).getD 0)

/-- `%hd` into a `short` that is 0 at first, made a port. -/
def scanShort (hd : Int → Int16) (portstr : Bytes) : UInt16 :=
  let n := (scanD portstr).getD 0
  (if -2 ^ 15 ≤ n ∧ n < 2 ^ 15 then Int16.ofInt n else hd n).toUInt16

def qSocketBind (bindstat : SockaddrIn → Int32) (sock : Socket) (addrxport : Bytes)
    (tmpv : CArr 50) : Option Outcome :=
  useAddr inetPton scanInt bindstat .sockBindFail sock addrxport tmpv

def qStreamSocketConnect (hd : Int → Int16) (connstat : SockaddrIn → Int32) (sock : Socket)
    (addrxport : Bytes) (tmpv : CArr 50) : Option Outcome :=
  useAddr inetPton (scanShort hd) connstat .tcpConnectFail sock addrxport tmpv

/-- `qStreamSocket_accept` of a connection from `srcaddr_in`, `desc` being what `accept`
    returns: the new socket, the error set, and the text in the caller's block `srcaddr`. -/
def qStreamSocketAccept (sock : Socket) (desc : Int32) (srcaddr_in : SockaddrIn)
    (srcaddr : Bytes) : Option (Socket × Option Err × Bytes) := do
  let text := inetNtoa srcaddr_in.sin_addr
  let srcaddr ← memcpy srcaddr 0 (List.replicate 26 0)
  let srcaddr ← memcpy srcaddr 0 (text ++ [0])
  let srcaddr ← memcpy srcaddr text.length
    (58 :: decimal (ntohs srcaddr_in.sin_port).toNat ++ [0])
  return ({ sock with desc }, if desc = -1 then some .tcpAcceptFail else none, srcaddr)

/-! What the texts should do. -/

/-- The system call was made with this address and this port. -/
def Uses (o : Option Outcome) (a : InAddr) (port : UInt16) : Prop :=
  ∃ r, o = some r ∧ r.used = some ⟨2, htons port, a, CArr.zero 8⟩

/-- What `qStreamSocket_accept` writes for a peer makes `qSocket_bind` and
    `qStreamSocket_connect` use the peer's address and port, and a text without an
    address stands for the wildcard address. -/
def RoundTrips (hd : Int → Int16) (bindstat connstat : SockaddrIn → Int32) (sock : Socket)
    (desc : Int32) (srcaddr : Bytes) (tmpv : CArr 50) (a : InAddr) (port : UInt16) : Prop :=
  ∃ r, qStreamSocketAccept sock desc ⟨2, htons port, a, CArr.zero 8⟩ srcaddr = some r ∧
    strToIpv4addr inetPton r.2.2 tmpv = some a ∧
    Uses (qSocketBind inetPton bindstat { sock with domain := afInet } r.2.2 tmpv) a port ∧
    Uses (qStreamSocketConnect inetPton hd connstat { sock with domain := afInet } r.2.2 tmpv)
      a port ∧
    Uses (qSocketBind inetPton bindstat { sock with domain := afInet }
      (58 :: decimal port.toNat ++ [0]) tmpv) inaddrAny port ∧
    Uses (qStreamSocketConnect inetPton hd connstat { sock with domain := afInet }
      (58 :: decimal port.toNat ++ [0]) tmpv) inaddrAny port

end

/-! Decimal numbers. -/

theorem exchange_bytes {high low : Nat} (hh : high < 256) :
    (low * 256 + high) % 256 * 256 + (low * 256 + high) / 256 = high * 256 + low := by
  omega

theorem htons_toNat (x : UInt16) : (htons x).toNat = x.toNat % 256 * 256 + x.toNat / 256 := by
  have hx := x.toNat_lt
  rw [htons, UInt16.toNat_ofNat', Nat.mod_eq_of_lt]
  omega

theorem htons_htons (x : UInt16) : htons (htons x) = x := by
  have hhigh : x.toNat / 256 < 256 := Nat.div_lt_of_lt_mul x.toNat_lt
  rw [← UInt16.toNat_inj, htons_toNat, htons_toNat, exchange_bytes hhigh, Nat.mul_comm]
  exact Nat.div_add_mod _ _

theorem digit_toNat {d : Nat} (h : d < 10) : (UInt8.ofNat (48 + d)).toNat = 48 + d := by
  rw [UInt8.toNat_ofNat']
  omega

theorem isdigit_ofNat {d : Nat} (h : d < 10) : isdigit (UInt8.ofNat (48 + d)) = true := by
  have e := digit_toNat h
  rw [isdigit, Bool.and_eq_true, decide_eq_true_eq, decide_eq_true_eq, UInt8.le_iff_toNat_le,
    UInt8.le_iff_toNat_le, e]
  exact ⟨Nat.le_add_right _ _, by show 48 + d ≤ 57; omega⟩

theorem isdigit_decimal (n : Nat) : ∀ c ∈ decimal n, isdigit c = true := by
  induction n using Nat.strongRecOn with
  | ind n ih =>
    rw [decimal]
    split
    · next h =>
      intro c hc
      rw [List.mem_singleton.1 hc]
      exact isdigit_ofNat h
    · next h =>
      intro c hc
      rcases List.mem_append.1 hc with hc | hc
      · exact ih (n / 10) (by omega) c hc
      · rw [List.mem_singleton.1 hc]
        exact isdigit_ofNat (Nat.mod_lt _ (by omega))

theorem digitsVal_decimal (n : Nat) : digitsVal (decimal n) = n := by
  induction n using Nat.strongRecOn with
  | ind n ih =>
    rw [decimal]
    split
    · next h =>
      rw [digitsVal, List.foldl_cons, List.foldl_nil, digit_toNat h]
      omega
    · next h =>
      have hrest := ih (n / 10) (by omega)
      rw [digitsVal] at hrest ⊢
      rw [List.foldl_append, hrest, List.foldl_cons, List.foldl_nil,
        digit_toNat (Nat.mod_lt _ (by omega))]
      omega

theorem decimal_ne_nil (n : Nat) : decimal n ≠ [] := by
  rw [decimal]
  split <;> simp

theorem decimal_length {n k : Nat} (h : n < 10 ^ (k + 1)) : (decimal n).length ≤ k + 1 := by
  induction k generalizing n with
  | zero =>
    rw [decimal, if_pos (by simpa using h)]
    simp
  | succ k ih =>
    rw [decimal]
    split
    · simp
    · have hlt : n / 10 < 10 ^ (k + 1) := by
        rw [Nat.pow_succ] at h
        omega
      rw [List.length_append, List.length_singleton]
      exact Nat.succ_le_succ (ih hlt)

theorem isdigit_iff {c : UInt8} : isdigit c = true ↔ 48 ≤ c.toNat ∧ c.toNat ≤ 57 := by
  rw [isdigit, Bool.and_eq_true, decide_eq_true_eq, decide_eq_true_eq, UInt8.le_iff_toNat_le,
    UInt8.le_iff_toNat_le]
  rfl

/-- The number that was written is read. -/
theorem scanD_decimal (n : Nat) : scanD (decimal n) = some (n : Int) := by
  obtain ⟨c, s, e⟩ := List.exists_cons_of_ne_nil (decimal_ne_nil n)
  have hdigits := isdigit_decimal n
  have hval := digitsVal_decimal n
  rw [e] at hdigits hval ⊢
  have hc := isdigit_iff.1 (hdigits c List.mem_cons_self)
  have hne : ∀ d : UInt8, d.toNat < 48 → c ≠ d := by
    rintro d hd rfl
    omega
  have hspace : isspace c = false := by
    rw [isspace, Bool.or_eq_false_iff, decide_eq_false_iff_not, Bool.and_eq_false_iff,
      decide_eq_false_iff_not, decide_eq_false_iff_not]
    refine ⟨hne 32 (by decide), .inr ?_⟩
    rw [UInt8.le_iff_toNat_le]
    show ¬c.toNat ≤ 13
    omega
  have hdrop : (c :: s).dropWhile isspace = c :: s := by rw [List.dropWhile_cons, hspace]; rfl
  have htake : (c :: s).takeWhile isdigit = c :: s :=
    List.takeWhile_eq_self_iff.2 hdigits
  have h43 : ¬((c :: s).head? = some 43 ∨ (c :: s).head? = some 45) := by
    rw [List.head?_cons, Option.some.injEq, Option.some.injEq]
    exact not_or.2 ⟨hne 43 (by decide), hne 45 (by decide)⟩
  rw [scanD]
  simp only [hdrop, if_neg h43, htake, if_neg (List.cons_ne_nil c s), if_neg (not_or.1 h43).2, hval]

/-! Texts in memory. -/

theorem findByteFrom_append {target : UInt8} {s : Bytes} (h : target ∉ s) (rest : Bytes) {n : Nat}
    (hn : s.length < n) (i : Nat) :
    findByteFrom target (s ++ target :: rest) n i = some (some (i + s.length)) := by
  induction s generalizing n i with
  | nil =>
    obtain ⟨n, rfl⟩ := Nat.exists_eq_succ_of_ne_zero (Nat.ne_of_gt hn)
    exact if_pos rfl
  | cons c s ih =>
    obtain ⟨n, rfl⟩ := Nat.exists_eq_succ_of_ne_zero (Nat.ne_of_gt (Nat.zero_lt_of_lt hn))
    rw [List.mem_cons, not_or] at h
    rw [List.cons_append, findByteFrom, if_neg (Ne.symm h.1), ih h.2 (Nat.lt_of_succ_lt_succ hn),
      List.length_cons, Nat.add_right_comm, Nat.add_assoc i]

theorem findByte_append {target : UInt8} {s : Bytes} (h : target ∉ s) (rest : Bytes) {n : Nat}
    (hn : s.length < n) : findByte (s ++ target :: rest) target n = some (some s.length) := by
  rw [findByte, findByteFrom_append h rest hn, Nat.zero_add]

/-- A text of two parts: its length, and where the second begins. -/
theorem text_parts {s t : Bytes} (h : 58 ∉ s) (h0 : 0 ∉ s) (ht : 0 ∉ t) (rest : Bytes) :
    strlen (s ++ 58 :: (t ++ 0 :: rest)) = some (s ++ 58 :: t).length ∧
      findByte (s ++ 58 :: (t ++ 0 :: rest)) 58 (s ++ 58 :: t).length = some (some s.length) := by
  have htext : s ++ 58 :: (t ++ 0 :: rest) = (s ++ 58 :: t) ++ 0 :: rest := by simp
  have hnul : 0 ∉ s ++ 58 :: t := by
    rw [List.mem_append, List.mem_cons]
    rintro (h | h | h)
    · exact h0 h
    · cases h
    · exact ht h
  constructor
  · rw [htext]
    exact strlen_append hnul rest
  · apply findByte_append h
    simp

/-- A copy over what follows `pre`. -/
theorem memcpy_append (pre : Bytes) {src tail : Bytes} (h : src.length ≤ tail.length) :
    memcpy (pre ++ tail) pre.length src = some (pre ++ (src ++ tail.drop src.length)) := by
  rw [memcpy, if_pos (by rw [List.length_append]; omega), List.take_left, ← List.drop_drop,
    List.drop_left, List.append_assoc]

theorem memcpy_start {dst src : Bytes} (h : src.length ≤ dst.length) :
    memcpy dst 0 src = some (src ++ dst.drop src.length) := memcpy_append [] h

/-! Addresses. -/

theorem carr_four (a : InAddr) : ∃ w x y z, a.val = [w, x, y, z] := by
  obtain ⟨val, hlen⟩ := a
  match val, hlen with
  | [w, x, y, z], _ => exact ⟨w, x, y, z, rfl⟩

theorem decimal_byte (b : UInt8) : (decimal b.toNat).length ≤ 3 :=
  decimal_length (Nat.lt_trans b.toNat_lt (by decide))

theorem decimal_port (p : UInt16) : (decimal p.toNat).length ≤ 5 :=
  decimal_length (Nat.lt_trans p.toNat_lt (by decide))

theorem inetNtoa_eq {a : InAddr} {w x y z : UInt8} (h : a.val = [w, x, y, z]) :
    inetNtoa a = decimal w.toNat ++ 46 :: (decimal x.toNat ++ 46 ::
      (decimal y.toNat ++ 46 :: decimal z.toNat)) := by
  rw [inetNtoa, h]
  simp [List.intercalate, List.intersperse]

theorem inetNtoa_length (a : InAddr) : (inetNtoa a).length ≤ 15 := by
  obtain ⟨w, x, y, z, h⟩ := carr_four a
  have hw := decimal_byte w
  have hx := decimal_byte x
  have hy := decimal_byte y
  have hz := decimal_byte z
  rw [inetNtoa_eq h]
  simp only [List.length_append, List.length_cons]
  omega

theorem inetNtoa_ne_nil (a : InAddr) : inetNtoa a ≠ [] := by
  obtain ⟨w, x, y, z, h⟩ := carr_four a
  rw [inetNtoa_eq h]
  simp

theorem mem_inetNtoa {a : InAddr} {c : UInt8} (hc : c ∈ inetNtoa a) : isdigit c = true ∨ c = 46 := by
  obtain ⟨w, x, y, z, h⟩ := carr_four a
  rw [inetNtoa_eq h] at hc
  simp only [List.mem_append, List.mem_cons] at hc
  rcases hc with hc | hc | hc | hc | hc | hc | hc
  all_goals first | exact .inr hc | exact .inl (isdigit_decimal _ c hc)

/-- Neither a NUL nor a separator. -/
theorem not_mem_inetNtoa (a : InAddr) : 0 ∉ inetNtoa a ∧ 58 ∉ inetNtoa a := by
  refine ⟨fun h => ?_, fun h => ?_⟩
  all_goals
    rcases mem_inetNtoa h with h | h
    · exact absurd h (by decide)
    · exact absurd h (by decide)

theorem not_mem_decimal (n : Nat) : 0 ∉ decimal n := fun h =>
  absurd (isdigit_decimal n 0 h) (by decide)

/-! The functions. -/

section
variable {inetPton : Bytes → Option InAddr} {a : InAddr} {port : UInt16} {tmpv : CArr 50}
  {srcaddr : Bytes}

/-- The longest text has 22 bytes with its NUL, but 26 bytes are cleared first. -/
theorem accept_room {sock : Socket} {desc : Int32} {srcaddr_in : SockaddrIn}
    {r : Socket × Option Err × Bytes}
    (e : qStreamSocketAccept sock desc srcaddr_in srcaddr = some r) : 26 ≤ srcaddr.length := by
  obtain ⟨block, eblock, -⟩ := Option.bind_eq_some_iff.1 e
  rw [memcpy] at eblock
  split at eblock
  · next h => simpa using h
  · cases eblock

/-- What `accept` writes: the address, the separator, the port and a NUL. -/
theorem accept_text (sock : Socket) (desc : Int32) (hroom : 26 ≤ srcaddr.length) (a : InAddr)
    (port : UInt16) : ∃ rest, qStreamSocketAccept sock desc ⟨2, htons port, a, CArr.zero 8⟩ srcaddr =
      some ({ sock with desc }, if desc = -1 then some .tcpAcceptFail else none,
        inetNtoa a ++ 58 :: (decimal port.toNat ++ 0 :: rest)) := by
  have hlen := inetNtoa_length a
  have hport := decimal_port port
  have hfirst : (List.replicate 26 (0 : UInt8)).length ≤ srcaddr.length := by
    rwa [List.length_replicate]
  obtain ⟨block, eblock, hblock⟩ : ∃ block : Bytes, memcpy srcaddr 0 (List.replicate 26 0) =
      some block ∧ 26 ≤ block.length := by
    refine ⟨_, memcpy_start hfirst, ?_⟩
    rwa [List.length_append, List.length_drop, Nat.add_sub_cancel' hfirst]
  obtain ⟨tail, etext, htail⟩ : ∃ tail : Bytes, memcpy block 0 (inetNtoa a ++ [0]) =
      some (inetNtoa a ++ 0 :: tail) ∧ 10 ≤ tail.length := by
    have hfits : (inetNtoa a ++ [0]).length ≤ block.length := by
      rw [List.length_append, List.length_singleton]
      omega
    refine ⟨block.drop (inetNtoa a ++ [0]).length, ?_, ?_⟩
    · rw [memcpy_start hfits, List.append_assoc]
      rfl
    · rw [List.length_drop, List.length_append, List.length_singleton]
      omega
  obtain ⟨rest, eport⟩ : ∃ rest, memcpy (inetNtoa a ++ 0 :: tail) (inetNtoa a).length
      (58 :: decimal port.toNat ++ [0]) =
        some (inetNtoa a ++ 58 :: (decimal port.toNat ++ 0 :: rest)) := by
    refine ⟨(0 :: tail).drop (58 :: decimal port.toNat ++ [0]).length, ?_⟩
    rw [memcpy_append (inetNtoa a), List.append_assoc]
    · rfl
    · rw [List.length_append, List.length_cons, List.length_singleton, List.length_cons]
      omega
  refine ⟨rest, ?_⟩
  rw [qStreamSocketAccept, ntohs, htons_htons]
  simp only [Option.bind_eq_bind, eblock, Option.bind_some, etext, eport]
  rfl

/-- The address field is still zero after `inet_pton`. -/
theorem inetPtonTo_zero (inetPton : Bytes → Option InAddr) (src : Bytes) :
    (inetPtonTo inetPton src (SockaddrIn.codec.enc SockaddrIn.zero)).map
      (fun t => (SockaddrIn.codec.dec t).sin_addr) =
        if 0 ∈ src then some (CArr.zero 4) else none := by
  rw [inetPtonTo]
  split
  · cases inetPton (cstr src) with
    | none =>
      simp only [Option.map_some, Codec.dec_enc_nil]
      rfl
    | some b =>
      have henc : SockaddrIn.codec.enc SockaddrIn.zero = List.replicate 16 0 := rfl
      have hfits : b.val.length ≤ (List.replicate 16 (0 : UInt8)).length := by
        rw [b.len]
        decide
      have hdec : ∀ bs, (SockaddrIn.codec.dec bs).sin_addr = CArr.ofBytes 4 (bs.drop 4) :=
        fun _ => rfl
      simp only [henc, memcpy_start hfits, Option.map_some, hdec]
      rw [List.drop_left' b.len, b.len]
      rfl
  · rfl

/-- **The address text.** Whatever it says, the address is 0.0.0.0, if the part before the
    separator has a NUL behind it by chance. -/
theorem strToIpv4addr_text {s : Bytes} (h : 58 ∉ s) (h0 : 0 ∉ s) (hlen : s.length ≤ 50)
    {t : Bytes} (ht : 0 ∉ t) (rest : Bytes) :
    strToIpv4addr inetPton (s ++ 58 :: (t ++ 0 :: rest)) tmpv =
      if 0 ∈ tmpv.val.drop s.length then some (CArr.zero 4) else none := by
  obtain ⟨hstr, hfind⟩ := text_parts h h0 ht rest
  have hcopy := memcpy_start (show s.length ≤ tmpv.val.length by rwa [tmpv.len])
  rw [strToIpv4addr, hstr]
  simp only [Option.bind_eq_bind, Option.bind_some, hfind, List.take_left, hcopy]
  have hmem : 0 ∈ s ++ tmpv.val.drop s.length ↔ 0 ∈ tmpv.val.drop s.length := by
    rw [List.mem_append, or_iff_right h0]
  have hz := inetPtonTo_zero inetPton (s ++ tmpv.val.drop s.length)
  rw [if_congr hmem rfl rfl] at hz
  rw [← hz]
  cases inetPtonTo inetPton (s ++ tmpv.val.drop s.length)
    (SockaddrIn.codec.enc SockaddrIn.zero) <;> rfl

/-- The text behind the separator is the port. -/
theorem portOf_text (scan : Bytes → UInt16) (s : Bytes) (port : UInt16) (rest : Bytes) :
    portOf scan (s ++ 58 :: (decimal port.toNat ++ 0 :: rest)) s.length
      (s ++ 58 :: decimal port.toNat).length = some (scan (decimal port.toNat)) := by
  have hport := decimal_port port
  have hsrc : ((s ++ 58 :: (decimal port.toNat ++ 0 :: rest)).drop (s.length + 1)).take
      ((s ++ 58 :: decimal port.toNat).length - s.length - 1) = decimal port.toNat := by
    rw [← List.drop_drop, List.drop_left, List.drop_one, List.tail_cons]
    apply List.take_left'
    simp
  have hcopy : memcpy (List.replicate 10 0) 0 (decimal port.toNat) = some (decimal port.toNat ++
      (List.replicate 10 0).drop (decimal port.toNat).length) := by
    apply memcpy_start
    rw [List.length_replicate]
    omega
  obtain ⟨zeros, ezeros⟩ : ∃ zeros : Bytes,
      (List.replicate 10 (0 : UInt8)).drop (decimal port.toNat).length = 0 :: zeros := by
    rw [List.drop_replicate]
    obtain ⟨k, hk⟩ : ∃ k, 10 - (decimal port.toNat).length = k + 1 :=
      ⟨9 - (decimal port.toNat).length, by omega⟩
    exact ⟨List.replicate k 0, by rw [hk, List.replicate_succ]⟩
  rw [ezeros] at hcopy
  rw [portOf, hsrc]
  simp only [Option.bind_eq_bind, hcopy, Option.bind_some]
  rw [if_pos (by simp), cstr_append (not_mem_decimal _)]
  rfl

/-- The address that `bind` or `connect` is called with. -/
theorem useAddr_text (scan : Bytes → UInt16) (call : SockaddrIn → Int32) (failed : Err)
    (sock : Socket) {s : Bytes} (h : 58 ∉ s) (h0 : 0 ∉ s) (port : UInt16) (rest : Bytes)
    (a : InAddr) :
    Uses (useAddr inetPton scan call failed { sock with domain := afInet }
        (s ++ 58 :: (decimal port.toNat ++ 0 :: rest)) tmpv) a port ↔
      hostOf inetPton (s ++ 58 :: (decimal port.toNat ++ 0 :: rest)) tmpv s.length = some a ∧
        scan (decimal port.toNat) = port := by
  obtain ⟨hstr, hfind⟩ := text_parts h h0 (not_mem_decimal port.toNat) rest
  have hport := portOf_text scan s port rest
  have hinj : htons (scan (decimal port.toNat)) = htons port ↔ scan (decimal port.toNat) = port := by
    refine ⟨fun e => ?_, fun e => by rw [e]⟩
    rw [← htons_htons (scan _), e, htons_htons]
  rw [useAddr, hstr]
  simp only [ne_eq, not_true_eq_false, if_false, Option.bind_eq_bind, Option.bind_some, hfind, hport]
  cases ehost : hostOf inetPton (s ++ 58 :: (decimal port.toNat ++ 0 :: rest)) tmpv s.length with
  | none =>
    refine iff_of_false ?_ nofun
    rintro ⟨r, e, -⟩
    cases e
  | some host =>
    have hused : ∀ rc err, Uses (some ⟨rc, err,
        some ⟨2, htons (scan (decimal port.toNat)), host, CArr.zero 8⟩⟩) a port ↔
          some host = some a ∧ scan (decimal port.toNat) = port := by
      intro rc err
      rw [← hinj, Option.some.injEq]
      constructor
      · rintro ⟨r, e, hr⟩
        rw [← Option.some.inj e, Option.some.injEq, SockaddrIn.mk.injEq] at hr
        exact ⟨hr.2.2.1, hr.2.1⟩
      · rintro ⟨rfl, e⟩
        exact ⟨_, rfl, by rw [e]⟩
    rw [Option.bind_some]
    split
    · exact hused _ _
    · exact hused _ _

theorem scanInt_decimal (port : UInt16) : scanInt (decimal port.toNat) = port := by
  have hmod : ((port.toNat : Int) % 2 ^ 16).toNat = port.toNat := by
    have := port.toNat_lt
    omega
  rw [scanInt, scanD_decimal, Option.getD_some, UInt16.ofInt, hmod, UInt16.ofNat_toNat]

/-- `%hd` reads the ports that a `short` holds, and the others if it keeps their bits. -/
theorem scanShort_decimal (hd : Int → Int16) (port : UInt16) :
    scanShort hd (decimal port.toNat) = port ↔
      port.toNat < 2 ^ 15 ∨ (hd port.toNat).toUInt16 = port := by
  rw [scanShort, scanD_decimal]
  by_cases hlt : port.toNat < 2 ^ 15
  · have hfits : -2 ^ 15 ≤ (port.toNat : Int) ∧ (port.toNat : Int) < 2 ^ 15 := by omega
    simp only [Option.getD_some, if_pos hfits, Int16.ofInt_eq_ofNat]
    exact iff_of_true (UInt16.ofNat_toNat) (.inl hlt)
  · have hover : ¬(-2 ^ 15 ≤ (port.toNat : Int) ∧ (port.toNat : Int) < 2 ^ 15) := by omega
    simp only [Option.getD_some, if_neg hover, or_iff_right hlt]

/-- **The address texts.** A peer's address and port survive the way through a text if and
    only if the caller's block has the 26 bytes that are cleared, the address is 0.0.0.0,
    the array on the stack has a NUL behind the copied part by chance, and the port is one
    that `%hd` reads. -/
theorem address_round_trip (inetPton : Bytes → Option InAddr) (hd : Int → Int16)
    (bindstat connstat : SockaddrIn → Int32) (sock : Socket) (desc : Int32) (srcaddr : Bytes)
    (tmpv : CArr 50) (a : InAddr) (port : UInt16) :
    RoundTrips inetPton hd bindstat connstat sock desc srcaddr tmpv a port ↔
      26 ≤ srcaddr.length ∧ a = inaddrAny ∧ 0 ∈ tmpv.val.drop (inetNtoa a).length ∧
        (port.toNat < 2 ^ 15 ∨ (hd port.toNat).toUInt16 = port) := by
  obtain ⟨h0, h58⟩ := not_mem_inetNtoa a
  by_cases hroom : 26 ≤ srcaddr.length
  swap
  · refine iff_of_false ?_ fun h => hroom h.1
    rintro ⟨r, e, -⟩
    exact hroom (accept_room e)
  rw [and_iff_right hroom]
  obtain ⟨rest, eaccept⟩ := accept_text sock desc hroom a port
  have hlen := inetNtoa_length a
  have haddr : strToIpv4addr inetPton (inetNtoa a ++ 58 :: (decimal port.toNat ++ 0 :: rest)) tmpv =
      if 0 ∈ tmpv.val.drop (inetNtoa a).length then some (CArr.zero 4) else none :=
    strToIpv4addr_text h58 h0 (by omega) (not_mem_decimal port.toNat) rest
  have hhost : hostOf inetPton (inetNtoa a ++ 58 :: (decimal port.toNat ++ 0 :: rest)) tmpv
      (inetNtoa a).length = if 0 ∈ tmpv.val.drop (inetNtoa a).length then some (CArr.zero 4)
        else none := by
    have hne : (inetNtoa a).length ≠ 0 := fun h => inetNtoa_ne_nil a (List.eq_nil_of_length_eq_zero h)
    rw [hostOf, if_pos hne, haddr]
  have hwild : 58 :: decimal port.toNat ++ [0] = [] ++ 58 :: (decimal port.toNat ++ 0 :: []) := rfl
  have hany : ∀ scan call failed, Uses (useAddr inetPton scan call failed
      { sock with domain := afInet } (58 :: decimal port.toNat ++ [0]) tmpv) inaddrAny port ↔
        scan (decimal port.toNat) = port := by
    intro scan call failed
    rw [hwild, useAddr_text scan call failed sock List.not_mem_nil List.not_mem_nil]
    exact and_iff_right rfl
  have htext : ∀ scan call failed, Uses (useAddr inetPton scan call failed
      { sock with domain := afInet } (inetNtoa a ++ 58 :: (decimal port.toNat ++ 0 :: rest)) tmpv)
        a port ↔ (if 0 ∈ tmpv.val.drop (inetNtoa a).length then some (CArr.zero 4) else none) =
          some a ∧ scan (decimal port.toNat) = port := by
    intro scan call failed
    rw [useAddr_text scan call failed sock h58 h0, hhost]
  have hzero : (if 0 ∈ tmpv.val.drop (inetNtoa a).length then some (CArr.zero 4) else none) =
      some a ↔ a = inaddrAny ∧ 0 ∈ tmpv.val.drop (inetNtoa a).length := by
    split
    · next h => rw [Option.some.injEq, eq_comm, and_iff_left h]; rfl
    · next h => exact iff_of_false nofun fun h' => h h'.2
  have hint := scanInt_decimal port
  have hshort := scanShort_decimal hd port
  constructor
  · rintro ⟨r, e, hstr, -, hconn, -, -⟩
    cases eaccept.symm.trans e
    rw [haddr, hzero] at hstr
    exact ⟨hstr.1, hstr.2, hshort.1 ((htext _ _ _).1 hconn).2⟩
  · rintro ⟨ha, hnul, hport⟩
    have hif := hzero.2 ⟨ha, hnul⟩
    exact ⟨_, eaccept, haddr.trans hif, (htext _ _ _).2 ⟨hif, hint⟩,
      (htext _ _ _).2 ⟨hif, hshort.2 hport⟩, (hany _ _ _).2 hint, (hany _ _ _).2 (hshort.2 hport)⟩

end

def loopback : InAddr := ⟨[127, 0, 0, 1], rfl⟩

/-- Port 80 of 127.0.0.1, with an array that is all zero. -/
theorem address_round_trip_fails :
    ¬RoundTrips (fun s => if s = inetNtoa loopback then some loopback else none)
      (fun n => Int16.ofInt n) (fun _ => 0) (fun _ => 0) ⟨3, afInet, 1, 0, 0⟩ 4
      (List.replicate 40 0) (CArr.zero 50) loopback 80 := by
  rintro ⟨r, e, hstr, -⟩
  obtain ⟨h0, h58⟩ := not_mem_inetNtoa loopback
  have hroom : 26 ≤ (List.replicate 40 (0 : UInt8)).length := by decide
  obtain ⟨rest, eaccept⟩ := accept_text ⟨3, afInet, 1, 0, 0⟩ 4 hroom loopback 80
  have hlen := inetNtoa_length loopback
  have hport : 0 ∉ decimal (80 : UInt16).toNat := not_mem_decimal _
  rw [← Option.some.inj (eaccept.symm.trans e), strToIpv4addr_text h58 h0 (by omega) hport] at hstr
  split at hstr
  · exact absurd (Option.some.inj hstr) (by decide)
  · cases hstr

end Zhwkrfsp.Address
