import Zhwkrfsp.Secrecy

/- The lengths a handler takes from a reply header. What is left of a handler after
   `wait_reply` is a function of the header (`Call.answered_eq`): it returns, aborts,
   or hands a number to `sockread`, whose parameter is an int. `LengthsHold` asks that
   this number is what the header announces and fits the handler's buffer, and
   `lengths_iff` says for which headers the eight handlers that read a body, and
   `as_write`, meet that. -/
namespace Zhwkrfsp
open Wire Chan

/-! What is left of a handler after the reply header. -/

section
variable {β : Type}

/-- The rest of a handler, `rp` being the reply header. -/
def onHeader (old : β) (onReply : RpHdr → Io (Int32 × β)) (rp : RpHdr) : Io Int32 :=
  Prod.fst <$> if rp.rtvl < 0 then warn rp.rtvl old else onReply rp

theorem converse_answered {req : Request} {msg : Bytes} (h : req.emission = some msg) (old : β)
    (onReply : RpHdr → Io (Int32 × β)) (u : UInt32) (rp : RpHdr) :
    (Prod.fst <$> converse req old onReply).answered u (RpHdr.codec.enc rp) =
      some (onHeader old onReply rp) := by
  rw [Prog.answered_map, converse_emission h]
  show some (Prod.fst <$> replied old onReply (some (RpHdr.codec.enc rp))) = _
  rw [replied, Option.map_some, Codec.dec_enc_nil, onHeader]

theorem converse_unanswered {req : Request} (h : req.emission = none) (old : β)
    (onReply : RpHdr → Io (Int32 × β)) (u : UInt32) (hd : Bytes) :
    (Prod.fst <$> converse req old onReply).answered u hd = none := by
  rw [Prog.answered_map, converse, Option.map_eq_none_iff.1 h]
  rfl

/-- A handler that gets to its reply header goes on with `onHeader`. -/
theorem answered_of_converse {req : Request} {old : β} {onReply : RpHdr → Io (Int32 × β)}
    {u : UInt32} {rp : RpHdr} {q : Io Int32}
    (h : (Prod.fst <$> converse req old onReply).answered u (RpHdr.codec.enc rp) = some q) :
    q = onHeader old onReply rp := by
  cases e : req.emission with
  | none =>
    rw [converse_unanswered e] at h
    cases h
  | some msg =>
    rw [converse_answered e] at h
    cases h
    rfl

theorem answered_of_entered {req : UInt32 → Request} {old : β}
    {onReply : RpHdr → Io (Int32 × β)} {u : UInt32} {rp : RpHdr} {q : Io Int32}
    (h : (Prod.fst <$> (enter >>= fun ouid => converse (req ouid) old onReply)).answered u
      (RpHdr.codec.enc rp) = some q) : q = onHeader old onReply rp :=
  answered_of_converse (u := u + 1) h

end

/-- What an open handler does once its checks have passed. -/
theorem answered_of_checked {req : UInt32 → Request} {fi : FileInfo} {unsupported : UInt32}
    {onReply : RpHdr → Io (Int32 × FileInfo)} {u : UInt32} {rp : RpHdr} {q : Io Int32}
    (h : (Prod.fst <$> (enter >>= fun ouid =>
      openChecks fi unsupported (converse (req ouid) fi onReply))).answered u
        (RpHdr.codec.enc rp) = some q) : q = onHeader fi onReply rp := by
  have h : (Prod.fst <$> openChecks fi unsupported (converse (req (u + 1)) fi onReply)).answered
      (u + 1) (RpHdr.codec.enc rp) = some q := h
  unfold openChecks at h
  split at h
  · cases h
  split at h
  · cases h
  · exact answered_of_converse h

/-! Lengths. -/

/-- A header whose size cannot be that of a header and a body of fewer than 2^31 bytes. -/
def Impossible (rp : RpHdr) : Prop := rp.size.toNat < 12 ∨ 2 ^ 31 + 12 ≤ rp.size.toNat

/-- The rest of a handler that asks for nothing: an abort, or a return. -/
def AsksNothing (q : Io Int32) : Prop := q = .stop .abort ∨ ∃ v, q = .unlock (.ret v)

/-- What the rest `q` of a handler may hand to `sockread`, `room` being the size of
    the buffer. -/
def LengthsAt (room : Option Nat) (rp : RpHdr) (q : Io Int32) : Prop :=
  (∀ (n : Int32) (k : Option Bytes → Io Int32), q = (sockread n >>= k) →
    0 ≤ n ∧ 12 + n.toInt = rp.size.toNat ∧ ∀ r, room = some r → n.toInt ≤ r) ∧
  (Impossible rp → AsksNothing q)

namespace Call

/-- The handlers that read a body. -/
def readsBody : Call → Bool
  | .fuseGetattr .. | .fuseReadlink .. | .fuseOpen .. | .fuseCreat .. | .fuseRead ..
  | .fuseStatfs .. | .fuseOpendir .. | .fuseReaddir .. => true
  | _ => false

/-- The size of the buffer a handler provides for the body; `fuse_readdir` has one
    that grows. -/
def room : Call → Option Nat
  | .fuseGetattr .. => some Ustat.codec.size
  | .fuseStatfs .. => some Ustatvfs.codec.size
  | .fuseOpen .. | .fuseCreat .. | .fuseOpendir .. => some RpOpen.codec.size
  | .fuseReadlink _ dest => some dest.length
  | .fuseRead _ buf _ _ => some buf.length
  | _ => none

/-- After the header `rp` the handler asks `sockread` for exactly the announced body,
    which its buffer can take, and for nothing where there can be no such body. -/
def LengthsHold (c : Call) (rp : RpHdr) : Prop :=
  ∀ m u q, (c.prog m).answered u (RpHdr.codec.enc rp) = some q → LengthsAt c.room rp q

/-- When it does: `fuse_readlink` has no lower bound for the size, and neither it nor
    `fuse_readdir` one that excludes 2^31 bytes and more. -/
def LengthOk (c : Call) (rp : RpHdr) : Prop :=
  match c with
  | .fuseReadlink _ dest => rp.rtvl < 0 ∨
      rp.size.toUInt64 > sizeof RpHdr.codec + UInt64.ofNat dest.length ∨
      12 ≤ rp.size.toNat ∧ rp.size.toNat < 2 ^ 31 + 12
  | .fuseReaddir .. => rp.rtvl < 0 ∨ rp.size.toNat < 2 ^ 31 + 12
  | _ => True

end Call

/-! What a rest of a handler may be. -/

theorem AsksNothing.not_sockread {q : Io Int32} (h : AsksNothing q) (n : Int32)
    (k : Option Bytes → Io Int32) : q ≠ (sockread n >>= k) := by
  unfold sockread
  rcases h with rfl | ⟨v, rfl⟩
  · split <;> exact nofun
  · split <;> exact nofun

theorem AsksNothing.lengthsAt {q : Io Int32} (h : AsksNothing q) (room : Option Nat)
    (rp : RpHdr) : LengthsAt room rp q :=
  ⟨fun n k hq => absurd hq (h.not_sockread n k), fun _ => h⟩

/-- Two lengths that read the same are the same, if one is not negative. -/
theorem sockread_bind_inj {α : Type} {n n' : Int32} {k k' : Option Bytes → Io α}
    (h : (sockread n' >>= k') = (sockread n >>= k)) (hn : 0 ≤ n') : n = n' := by
  have hn' : ¬n' < 0 := by
    rw [Int32.not_lt]
    exact hn
  rw [sockread, if_neg hn', sockread] at h
  by_cases hneg : n < 0
  · rw [if_pos hneg] at h
    cases h
  · rw [if_neg hneg] at h
    have hlen : n'.toInt.toNat = n.toInt.toNat := by
      have e : Prog.read [] n'.toInt.toNat k' = Prog.read [] n.toInt.toNat k := h
      injection e
    rw [Int32.not_lt, Int32.le_iff_toInt_le] at hneg
    rw [Int32.le_iff_toInt_le] at hn
    have h0 : (0 : Int32).toInt = 0 := rfl
    rw [h0] at hn hneg
    exact Int32.toInt_inj.1 (by omega)

/-- A 32-bit number as an int. -/
theorem toInt32_cases (x : UInt32) :
    (x.toNat < 2 ^ 31 ∧ 0 ≤ x.toInt32 ∧ x.toInt32.toInt = x.toNat) ∨
      2 ^ 31 ≤ x.toNat ∧ ¬0 ≤ x.toInt32 := by
  have hneg := BitVec.toInt_neg_iff (x := x.toBitVec)
  have h0 : (0 : Int32).toInt = 0 := rfl
  have hint : x.toInt32.toInt = x.toBitVec.toInt := rfl
  have hnat : x.toBitVec.toNat = x.toNat := rfl
  rw [Int32.le_iff_toInt_le, h0, hint]
  by_cases h : x.toNat < 2 ^ 31
  · have hx : x.toBitVec.toInt = x.toNat := BitVec.toInt_eq_toNat_of_lt (by rw [hnat]; omega)
    exact .inl ⟨h, by omega, hx⟩
  · exact .inr ⟨by omega, by omega⟩

/-- A length handed over as the low 32 bits of `x`. -/
theorem lengthsAt_sockread {room : Option Nat} {rp : RpHdr} {x : UInt32}
    {k : Option Bytes → Io Int32} : LengthsAt room rp (sockread x.toInt32 >>= k) ↔
      x.toNat < 2 ^ 31 ∧ 12 + x.toNat = rp.size.toNat ∧ ∀ r, room = some r → x.toNat ≤ r := by
  constructor
  · intro h
    obtain ⟨h0, hsize, hroom⟩ := h.1 _ _ rfl
    rcases toInt32_cases x with ⟨hlt, -, hint⟩ | ⟨-, hneg⟩
    · rw [hint] at hsize hroom
      exact ⟨hlt, by omega, fun r hr => by simpa using hroom r hr⟩
    · exact absurd h0 hneg
  · rintro ⟨hlt, hsize, hroom⟩
    rcases toInt32_cases x with ⟨-, h0, hint⟩ | ⟨hge, -⟩
    · refine ⟨fun n k' hq => ?_, fun himp => ?_⟩
      · rw [sockread_bind_inj hq h0, hint]
        exact ⟨h0, by omega, fun r hr => by simpa using hroom r hr⟩
      · rw [Impossible] at himp
        omega
    · omega

/-- The rest of a handler that goes on to read. -/
theorem reRead_rest {β : Type} (remain : UInt64) (f : Option Bytes → Io (Int32 × β)) :
    Prod.fst <$> (reRead remain >>= f) =
      (sockread remain.toUInt32.toInt32 >>= fun r => Prod.fst <$> f r) :=
  Prog.bind_assoc _ _ _

section
variable {β : Type} {old : β} {onReply : RpHdr → Io (Int32 × β)} {rp : RpHdr}

theorem onHeader_negative (h : rp.rtvl < 0) : AsksNothing (onHeader old onReply rp) := by
  rw [onHeader, if_pos h]
  exact .inr ⟨_, rfl⟩

theorem onHeader_reply (h : ¬rp.rtvl < 0) : onHeader old onReply rp = Prod.fst <$> onReply rp := by
  rw [onHeader, if_neg h]

/-- A handler that takes one struct asks for it only after a header that announces it. -/
theorem structBody_lengths {γ : Type} (c : Codec γ) (hc : c.size < 2 ^ 31) (use : γ → β) :
    LengthsAt (some c.size) rp (onHeader old (structBody c old use) rp) := by
  by_cases hneg : rp.rtvl < 0
  · exact (onHeader_negative hneg).lengthsAt _ _
  · rw [onHeader_reply hneg]
    unfold structBody
    split
    · exact AsksNothing.lengthsAt (.inl rfl) _ _
    · next hsize =>
      rw [ne_eq, not_not] at hsize
      have hsz : rp.size.toNat = 12 + c.size := by
        rw [← UInt32.toNat_toUInt64, hsize, UInt64.toNat_add]
        simp [sizeof]
        omega
      have hx : (sizeof c).toUInt32.toNat = c.size := by
        simp [sizeof]
        omega
      rw [reRead_rest, lengthsAt_sockread, hx]
      exact ⟨hc, hsz.symm, fun r hr => by cases hr; exact Nat.le_refl _⟩

end

/-- `(int)(rp.size - sizeof(struct RpHdr))`: below the header's size it is negative. -/
theorem sub_hdr_toNat (size : UInt32) :
    (size.toUInt64 - sizeof RpHdr.codec).toUInt32.toNat =
      if 12 ≤ size.toNat then size.toNat - 12 else 2 ^ 32 - 12 + size.toNat := by
  have hs : (sizeof RpHdr.codec).toNat = 12 := rfl
  have hlt := size.toNat_lt
  rw [UInt64.toNat_toUInt32, UInt64.toNat_sub, UInt32.toNat_toUInt64, hs]
  split <;> omega

/-- What a handler asks for that takes the whole rest of the reply. -/
theorem rest_lengths {room : Option Nat} {rp : RpHdr} {k : Option Bytes → Io Int32} :
    LengthsAt room rp
        (sockread (rp.size.toUInt64 - sizeof RpHdr.codec).toUInt32.toInt32 >>= k) ↔
      12 ≤ rp.size.toNat ∧ rp.size.toNat < 2 ^ 31 + 12 ∧
        ∀ r, room = some r → rp.size.toNat ≤ 12 + r := by
  rw [lengthsAt_sockread, sub_hdr_toNat]
  have hlt := rp.size.toNat_lt
  by_cases h : 12 ≤ rp.size.toNat
  · rw [if_pos h]
    constructor
    · rintro ⟨h₁, -, h₂⟩
      refine ⟨h, by omega, fun r hr => ?_⟩
      have := h₂ r hr
      omega
    · rintro ⟨-, h₁, h₂⟩
      refine ⟨by omega, by omega, fun r hr => ?_⟩
      have := h₂ r hr
      omega
  · rw [if_neg h]
    constructor
    · rintro ⟨h₁, -, -⟩
      omega
    · rintro ⟨h₁, -, -⟩
      omega

/-! The handlers whose body has no fixed size, from the reply header on. -/

section
variable (dest buf : Bytes) (fill : Fill) (rp : RpHdr)

def readlinkOn : Io (Int32 × Bytes) :=
  if rp.size.toUInt64 > sizeof RpHdr.codec + UInt64.ofNat dest.length then Prog.halt .abort
  else do
    match ← reRead (rp.size.toUInt64 - sizeof RpHdr.codec) with
    | none => warn (-EBUSY) dest
    | some body =>
      Prog.release
      return (0, body ++ dest.drop body.length)

def readOn : Io (Int32 × Bytes) :=
  if rp.size.toUInt64 > UInt64.ofNat buf.length then Prog.halt .abort
  else if rp.size.toUInt64 ≠ sizeof RpHdr.codec + rp.rtvl.toInt64.toUInt64 then Prog.halt .abort
  else do
    match ← reRead rp.rtvl.toInt64.toUInt64 with
    | none => warn (-EBUSY) buf
    | some body =>
      Prog.release
      return (rp.rtvl, body ++ buf.drop body.length)

def readdirOn : Io (Int32 × List FillArg) :=
  if rp.size.toUInt64 < sizeof RpHdr.codec then Prog.halt .abort
  else do
    match ← reRead (rp.size.toUInt64 - sizeof RpHdr.codec) with
    | none => warn (-EBUSY) []
    | some repcont =>
      let dircnt := (rp.size.toUInt64 - sizeof RpHdr.codec) / sizeof Udirent.codec
      Prog.release
      return (0, fillLoop fill (dirents dircnt.toNat repcont) [])

end

theorem fuseReadlink_eq (m : Locals) (fn : Path) (dest : Bytes) :
    fuseReadlink m fn dest =
      (enter >>= fun ouid => converse (fuseReadlink.request m fn ouid) dest (readlinkOn dest)) := rfl

theorem fuseRead_eq (m : Locals) (fn : Path) (buf : Bytes) (pos : Int64) (fi : FileInfo) :
    fuseRead m fn buf pos fi = (enter >>= fun ouid =>
      converse (fuseRead.request m fn (UInt64.ofNat buf.length) pos fi ouid) buf (readOn buf)) := rfl

theorem fuseReaddir_eq (m : Locals) (dn : Path) (fill : Fill) (offset : Int64) (fi : FileInfo) :
    fuseReaddir m dn fill offset fi = (enter >>= fun ouid =>
      converse (fuseReaddir.request m dn offset fi ouid) [] (readdirOn fill)) := rfl

theorem readlinkOn_lengths (dest : Bytes) (rp : RpHdr) :
    LengthsAt (some dest.length) rp (onHeader dest (readlinkOn dest) rp) ↔
      rp.rtvl < 0 ∨ rp.size.toUInt64 > sizeof RpHdr.codec + UInt64.ofNat dest.length ∨
        12 ≤ rp.size.toNat ∧ rp.size.toNat < 2 ^ 31 + 12 := by
  by_cases hneg : rp.rtvl < 0
  · exact iff_of_true ((onHeader_negative hneg).lengthsAt _ _) (.inl hneg)
  · rw [onHeader_reply hneg, or_iff_right hneg, readlinkOn]
    by_cases hbig : rp.size.toUInt64 > sizeof RpHdr.codec + UInt64.ofNat dest.length
    · rw [if_pos hbig]
      exact iff_of_true (AsksNothing.lengthsAt (.inl rfl) _ _) (.inl hbig)
    · rw [if_neg hbig, or_iff_right hbig, reRead_rest, rest_lengths]
      refine ⟨fun ⟨h₁, h₂, _⟩ => ⟨h₁, h₂⟩, fun ⟨h₁, h₂⟩ => ⟨h₁, h₂, fun r hr => ?_⟩⟩
      -- the upper bound of the source, whose sum may wrap
      cases hr
      have hs : (sizeof RpHdr.codec).toNat = 12 := rfl
      rw [gt_iff_lt, UInt64.lt_iff_toNat_lt, UInt64.toNat_add, UInt32.toNat_toUInt64, hs,
        UInt64.toNat_ofNat', Nat.not_lt] at hbig
      omega

theorem readdirOn_lengths (fill : Fill) (rp : RpHdr) :
    LengthsAt none rp (onHeader [] (readdirOn fill) rp) ↔
      rp.rtvl < 0 ∨ rp.size.toNat < 2 ^ 31 + 12 := by
  have hlow : rp.size.toUInt64 < sizeof RpHdr.codec ↔ rp.size.toNat < 12 := by
    rw [UInt64.lt_iff_toNat_lt, UInt32.toNat_toUInt64]
    exact Iff.rfl
  by_cases hneg : rp.rtvl < 0
  · exact iff_of_true ((onHeader_negative hneg).lengthsAt _ _) (.inl hneg)
  · rw [onHeader_reply hneg, or_iff_right hneg, readdirOn]
    by_cases hsmall : rp.size.toUInt64 < sizeof RpHdr.codec
    · rw [if_pos hsmall]
      rw [hlow] at hsmall
      exact iff_of_true (AsksNothing.lengthsAt (.inl rfl) _ _) (by omega)
    · rw [if_neg hsmall, reRead_rest, rest_lengths]
      rw [hlow, Nat.not_lt] at hsmall
      exact ⟨fun h => h.2.1, fun h => ⟨hsmall, h, nofun⟩⟩

/-- A size that passes both checks of `fuse_read` is the header and `rtvl` bytes. -/
theorem size_of_checked {rp : RpHdr} (hneg : ¬rp.rtvl < 0)
    (hsize : ¬rp.size.toUInt64 ≠ sizeof RpHdr.codec + rp.rtvl.toInt64.toUInt64) :
    rp.size.toNat = 12 + rp.rtvl.toUInt32.toNat ∧ rp.rtvl.toUInt32.toNat < 2 ^ 31 ∧
      rp.rtvl.toInt64.toUInt64.toUInt32.toNat = rp.rtvl.toUInt32.toNat := by
  obtain ⟨hrt, hlt⟩ := toNat_toInt64 hneg
  refine ⟨?_, hlt, ?_⟩
  · rw [← UInt32.toNat_toUInt64, not_not.1 hsize, UInt64.toNat_add, hrt]
    simp [sizeof]
    omega
  · rw [UInt64.toNat_toUInt32, hrt]
    omega

/-- Both checks of `fuse_read` leave only lengths that fit. -/
theorem readOn_lengths (buf : Bytes) (rp : RpHdr) :
    LengthsAt (some buf.length) rp (onHeader buf (readOn buf) rp) := by
  by_cases hneg : rp.rtvl < 0
  · exact (onHeader_negative hneg).lengthsAt _ _
  · rw [onHeader_reply hneg, readOn]
    split
    · exact AsksNothing.lengthsAt (.inl rfl) _ _
    split
    · exact AsksNothing.lengthsAt (.inl rfl) _ _
    · next hbig hsize =>
      obtain ⟨hsz, hlt, hx⟩ := size_of_checked hneg hsize
      rw [reRead_rest, lengthsAt_sockread, hx]
      refine ⟨hlt, hsz.symm, fun r hr => ?_⟩
      cases hr
      rw [gt_iff_lt, UInt64.lt_iff_toNat_lt, UInt32.toNat_toUInt64, UInt64.toNat_ofNat',
        Nat.not_lt] at hbig
      omega

/-- A reply header in answer to a call that locks, as the handler goes on from it. -/
theorem entered_answered {β : Type} (req : UInt32 → Request) (old : β)
    (onReply : RpHdr → Io (Int32 × β)) (u : UInt32) {msg : Bytes}
    (h : (req (u + 1)).emission = some msg) (rp : RpHdr) :
    (Prod.fst <$> (enter >>= fun ouid => converse (req ouid) old onReply)).answered u
      (RpHdr.codec.enc rp) = some (onHeader old onReply rp) :=
  converse_answered h old onReply (u + 1) rp

theorem Call.lengthsHold_iff (c : Call) (hb : c.readsBody = true) (rp : RpHdr) :
    c.LengthsHold rp ↔ c.LengthOk rp := by
  cases c with
  | fuseGetattr fn st =>
    refine iff_of_true (fun m u q hq => ?_) trivial
    rw [answered_of_entered hq]
    exact structBody_lengths Ustat.codec (by decide) _
  | fuseStatfs fn fstat =>
    refine iff_of_true (fun m u q hq => ?_) trivial
    rw [answered_of_entered hq]
    exact structBody_lengths Ustatvfs.codec (by decide) _
  | fuseOpen fn fi =>
    refine iff_of_true (fun m u q hq => ?_) trivial
    rw [answered_of_checked hq]
    exact structBody_lengths RpOpen.codec (by decide) _
  | fuseOpendir dn fi =>
    refine iff_of_true (fun m u q hq => ?_) trivial
    rw [answered_of_checked hq]
    exact structBody_lengths RpOpen.codec (by decide) _
  | fuseCreat fn mode fi =>
    refine iff_of_true (fun m u q hq => ?_) trivial
    rw [answered_of_checked hq]
    exact structBody_lengths RpOpen.codec (by decide) _
  | fuseRead fn buf pos fi =>
    refine iff_of_true (fun m u q hq => ?_) trivial
    rw [Call.prog, fuseRead_eq] at hq
    rw [answered_of_entered hq]
    exact readOn_lengths buf rp
  | fuseReadlink fn dest =>
    refine Iff.trans ⟨fun h => ?_, fun h m u q hq => ?_⟩ (readlinkOn_lengths dest rp)
    · have he : ∀ (m : Locals) (u : UInt32), (fuseReadlink.request m fn u).emission =
          some (fuseReadlink.request m fn u).bytes := fun m u =>
        Request.emission_of_small (Call.Sendable.small (c := .fuseReadlink fn dest) rfl m u)
      exact h default 0 _ (entered_answered _ dest _ 0 (he default (0 + 1)) rp)
    · rw [answered_of_entered hq]
      exact h
  | fuseReaddir dn fill offset fi =>
    refine Iff.trans ⟨fun h => ?_, fun h m u q hq => ?_⟩ (readdirOn_lengths fill rp)
    · have he : ∀ (m : Locals) (u : UInt32), (fuseReaddir.request m dn offset fi u).emission =
          some (fuseReaddir.request m dn offset fi u).bytes := fun m u =>
        Request.emission_of_small
          (Call.Sendable.small (c := .fuseReaddir dn fill offset fi) rfl m u)
      exact h default 0 _ (entered_answered _ [] _ 0 (he default (0 + 1)) rp)
    · rw [answered_of_entered hq]
      exact h
  | _ => cases hb

/-! `as_write`. -/

/-- After its struct `as_write` asks for exactly the rest of the `remain` bytes, and
    for nothing where there can be no such rest. -/
def AsWriteHolds (remain : UInt64) : Prop :=
  ∀ wr u q, (asWrite remain).answered u (OpWrit.codec.enc wr) = some q →
    (∀ (n : Int32) (k : Option Bytes → Io (Option (OpWrit × Bytes))), q = (sockread n >>= k) →
      0 ≤ n ∧ 4128 + n.toInt = remain.toNat) ∧
    (remain.toNat < 4128 ∨ 2 ^ 31 + 4128 ≤ remain.toNat → q = .ret none)

theorem asWrite_answered (remain : UInt64) (wr : OpWrit) (u : UInt32) :
    (asWrite remain).answered u (OpWrit.codec.enc wr) =
      some (sockread (remain - sizeof OpWrit.codec).toUInt32.toInt32 >>= fun r =>
        match r with
        | none => .ret none
        | some buffer => .ret (some (wr, buffer))) := by
  have hdec : OpWrit.codec.dec ([] ++ OpWrit.codec.enc wr) = wr := by
    rw [List.nil_append, Codec.dec_enc_nil]
  rw [asWrite, receive_eq _ (by decide)]
  conv_rhs => rw [← hdec]
  rfl

theorem asWriteHolds_iff (remain : UInt64) :
    AsWriteHolds remain ↔ 4128 ≤ remain.toNat ∧ remain.toNat < 2 ^ 31 + 4128 := by
  have hs : (sizeof OpWrit.codec).toNat = 4128 := rfl
  have hx : (remain - sizeof OpWrit.codec).toUInt32.toNat =
      (2 ^ 64 - 4128 + remain.toNat) % 2 ^ 64 % 2 ^ 32 := by
    rw [UInt64.toNat_toUInt32, UInt64.toNat_sub, hs]
  have hlt := remain.toNat_lt
  constructor
  · intro h
    obtain ⟨h0, hsize⟩ := (h default 0 _ (asWrite_answered remain default 0)).1 _ _ rfl
    rcases toInt32_cases (remain - sizeof OpWrit.codec).toUInt32 with ⟨h31, -, hint⟩ | ⟨-, hneg⟩
    · rw [hint] at hsize
      omega
    · exact absurd h0 hneg
  · rintro ⟨hlow, hhigh⟩ wr u q hq
    rw [asWrite_answered, Option.some.injEq] at hq
    refine ⟨fun n k hn => ?_, fun himp => by omega⟩
    rcases toInt32_cases (remain - sizeof OpWrit.codec).toUInt32 with ⟨-, h0, hint⟩ | ⟨hge, -⟩
    · rw [sockread_bind_inj (hq.trans hn) h0, hint]
      exact ⟨h0, by omega⟩
    · omega

/-- **Lengths from the peer.** After any reply header the handlers that read a body
    ask for exactly that body, or for nothing where there is none, if and only if
    `LengthOk`; and `as_write` does so for its payload if and only if `remain` counts
    the struct and fewer than 2^31 bytes more. -/
theorem lengths_from_peer (c : Call) (hb : c.readsBody = true) (rp : RpHdr) (remain : UInt64) :
    (c.LengthsHold rp ↔ c.LengthOk rp) ∧
      (AsWriteHolds remain ↔ 4128 ≤ remain.toNat ∧ remain.toNat < 2 ^ 31 + 4128) :=
  ⟨c.lengthsHold_iff hb rp, asWriteHolds_iff remain⟩

theorem lengths_from_peer_readdir :
    (Call.fuseReaddir pathA (fun _ _ => false) 0 ⟨0, false, false, 7⟩).LengthsHold ⟨12, 1, 0⟩ ∧
      AsWriteHolds 4131 := by
  have h := lengths_from_peer (.fuseReaddir pathA (fun _ _ => false) 0 ⟨0, false, false, 7⟩) rfl
    ⟨12, 1, 0⟩ 4131
  exact ⟨h.1.2 (.inr (by decide)), h.2.2 (by decide)⟩

/-- `fuse_readlink` goes on with a header whose size is below the header's own. -/
theorem lengths_from_peer_fails :
    ¬(Call.fuseReadlink pathA (List.replicate 64 0)).LengthsHold ⟨5, 1, 0⟩ := by
  rw [Call.lengthsHold_iff _ rfl]
  rintro (h | h | ⟨h, -⟩)
  · exact absurd h (by decide)
  · exact absurd h (by decide)
  · exact absurd h (by decide)

end Zhwkrfsp
