import Zhwkrfsp.Lengths

/- Regular reads. The peer answers a read request with the bytes of the file that
   its `offset` and `count` select (`answerRead`). `fuse_read` compares the size of
   the whole reply, header included, with the size of its buffer, and so aborts on
   every reply that fills the buffer or leaves fewer than 12 bytes of it free; all
   others it delivers (`delivers_iff`), and reads that it delivers one after another
   give the file back. -/
namespace Zhwkrfsp
open Wire Chan

/-- The bytes of a file that a read request asks for. -/
def selected (file : Bytes) (rd : OpRead) : Bytes :=
  (file.drop rd.offset.toNat).take rd.count.toNat

/-- The reply the protocol prescribes for a regular read. -/
def answerRead (file : Bytes) : Request → Bytes
  | .reading head rd =>
    RpHdr.codec.enc ⟨UInt32.ofNat (12 + (selected file rd).length), head.ouid,
      Int32.ofNat (selected file rd).length⟩ ++ selected file rd
  | _ => []

/-- `len` bytes of a file from `pos` on, fewer at its end. -/
def slice (file : Bytes) (pos len : Nat) : Bytes := (file.drop pos).take len

/-- The result of a read that delivers `bytes` into `buf`, all of the reply being taken. -/
def Delivered (buf bytes : Bytes) (r : Int32 × Bytes) (rest : Bytes) : Prop :=
  r.1.toInt = bytes.length ∧ r.2 = bytes ++ buf.drop bytes.length ∧ rest = []

/-- `fuse_read`, answered as the protocol says, returns the number of bytes there
    are, with exactly these at the start of its buffer. -/
def Delivers (m : Locals) (fn : Path) (buf : Bytes) (pos : Int64) (fi : FileInfo) (file : Bytes) :
    Prop :=
  ∀ ouid, (fuseRead m fn buf pos fi).Returns
    (Delivered buf (slice file pos.toUInt64.toNat buf.length))
    (answerRead file (fuseRead.request m fn (UInt64.ofNat buf.length) pos fi ouid))

/-- The reads of a file in consecutive chunks: position and buffer of each. -/
def chunkReads (file : Bytes) : Nat → List Bytes → List (Nat × Bytes)
  | _, [] => []
  | pos, buf :: bufs =>
    (pos, buf) :: chunkReads file (pos + (slice file pos buf.length).length) bufs

/-! One read. -/

theorem answerRead_fuseRead (m : Locals) (fn : Path) (buf : Bytes) (pos : Int64) (fi : FileInfo)
    (ouid : UInt32) (file : Bytes) (hlt : buf.length < 2 ^ 64) :
    answerRead file (fuseRead.request m fn (UInt64.ofNat buf.length) pos fi ouid) =
      RpHdr.codec.enc
        ⟨UInt32.ofNat (12 + (slice file pos.toUInt64.toNat buf.length).length), ouid,
          Int32.ofNat (slice file pos.toUInt64.toNat buf.length).length⟩ ++
        slice file pos.toUInt64.toNat buf.length := by
  have hsel : ∀ rd : OpRead, rd.offset = pos.toUInt64 → rd.count = UInt64.ofNat buf.length →
      selected file rd = slice file pos.toUInt64.toNat buf.length := by
    intro rd hoff hcount
    rw [selected, hoff, hcount, UInt64.toNat_ofNat_of_lt' hlt, slice]
  rw [fuseRead.request, answerRead, hsel _ rfl rfl]

/-- A small length as the int `rtvl`. -/
theorem rtvl_ofNat {n : Nat} (h : n < 2 ^ 31) :
    (Int32.ofNat n).toInt = n ∧ ¬Int32.ofNat n < 0 ∧ (Int32.ofNat n).toUInt32.toNat = n := by
  have hint : (Int32.ofNat n).toInt = n := Int32.toInt_ofNat_of_lt h
  refine ⟨hint, ?_, ?_⟩
  · rw [Int32.lt_iff_toInt_lt, hint]
    have h0 : (0 : Int32).toInt = 0 := rfl
    omega
  · have hu : (Int32.ofNat n).toUInt32 = UInt32.ofNat n := rfl
    rw [hu, UInt32.toNat_ofNat']
    omega

section
variable {β : Type} {R : Int32 × β → Bytes → Prop} {inp : Bytes}

theorem returns_enter {p : UInt32 → Io (Int32 × β)} :
    (enter >>= p).Returns R inp ↔ ∀ ouid, (p ouid).Returns R inp :=
  ⟨fun h => h 0, fun h _ => h⟩

/-- A conversation on a reply that starts with the header `rp`. -/
theorem returns_converse {req : Request} {msg : Bytes} (h : req.emission = some msg) (old : β)
    (onReply : RpHdr → Io (Int32 × β)) (rp : RpHdr) (hpos : ¬rp.rtvl < 0) :
    (converse req old onReply).Returns R (RpHdr.codec.enc rp ++ inp) ↔
      (onReply rp).Returns R inp := by
  rw [converse_emission h]
  show 12 ≤ (RpHdr.codec.enc rp ++ inp).length ∧
    (replied old onReply (some ([] ++ (RpHdr.codec.enc rp ++ inp).take RpHdr.codec.size))).Returns R
      ((RpHdr.codec.enc rp ++ inp).drop RpHdr.codec.size) ↔ _
  rw [Codec.take_enc, Codec.drop_enc, List.nil_append, replied, Option.map_some,
    Codec.dec_enc_nil]
  simp only [if_neg hpos, List.length_append, Codec.enc_length]
  exact and_iff_right (by simp)

/-- The same for a whole handler, whatever operation id it takes. -/
theorem returns_entered {req : UInt32 → Request} {msg : UInt32 → Bytes}
    (h : ∀ ouid, (req ouid).emission = some (msg ouid)) (old : β)
    (onReply : RpHdr → Io (Int32 × β)) (rp : RpHdr) (hpos : ¬rp.rtvl < 0) :
    (enter >>= fun ouid => converse (req ouid) old onReply).Returns R
      (RpHdr.codec.enc rp ++ inp) ↔ (onReply rp).Returns R inp := by
  rw [returns_enter]
  constructor
  · intro hall
    exact (returns_converse (h 0) old onReply rp hpos).1 (hall 0)
  · intro hr ouid
    exact (returns_converse (h ouid) old onReply rp hpos).2 hr

/-- Receiving the rest of a reply that is there. -/
theorem returns_reRead {remain : UInt64} {n : Nat} (hn : remain.toUInt32.toNat = n)
    (hlt : n < 2 ^ 31) (hlen : inp.length = n) (f : Option Bytes → Io (Int32 × β)) :
    (reRead remain >>= f).Returns R inp ↔ (f (some inp)).Returns R [] := by
  rw [reRead, sockread_toInt32, hn, if_pos hlt]
  show n ≤ inp.length ∧ (f (some ([] ++ inp.take n))).Returns R (inp.drop n) ↔ _
  rw [List.take_of_length_le (by omega), List.drop_of_length_le (by omega), List.nil_append]
  exact and_iff_right (by omega)

end

/-- `fuse_read` on a reply of a header and `bytes`. -/
theorem readOn_returns (buf bytes : Bytes) (ouid : UInt32) (hlt : buf.length < 2 ^ 31 - 12)
    (hle : bytes.length ≤ buf.length) :
    (readOn buf ⟨UInt32.ofNat (12 + bytes.length), ouid, Int32.ofNat bytes.length⟩).Returns
      (Delivered buf bytes) bytes ↔ bytes.length + 12 ≤ buf.length := by
  obtain ⟨hint, hpos, hnat⟩ := rtvl_ofNat (n := bytes.length) (by omega)
  have hsize : (UInt32.ofNat (12 + bytes.length)).toUInt64.toNat = 12 + bytes.length := by
    rw [UInt32.toNat_toUInt64, UInt32.toNat_ofNat']
    omega
  have h64 : buf.length < 2 ^ 64 := by omega
  have hbuf : (UInt64.ofNat buf.length).toNat = buf.length := UInt64.toNat_ofNat_of_lt' h64
  have hrt : (Int32.ofNat bytes.length).toInt64.toUInt64.toNat = bytes.length := by
    rw [(toNat_toInt64 hpos).1, hnat]
  have hsum : (UInt32.ofNat (12 + bytes.length)).toUInt64 =
      sizeof RpHdr.codec + (Int32.ofNat bytes.length).toInt64.toUInt64 := by
    rw [← UInt64.toNat_inj, UInt64.toNat_add, hrt, hsize]
    have hs : (sizeof RpHdr.codec).toNat = 12 := rfl
    omega
  have hbig : (UInt32.ofNat (12 + bytes.length)).toUInt64 > UInt64.ofNat buf.length ↔
      buf.length < bytes.length + 12 := by
    rw [gt_iff_lt, UInt64.lt_iff_toNat_lt, hsize, hbuf]
    omega
  rw [readOn]
  by_cases hover : buf.length < bytes.length + 12
  · -- the whole reply is measured against the buffer, and `fuse_read` aborts
    rw [if_pos (hbig.2 hover)]
    exact iff_of_false id (by omega)
  · rw [if_neg (fun h => hover (hbig.1 h)), if_neg (not_not.2 hsum),
      returns_reRead (n := bytes.length) _ (by omega) rfl]
    · exact iff_of_true ⟨hint, rfl, rfl⟩ (by omega)
    · rw [UInt64.toNat_toUInt32, hrt]
      omega

theorem entered_readOn_returns {req : UInt32 → Request} {msg : UInt32 → Bytes}
    (h : ∀ ouid, (req ouid).emission = some (msg ouid)) (buf bytes : Bytes) (ouid : UInt32)
    (hlt : buf.length < 2 ^ 31 - 12) (hle : bytes.length ≤ buf.length) :
    (enter >>= fun u => converse (req u) buf (readOn buf)).Returns (Delivered buf bytes)
      (RpHdr.codec.enc ⟨UInt32.ofNat (12 + bytes.length), ouid, Int32.ofNat bytes.length⟩ ++
        bytes) ↔ bytes.length + 12 ≤ buf.length := by
  have hone := readOn_returns buf bytes ouid hlt hle
  have hpos : ¬Int32.ofNat bytes.length < 0 := (rtvl_ofNat (by omega)).2.1
  revert hone hpos
  generalize Int32.ofNat bytes.length = rtvl
  generalize UInt32.ofNat (12 + bytes.length) = size
  intro hone hpos
  exact (returns_entered h buf (readOn buf) ⟨size, ouid, rtvl⟩ hpos).trans hone

/-- A regular read is delivered exactly when its bytes and the 12 of the header
    together do not exceed the buffer. -/
theorem delivers_iff (m : Locals) (fn : Path) (buf : Bytes) (pos : Int64) (fi : FileInfo)
    (file : Bytes) (hlt : buf.length < 2 ^ 31 - 12) :
    Delivers m fn buf pos fi file ↔
      (slice file pos.toUInt64.toNat buf.length).length + 12 ≤ buf.length := by
  have hle : (slice file pos.toUInt64.toNat buf.length).length ≤ buf.length := by
    rw [slice, List.length_take]
    exact Nat.min_le_left _ _
  have hreq : ∀ ouid, (fuseRead.request m fn (UInt64.ofNat buf.length) pos fi ouid).emission =
      some (fuseRead.request m fn (UInt64.ofNat buf.length) pos fi ouid).bytes := fun ouid =>
    Request.emission_of_small (Call.Sendable.small (c := .fuseRead fn buf pos fi) rfl m ouid)
  have h64 : buf.length < 2 ^ 64 := by omega
  have hone : ∀ ouid, (fuseRead m fn buf pos fi).Returns
      (Delivered buf (slice file pos.toUInt64.toNat buf.length))
      (answerRead file (fuseRead.request m fn (UInt64.ofNat buf.length) pos fi ouid)) ↔
      (slice file pos.toUInt64.toNat buf.length).length + 12 ≤ buf.length := by
    intro ouid
    rw [answerRead_fuseRead _ _ _ _ _ _ _ h64, fuseRead_eq]
    exact entered_readOn_returns hreq buf _ ouid hlt hle
  exact ⟨fun h => (hone 0).1 (h 0), fun h ouid => (hone ouid).2 h⟩

/-! Consecutive reads. -/

theorem slice_append (file : Bytes) (pos len rest : Nat) :
    slice file pos len ++ slice file (pos + (slice file pos len).length) rest =
      slice file pos (len + rest) := by
  have hlen : (slice file pos len).length = min len (file.drop pos).length := by
    rw [slice, List.length_take]
  rw [slice, slice, slice, ← slice, hlen, ← List.drop_drop]
  by_cases h : len ≤ (file.drop pos).length
  · rw [Nat.min_eq_left h, slice, ← List.take_add]
  · -- the file ends inside the first slice
    rw [Nat.min_eq_right (by omega), List.drop_length, List.take_nil, List.append_nil, slice,
      List.take_of_length_le (by omega), List.take_of_length_le (by omega)]

theorem chunkReads_flatMap (file : Bytes) (bufs : List Bytes) :
    ∀ pos, (chunkReads file pos bufs).flatMap (fun r => slice file r.1 r.2.length) =
      slice file pos (bufs.map List.length).sum := by
  induction bufs with
  | nil =>
    intro pos
    rw [chunkReads, List.flatMap_nil, List.map_nil, List.sum_nil, slice, List.take_zero]
  | cons buf bufs ih =>
    intro pos
    rw [chunkReads, List.flatMap_cons, ih, List.map_cons, List.sum_cons, slice_append]

/-- Every chunk starts inside the file or at its end. -/
theorem chunkReads_pos {file : Bytes} {bufs : List Bytes} :
    ∀ {pos : Nat}, pos ≤ file.length → ∀ r ∈ chunkReads file pos bufs,
      r.1 ≤ file.length ∧ r.2 ∈ bufs := by
  induction bufs with
  | nil =>
    intro pos _ r hr
    cases hr
  | cons buf bufs ih =>
    intro pos hpos r hr
    have hnext : pos + (slice file pos buf.length).length ≤ file.length := by
      rw [slice, List.length_take, List.length_drop]
      omega
    rcases List.mem_cons.1 hr with rfl | hr
    · exact ⟨hpos, List.mem_cons_self⟩
    · obtain ⟨h₁, h₂⟩ := ih hnext r hr
      exact ⟨h₁, List.mem_cons_of_mem _ h₂⟩

/-- **Regular reads.** A read into a buffer of any size below 2^31 - 12 delivers the
    bytes there are from `pos` on exactly when they and the 12 bytes of the reply
    header do not exceed the buffer; and consecutive reads that all meet this
    deliver their chunks, which put together are the file. -/
theorem regular_read (m : Locals) (fn : Path) (fi : FileInfo) (file buf : Bytes) (pos : Int64)
    (hlt : buf.length < 2 ^ 31 - 12) :
    (Delivers m fn buf pos fi file ↔
      (slice file pos.toUInt64.toNat buf.length).length + 12 ≤ buf.length) ∧
    (∀ bufs start, file.length < 2 ^ 63 → start ≤ file.length →
      (∀ b ∈ bufs, b.length < 2 ^ 31 - 12) →
      (∀ r ∈ chunkReads file start bufs, (slice file r.1 r.2.length).length + 12 ≤ r.2.length) →
      (∀ r ∈ chunkReads file start bufs, Delivers m fn r.2 (Int64.ofNat r.1) fi file) ∧
        (chunkReads file start bufs).flatMap (fun r => slice file r.1 r.2.length) =
          slice file start (bufs.map List.length).sum) := by
  refine ⟨delivers_iff m fn buf pos fi file hlt, fun bufs start hfile hstart hbufs hfit => ?_⟩
  refine ⟨fun r hr => ?_, chunkReads_flatMap file bufs start⟩
  obtain ⟨hpos, hmem⟩ := chunkReads_pos hstart r hr
  have hu : (Int64.ofNat r.1).toUInt64.toNat = r.1 := by
    have e : (Int64.ofNat r.1).toUInt64 = UInt64.ofNat r.1 := rfl
    have h64 : r.1 < 2 ^ 64 := by omega
    rw [e, UInt64.toNat_ofNat_of_lt' h64]
  rw [delivers_iff m fn r.2 _ fi file (hbufs _ hmem), hu]
  exact hfit r hr

theorem regular_read_short :
    Delivers default pathA (List.replicate 16 0) 0 ⟨0, false, false, 7⟩ [1, 2, 3] := by
  have hlt : (List.replicate 16 (0 : UInt8)).length < 2 ^ 31 - 12 := by
    rw [List.length_replicate]
    omega
  have hshort : (slice [1, 2, 3] (0 : Int64).toUInt64.toNat
      (List.replicate 16 (0 : UInt8)).length).length + 12 ≤
      (List.replicate 16 (0 : UInt8)).length := by decide
  obtain ⟨hone, _⟩ := regular_read default pathA ⟨0, false, false, 7⟩ [1, 2, 3]
    (List.replicate 16 0) 0 hlt
  rw [hone]
  exact hshort

/-- A file of sixteen bytes, of which sixteen are read. -/
theorem not_delivers_sixteen (m : Locals) (fn : Path) (fi : FileInfo) :
    ¬Delivers m fn (List.replicate 16 0) 0 fi (List.replicate 16 1) := by
  have hfull : ¬(slice (List.replicate 16 1) (0 : Int64).toUInt64.toNat 16).length + 12 ≤ 16 := by
    decide
  exact fun h => hfull ((delivers_iff m fn (List.replicate 16 0) 0 fi _ (by decide)).1 h)

theorem regular_read_fails :
    ¬Delivers default pathA (List.replicate 16 0) 0 ⟨0, false, false, 7⟩ (List.replicate 16 1) :=
  not_delivers_sixteen default pathA ⟨0, false, false, 7⟩

end Zhwkrfsp
