import Zhwkrfsp.Reading

/- The two read replies whose body has no length of its own. `fuse_readlink` takes
   the body into the caller's buffer and leaves the byte after it as it was, so the
   buffer holds the link target as a C string exactly when that byte is NUL already.
   `fuse_readdir` takes the body as whole `struct Udirent` records (`dirents_flatten`)
   and offers them to `fill` in order (`fillLoop_offered`); bytes after the last whole
   record are received and dropped. `sockread` takes the length as an `int`, so a body
   of 2^31 bytes or more is never received. -/
namespace Zhwkrfsp
open Wire Chan

/-- A reply that reports success and announces its body. -/
def successReply (ouid : UInt32) (rtvl : Int32) (body : Bytes) : Bytes :=
  RpHdr.codec.enc ⟨UInt32.ofNat (12 + body.length), ouid, rtvl⟩ ++ body

/-- `rp.size - sizeof(struct RpHdr)` for a body of `n` bytes. -/
theorem size_sub_hdr {n : Nat} (h : 12 + n < 2 ^ 32) :
    (UInt32.ofNat (12 + n)).toNat = 12 + n ∧
      ((UInt32.ofNat (12 + n)).toUInt64 - sizeof RpHdr.codec).toNat = n ∧
      ((UInt32.ofNat (12 + n)).toUInt64 - sizeof RpHdr.codec).toUInt32.toNat = n := by
  have hs : (sizeof RpHdr.codec).toNat = 12 := rfl
  have hsize : (UInt32.ofNat (12 + n)).toNat = 12 + n := UInt32.toNat_ofNat_of_lt' h
  refine ⟨hsize, ?_, ?_⟩
  · rw [UInt64.toNat_sub, UInt32.toNat_toUInt64, hs, hsize]
    omega
  · rw [sub_hdr_toNat, hsize, if_pos (by omega)]
    omega

/-- A handler that locks, on such a reply. -/
theorem returns_success {β : Type} {R : Int32 × β → Bytes → Prop} {req : UInt32 → Request}
    {msg : UInt32 → Bytes} (h : ∀ ouid, (req ouid).emission = some (msg ouid)) (old : β)
    (onReply : RpHdr → Io (Int32 × β)) (ouid : UInt32) {rtvl : Int32} (hr : ¬rtvl < 0)
    (body : Bytes) :
    (enter >>= fun u => converse (req u) old onReply).Returns R (successReply ouid rtvl body) ↔
      (onReply ⟨UInt32.ofNat (12 + body.length), ouid, rtvl⟩).Returns R body := by
  rw [successReply]
  generalize UInt32.ofNat (12 + body.length) = size
  exact returns_entered h old onReply ⟨size, ouid, rtvl⟩ hr

/-! Link targets. -/

/-- `fuse_readlink` returned 0, and the C string in the buffer, its NUL included, is
    the target. -/
def LinkRead (target : Bytes) (r : Int32 × Bytes) (rest : Bytes) : Prop :=
  r.1 = 0 ∧ 0 ∈ r.2 ∧ cstr r.2 = target ∧ rest = []

/-- What follows a string in a block decides whether the block holds that string. -/
theorem cstr_append_iff {s : Bytes} (h : (0 : UInt8) ∉ s) (tail : Bytes) :
    (0 ∈ s ++ tail ∧ cstr (s ++ tail) = s) ↔ tail.head? = some 0 := by
  have hs : ∀ b ∈ s, (b != 0) = true := by
    intro b hb
    rw [bne_iff_ne]
    exact fun e => h (e ▸ hb)
  have hcstr : cstr (s ++ tail) = s ++ cstr tail := List.takeWhile_append_of_pos hs
  rw [hcstr, List.append_right_eq_self, List.mem_append, or_iff_right h]
  cases tail with
  | nil => simp
  | cons b tail =>
    by_cases hb : b = 0
    · simp [hb, cstr]
    · simp [hb, cstr]

/-- `fuse_readlink` on a reply whose body fits the buffer. -/
theorem readlinkOn_returns {R : Int32 × Bytes → Bytes → Prop} (dest target : Bytes) (ouid : UInt32)
    (rtvl : Int32) (hlt : target.length < 2 ^ 31) (hle : target.length ≤ dest.length)
    (hd : dest.length < 2 ^ 63) :
    (readlinkOn dest ⟨UInt32.ofNat (12 + target.length), ouid, rtvl⟩).Returns R target ↔
      R (0, target ++ dest.drop target.length) [] := by
  obtain ⟨hsize, -, h32⟩ := size_sub_hdr (n := target.length) (by omega)
  have hfits : ¬(UInt32.ofNat (12 + target.length)).toUInt64 >
      sizeof RpHdr.codec + UInt64.ofNat dest.length := by
    have hs : (sizeof RpHdr.codec).toNat = 12 := rfl
    rw [gt_iff_lt, UInt64.lt_iff_toNat_lt, UInt32.toNat_toUInt64, hsize, UInt64.toNat_add, hs,
      UInt64.toNat_ofNat']
    omega
  rw [readlinkOn, if_neg hfits, returns_reRead h32 hlt rfl]
  exact Iff.rfl

/-- **Link targets.** A successful reply with a target shorter than the buffer leaves
    the target in the buffer exactly when the byte at its end was NUL before. -/
theorem readlink_target (m : Locals) (fn : Path) (dest target : Bytes) (ouid : UInt32)
    (rtvl : Int32) (hd : dest.length ≤ 2 ^ 31 - 13) (hlt : target.length < dest.length)
    (hnul : (0 : UInt8) ∉ target) (hr : ¬rtvl < 0) :
    (fuseReadlink m fn dest).Returns (LinkRead target) (successReply ouid rtvl target) ↔
      dest[target.length]? = some 0 := by
  have hreq : ∀ u, (fuseReadlink.request m fn u).emission =
      some (fuseReadlink.request m fn u).bytes := fun u =>
    Request.emission_of_small (Call.Sendable.small (c := .fuseReadlink fn dest) rfl m u)
  rw [fuseReadlink_eq, returns_success hreq dest (readlinkOn dest) ouid hr target,
    readlinkOn_returns dest target ouid rtvl (by omega) (by omega) (by omega)]
  calc LinkRead target (0, target ++ dest.drop target.length) []
      ↔ 0 ∈ target ++ dest.drop target.length ∧
          cstr (target ++ dest.drop target.length) = target :=
        ⟨fun h => ⟨h.2.1, h.2.2.1⟩, fun h => ⟨rfl, h.1, h.2, rfl⟩⟩
    _ ↔ (dest.drop target.length).head? = some 0 := cstr_append_iff hnul _
    _ ↔ dest[target.length]? = some 0 := by rw [List.head?_drop]

theorem readlink_target_zeroed :
    (fuseReadlink default pathA [0, 0, 0, 0]).Returns (LinkRead [0x62, 0x63])
      (successReply 1 0 [0x62, 0x63]) := by
  have hd : [(0 : UInt8), 0, 0, 0].length ≤ 2 ^ 31 - 13 := by simp
  have hr : ¬(0 : Int32) < 0 := by decide
  rw [readlink_target default pathA _ _ 1 0 hd (by decide) (by decide) hr]
  rfl

/-- A buffer in which another target stood. -/
theorem readlink_target_fails :
    ¬(fuseReadlink default pathA [0x78, 0x79, 0x7a, 0]).Returns (LinkRead [0x62, 0x63])
      (successReply 1 0 [0x62, 0x63]) := by
  have hreq : ∀ u, (fuseReadlink.request default pathA u).emission =
      some (fuseReadlink.request default pathA u).bytes := fun u =>
    Request.emission_of_small
      (Call.Sendable.small (c := .fuseReadlink pathA [0x78, 0x79, 0x7a, 0]) rfl default u)
  have hr : ¬(0 : Int32) < 0 := by decide
  rw [fuseReadlink_eq, returns_success hreq _ _ _ hr,
    readlinkOn_returns _ _ _ _ (by decide) (by decide) (by decide)]
  rintro ⟨-, -, hcstr, -⟩
  exact absurd hcstr (by decide)

/-! Directories. -/

/-- The arguments `fill` is to be called with for a directory entry. -/
def Dirent.fillArg (dir : Dirent) : FillArg := ⟨dir.d_name, dir.d_ino, dir.d_type.toUInt32 <<< 12⟩

/-- The records of the entries as `unify_dirent` writes them, each over its own padding. -/
def encodeDirents (entries : List (CArr 5 × Dirent)) : Bytes :=
  entries.flatMap fun e => Udirent.codec.enc (unifyDirent e.1 e.2)

/-- `calls`, made after the calls `before`, take `args` in order up to the first one for
    which `fill` returns non-zero, or to the end. -/
structure Offered (fill : Fill) (before args calls : List FillArg) : Prop where
  inOrder : calls <+: args
  goesOn : ∀ pre a rest, calls = pre ++ a :: rest → rest ≠ [] → fill (before ++ pre) a = false
  stops : calls = args ∨ ∃ pre a, calls = pre ++ [a] ∧ fill (before ++ pre) a = true

/-- `fuse_readdir` returned 0, has offered the entries to `fill`, and has taken the
    whole reply. -/
def DirRead (fill : Fill) (entries : List (CArr 5 × Dirent)) (r : Int32 × List FillArg)
    (rest : Bytes) : Prop :=
  r.1 = 0 ∧ Offered fill [] (entries.map fun e => e.2.fillArg) r.2 ∧ rest = []

theorem encodeDirents_length (entries : List (CArr 5 × Dirent)) :
    (encodeDirents entries).length = 280 * entries.length := by
  induction entries with
  | nil => rfl
  | cons e entries ih =>
    rw [encodeDirents, List.flatMap_cons, ← encodeDirents, List.length_append, ih, Codec.enc_length,
      Udirent.size_codec, List.length_cons]
    omega

theorem dirents_succ (n : Nat) (repcont : Bytes) : dirents (n + 1) repcont =
    Udirent.codec.dec repcont :: dirents n (repcont.drop Udirent.codec.size) := by
  unfold dirents
  rw [List.range_succ_eq_map, List.map_cons, List.map_map, Nat.zero_mul, List.drop_zero]
  refine congrArg _ (List.map_congr_left ?_)
  intro i _
  have hi : i.succ * Udirent.codec.size = Udirent.codec.size + i * Udirent.codec.size := by
    rw [Nat.succ_mul, Nat.add_comm]
  rw [Function.comp_apply, List.drop_drop, hi]

/-- The whole records at the start of a reply are the entries it was made from. -/
theorem dirents_encode (entries : List (CArr 5 × Dirent)) (extra : Bytes) :
    dirents entries.length (encodeDirents entries ++ extra) =
      entries.map fun e => unifyDirent e.1 e.2 := by
  induction entries with
  | nil => rfl
  | cons e entries ih =>
    rw [encodeDirents, List.flatMap_cons, ← encodeDirents, List.append_assoc, List.length_cons,
      dirents_succ, Codec.dec_enc, Codec.drop_enc, ih, List.map_cons]

theorem Offered.nil (fill : Fill) (before : List FillArg) : Offered fill before [] [] where
  inOrder := List.nil_prefix
  goesOn pre a rest h := by simp at h
  stops := .inl rfl

theorem Offered.last {fill : Fill} {before : List FillArg} {a : FillArg} (args : List FillArg)
    (h : fill before a = true) : Offered fill before (a :: args) [a] where
  inOrder := ⟨args, rfl⟩
  goesOn pre b rest he hne := by
    -- a call with another one behind it is not the only one
    cases pre with
    | nil => exact absurd (List.cons.inj he).2.symm hne
    | cons c pre => simp at he
  stops := .inr ⟨[], a, rfl, by rwa [List.append_nil]⟩

theorem Offered.cons {fill : Fill} {before args calls : List FillArg} {a : FillArg}
    (h : fill before a = false) (ho : Offered fill (before ++ [a]) args calls) :
    Offered fill before (a :: args) (a :: calls) where
  inOrder := (List.prefix_cons_inj a).2 ho.inOrder
  goesOn pre b rest he hne := by
    cases pre with
    | nil =>
      obtain ⟨rfl, rfl⟩ := List.cons.inj he
      rwa [List.append_nil]
    | cons c pre =>
      obtain ⟨rfl, rfl⟩ := List.cons.inj he
      have hb := ho.goesOn pre b rest rfl hne
      rwa [List.append_assoc, List.singleton_append] at hb
  stops := by
    rcases ho.stops with rfl | ⟨pre, b, rfl, hb⟩
    · exact .inl rfl
    · rw [List.append_assoc, List.singleton_append] at hb
      exact .inr ⟨a :: pre, b, rfl, hb⟩

/-- The loop of `fuse_readdir`, started after the calls `before`. -/
theorem fillLoop_offered (fill : Fill) (entries : List (CArr 5 × Dirent)) :
    ∀ before, ∃ calls,
      fillLoop fill (entries.map fun e => unifyDirent e.1 e.2) before = before ++ calls ∧
        Offered fill before (entries.map fun e => e.2.fillArg) calls := by
  induction entries with
  | nil =>
    intro before
    exact ⟨[], (List.append_nil before).symm, .nil fill before⟩
  | cons e entries ih =>
    intro before
    rw [List.map_cons, List.map_cons, fillLoop]
    show ∃ calls, (if fill before e.2.fillArg then before ++ [e.2.fillArg] else
      fillLoop fill _ (before ++ [e.2.fillArg])) = before ++ calls ∧ _
    cases hfill : fill before e.2.fillArg with
    | true => exact ⟨[e.2.fillArg], if_pos rfl, .last _ hfill⟩
    | false =>
      obtain ⟨calls, hloop, ho⟩ := ih (before ++ [e.2.fillArg])
      refine ⟨e.2.fillArg :: calls, ?_, .cons hfill ho⟩
      rw [if_neg (by decide), hloop, List.append_assoc, List.singleton_append]

/-- `fuse_readdir` on a reply of whole records and a rest shorter than a record. -/
theorem readdirOn_returns (fill : Fill) (entries : List (CArr 5 × Dirent)) (extra : Bytes)
    (ouid : UInt32) (rtvl : Int32) (hextra : extra.length < 280)
    (hlt : 12 + (encodeDirents entries ++ extra).length < 2 ^ 32) :
    (readdirOn fill ⟨UInt32.ofNat (12 + (encodeDirents entries ++ extra).length), ouid,
        rtvl⟩).Returns (DirRead fill entries) (encodeDirents entries ++ extra) ↔
      (encodeDirents entries ++ extra).length < 2 ^ 31 := by
  have hdiv : (encodeDirents entries ++ extra).length / 280 = entries.length := by
    rw [List.length_append, encodeDirents_length]
    omega
  have hrecords := dirents_encode entries extra
  revert hlt hdiv hrecords
  generalize encodeDirents entries ++ extra = body
  intro hlt hdiv hrecords
  obtain ⟨hsize, h64, h32⟩ := size_sub_hdr hlt
  have hlow : ¬(UInt32.ofNat (12 + body.length)).toUInt64 < sizeof RpHdr.codec := by
    have hs : (sizeof RpHdr.codec).toNat = 12 := rfl
    rw [UInt64.lt_iff_toNat_lt, UInt32.toNat_toUInt64, hsize, hs]
    omega
  have hcnt : (((UInt32.ofNat (12 + body.length)).toUInt64 - sizeof RpHdr.codec) /
      sizeof Udirent.codec).toNat = entries.length := by
    have hs : (sizeof Udirent.codec).toNat = 280 := rfl
    rw [UInt64.toNat_div, h64, hs, hdiv]
  rw [readdirOn, if_neg hlow]
  by_cases h31 : body.length < 2 ^ 31
  · rw [returns_reRead h32 h31 rfl]
    refine iff_of_true ?_ h31
    obtain ⟨calls, hloop, ho⟩ := fillLoop_offered fill entries []
    show DirRead fill entries (0, fillLoop fill (dirents _ body) []) []
    rw [hcnt, hrecords, hloop]
    exact ⟨rfl, ho, rfl⟩
  · -- the length is a negative `int`
    rw [reRead, sockread_toInt32, h32, if_neg h31]
    exact iff_of_false id h31

theorem fuseReaddir_returns (m : Locals) (dn : Path) (fill : Fill) (offset : Int64) (fi : FileInfo)
    (entries : List (CArr 5 × Dirent)) (extra : Bytes) (ouid : UInt32) (rtvl : Int32)
    (hlt : (encodeDirents entries).length + extra.length + 12 < 2 ^ 32)
    (hextra : extra.length < 280) (hr : ¬rtvl < 0) :
    (fuseReaddir m dn fill offset fi).Returns (DirRead fill entries)
        (successReply ouid rtvl (encodeDirents entries ++ extra)) ↔
      (encodeDirents entries).length + extra.length < 2 ^ 31 := by
  have hreq : ∀ u, (fuseReaddir.request m dn offset fi u).emission =
      some (fuseReaddir.request m dn offset fi u).bytes := fun u =>
    Request.emission_of_small
      (Call.Sendable.small (c := .fuseReaddir dn fill offset fi) rfl m u)
  have hlt' : 12 + (encodeDirents entries ++ extra).length < 2 ^ 32 := by
    rw [List.length_append]
    omega
  rw [fuseReaddir_eq, returns_success hreq [] (readdirOn fill) ouid hr,
    readdirOn_returns fill entries extra ouid rtvl hextra hlt', List.length_append]

/-- **Directories.** A successful reply of the entries' records, perhaps with the
    start of another record after them, is offered to `fill` entry by entry exactly
    when its body has fewer than 2^31 bytes. -/
theorem readdir_decodes (m : Locals) (dn : Path) (fill : Fill) (offset : Int64) (fi : FileInfo)
    (entries : List (CArr 5 × Dirent)) (extra : Bytes) (ouid : UInt32) (rtvl : Int32)
    (henc : (encodeDirents entries).length < 2 ^ 31 - 12) (hextra : extra.length < 280)
    (hr : ¬rtvl < 0) :
    (fuseReaddir m dn fill offset fi).Returns (DirRead fill entries)
        (successReply ouid rtvl (encodeDirents entries ++ extra)) ↔
      (encodeDirents entries).length + extra.length < 2 ^ 31 :=
  fuseReaddir_returns m dn fill offset fi entries extra ouid rtvl (by omega) hextra hr

/-- Two entries and the start of a third record; `fill` is full after the first. -/
theorem readdir_decodes_two :
    (fuseReaddir default pathA (fun _ _ => true) 0 ⟨0, false, false, 7⟩).Returns
      (DirRead (fun _ _ => true) [(default, default), (default, default)])
      (successReply 1 0 (encodeDirents [(default, default), (default, default)] ++ [1, 2])) := by
  have hlen : (encodeDirents [(default, default), (default, default)]).length = 560 :=
    encodeDirents_length _
  have hextra : [(1 : UInt8), 2].length = 2 := rfl
  have hr : ¬(0 : Int32) < 0 := by decide
  rw [readdir_decodes default pathA _ 0 _ _ [1, 2] 1 0 (by omega) (by omega) hr]
  omega

/-- The most entries whose encoding is shorter than 2^31 - 12 bytes, and 128 bytes more. -/
theorem readdir_decodes_fails : ∃ (entries : List (CArr 5 × Dirent)) (extra : Bytes),
    entries.length = 7669584 ∧ (encodeDirents entries).length < 2 ^ 31 - 12 ∧
      extra.length < 280 ∧
      ¬(fuseReaddir default pathA (fun _ _ => false) 0 ⟨0, false, false, 7⟩).Returns
        (DirRead (fun _ _ => false) entries)
        (successReply 1 0 (encodeDirents entries ++ extra)) := by
  obtain ⟨entries, hn⟩ : ∃ entries : List (CArr 5 × Dirent), entries.length = 7669584 :=
    ⟨List.replicate 7669584 (default, default), List.length_replicate⟩
  obtain ⟨extra, hextra⟩ : ∃ extra : Bytes, extra.length = 128 :=
    ⟨List.replicate 128 0, List.length_replicate⟩
  have hlen : (encodeDirents entries).length = 2147483520 := by
    rw [encodeDirents_length, hn]
  have hr : ¬(0 : Int32) < 0 := by decide
  have hlt : (encodeDirents entries).length + extra.length + 12 < 2 ^ 32 := by omega
  have h280 : extra.length < 280 := by omega
  refine ⟨entries, extra, hn, by omega, h280, fun h => ?_⟩
  rw [fuseReaddir_returns _ _ _ _ _ entries extra 1 0 hlt h280 hr] at h
  omega

end Zhwkrfsp
