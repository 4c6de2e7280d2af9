import Zhwkrfsp.OperationId

/- What the uninitialised memory of a handler has to do with the bytes it sends. A
   handler fills a struct on its stack and sends all of it, so the fields its mode
   does not use, the padding, and a name's array behind the terminator leave with
   it. `Call.Agree` lists these bytes for each handler, and `secrecy` says that two
   frames give the same message exactly when they agree there. -/
namespace Zhwkrfsp
open Wire Chan

/-- Two arrays are the same behind the terminator of a name copied into both. -/
def SameTail (fn : Path) (a b : CArr filenameLen) : Prop :=
  a.val.drop (fn.str.length + 1) = b.val.drop (fn.str.length + 1)

/-- The fields of `struct OpWrit` that a handler leaves unset which only names a file. -/
structure SameWrit (fn : Path) (a b : OpWrit) : Prop where
  filename : SameTail fn a.filename b.filename
  file_handle : a.file_handle = b.file_handle
  offset : a.offset = b.offset
  count : a.count = b.count
  pad : a.pad = b.pad

/-- The same for `struct OpRead`. -/
structure SameRead (fn : Path) (a b : OpRead) : Prop where
  filename : SameTail fn a.filename b.filename
  file_handle : a.file_handle = b.file_handle
  offset : a.offset = b.offset
  count : a.count = b.count
  pad : a.pad = b.pad

/-- Two frames agree on what the handler leaves unset in the request it sends. -/
def Call.Agree (m m' : Locals) : Call → Prop
  | .fuseGetattr fn _ | .fuseReadlink fn _ | .fuseStatfs fn _ => SameRead fn m.rd m'.rd
  | .fuseMkdir dn _ => SameTail dn m.op.filename m'.op.filename ∧ m.op.pad = m'.op.pad
  | .fuseCreat fn _ _ => SameTail fn m.op.filename m'.op.filename ∧ m.op.pad = m'.op.pad
  | .fuseOpen fn _ => SameTail fn m.op.filename m'.op.filename ∧ m.op.pad = m'.op.pad ∧
      m.op.mode = m'.op.mode
  | .fuseOpendir dn _ => SameTail dn m.op.filename m'.op.filename ∧ m.op.pad = m'.op.pad ∧
      m.op.mode = m'.op.mode
  | .fuseRmdir fn | .fuseUnlink fn => SameWrit fn m.wr m'.wr
  | .fuseChmod fn _ => SameWrit fn m.wr m'.wr
  | .fuseAccess fn _ => SameWrit fn m.wr m'.wr
  | .fuseSymlink fn srcfn => SameWrit fn m.wr m'.wr ∧ SameTail srcfn m.srcbuf m'.srcbuf
  | .fuseTruncate fn _ => SameTail fn m.wr.filename m'.wr.filename ∧
      m.wr.file_handle = m'.wr.file_handle ∧ m.wr.count = m'.wr.count ∧ m.wr.pad = m'.wr.pad
  | .fuseRead fn _ _ _ => SameTail fn m.rd.filename m'.rd.filename ∧ m.rd.pad = m'.rd.pad
  | .fuseWrite fn _ _ _ => SameTail fn m.wr.filename m'.wr.filename ∧ m.wr.pad = m'.wr.pad
  | .fuseRelease _ | .fuseReleasedir _ => m.cl.pad = m'.cl.pad
  | .fuseReaddir dn _ _ _ => SameTail dn m.rd.filename m'.rd.filename ∧
      m.rd.count = m'.rd.count ∧ m.rd.pad = m'.rd.pad
  | .fuseUtimens fn _ _ => SameWrit fn m.wr m'.wr ∧ m.tmdr.pad = m'.tmdr.pad

/-! Which bytes a struct takes over. -/

theorem fncpy_eq_iff (fn : Path) (a b : CArr filenameLen) :
    fncpy a fn = fncpy b fn ↔ SameTail fn a b := by
  have hs : (fn.str ++ [0]).length ≤ filenameLen := by
    have h := fn.short
    rw [List.length_append, List.length_singleton]
    omega
  rw [CArr.ext_iff, fncpy, fncpy, CArr.put_val _ hs, CArr.put_val _ hs, List.append_cancel_left_eq,
    List.length_append]
  rfl

section
variable {α : Type} (head : OpHdr) (c : Codec α) (a b : α)

/-- Messages with one header: the structs and what follows them decide. -/
theorem body_eq_iff (s t : Bytes) :
    OpHdr.codec.enc head ++ (c.enc a ++ s) = OpHdr.codec.enc head ++ (c.enc b ++ t) ↔
      a = b ∧ s = t := by
  rw [List.append_cancel_left_eq]
  constructor
  · intro h
    obtain ⟨hab, hst⟩ := List.append_inj h (by rw [c.enc_length, c.enc_length])
    exact ⟨c.enc_injective hab, hst⟩
  · rintro ⟨rfl, rfl⟩
    rfl

end

theorem reading_eq_iff (head : OpHdr) (rd rd' : OpRead) :
    (Request.reading head rd).message = (Request.reading head rd').message ↔ rd = rd' := by
  rw [Request.message_reading, Request.message_reading, body_eq_iff, and_iff_left rfl]

theorem opening_eq_iff (head : OpHdr) (op op' : OpOpen) :
    (Request.opening head op).message = (Request.opening head op').message ↔ op = op' := by
  rw [Request.message_opening, Request.message_opening, body_eq_iff, and_iff_left rfl]

theorem closing_eq_iff (head : OpHdr) (cl cl' : OpClos) :
    (Request.closing head cl).message = (Request.closing head cl').message ↔ cl = cl' := by
  rw [Request.message_closing, Request.message_closing, body_eq_iff, and_iff_left rfl]

/-- A payload that does not depend on the frame. -/
theorem writing_eq_iff (head : OpHdr) (wr wr' : OpWrit) (payload : Option Bytes) :
    (Request.writing head wr payload).message = (Request.writing head wr' payload).message ↔
      wr = wr' := by
  rw [Request.message_writing, Request.message_writing, body_eq_iff, and_iff_left rfl]

/-- A short payload that does. -/
theorem writing_payload_eq_iff (head : OpHdr) (wr wr' : OpWrit) {s t : Bytes}
    (hs : s.length < 2 ^ 32) (ht : t.length < 2 ^ 32) :
    (Request.writing head wr (some s)).message = (Request.writing head wr' (some t)).message ↔
      wr = wr' ∧ s = t := by
  rw [Request.message_writing, Request.message_writing, body_eq_iff, Option.map_some,
    Option.map_some, Option.getD_some, Option.getD_some, Bss.counted_of_lt hs, Bss.counted_of_lt ht]

theorem sameRead_iff (fn : Path) (mode : UInt8) (a b : OpRead) :
    ({ a with filename := fncpy a.filename fn, read_mode := mode } : OpRead) =
      { b with filename := fncpy b.filename fn, read_mode := mode } ↔ SameRead fn a b := by
  rw [OpRead.mk.injEq, fncpy_eq_iff]
  constructor
  · rintro ⟨h₁, h₂, h₃, h₄, -, h₅⟩
    exact ⟨h₁, h₂, h₃, h₄, h₅⟩
  · rintro ⟨h₁, h₂, h₃, h₄, h₅⟩
    exact ⟨h₁, h₂, h₃, h₄, rfl, h₅⟩

theorem sameWrit_iff (fn : Path) (mode : UInt8) (a b : OpWrit) :
    ({ a with filename := fncpy a.filename fn, write_mode := mode } : OpWrit) =
      { b with filename := fncpy b.filename fn, write_mode := mode } ↔ SameWrit fn a b := by
  rw [OpWrit.mk.injEq, fncpy_eq_iff]
  constructor
  · rintro ⟨h₁, h₂, h₃, h₄, -, h₅⟩
    exact ⟨h₁, h₂, h₃, h₄, h₅⟩
  · rintro ⟨h₁, h₂, h₃, h₄, h₅⟩
    exact ⟨h₁, h₂, h₃, h₄, rfl, h₅⟩

/-- Two frames give one message exactly when they agree on what is left unset. -/
theorem Call.message_eq_iff (m m' : Locals) (ouid : UInt32) (c : Call) :
    (c.request m ouid).message = (c.request m' ouid).message ↔ c.Agree m m' := by
  cases c with
  | fuseGetattr fn st => exact (reading_eq_iff _ _ _).trans (sameRead_iff fn rdStat _ _)
  | fuseReadlink fn dest => exact (reading_eq_iff _ _ _).trans (sameRead_iff fn rdLink _ _)
  | fuseStatfs fn fstat => exact (reading_eq_iff _ _ _).trans (sameRead_iff fn rdStatfs _ _)
  | fuseRmdir fn => exact (writing_eq_iff _ _ _ _).trans (sameWrit_iff fn wrRmdir _ _)
  | fuseUnlink fn => exact (writing_eq_iff _ _ _ _).trans (sameWrit_iff fn wrRemove _ _)
  | fuseChmod fn mode => exact (writing_eq_iff _ _ _ _).trans (sameWrit_iff fn wrChmod _ _)
  | fuseAccess fn amode => exact (writing_eq_iff _ _ _ _).trans (sameWrit_iff fn wrAcces _ _)
  | fuseMkdir dn mode =>
    apply (opening_eq_iff _ _ _).trans
    rw [OpOpen.mk.injEq, fncpy_eq_iff]
    simp [Agree]
  | fuseCreat fn mode fi =>
    apply (opening_eq_iff _ _ _).trans
    rw [OpOpen.mk.injEq, fncpy_eq_iff]
    simp [Agree]
  | fuseOpen fn fi =>
    apply (opening_eq_iff _ _ _).trans
    rw [OpOpen.mk.injEq, fncpy_eq_iff]
    simp [Agree]
  | fuseOpendir dn fi =>
    apply (opening_eq_iff _ _ _).trans
    rw [OpOpen.mk.injEq, fncpy_eq_iff]
    simp [Agree]
  -- the payload is `srcbuf` as a whole, what is behind the NUL too
  | fuseSymlink fn srcfn =>
    have hlt : ∀ a : CArr filenameLen, a.val.length < 2 ^ 32 := by
      intro a
      rw [a.len]
      decide
    apply (writing_payload_eq_iff _ _ _ (hlt _) (hlt _)).trans
    rw [sameWrit_iff, ← CArr.ext_iff, fncpy_eq_iff]
    rfl
  | fuseTruncate fn pos =>
    apply (writing_eq_iff _ _ _ _).trans
    rw [OpWrit.mk.injEq, fncpy_eq_iff]
    simp [Agree]
  | fuseRead fn buf pos fi =>
    apply (reading_eq_iff _ _ _).trans
    rw [OpRead.mk.injEq, fncpy_eq_iff]
    simp [Agree]
  | fuseWrite fn buf pos fi =>
    apply (writing_eq_iff _ _ _ _).trans
    rw [OpWrit.mk.injEq, fncpy_eq_iff]
    simp [Agree]
  | fuseRelease fi =>
    apply (closing_eq_iff _ _ _).trans
    rw [OpClos.mk.injEq]
    simp [Agree]
  | fuseReleasedir fi =>
    apply (closing_eq_iff _ _ _).trans
    rw [OpClos.mk.injEq]
    simp [Agree]
  | fuseReaddir dn fill offset fi =>
    apply (reading_eq_iff _ _ _).trans
    rw [OpRead.mk.injEq, fncpy_eq_iff]
    simp [Agree]
  | fuseUtimens fn atime mtime =>
    have hlt : ∀ t : TimeModder, (TimeModder.codec.enc t).length < 2 ^ 32 := by
      intro t
      rw [Codec.enc_length]
      decide
    apply (writing_payload_eq_iff _ _ _ (hlt _) (hlt _)).trans
    rw [sameWrit_iff]
    refine and_congr_right fun _ => ⟨fun h => ?_, fun h => ?_⟩
    · have hpad := congrArg TimeModder.pad (TimeModder.codec.enc_injective h)
      exact hpad
    · rw [fuseUtimens.tmdr, fuseUtimens.tmdr, h]

theorem emit_eq_iff (m m' : Locals) (uid : UInt32) (c : Call) :
    ((c.prog m).emit uid).1 = ((c.prog m').emit uid).1 ↔ c.Silent ∨ c.Agree m m' := by
  have h := c.emit_isSome_iff m uid
  have h' := c.emit_isSome_iff m' uid
  cases e : ((c.prog m).emit uid).1 with
  | none =>
    cases e' : ((c.prog m').emit uid).1 with
    | none =>
      rw [e] at h
      exact iff_of_true rfl (.inl (by simpa using h))
    | some msg' =>
      rw [e, ← h', e'] at h
      exact absurd (h.2 rfl) (by simp)
  | some msg =>
    cases e' : ((c.prog m').emit uid).1 with
    | none =>
      rw [e', ← h, e] at h'
      exact absurd (h'.2 rfl) (by simp)
    | some msg' =>
      obtain ⟨-, rfl⟩ := Call.emit_some e
      obtain ⟨-, rfl⟩ := Call.emit_some e'
      rw [Option.some.injEq, c.message_eq_iff, or_iff_right]
      rw [e] at h
      exact h.1 rfl

def ones (n : Nat) : CArr n := ⟨List.replicate n 1, by simp⟩

/-- A frame with other padding than the default one. -/
def padded : Locals where
  op := { (default : OpOpen) with pad := ones 1 }
  rd := { (default : OpRead) with pad := ones 7 }
  wr := { (default : OpWrit) with pad := ones 7 }
  cl := { (default : OpClos) with pad := ones 7 }
  tmdr := default
  srcbuf := default

/-- No request is without unset bytes: every call that sends one has two frames
    that make it send two different messages. -/
theorem leaks (uid : UInt32) (c : Call) (h : ¬c.Silent) :
    ∃ m m', ((c.prog m).emit uid).1 ≠ ((c.prog m').emit uid).1 := by
  refine ⟨default, padded, fun e => ?_⟩
  have h1 : (default : OpOpen).pad ≠ ones 1 := by decide
  have h2 : (default : OpRead).pad ≠ ones 7 := by decide
  have h3 : (default : OpWrit).pad ≠ ones 7 := by decide
  have h4 : (default : OpClos).pad ≠ ones 7 := by decide
  have ha := ((emit_eq_iff _ _ uid c).1 e).resolve_left h
  cases c with
  | fuseGetattr fn st => exact h2 ha.pad
  | fuseReadlink fn dest => exact h2 ha.pad
  | fuseStatfs fn fstat => exact h2 ha.pad
  | fuseMkdir dn mode => exact h1 ha.2
  | fuseCreat fn mode fi => exact h1 ha.2
  | fuseOpen fn fi => exact h1 ha.2.1
  | fuseOpendir dn fi => exact h1 ha.2.1
  | fuseRmdir fn => exact h3 ha.pad
  | fuseUnlink fn => exact h3 ha.pad
  | fuseChmod fn mode => exact h3 ha.pad
  | fuseAccess fn amode => exact h3 ha.pad
  | fuseSymlink fn srcfn => exact h3 ha.1.pad
  | fuseTruncate fn pos => exact h3 ha.2.2.2
  | fuseRead fn buf pos fi => exact h2 ha.2
  | fuseWrite fn buf pos fi => exact h3 ha.2
  | fuseRelease fi => exact h4 ha
  | fuseReleasedir fi => exact h4 ha
  | fuseReaddir dn fill offset fi => exact h2 ha.2.2
  | fuseUtimens fn atime mtime => exact h3 ha.1.pad

/-- **Uninitialised memory on the wire.** The messages of two runs of a call that
    differ in nothing but their uninitialised memory are the same exactly when the
    call sends nothing or the two memories agree on what the handler leaves unset;
    and for every call that sends something there are two that do not. -/
theorem secrecy (uid : UInt32) (c : Call) :
    (∀ m m', ((c.prog m).emit uid).1 = ((c.prog m').emit uid).1 ↔ c.Silent ∨ c.Agree m m') ∧
      (¬c.Silent → ∃ m m', ((c.prog m).emit uid).1 ≠ ((c.prog m').emit uid).1) :=
  ⟨fun m m' => emit_eq_iff m m' uid c, leaks uid c⟩

/-- A release sends the seven bytes behind `is_dir` as it finds them. -/
theorem secrecy_fails :
    (((Call.fuseRelease ⟨0, false, false, 7⟩).prog default).emit 0).1 ≠
      (((Call.fuseRelease ⟨0, false, false, 7⟩).prog padded).emit 0).1 := by
  rw [Ne, emit_eq_iff]
  rintro (h | h)
  · cases h
  · have hpad : (default : OpClos).pad ≠ ones 7 := by decide
    exact hpad h

end Zhwkrfsp
