import Zhwkrfsp.Content

/- Open flags. The README lists the flags that are to be refused before anything
   reaches the network; `fuse_open`, `fuse_creat` and `fuse_opendir` each write out
   their own mask of them (`OpenCall.checked`), and O_PATH and O_TMPFILE are in none.
   A call is refused with `-EINVAL` when `writepage` is set or the mask is met; every
   other call sends one Open request with the flags translated (`sendsOne`). So the
   list is kept exactly by the calls that are refused anyway or whose flags contain
   neither O_PATH nor O_TMPFILE (`open_flags`). -/
namespace Zhwkrfsp
open Wire Chan

def oDirectory : UInt32 := 0x10000
def oPath : UInt32 := 0x200000
def oTmpfile : UInt32 := 0x410000

/-- The flags of the README's notice. -/
def refusedFlags : List UInt32 :=
  [oAppend, oAsync, oCloexec, oDsync, oExcl, oPath, oSync, oTmpfile]

/-- A call of one of the three open handlers, but for its `fuse_file_info`. -/
inductive OpenCall where
  | fuseOpen (fn : Path)
  | fuseCreat (fn : Path) (mode : UInt32)
  | fuseOpendir (dn : Path)

namespace OpenCall
variable (m : Locals) (c : OpenCall) (fi : FileInfo)

def prog : OpenCall → Io (Int32 × FileInfo)
  | .fuseOpen fn => Zhwkrfsp.fuseOpen m fn fi
  | .fuseCreat fn mode => Zhwkrfsp.fuseCreat m fn mode fi
  | .fuseOpendir dn => Zhwkrfsp.fuseOpendir m dn fi

def call : OpenCall → Call
  | .fuseOpen fn => .fuseOpen fn fi
  | .fuseCreat fn mode => .fuseCreat fn mode fi
  | .fuseOpendir dn => .fuseOpendir dn fi

def path : OpenCall → Path
  | .fuseOpen fn => fn
  | .fuseCreat fn _ => fn
  | .fuseOpendir dn => dn

def isCreat : OpenCall → Bool
  | .fuseCreat .. => true
  | _ => false

def isOpendir : OpenCall → Bool
  | .fuseOpendir _ => true
  | _ => false

/-- The mask the handler checks. -/
def checked : OpenCall → UInt32
  | .fuseOpendir _ => unsupportedOpendir
  | _ => unsupportedOpen

/-! What the README prescribes. -/

/-- `writepage` is set, or all bits of a flag that is to be refused. -/
def ToRefuse : Prop := fi.writepage = true ∨ ∃ f ∈ refusedFlags, fi.flags &&& f = f

/-- `writepage` is clear, and there is no bit of a flag that is to be refused but the
    one that O_TMPFILE shares with O_DIRECTORY. -/
def ToSend : Prop :=
  fi.writepage = false ∧ (∀ f ∈ refusedFlags, fi.flags &&& (f &&& ~~~oDirectory) = 0) ∧
    (c.isOpendir = true → fi.flags &&& oTrunc = 0)

/-- The flag byte of the request. -/
structure FlagByte (flags : UInt8) : Prop where
  nofollow : flags &&& openNofollow ≠ 0 ↔ fi.flags &&& oNofollow ≠ 0
  trunc : flags &&& openTrunc ≠ 0 ↔ fi.flags &&& oTrunc ≠ 0
  creat : flags &&& openCreat ≠ 0 ↔ c.isCreat = true
  directory : flags &&& openDirectory ≠ 0 ↔ c.isOpendir = true
  direct : c.isOpendir = false → (flags &&& openDirect ≠ 0 ↔ fi.direct_io = true)

/-- One Open request and nothing else. -/
def IsRequest (msg : Bytes) : Prop :=
  ∃ head op, msg = OpHdr.codec.enc head ++ OpOpen.codec.enc op ∧ head.opid = operOpen ∧
    head.size = 4112 ∧ cstr op.filename.val = c.path.str ∧ c.FlagByte fi op.flags

end OpenCall

/-- The program does no input or output and returns `-EINVAL`, `fi` unchanged. -/
structure Refuses (p : Io (Int32 × FileInfo)) (fi : FileInfo) : Prop where
  offline : ∀ tr q, Run p tr q → ∀ e ∈ tr, e.sent = [] ∧ e.received = [] ∧ e.isErr = false
  returns : ∀ inp, p.Returns (fun r rest => r = (-EINVAL, fi) ∧ rest = inp) inp

/-- The program sends one message that satisfies `φ`: it comes to send it, never sends
    anything but a part of one, and has sent all of it when it returns without an
    I/O error. -/
structure SendsOne {α : Type} (p : Io α) (φ : Bytes → Prop) : Prop where
  sends : ∀ u, ∃ msg, (p.emit u).1 = some msg ∧ φ msg
  part : ∀ tr q, Run p tr q → ∃ msg, φ msg ∧ (tr.map Ev.sent).flatten <+: msg
  whole : ∀ tr a, Run p tr (.ret a) → (∀ e ∈ tr, e.isErr = false) → φ (tr.map Ev.sent).flatten

/-- The README's notice, for one call. -/
def OpenCall.FlagsHold (m : Locals) (c : OpenCall) (fi : FileInfo) : Prop :=
  (ToRefuse fi → Refuses (c.prog m fi) fi) ∧
    (c.ToSend fi → SendsOne (c.prog m fi) (c.IsRequest fi))

/-! Refusing. -/

/-- No input and output. -/
def offline {α : Type} : Io α → Prop
  | .ret _ => True
  | .stop _ => True
  | .lock k => offline k
  | .unlock k => offline k
  | .get k => ∀ u, offline (k u)
  | .set _ k => offline k
  | .write _ _ => False
  | .read _ _ _ => False

theorem offline_step {α : Type} {p q : Io α} {e : Ev UInt32} (h : offline p) (st : Step p e q) :
    offline q ∧ e.sent = [] ∧ e.received = [] ∧ e.isErr = false := by
  cases st with
  | lock k => exact ⟨h, rfl, rfl, rfl⟩
  | unlock k => exact ⟨h, rfl, rfl, rfl⟩
  | get k u => exact ⟨h u, rfl, rfl, rfl⟩
  | set u k => exact ⟨h, rfl, rfl, rfl⟩
  | _ => exact h.elim

theorem offline_run {α : Type} {p q : Io α} {tr : List (Ev UInt32)} (h : offline p)
    (t : Run p tr q) : ∀ e ∈ tr, e.sent = [] ∧ e.received = [] ∧ e.isErr = false := by
  induction t with
  | refl p =>
    intro e he
    cases he
  | step st _ ih =>
    obtain ⟨hq, he⟩ := offline_step h st
    intro e' hmem
    rcases List.mem_cons.1 hmem with rfl | hmem
    · exact he
    · exact ih hq e' hmem

theorem refuses_rejected {fi : FileInfo} {unsupported : UInt32}
    (k : UInt32 → Io (Int32 × FileInfo))
    (h : (fi.writepage || ifflag fi.flags unsupported) = true) :
    Refuses (enter >>= fun ouid => openChecks fi unsupported (k ouid)) fi := by
  have hk : (fun ouid => openChecks fi unsupported (k ouid)) = fun _ => warn (-EINVAL) fi :=
    funext fun _ => openChecks_rejected h
  rw [hk]
  refine ⟨fun tr q t => offline_run ?_ t, fun inp => ?_⟩
  · intro u v
    trivial
  · intro u v
    exact ⟨rfl, rfl⟩

namespace OpenCall
variable (m : Locals) (c : OpenCall) (fi : FileInfo)

theorem rejected_call :
    (c.call fi).rejected = (fi.writepage || ifflag fi.flags c.checked) := by
  cases c with
  | fuseOpen fn => rfl
  | fuseCreat fn mode => rfl
  | fuseOpendir dn => rfl

theorem refuses (h : (c.call fi).rejected = true) : Refuses (c.prog m fi) fi := by
  cases c with
  | fuseOpen fn => exact refuses_rejected _ h
  | fuseCreat fn mode => exact refuses_rejected _ h
  | fuseOpendir dn => exact refuses_rejected _ h

/-! Sending. -/

theorem fst_prog : Prod.fst <$> c.prog m fi = (c.call fi).prog m := by
  cases c with
  | fuseOpen fn => rfl
  | fuseCreat fn mode => rfl
  | fuseOpendir dn => rfl

theorem exchange :
    Exchange ((c.call fi).rejected = true) ((c.call fi).Sends m) Prod.fst [] [] (c.prog m fi) := by
  have hs : (c.call fi).rejected = false → ∀ ouid msg,
      ((c.call fi).request m ouid).emission = some msg → (c.call fi).Sends m msg :=
    fun h ouid _ e => ⟨h, ouid, e⟩
  cases c with
  | fuseOpen fn =>
    exact enter_exchange fun ouid => openChecks_exchange id fun hacc =>
      converse_structBody_exchange _ (hs hacc ouid) _ (by decide) _ _
  | fuseCreat fn mode =>
    exact enter_exchange fun ouid => openChecks_exchange id fun hacc =>
      converse_structBody_exchange _ (hs hacc ouid) _ (by decide) _ _
  | fuseOpendir dn =>
    exact enter_exchange fun ouid => openChecks_exchange id fun hacc =>
      converse_structBody_exchange _ (hs hacc ouid) _ (by decide) _ _

end OpenCall

/-- The bits of a flag byte, one by one. -/
theorem OpenBits.Reads.bits {o : OpenBits} {flags : UInt8} (h : o.Reads flags) :
    (flags &&& openNofollow ≠ 0 ↔ o.nofollow = true) ∧
      (flags &&& openTrunc ≠ 0 ↔ o.truncate = true) ∧
      (flags &&& openCreat ≠ 0 ↔ o.creation = true) ∧
      (flags &&& openDirectory ≠ 0 ↔ o.directory = true) ∧
      (flags &&& openDirect ≠ 0 ↔ o.direct = true) := by
  obtain ⟨creation, direct, directory, nofollow, truncate, mkdir⟩ := o
  rw [OpenBits.Reads] at h
  subst h
  revert creation direct directory nofollow truncate mkdir
  decide

theorem ifflag_eq_true (flg tst : UInt32) : ifflag flg tst = true ↔ flg &&& tst ≠ 0 := by
  rw [ifflag, decide_eq_true_iff]

theorem ifflag_or (flg a b : UInt32) : ifflag flg (a ||| b) = (ifflag flg a || ifflag flg b) := by
  have hand : flg &&& (a ||| b) = (flg &&& a) ||| (flg &&& b) := by
    apply UInt32.toBitVec_inj.1
    simp only [UInt32.toBitVec_and, UInt32.toBitVec_or, BitVec.and_or_distrib_left]
  have hiff : ifflag flg (a ||| b) = true ↔ (ifflag flg a || ifflag flg b) = true := by
    rw [Bool.or_eq_true, ifflag_eq_true, ifflag_eq_true, ifflag_eq_true, hand, ne_eq,
      UInt32.or_eq_zero_iff]
    tauto
  exact Bool.eq_iff_iff.2 hiff

/-- Checking a mask is checking all of a flag in it. -/
theorem ifflag_of_subset {flg mask f : UInt32} (hf : f ≠ 0) (hsub : mask &&& f = f)
    (h : flg &&& f = f) : ifflag flg mask = true := by
  rw [ifflag_eq_true]
  intro h0
  apply hf
  calc f = flg &&& (mask &&& f) := by rw [hsub, h]
    _ = flg &&& mask &&& f := (UInt32.and_assoc _ _ _).symm
    _ = 0 := by rw [h0, UInt32.zero_and]

namespace OpenCall
variable {m : Locals} {c : OpenCall} {fi : FileInfo}

/-- The mask of `fuse_opendir` is the others' and O_TRUNC. -/
theorem checked_eq (c : OpenCall) (fi : FileInfo) : ifflag fi.flags c.checked =
    (c.isOpendir && ifflag fi.flags oTrunc || ifflag fi.flags unsupportedOpen) := by
  cases c with
  | fuseOpendir dn => simp [checked, isOpendir, unsupportedOpendir, unsupportedOpen, ifflag_or,
    Bool.or_assoc]
  | _ => rfl

theorem request_isRequest {ouid : UInt32} {msg : Bytes} (hacc : (c.call fi).rejected = false)
    (h : ((c.call fi).request m ouid).emission = some msg) : c.IsRequest fi msg := by
  obtain ⟨rfl, -⟩ := Request.emission_eq h
  rw [rejected_call, checked_eq] at hacc
  cases c with
  | fuseOpen fn =>
    obtain ⟨hnof, htr, hcr, hdir, hdio⟩ := (openFlags_reads (ifflag fi.flags oTrunc)
      (ifflag fi.flags oNofollow) fi.direct_io).bits
    refine ⟨_, _, (Request.message_opening _ _).trans (by rw [List.append_nil]), rfl, rfl,
      cstr_fncpy _ _, ?_⟩
    exact ⟨hnof.trans (ifflag_eq_true _ _), htr.trans (ifflag_eq_true _ _), hcr, hdir,
      fun _ => hdio⟩
  | fuseCreat fn mode =>
    obtain ⟨hnof, htr, hcr, hdir, hdio⟩ := (creatFlags_reads (ifflag fi.flags oTrunc)
      (ifflag fi.flags oNofollow) fi.direct_io).bits
    refine ⟨_, _, (Request.message_opening _ _).trans (by rw [List.append_nil]), rfl, rfl,
      cstr_fncpy _ _, ?_⟩
    exact ⟨hnof.trans (ifflag_eq_true _ _), htr.trans (ifflag_eq_true _ _), hcr, hdir,
      fun _ => hdio⟩
  | fuseOpendir dn =>
    obtain ⟨hnof, htr, hcr, hdir, -⟩ := (opendirFlags_reads (ifflag fi.flags oNofollow)).bits
    refine ⟨_, _, (Request.message_opening _ _).trans (by rw [List.append_nil]), rfl, rfl,
      cstr_fncpy _ _, ?_⟩
    -- a call with O_TRUNC has been refused
    have hno : ¬fi.flags &&& oTrunc ≠ 0 := by
      rw [← ifflag_eq_true]
      intro ht
      simp [isOpendir, ht] at hacc
    exact ⟨hnof.trans (ifflag_eq_true _ _), htr.trans (iff_of_false Bool.false_ne_true hno), hcr, hdir,
      nofun⟩

theorem sendsOne (m : Locals) (c : OpenCall) (fi : FileInfo)
    (hacc : (c.call fi).rejected = false) : SendsOne (c.prog m fi) (c.IsRequest fi) := by
  have hex := c.exchange m fi
  have hsends : ∀ msg, (c.call fi).Sends m msg → c.IsRequest fi msg := by
    rintro msg ⟨-, ouid, h⟩
    exact request_isRequest hacc h
  have hmsg : ∀ ouid, ((c.call fi).request m ouid).emission =
      some ((c.call fi).request m ouid).bytes := by
    intro ouid
    apply Request.emission_of_small
    have hsendable : (c.call fi).Sendable := by
      cases c with
      | _ => exact hacc
    exact hsendable.small m ouid
  refine ⟨fun u => ?_, fun tr q t => ?_, fun tr a t he => ?_⟩
  · have hemit := Call.emit m u (c.call fi) hacc
    rw [← fst_prog, emit_map, hmsg] at hemit
    exact ⟨_, congrArg Prod.fst hemit, request_isRequest hacc (hmsg _)⟩
  · obtain ⟨msg, hm, hpart⟩ := hex.sent_part ⟨_, hacc, 0, hmsg 0⟩ t
    exact ⟨msg, hsends msg hm, hpart⟩
  · rcases (hex.run t he).ret_cases with ⟨hrej, -, -⟩ | ⟨hs, -⟩ | ⟨hs, -⟩
    · rw [hacc] at hrej
      cases hrej
    · exact hsends _ hs
    · exact hsends _ hs

/-- Sending and refusing exclude each other. -/
theorem not_refuses {p : Io (Int32 × FileInfo)} {φ : Bytes → Prop} (h : SendsOne p φ)
    (hne : ¬φ []) : ¬Refuses p fi := by
  rintro ⟨hoff, -⟩
  obtain ⟨msg, hemit, hmsg⟩ := h.sends 0
  have hbuf : msg ≠ [] := fun e => hne (e ▸ hmsg)
  obtain ⟨tr, k, t, -, -⟩ := Run.to_emit (Prod.ext hemit rfl : p.emit 0 = (some msg, _))
  have hsent := (hoff _ _ (t.trans (.write_all k hbuf)) (.wrote msg)
    (List.mem_append_right _ List.mem_cons_self)).1
  exact hbuf hsent

theorem isRequest_ne_nil : ¬c.IsRequest fi [] := by
  rintro ⟨head, op, h, -⟩
  have hlen := congrArg List.length h
  rw [List.length_append, Codec.enc_length, OpHdr.size_codec] at hlen
  simp at hlen

/-- All flags of the list but two are in every mask. -/
theorem subset_unsupportedOpen {f : UInt32} (hf : f ∈ refusedFlags) (hpath : f ≠ oPath)
    (htmp : f ≠ oTmpfile) : f ≠ 0 ∧ unsupportedOpen &&& f = f := by
  revert hpath htmp
  simp only [refusedFlags, List.mem_cons, List.not_mem_nil, or_false] at hf
  rcases hf with rfl | rfl | rfl | rfl | rfl | rfl | rfl | rfl <;> decide

/-- A flag of the list that is in a mask is refused. -/
theorem rejected_of_toRefuse (h : ToRefuse fi) (hpath : fi.flags &&& oPath ≠ oPath)
    (htmp : fi.flags &&& oTmpfile ≠ oTmpfile) : (c.call fi).rejected = true := by
  rw [rejected_call, checked_eq]
  rcases h with hw | ⟨f, hf, hbits⟩
  · rw [hw, Bool.true_or]
  · obtain ⟨hne, hsub⟩ := subset_unsupportedOpen hf (fun e => hpath (e ▸ hbits))
      fun e => htmp (e ▸ hbits)
    rw [ifflag_of_subset hne hsub hbits, Bool.or_true, Bool.or_true]

/-- A call that is to be sent meets no mask. -/
theorem accepted_of_toSend (h : c.ToSend fi) : (c.call fi).rejected = false := by
  obtain ⟨hw, hflags, htr⟩ := h
  have hone : ∀ f ∈ refusedFlags, f &&& ~~~oDirectory = f → ifflag fi.flags f = false := by
    intro f hf hdir
    rw [Bool.eq_false_iff, ne_eq, ifflag_eq_true, not_not, ← hdir]
    exact hflags f hf
  have hmask : ifflag fi.flags unsupportedOpen = false := by
    simp only [unsupportedOpen, ifflag_or]
    rw [hone oAppend (by decide) (by decide), hone oAsync (by decide) (by decide),
      hone oCloexec (by decide) (by decide), hone oDsync (by decide) (by decide),
      hone oExcl (by decide) (by decide), hone oSync (by decide) (by decide)]
    rfl
  have htrunc : (c.isOpendir && ifflag fi.flags oTrunc) = false := by
    cases hd : c.isOpendir with
    | false => rfl
    | true => rw [Bool.true_and, Bool.eq_false_iff, ne_eq, ifflag_eq_true, not_not, htr hd]
  rw [rejected_call, checked_eq, hw, hmask, htrunc]
  rfl

/-- **Open flags.** The README's list is kept by a call exactly when the handler's own
    checks refuse it or its flags contain neither O_PATH nor O_TMPFILE. -/
theorem open_flags (m : Locals) (c : OpenCall) (fi : FileInfo) :
    c.FlagsHold m fi ↔ fi.writepage = true ∨ ifflag fi.flags c.checked = true ∨
      (fi.flags &&& oPath ≠ oPath ∧ fi.flags &&& oTmpfile ≠ oTmpfile) := by
  have hrej : (c.call fi).rejected = true ↔
      fi.writepage = true ∨ ifflag fi.flags c.checked = true := by
    rw [rejected_call, Bool.or_eq_true]
  rw [← or_assoc, ← hrej]
  constructor
  · rintro ⟨hrefuse, -⟩
    by_cases hr : (c.call fi).rejected = true
    · exact .inl hr
    · have hno : ¬ToRefuse fi := fun ht =>
        not_refuses (sendsOne m c fi (Bool.eq_false_iff.2 hr)) isRequest_ne_nil (hrefuse ht)
      exact .inr ⟨fun hp => hno (.inr ⟨oPath, by decide, hp⟩),
        fun ht => hno (.inr ⟨oTmpfile, by decide, ht⟩)⟩
  · intro h
    refine ⟨fun ht => ?_, fun ht => sendsOne m c fi (accepted_of_toSend ht)⟩
    rcases h with hr | ⟨hpath, htmp⟩
    · exact refuses m c fi hr
    · exact refuses m c fi (rejected_of_toRefuse ht hpath htmp)

end OpenCall

/-- A read-only open that asks for a path descriptor. -/
theorem open_flags_fails :
    ¬(OpenCall.fuseOpen pathA).FlagsHold default ⟨oPath, false, false, 0⟩ := by
  rintro ⟨hrefuse, -⟩
  have hacc : ((OpenCall.fuseOpen pathA).call ⟨oPath, false, false, 0⟩).rejected = false := by
    decide
  exact OpenCall.not_refuses (OpenCall.sendsOne default _ _ hacc) OpenCall.isRequest_ne_nil
    (hrefuse (.inr ⟨oPath, by decide, by decide⟩))

end Zhwkrfsp
