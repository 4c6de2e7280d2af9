import Zhwkrfsp.FuseServer

/- What a handler does on the socket, whatever the peer answers. In
   `Exchange rej φ val s g p` the program `p` is what is left of a handler that has
   sent the bytes `s` and received the bytes `g`: it sends one message that
   satisfies `φ`, receives a reply header, returns at once when `rtvl` is
   negative, and otherwise receives the rest of the reply before it returns. A
   transfer that fails ends in one unlock and `-EBUSY`, and an abort may come
   anywhere. `Exchange.step` says that every effect keeps the form, with the
   bytes moved added to `s` and `g`; `Call.exchange` that all nineteen handlers
   have it. -/
namespace Zhwkrfsp
open Wire Chan

/-- The header of a reply of which `g` has arrived. -/
def replyHdr (g : Bytes) : RpHdr := RpHdr.codec.dec (g.take RpHdr.codec.size)

theorem replyHdr_append {g : Bytes} (h : RpHdr.codec.size ≤ g.length) (bs : Bytes) :
    replyHdr (g ++ bs) = replyHdr g := by
  rw [replyHdr, List.take_append_of_le_length h, replyHdr]

theorem replyHdr_enc (rp : RpHdr) (bs : Bytes) : replyHdr (RpHdr.codec.enc rp ++ bs) = rp := by
  rw [replyHdr, Codec.take_enc, Codec.dec_enc_nil]

section
variable {α : Type} (rej : Prop) (φ : Bytes → Prop) (val : α → Int32)

/-- The way out of a failed transfer. -/
def Fails (p : Io α) : Prop := ∃ a, p = .unlock (.ret a) ∧ val a = -EBUSY

inductive Exchange : Bytes → Bytes → Io α → Prop
  | unsent (a) (hr : rej) : Exchange [] [] (.ret a)
  | negative (s g a) (hs : φ s) (hg : g.length = RpHdr.codec.size)
      (hneg : (replyHdr g).rtvl < 0) (hv : val a = (replyHdr g).rtvl) : Exchange s g (.ret a)
  | whole (s g a) (hs : φ s) (hg : RpHdr.codec.size ≤ g.length)
      (hpos : ¬(replyHdr g).rtvl < 0) (hall : g.length = (replyHdr g).size.toNat) :
      Exchange s g (.ret a)
  | stop (s g h) : Exchange s g (.stop h)
  | lock (s g k) (hk : Exchange s g k) : Exchange s g (.lock k)
  | unlock (s g k) (hk : Exchange s g k) : Exchange s g (.unlock k)
  | get (s g k) (hk : ∀ u, Exchange s g (k u)) : Exchange s g (.get k)
  | set (s g u k) (hk : Exchange s g k) : Exchange s g (.set u k)
  | write (s buf k) (hs : φ (s ++ buf)) (hk : Exchange (s ++ buf) [] (k true))
      (hr : ∃ r, k true = .read [] RpHdr.codec.size r) (hf : Fails val (k false)) :
      Exchange s [] (.write buf k)
  | header (s acc n k) (hs : φ s) (hn : acc.length + n = RpHdr.codec.size)
      (hk : ∀ bs, bs.length = n → Exchange s (acc ++ bs) (k (some (acc ++ bs))))
      (hneg : ∀ bs, bs.length = n → (replyHdr (acc ++ bs)).rtvl < 0 →
        ∃ a, k (some (acc ++ bs)) = .unlock (.ret a))
      (hf : Fails val (k none)) : Exchange s acc (.read acc n k)
  | body (s h acc n k) (hs : φ s) (hh : h.length = RpHdr.codec.size)
      (hpos : ¬(replyHdr h).rtvl < 0)
      (hn : h.length + acc.length + n = (replyHdr h).size.toNat)
      (hk : ∀ bs, bs.length = n → Exchange s (h ++ acc ++ bs) (k (some (acc ++ bs))))
      (hf : Fails val (k none)) : Exchange s (h ++ acc) (.read acc n k)

variable {rej φ val}

namespace Exchange

/-! One step of a handler. -/

/-- What a step that is no I/O error leaves. -/
theorem step {p q : Io α} {e : Ev UInt32} {s g : Bytes} (h : Exchange rej φ val s g p)
    (st : Step p e q) (he : e.isErr = false) :
    Exchange rej φ val (s ++ e.sent) (g ++ e.received) q := by
  cases st with
  | lock k => cases h with | lock _ _ _ hk => simpa [Ev.sent, Ev.received] using hk
  | unlock k => cases h with | unlock _ _ _ hk => simpa [Ev.sent, Ev.received] using hk
  | get k u => cases h with | get _ _ _ hk => simpa [Ev.sent, Ev.received] using hk u
  | set u k => cases h with | set _ _ _ _ hk => simpa [Ev.sent, Ev.received] using hk
  | wrote bs rest k hne =>
    cases h with
    | write _ _ _ hs hk hr hf =>
      rw [← List.append_assoc] at hs hk
      exact .write _ _ _ hs hk hr hf
  | writeErr buf k hne => cases he
  | writeEnd k =>
    cases h with
    | write _ _ _ _ hk _ _ => simpa [Ev.sent, Ev.received] using hk
  | got acc n k bs hn hle =>
    simp only [Ev.sent, Ev.received, List.append_nil]
    cases h with
    | header _ _ _ _ hs hlen hk hneg hf =>
      refine .header _ _ _ _ hs (by rw [List.length_append]; omega) (fun cs hcs => ?_)
        (fun cs hcs => ?_) hf
      · have hk' := hk (bs ++ cs) (by rw [List.length_append]; omega)
        rwa [← List.append_assoc] at hk'
      · have hneg' := hneg (bs ++ cs) (by rw [List.length_append]; omega)
        rwa [← List.append_assoc] at hneg'
    | body _ hd _ _ _ hs hh hpos hlen hk hf =>
      rw [List.append_assoc]
      refine .body _ _ _ _ _ hs hh hpos (by rw [List.length_append]; omega) (fun cs hcs => ?_) hf
      have hk' := hk (bs ++ cs) (by rw [List.length_append]; omega)
      simpa only [List.append_assoc] using hk'
  | readErr acc n k hn => cases he
  | readEnd acc k =>
    simp only [Ev.sent, Ev.received, List.append_nil]
    cases h with
    | header _ _ _ _ _ _ hk _ _ => simpa using hk [] rfl
    | body _ hd _ _ _ _ _ _ _ hk _ => simpa using hk [] rfl

/-- What an I/O error leaves. -/
theorem step_err {p q : Io α} {e : Ev UInt32} {s g : Bytes} (h : Exchange rej φ val s g p)
    (st : Step p e q) (he : e.isErr = true) : Fails val q := by
  cases st with
  | writeErr buf k hne => cases h with | write _ _ _ _ _ _ hf => exact hf
  | readErr acc n k hn =>
    cases h with
    | header _ _ _ _ _ _ _ _ hf => exact hf
    | body _ _ _ _ _ _ _ _ _ _ hf => exact hf
  | _ => cases he

/-- What an error-free run leaves. -/
theorem run {p q : Io α} {tr : List (Ev UInt32)} {s g : Bytes} (h : Exchange rej φ val s g p)
    (t : Run p tr q) (he : ∀ e ∈ tr, e.isErr = false) :
    Exchange rej φ val (s ++ (tr.map Ev.sent).flatten) (g ++ (tr.map Ev.received).flatten) q :=
  t.induct (I := fun p s g => Exchange rej φ val s g p)
    (fun _ _ _ _ _ hmem hp st => hp.step st (he _ hmem)) h

variable (rej φ val) in
/-- A handler that has sent `s`, a part of one message, and goes on or is on its way
    out after a failed transfer. -/
def Partly (s : Bytes) (p : Io α) : Prop :=
  (∃ msg, φ msg ∧ s <+: msg) ∧ ((∃ g, Exchange rej φ val s g p) ∨ Fails val p ∨ ∃ a, p = .ret a)

theorem step_partly {p q : Io α} {e : Ev UInt32} {s : Bytes} (h : Partly rej φ val s p)
    (st : Step p e q) : Partly rej φ val (s ++ e.sent) q := by
  obtain ⟨hpart, ⟨g, hp⟩ | ⟨a, rfl, -⟩ | ⟨a, rfl⟩⟩ := h
  · cases he : e.isErr with
    | true =>
      have hsent : e.sent = [] := by
        cases e with
        | wrote bs => cases he
        | _ => rfl
      rw [hsent, List.append_nil]
      exact ⟨hpart, .inr (.inl (hp.step_err st he))⟩
    | false =>
      refine ⟨?_, .inl ⟨_, hp.step st he⟩⟩
      cases st with
      | wrote bs rest k hne =>
        cases hp with
        | write _ _ _ hs _ _ _ =>
          rw [← List.append_assoc] at hs
          exact ⟨_, hs, ⟨rest, rfl⟩⟩
      | _ => simpa [Ev.sent] using hpart
  · -- the unlock of a failed transfer
    cases st
    exact ⟨by simpa [Ev.sent] using hpart, .inr (.inr ⟨a, rfl⟩)⟩
  · cases st

/-- Whatever happens to a handler, what it has sent is a part of one message. -/
theorem sent_part {p q : Io α} {tr : List (Ev UInt32)} (h : Exchange rej φ val [] [] p)
    (hφ : ∃ msg, φ msg) (t : Run p tr q) : ∃ msg, φ msg ∧ (tr.map Ev.sent).flatten <+: msg := by
  have h₀ : Partly rej φ val [] p :=
    ⟨hφ.imp fun _ hm => ⟨hm, List.nil_prefix⟩, .inl ⟨[], h⟩⟩
  exact (t.induct (I := fun p s _ => Partly rej φ val s p) (g := [])
    (fun _ _ _ _ _ _ hp st => step_partly hp st) h₀).1

/-! What the form says about the effect a handler is at. -/

theorem write_inv {s g buf : Bytes} {k : Bool → Io α} (h : Exchange rej φ val s g (.write buf k)) :
    φ (s ++ buf) ∧ Exchange rej φ val (s ++ buf) [] (k true) ∧
      ∃ r, k true = .read [] RpHdr.codec.size r := by
  cases h with
  | write _ _ _ hs hk hr _ => exact ⟨hs, hk, hr⟩

theorem read_inv {s g acc : Bytes} {n : Nat} {k : Option Bytes → Io α}
    (h : Exchange rej φ val s g (.read acc n k)) : φ s := by
  cases h with
  | header _ _ _ _ hs _ _ _ _ => exact hs
  | body _ _ _ _ _ hs _ _ _ _ _ => exact hs

theorem unlock_inv {s g : Bytes} {k : Io α} (h : Exchange rej φ val s g (.unlock k)) :
    Exchange rej φ val s g k := by
  cases h with
  | unlock _ _ _ hk => exact hk

/-- What is known at a return. -/
theorem ret_cases {s g : Bytes} {a : α} (h : Exchange rej φ val s g (.ret a)) :
    (rej ∧ s = [] ∧ g = []) ∨
      (φ s ∧ g.length = RpHdr.codec.size ∧ (replyHdr g).rtvl < 0 ∧ val a = (replyHdr g).rtvl) ∨
      (φ s ∧ RpHdr.codec.size ≤ g.length ∧ ¬(replyHdr g).rtvl < 0 ∧
        g.length = (replyHdr g).size.toNat) := by
  cases h with
  | unsent _ hs => exact .inl ⟨hs, rfl, rfl⟩
  | negative _ _ _ hs hg hneg hv => exact .inr (.inl ⟨hs, hg, hneg, hv⟩)
  | whole _ _ _ hs hg hpos hall => exact .inr (.inr ⟨hs, hg, hpos, hall⟩)

/-- Keep the first component of the result only. -/
theorem fst {β : Type} {s g : Bytes} {p : Io (Int32 × β)}
    (h : Exchange rej φ Prod.fst s g p) : Exchange rej φ id s g (Prod.fst <$> p) := by
  have fails : ∀ {q : Io (Int32 × β)}, Fails Prod.fst q → Fails id (Prod.fst <$> q) := by
    rintro _ ⟨a, rfl, ha⟩
    exact ⟨a.1, rfl, ha⟩
  induction h with
  | unsent a hs => exact .unsent a.1 hs
  | negative s g a hs hg hneg hv => exact .negative s g a.1 hs hg hneg hv
  | whole s g a hs hg hpos hall => exact .whole s g a.1 hs hg hpos hall
  | stop s g h => exact .stop s g h
  | lock s g k _ ih => exact .lock s g _ ih
  | unlock s g k _ ih => exact .unlock s g _ ih
  | get s g k _ ih => exact .get s g _ ih
  | set s g u k _ ih => exact .set s g u _ ih
  | write s buf k hs _ hr hf ih =>
    obtain ⟨r, hr⟩ := hr
    exact .write s buf _ hs ih ⟨_, congrArg (Functor.map Prod.fst) hr⟩ (fails hf)
  | header s acc n k hs hn _ hneg hf ih =>
    refine .header s acc n _ hs hn ih (fun bs hbs hlt => ?_) (fails hf)
    obtain ⟨a, ha⟩ := hneg bs hbs hlt
    exact ⟨a.1, congrArg (Functor.map Prod.fst) ha⟩
  | body s h acc n k hs hh hpos hn _ hf ih => exact .body s h acc n _ hs hh hpos hn ih (fails hf)

end Exchange
end

/-! The shared parts of the handlers. -/

namespace Request

/-- What a handler sends for a request; nothing when the send buffer faults. -/
def emission (r : Request) : Option Bytes := (Bss.constructor.appendAll r.parts).map Bss.content

/-- A request's bytes, a payload that 32 bits cannot count being cut. -/
def message (r : Request) : Bytes := (r.parts.map Bss.counted).flatten

theorem emission_of_small {r : Request} (h : r.bytes.length < 2 ^ 31) :
    r.emission = some r.bytes := by
  obtain ⟨b, e, hb⟩ := Bss.appendAll_holds r.parts Bss.Holds.constructor
    (by rwa [List.length_nil, Nat.zero_add])
  rw [emission, e, Option.map_some, hb.bytes]
  rfl

/-- What is emitted is the message, and its length fits 32 bits. -/
theorem emission_eq {r : Request} {msg : Bytes} (h : r.emission = some msg) :
    msg = r.message ∧ msg.length < 2 ^ 32 := by
  obtain ⟨b, e, rfl⟩ := Option.map_eq_some_iff.1 h
  have hb := Bss.Holds.constructor.appendAll _ e
  refine ⟨hb.bytes, ?_⟩
  rw [hb.bytes, ← hb.size_eq]
  exact b.size.toNat_lt

end Request

section
variable {β : Type} {rej : Prop} {φ : Bytes → Prop}

theorem warn_fails (old : β) : Fails Prod.fst (warn (-EBUSY) old) :=
  ⟨(-EBUSY, old), rfl, rfl⟩

/-- What `converse` does with the reply header, if it gets one. -/
def replied (old : β) (onReply : RpHdr → Io (Int32 × β)) (r : Option Bytes) : Io (Int32 × β) :=
  match r.map RpHdr.codec.dec with
  | none => warn (-EBUSY) old
  | some rp => if rp.rtvl < 0 then warn rp.rtvl old else onReply rp

theorem converse_emission {req : Request} {msg : Bytes} (h : req.emission = some msg) (old : β)
    (onReply : RpHdr → Io (Int32 × β)) :
    converse req old onReply = .write msg fun ok =>
      if ok then .read [] RpHdr.codec.size (replied old onReply) else warn (-EBUSY) old := by
  obtain ⟨sb, hsb, rfl⟩ := Option.map_eq_some_iff.1 h
  have hw : waitReply = .read [] RpHdr.codec.size fun r => .ret (r.map RpHdr.codec.dec) :=
    receive_eq RpHdr.codec (by decide)
  rw [converse, hsb]
  simp only [sockwrite, Prog.send, Prog.write_bind, Prog.ret_bind, hw]
  congr 1

theorem converse_exchange (req : Request) (old : β) (onReply : RpHdr → Io (Int32 × β))
    (hs : ∀ msg, req.emission = some msg → φ msg)
    (h : ∀ s g, φ s → g.length = RpHdr.codec.size → ¬(replyHdr g).rtvl < 0 →
      Exchange rej φ Prod.fst s g (onReply (replyHdr g))) :
    Exchange rej φ Prod.fst [] [] (converse req old onReply) := by
  cases e : req.emission with
  | none =>
    rw [converse, Option.map_eq_none_iff.1 e]
    exact .stop _ _ _
  | some msg =>
    have hs := hs msg e
    have hdec : ∀ g : Bytes, g.length = RpHdr.codec.size → RpHdr.codec.dec g = replyHdr g := by
      intro g hg
      rw [replyHdr, List.take_of_length_le (by omega)]
    rw [converse_emission e]
    refine .write [] _ _ hs ?_ ⟨_, rfl⟩ (warn_fails old)
    refine .header _ [] _ _ hs (by simp) (fun g hg => ?_) (fun g hg hneg => ?_) (warn_fails old)
    · simp only [replied, List.nil_append, Option.map_some, hdec g hg]
      split
      · next hneg => exact .unlock _ _ _ (.negative _ _ _ hs hg hneg rfl)
      · next hpos => exact h _ g hs hg hpos
    · refine ⟨((replyHdr g).rtvl, old), ?_⟩
      simp only [replied, List.nil_append, Option.map_some, hdec g hg]
      exact if_pos hneg

section
variable {s g : Bytes} (hs : φ s) (hg : g.length = RpHdr.codec.size)
  (hpos : ¬(replyHdr g).rtvl < 0)
include hs hg hpos

theorem headerOnly_exchange (rtvl : RpHdr → Int32) :
    Exchange rej φ Prod.fst s g (headerOnly rtvl (replyHdr g)) := by
  unfold headerOnly
  split
  · exact .stop _ _ _
  · next hsize =>
    have hsz : (replyHdr g).size.toUInt64.toNat = 12 := by
      rw [not_not.1 hsize]; rfl
    rw [UInt32.toNat_toUInt64] at hsz
    exact .unlock _ _ _ (.whole _ _ _ hs (by omega) hpos (by rw [hg, hsz]; rfl))

/-- Receiving what the header announces after itself. -/
theorem reRead_exchange (remain : UInt64) (old : β) (use : Bytes → Io (Int32 × β))
    (hr : 12 + remain.toNat = (replyHdr g).size.toNat)
    (huse : ∀ body, body.length = remain.toNat → Exchange rej φ Prod.fst s (g ++ body) (use body)) :
    Exchange rej φ Prod.fst s g (reRead remain >>= fun r =>
      match r with
      | none => warn (-EBUSY) old
      | some body => use body) := by
  have h32 : remain.toUInt32.toNat = remain.toNat := by
    have := (replyHdr g).size.toNat_lt
    rw [UInt64.toNat_toUInt32]; omega
  rw [reRead, sockread_toInt32, h32]
  split
  · rw [← List.append_nil g]
    refine .body s g [] remain.toNat _ hs hg hpos (by rw [hg, ← hr]; rfl) (fun body hlen => ?_)
      (warn_fails old)
    rw [List.append_nil, List.nil_append]
    exact huse body hlen
  · exact .stop _ _ _

/-- The last bytes of the reply, the unlock and the return. -/
theorem whole_exchange {body : Bytes} (a : Int32 × β)
    (hlen : 12 + body.length = (replyHdr g).size.toNat) :
    Exchange rej φ Prod.fst s (g ++ body) (.unlock (.ret a)) := by
  have happ := replyHdr_append (Nat.le_of_eq hg.symm) body
  refine .unlock _ _ _ (.whole _ _ _ hs ?_ ?_ ?_)
  · rw [List.length_append]; omega
  · rwa [happ]
  · rw [happ, List.length_append, hg, ← hlen]; rfl

/-- `re_read(rp.size - sizeof(struct RpHdr))`: a size below the header's wraps to
    a negative length. -/
theorem reRead_rest_exchange (old : β) (use : Bytes → Int32 × β) :
    Exchange rej φ Prod.fst s g (reRead ((replyHdr g).size.toUInt64 - sizeof RpHdr.codec) >>= fun r =>
      match r with
      | none => warn (-EBUSY) old
      | some body => Prog.release >>= fun _ => pure (use body)) := by
  have h32 := (replyHdr g).size.toNat_lt
  have hsub : ((replyHdr g).size.toUInt64 - sizeof RpHdr.codec).toNat =
      (2 ^ 64 - 12 + (replyHdr g).size.toNat) % 2 ^ 64 := by
    rw [UInt64.toNat_sub, UInt32.toNat_toUInt64]; rfl
  by_cases hle : 12 ≤ (replyHdr g).size.toNat
  · apply reRead_exchange hs hg hpos _ old _ (by omega)
    intro body hlen
    exact whole_exchange hs hg hpos _ (by omega)
  · rw [reRead, sockread_toInt32, if_neg (by rw [UInt64.toNat_toUInt32]; omega)]
    exact .stop _ _ _

theorem structBody_exchange {γ : Type} (c : Codec γ) (hc : c.size < 2 ^ 31) (old : β)
    (use : γ → β) : Exchange rej φ Prod.fst s g (structBody c old use (replyHdr g)) := by
  unfold structBody
  split
  · exact .stop _ _ _
  · next hsize =>
    have hsz : (replyHdr g).size.toNat = 12 + c.size := by
      rw [← UInt32.toNat_toUInt64, not_not.1 hsize, UInt64.toNat_add]
      simp [sizeof]; omega
    have hr : 12 + (sizeof c).toNat = (replyHdr g).size.toNat := by
      rw [hsz]; simp [sizeof]; omega
    apply reRead_exchange hs hg hpos (sizeof c) old _ hr
    intro body hlen
    exact whole_exchange hs hg hpos _ (by omega)

end

theorem converse_headerOnly_exchange (req : Request)
    (hs : ∀ msg, req.emission = some msg → φ msg) (rtvl : RpHdr → Int32) :
    Exchange rej φ Prod.fst [] [] (converse req () (headerOnly rtvl)) :=
  converse_exchange req () _ hs fun _ _ hs hg hpos => headerOnly_exchange hs hg hpos rtvl

theorem converse_structBody_exchange {γ : Type} (req : Request)
    (hs : ∀ msg, req.emission = some msg → φ msg) (c : Codec γ) (hc : c.size < 2 ^ 31) (old : β) (use : γ → β) :
    Exchange rej φ Prod.fst [] [] (converse req old (structBody c old use)) :=
  converse_exchange req old _ hs fun _ _ hs hg hpos => structBody_exchange hs hg hpos c hc old use

end

/-! The nineteen handlers. -/

section
variable {β : Type} {rej : Prop} {φ : Bytes → Prop} {p : UInt32 → Io (Int32 × β)}

theorem enter_exchange (h : ∀ ouid, Exchange rej φ Prod.fst [] [] (p ouid)) :
    Exchange rej φ Prod.fst [] [] (enter >>= p) :=
  .lock _ _ _ (.get _ _ _ fun _ => .set _ _ _ _ (.get _ _ _ h))

theorem load_exchange (h : ∀ ouid, Exchange rej φ Prod.fst [] [] (p ouid)) :
    Exchange rej φ Prod.fst [] [] (Prog.load >>= p) := .get _ _ _ h

theorem openChecks_exchange {fi : FileInfo} {unsupported : UInt32} {k : Io (Int32 × FileInfo)}
    (hrej : (fi.writepage || ifflag fi.flags unsupported) = true → rej)
    (h : (fi.writepage || ifflag fi.flags unsupported) = false → Exchange rej φ Prod.fst [] [] k) :
    Exchange rej φ Prod.fst [] [] (openChecks fi unsupported k) := by
  unfold openChecks
  split
  · next hp => exact .unlock _ _ _ (.unsent _ (hrej (by rw [hp, Bool.true_or])))
  split
  · next hf => exact .unlock _ _ _ (.unsent _ (hrej (by rw [hf, Bool.or_true])))
  · next hp hf => exact h (by simp [hp, hf])

end

/-- A non-negative `rtvl` keeps its value as a `size_t`. -/
theorem toNat_toInt64 {x : Int32} (h : ¬x < 0) :
    x.toInt64.toUInt64.toNat = x.toUInt32.toNat ∧ x.toUInt32.toNat < 2 ^ 31 := by
  rw [Int32.lt_iff_toInt_lt, Int.not_lt] at h
  have hx : 0 ≤ x.toBitVec.toInt := h
  have hext : (x.toBitVec.signExtend 64).toInt = x.toBitVec.toInt :=
    BitVec.toInt_signExtend_of_le (by decide)
  have hneg := BitVec.toInt_neg_iff (x := x.toBitVec)
  have hneg64 := BitVec.toInt_neg_iff (x := x.toBitVec.signExtend 64)
  rw [BitVec.toInt_eq_toNat_cond, BitVec.toInt_eq_toNat_cond] at hext
  show (x.toBitVec.signExtend 64).toNat = x.toBitVec.toNat ∧ x.toBitVec.toNat < 2 ^ 31
  omega

section
variable (m : Locals) {rej : Prop} {φ : Bytes → Prop}

theorem fuseReadlink_exchange (fn : Path) (dest : Bytes)
    (hs : ∀ ouid msg, (fuseReadlink.request m fn ouid).emission = some msg → φ msg) :
    Exchange rej φ Prod.fst [] [] (fuseReadlink m fn dest) := by
  refine enter_exchange fun ouid => converse_exchange _ _ _ (hs ouid) fun s g hs hg hpos => ?_
  split
  · exact .stop _ _ _
  · exact reRead_rest_exchange hs hg hpos dest fun body => (0, body ++ dest.drop body.length)

theorem fuseReaddir_exchange (dn : Path) (fill : Fill) (offset : Int64) (fi : FileInfo)
    (hs : ∀ ouid msg, (fuseReaddir.request m dn offset fi ouid).emission = some msg → φ msg) :
    Exchange rej φ Prod.fst [] [] (fuseReaddir m dn fill offset fi) := by
  refine enter_exchange fun ouid => converse_exchange _ _ _ (hs ouid) fun s g hs hg hpos => ?_
  split
  · exact .stop _ _ _
  · exact reRead_rest_exchange hs hg hpos [] _

theorem fuseRead_exchange (fn : Path) (buf : Bytes) (pos : Int64) (fi : FileInfo)
    (hs : ∀ ouid msg, (fuseRead.request m fn (UInt64.ofNat buf.length) pos fi ouid).emission =
      some msg → φ msg) :
    Exchange rej φ Prod.fst [] [] (fuseRead m fn buf pos fi) := by
  refine enter_exchange fun ouid => converse_exchange _ _ _ (hs ouid) fun s g hs hg hpos => ?_
  split
  · exact .stop _ _ _
  split
  · exact .stop _ _ _
  · next hsize =>
    obtain ⟨hrt, hlt⟩ := toNat_toInt64 hpos
    have hsz : (replyHdr g).size.toNat = 12 + (replyHdr g).rtvl.toUInt32.toNat := by
      rw [← UInt32.toNat_toUInt64, not_not.1 hsize, UInt64.toNat_add, hrt]
      simp [sizeof]; omega
    apply reRead_exchange hs hg hpos _ buf _ (by omega)
    intro body hlen
    exact whole_exchange hs hg hpos _ (by omega)

/-- What a call can send: its request, under some `ouid`. -/
def Call.Sends (m : Locals) (c : Call) (b : Bytes) : Prop :=
  c.rejected = false ∧ ∃ ouid, (c.request m ouid).emission = some b

/-- The form of a call's program. -/
abbrev Call.Exchanges (c : Call) (s g : Bytes) (p : Io Int32) : Prop :=
  Exchange (c.rejected = true) (c.Sends m) id s g p

/-- Every handler has the form of an exchange. -/
theorem Call.exchange (c : Call) : c.Exchanges m [] [] (c.prog m) := by
  have hs : c.rejected = false →
      ∀ ouid msg, (c.request m ouid).emission = some msg → c.Sends m msg :=
    fun h ouid _ e => ⟨h, ouid, e⟩
  cases c with
  | fuseGetattr fn st =>
    exact (enter_exchange fun ouid =>
      converse_structBody_exchange _ (hs rfl ouid) _ (by decide) _ _).fst
  | fuseReadlink fn dest => exact (fuseReadlink_exchange m fn dest (hs rfl)).fst
  | fuseMkdir dn mode =>
    exact (enter_exchange fun ouid => converse_headerOnly_exchange _ (hs rfl ouid) _).fst
  | fuseRmdir dn =>
    exact (enter_exchange fun ouid => converse_headerOnly_exchange _ (hs rfl ouid) _).fst
  | fuseSymlink fn srcfn =>
    exact (enter_exchange fun ouid => converse_headerOnly_exchange _ (hs rfl ouid) _).fst
  | fuseChmod fn mode =>
    exact (load_exchange fun ouid => converse_headerOnly_exchange _ (hs rfl ouid) _).fst
  | fuseTruncate fn pos =>
    exact (enter_exchange fun ouid =>
      .set _ _ _ _ (converse_headerOnly_exchange _ (hs rfl ouid) _)).fst
  | fuseOpen fn fi =>
    exact (enter_exchange fun ouid => openChecks_exchange id fun hacc =>
      converse_structBody_exchange _ (hs hacc ouid) _ (by decide) _ _).fst
  | fuseRead fn buf pos fi => exact (fuseRead_exchange m fn buf pos fi (hs rfl)).fst
  | fuseWrite fn buf pos fi =>
    exact (enter_exchange fun ouid => converse_headerOnly_exchange _ (hs rfl ouid) _).fst
  | fuseStatfs fn fstat =>
    exact (enter_exchange fun ouid =>
      converse_structBody_exchange _ (hs rfl ouid) _ (by decide) _ _).fst
  | fuseRelease fi =>
    exact (enter_exchange fun ouid => converse_headerOnly_exchange _ (hs rfl ouid) _).fst
  | fuseOpendir dn fi =>
    exact (enter_exchange fun ouid => openChecks_exchange id fun hacc =>
      converse_structBody_exchange _ (hs hacc ouid) _ (by decide) _ _).fst
  | fuseReaddir dn fill offset fi => exact (fuseReaddir_exchange m dn fill offset fi (hs rfl)).fst
  | fuseReleasedir fi =>
    exact (enter_exchange fun ouid => converse_headerOnly_exchange _ (hs rfl ouid) _).fst
  | fuseAccess fn amode =>
    exact (load_exchange fun ouid => converse_headerOnly_exchange _ (hs rfl ouid) _).fst
  | fuseUnlink fn =>
    exact (load_exchange fun ouid => converse_headerOnly_exchange _ (hs rfl ouid) _).fst
  | fuseCreat fn mode fi =>
    exact (enter_exchange fun ouid => openChecks_exchange id fun hacc =>
      converse_structBody_exchange _ (hs hacc ouid) _ (by decide) _ _).fst
  | fuseUtimens fn atime mtime =>
    exact (load_exchange fun ouid => converse_headerOnly_exchange _ (hs rfl ouid) _).fst

/-- A handler that returns without an I/O error was rejected and moved no byte,
    or it has sent its request once. -/
theorem Call.sent_of_run {c : Call} {tr : List (Ev UInt32)} {v : Int32}
    (t : Run (c.prog m) tr (.ret v)) (he : ∀ e ∈ tr, e.isErr = false) :
    (c.rejected = true ∧ (tr.map Ev.sent).flatten = [] ∧ (tr.map Ev.received).flatten = []) ∨
      c.Sends m (tr.map Ev.sent).flatten := by
  rcases ((c.exchange m).run t he).ret_cases with h | h | h
  · exact .inl h
  · exact .inr h.1
  · exact .inr h.1

end

end Zhwkrfsp
