import Zhwkrfsp.FuseServer

/- The transfer loops of `netwrap.c` as the code computes them: the array on the
   stack, the offsets, the counts in `int` and `unsigned int`, and one append to the
   caller's buffer for each `read(2)`. What the kernel does is a list of answers,
   one for each call; a loop that has used them all up is still `busy`. With enough
   answers `sockwrite` sends its whole buffer and `sockread` appends the pieces of
   one message, however it is cut (`sockwriteLoop_pieces`, `sockreadLoop_pieces`);
   on a stream that ends early `sockread` goes on reading nothing for ever
   (`sockreadLoop_short`). The `read` and `write` nodes that the handlers use do
   what these loops do (`sockread_run`, `sockwrite_run`). -/
namespace Zhwkrfsp
open Wire Chan

/-- What one `read(2)` or `write(2)` does: fail, or move up to so many bytes. -/
abbrev Answer := Option Nat

/-- The bytes a call moves of those on offer, none only where there are none. -/
def part (c : Nat) (offered : Bytes) : Bytes := offered.take (max 1 c)

/-- `qStreamSocket_read`: the array is cleared up to `buffer_size` before the read. -/
def qStreamSocketRead (answer : Answer) (buffer : Bytes) (buffer_size : UInt32) (inp : Bytes) :
    Option (Int32 × Bytes × Bytes) := do
  let buffer ← memcpy buffer 0 (List.replicate buffer_size.toNat 0)
  match answer with
  | none => return (-1, buffer, inp)
  | some c =>
    let bs := part c (inp.take buffer_size.toNat)
    let buffer ← memcpy buffer 0 bs
    return (Int32.ofNat bs.length, buffer, inp.drop bs.length)

/-- `qStreamSocket_write`. -/
def qStreamSocketWrite (answer : Answer) (content : Bytes) (size : UInt32) :
    Option (Int32 × Bytes) :=
  match answer with
  | none => some (-1, [])
  | some c =>
    if size.toNat ≤ content.length then
      let bs := part c (content.take size.toNat)
      some (Int32.ofNat bs.length, bs)
    else none

/-- A transfer loop on a finite list of answers: it has left a block, goes on, or
    has returned with some answers unused. -/
inductive Transfer (σ : Type) where
  | fault
  | busy (s : σ)
  | ret (rc : Int32) (s : σ) (rest : List Answer)

/-- The variables of `sockread`, and the stream. -/
structure Receiving where
  bss : Bss
  buf : Bytes
  remain : Int32
  inp : Bytes

def sockreadLoop : List Answer → Receiving → Transfer Receiving
  | [], s => if s.remain = 0 then .ret 0 s [] else .busy s
  | answer :: rest, s =>
    if s.remain = 0 then .ret 0 s (answer :: rest)
    else
      match qStreamSocketRead answer s.buf s.remain.toUInt32 s.inp with
      | none => .fault
      | some (actr, buf, inp) =>
        if actr = -1 then .ret (-1) { s with buf := buf, inp := inp } rest
        else
          match s.bss.append buf actr.toUInt32 with
          | none => .fault
          | some bss => sockreadLoop rest ⟨bss, buf, s.remain - actr, inp⟩

/-- `sockread`. The array is not initialised, but every call clears what it uses. -/
def Net.sockread (bss : Bss) (intended : Int32) (answers : List Answer) (inp : Bytes) :
    Transfer Receiving :=
  if intended < 0 then .fault
  else sockreadLoop answers ⟨bss, List.replicate intended.toInt.toNat 0, intended, inp⟩

/-- The loop of `sockwrite`, with what has been written to the stream. -/
def sockwriteLoop (bss : Bss) : List Answer → Int32 → Bytes → Transfer Bytes
  | [], already, out => if bss.size - already.toUInt32 = 0 then .ret 0 out [] else .busy out
  | answer :: rest, already, out =>
    if bss.size - already.toUInt32 = 0 then .ret 0 out (answer :: rest)
    else if already < 0 then .fault
    else
      match qStreamSocketWrite answer (bss.str.drop already.toInt.toNat)
          (bss.size - already.toUInt32) with
      | none => .fault
      | some (actw, bs) =>
        if actw = -1 then .ret (-1) out rest
        else sockwriteLoop bss rest (already + actw) (out ++ bs)

/-- `sockwrite`. -/
def Net.sockwrite (bss : Bss) (answers : List Answer) (out : Bytes) : Transfer Bytes :=
  sockwriteLoop bss answers 0 out

/-- The pieces in which a message is moved. -/
def pieces : List Nat → Bytes → List Bytes
  | [], _ => []
  | c :: cs, m => if m = [] then [] else part c m :: pieces cs (m.drop (part c m).length)

/-! Cutting a message. -/

theorem part_length (c : Nat) (bs : Bytes) : (part c bs).length ≤ bs.length := by
  rw [part, List.length_take]
  exact Nat.min_le_right _ _

theorem part_pos (c : Nat) {bs : Bytes} (h : bs ≠ []) : 0 < (part c bs).length := by
  have hpos := List.length_pos_iff.2 h
  rw [part, List.length_take]
  omega

theorem part_append_drop (c : Nat) (bs : Bytes) :
    part c bs ++ bs.drop (part c bs).length = bs := by
  have hcut : bs.drop (part c bs).length = bs.drop (max 1 c) := by
    rw [part, List.length_take]
    by_cases h : max 1 c ≤ bs.length
    · rw [Nat.min_eq_left h]
    · rw [Nat.min_eq_right (by omega), List.drop_length, List.drop_of_length_le (by omega)]
  rw [hcut, part, List.take_append_drop]

theorem pieces_cons (c : Nat) (cs : List Nat) {m : Bytes} (h : m ≠ []) :
    pieces (c :: cs) m = part c m :: pieces cs (m.drop (part c m).length) := if_neg h

@[simp] theorem pieces_nil (cs : List Nat) : pieces cs [] = [] := by
  cases cs with
  | nil => rfl
  | cons c cs => exact if_pos rfl

/-- One answer for each byte is enough. -/
theorem pieces_flatten {cs : List Nat} {m : Bytes} (h : m.length ≤ cs.length) :
    (pieces cs m).flatten = m := by
  induction cs generalizing m with
  | nil =>
    rw [List.eq_nil_of_length_eq_zero (Nat.le_zero.1 h)]
    rfl
  | cons c cs ih =>
    by_cases hm : m = []
    · subst hm
      rfl
    · have hpos := part_pos c hm
      rw [pieces_cons c cs hm, List.flatten_cons, ih, part_append_drop]
      rw [List.length_drop]
      rw [List.length_cons] at h
      omega

/-- No piece is empty, so there are no more than bytes. -/
theorem pieces_length_le (cs : List Nat) (m : Bytes) : (pieces cs m).length ≤ m.length := by
  induction cs generalizing m with
  | nil => exact Nat.zero_le _
  | cons c cs ih =>
    by_cases hm : m = []
    · subst hm
      exact Nat.zero_le _
    · have hpos := part_pos c hm
      have hle := part_length c m
      have hrest := ih (m.drop (part c m).length)
      rw [pieces_cons c cs hm, List.length_cons]
      rw [List.length_drop] at hrest
      omega

theorem pieces_mem_length {cs : List Nat} {m s : Bytes} (h : s ∈ pieces cs m) :
    s.length ≤ m.length := by
  induction cs generalizing m with
  | nil => cases h
  | cons c cs ih =>
    by_cases hm : m = []
    · subst hm
      rw [pieces_nil] at h
      cases h
    · rw [pieces_cons c cs hm] at h
      rcases List.mem_cons.1 h with rfl | h
      · exact part_length c m
      · have := ih h
        rw [List.length_drop] at this
        omega

/-! Small counts as `int` and `unsigned int`. -/

theorem int_ofNat_ne {n : Nat} (h : n < 2 ^ 31) :
    (Int32.ofNat n = 0 ↔ n = 0) ∧ Int32.ofNat n ≠ -1 := by
  have hint : (Int32.ofNat n).toInt = n := Int32.toInt_ofNat_of_lt h
  have h0 : (0 : Int32).toInt = 0 := rfl
  have h1 : (-1 : Int32).toInt = -1 := rfl
  refine ⟨?_, fun he => ?_⟩
  · rw [← Int32.toInt_inj, hint, h0]
    omega
  · rw [← Int32.toInt_inj, hint, h1] at he
    omega

theorem uint_ofNat {n : Nat} (h : n < 2 ^ 32) : (UInt32.ofNat n).toNat = n :=
  UInt32.toNat_ofNat_of_lt' h

/-! One read. -/

theorem qStreamSocketRead_some {buf : Bytes} {n : Nat} (hlt : n < 2 ^ 31) (hbuf : n ≤ buf.length)
    (c : Nat) (inp : Bytes) :
    ∃ buf', buf'.length = buf.length ∧ buf'.take (part c (inp.take n)).length = part c (inp.take n) ∧
      qStreamSocketRead (some c) buf (Int32.ofNat n).toUInt32 inp =
        some (Int32.ofNat (part c (inp.take n)).length, buf',
          inp.drop (part c (inp.take n)).length) := by
  have hsize : (Int32.ofNat n).toUInt32.toNat = n := by
    rw [Int32.toUInt32_ofNat', uint_ofNat (by omega)]
  obtain ⟨b₁, e₁, hl₁, -⟩ := memcpy_spec buf 0 (List.replicate n 0)
    (by rw [List.length_replicate]; omega)
  have hpart : (part c (inp.take n)).length ≤ n := by
    have hle := part_length c (inp.take n)
    rw [List.length_take] at hle
    omega
  obtain ⟨b₂, e₂, hl₂, ht₂⟩ := memcpy_spec b₁ 0 (part c (inp.take n)) (by omega)
  refine ⟨b₂, hl₂.trans hl₁, ?_, ?_⟩
  · rw [Nat.zero_add, List.take_zero, List.nil_append] at ht₂
    exact ht₂
  · simp only [qStreamSocketRead, hsize, Option.bind_eq_bind, e₁, Option.bind_some, e₂,
      Option.pure_def]

/-- One round of `sockread`: what the read delivers is appended. -/
theorem sockreadLoop_some {n : Nat} (h0 : 0 < n) (hlt : n < 2 ^ 31) (bss : Bss) {buf : Bytes}
    (hbuf : n ≤ buf.length) (c : Nat) (rest : List Answer) (inp : Bytes) :
    ∃ buf', buf'.length = buf.length ∧
      sockreadLoop (some c :: rest) ⟨bss, buf, Int32.ofNat n, inp⟩ =
        match bss.append (part c (inp.take n)) (UInt32.ofNat (part c (inp.take n)).length) with
        | none => .fault
        | some bss => sockreadLoop rest ⟨bss, buf', Int32.ofNat (n - (part c (inp.take n)).length),
            inp.drop (part c (inp.take n)).length⟩ := by
  obtain ⟨buf', hl, htake, e⟩ := qStreamSocketRead_some hlt hbuf c inp
  have hle : (part c (inp.take n)).length ≤ n := by
    have hle := part_length c (inp.take n)
    rw [List.length_take] at hle
    omega
  have happ : bss.append buf' (UInt32.ofNat (part c (inp.take n)).length) =
      bss.append (part c (inp.take n)) (UInt32.ofNat (part c (inp.take n)).length) := by
    rw [← Bss.append_take bss buf', uint_ofNat (by omega), htake]
  refine ⟨buf', hl, ?_⟩
  rw [sockreadLoop, if_neg (mt (int_ofNat_ne hlt).1.1 (by omega)), e]
  simp only [if_neg (int_ofNat_ne (Nat.lt_of_le_of_lt hle hlt)).2, Int32.toUInt32_ofNat', happ]
  rw [Int32.ofNat_sub n _ hle]

/-! Whole transfers. -/

/-- **A message that is there.** With an answer for each of its bytes, `sockread`
    appends the pieces of the message one after another and stops behind it. -/
theorem sockreadLoop_pieces (tail : Bytes) {cs : List Nat} :
    ∀ {m : Bytes} (bss : Bss) {buf : Bytes}, m.length < 2 ^ 31 → m.length ≤ buf.length →
      m.length ≤ cs.length →
      match bss.appendAll (pieces cs m) with
      | none => sockreadLoop (cs.map some) ⟨bss, buf, Int32.ofNat m.length, m ++ tail⟩ = .fault
      | some b => ∃ buf', sockreadLoop (cs.map some) ⟨bss, buf, Int32.ofNat m.length, m ++ tail⟩ =
          .ret 0 ⟨b, buf', 0, tail⟩ ((cs.drop (pieces cs m).length).map some) := by
  induction cs with
  | nil =>
    intro m bss buf _ _ hcs
    have hm : m = [] := List.eq_nil_of_length_eq_zero (Nat.le_zero.1 hcs)
    subst hm
    exact ⟨buf, rfl⟩
  | cons c cs ih =>
    intro m bss buf hlt hbuf hcs
    by_cases hm : m = []
    · subst hm
      exact ⟨buf, rfl⟩
    · have hpos := List.length_pos_iff.2 hm
      obtain ⟨buf', hl, hstep⟩ := sockreadLoop_some hpos hlt bss hbuf c (cs.map some) (m ++ tail)
      have htake : (m ++ tail).take m.length = m := List.take_left
      have hle := part_length c m
      rw [htake, List.drop_append_of_le_length hle] at hstep
      rw [pieces_cons c cs hm, List.map_cons, hstep, Bss.appendAll]
      cases ea : bss.append (part c m) (UInt32.ofNat (part c m).length) with
      | none => rfl
      | some b =>
        have hppos := part_pos c hm
        rw [List.length_cons] at hcs
        have hdrop : (m.drop (part c m).length).length = m.length - (part c m).length :=
          List.length_drop
        have hrest := @ih (m.drop (part c m).length) b buf' (by omega) (by omega) (by omega)
        rw [hdrop] at hrest
        exact hrest

/-- **A stream that ends early.** However it is cut, `sockread` does not return. -/
theorem sockreadLoop_short {cs : List Nat} :
    ∀ {n : Nat} (bss : Bss) {buf inp : Bytes}, n < 2 ^ 31 → n ≤ buf.length → inp.length < n →
      ∀ rc s rest, sockreadLoop (cs.map some) ⟨bss, buf, Int32.ofNat n, inp⟩ ≠ .ret rc s rest := by
  induction cs with
  | nil =>
    intro n bss buf inp hlt _ hshort rc s rest
    rw [List.map_nil, sockreadLoop, if_neg (mt (int_ofNat_ne hlt).1.1 (by omega))]
    exact nofun
  | cons c cs ih =>
    intro n bss buf inp hlt hbuf hshort rc s rest
    obtain ⟨buf', hl, hstep⟩ :=
      sockreadLoop_some (by omega) hlt bss hbuf c (cs.map some) inp
    rw [List.map_cons, hstep]
    have hle := part_length c (inp.take n)
    rw [List.length_take] at hle
    split
    · exact nofun
    · rename_i b _
      apply ih b (by omega) (by omega)
      rw [List.length_drop]
      omega

/-- One round of `sockwrite`. -/
theorem sockwriteLoop_some {bss : Bss} {m : Bytes} (hb : Bss.Holds bss m) (hlt : m.length < 2 ^ 31)
    {a : Nat} (ha : a < m.length) (c : Nat) (rest : List Answer) (out : Bytes) :
    sockwriteLoop bss (some c :: rest) (Int32.ofNat a) out =
      sockwriteLoop bss rest (Int32.ofNat (a + (part c (m.drop a)).length))
        (out ++ part c (m.drop a)) := by
  have hsize : bss.size = UInt32.ofNat m.length := by
    rw [← UInt32.toNat_inj, hb.size_eq, uint_ofNat (by omega)]
  have hleft : bss.size - (Int32.ofNat a).toUInt32 = UInt32.ofNat (m.length - a) := by
    rw [hsize, Int32.toUInt32_ofNat', UInt32.ofNat_sub (Nat.le_of_lt ha)]
  have hne : ¬UInt32.ofNat (m.length - a) = 0 := by
    rw [← UInt32.toNat_inj, uint_ofNat (by omega)]
    have h0 : (0 : UInt32).toNat = 0 := rfl
    omega
  have hneg : ¬Int32.ofNat a < 0 := Int32.not_lt.2 (Int32.zero_le_ofNat_of_lt (by omega))
  have hint : (Int32.ofNat a).toInt.toNat = a := by
    rw [Int32.toInt_ofNat_of_lt (by omega), Int.toNat_natCast]
  have htake : (bss.str.drop a).take (m.length - a) = m.drop a := by
    have hbytes := hb.bytes
    rw [Bss.content, hb.size_eq] at hbytes
    rw [← List.drop_take, hbytes]
  have hroom : m.length - a ≤ (bss.str.drop a).length := by
    have hlen := congrArg List.length htake
    rw [List.length_take, @List.length_drop _ a m] at hlen
    omega
  have hle := part_length c (m.drop a)
  rw [List.length_drop] at hle
  rw [sockwriteLoop, hleft, if_neg hne, if_neg hneg, hint, qStreamSocketWrite]
  simp only [uint_ofNat (n := m.length - a) (by omega), if_pos hroom, htake,
    if_neg (int_ofNat_ne (n := (part c (m.drop a)).length) (by omega)).2, ← Int32.ofNat_add]

/-- **A message is sent.** With an answer for each byte that is left, `sockwrite`
    puts the rest of its buffer on the stream. -/
theorem sockwriteLoop_pieces {bss : Bss} {m : Bytes} (hb : Bss.Holds bss m)
    (hlt : m.length < 2 ^ 31) {cs : List Nat} :
    ∀ {a : Nat} (out : Bytes), a ≤ m.length → m.length - a ≤ cs.length →
      sockwriteLoop bss (cs.map some) (Int32.ofNat a) out =
        .ret 0 (out ++ m.drop a) ((cs.drop (pieces cs (m.drop a)).length).map some) := by
  have hdone : bss.size - (Int32.ofNat m.length).toUInt32 = 0 := by
    have hsize : bss.size = UInt32.ofNat m.length := by
      rw [← UInt32.toNat_inj, hb.size_eq, uint_ofNat (by omega)]
    rw [hsize, Int32.toUInt32_ofNat', UInt32.sub_self]
  induction cs with
  | nil =>
    intro a out ha hcs
    have heq : a = m.length := by
      rw [List.length_nil] at hcs
      omega
    subst heq
    rw [List.map_nil, sockwriteLoop, if_pos hdone, List.drop_length, List.append_nil]
    rfl
  | cons c cs ih =>
    intro a out ha hcs
    by_cases heq : a = m.length
    · subst heq
      rw [List.map_cons, sockwriteLoop, if_pos hdone, List.drop_length, List.append_nil, pieces_nil]
      rfl
    · have hne : m.drop a ≠ [] := by
        rw [Ne, List.drop_eq_nil_iff]
        omega
      have hpos := part_pos c hne
      have hle := part_length c (m.drop a)
      rw [List.length_drop] at hle
      rw [List.length_cons] at hcs
      rw [List.map_cons, sockwriteLoop_some hb hlt (by omega) c, ih _ (by omega) (by omega),
        pieces_cons c cs hne, List.drop_drop, List.append_assoc]
      congr 2
      rw [← List.drop_drop]
      exact part_append_drop c (m.drop a)

/-! The nodes of `Chan.Prog` do what the loops do. -/

/-- What a `read` node has come to when the loop has come to `t`, `left` being the
    rest of the stream. -/
def Mirrors {α : Type} (k : Option Bytes → Io α) (q : Io α) (left : Bytes) :
    Transfer Receiving → Prop
  | .fault => False
  | .busy s => s.inp = left ∧ ∃ acc n, Bss.Holds s.bss acc ∧ s.remain = Int32.ofNat n ∧
      q = .read acc n k
  | .ret rc s _ => s.inp = left ∧
      ((rc = 0 ∧ ∃ acc, Bss.Holds s.bss acc ∧ q = k (some acc)) ∨ (rc = -1 ∧ q = k none))

theorem sockreadLoop_run {α : Type} (k : Option Bytes → Io α) {answers : List Answer} :
    ∀ {n : Nat} {acc : Bytes} {bss : Bss} {buf inp : Bytes}, n ≤ buf.length →
      Bss.Holds bss acc → acc.length + n < 2 ^ 31 →
      ∃ tr q left, Run (.read acc n k) tr q ∧ (tr.map Ev.received).flatten ++ left = inp ∧
        Mirrors k q left (sockreadLoop answers ⟨bss, buf, Int32.ofNat n, inp⟩) := by
  induction answers with
  | nil =>
    intro n acc bss buf inp _ hb hlt
    have hzero := (int_ofNat_ne (n := n) (by omega)).1
    rw [sockreadLoop]
    by_cases hn : n = 0
    · subst hn
      exact ⟨[.tau], _, inp, .single (.readEnd acc k), rfl, rfl, .inl ⟨rfl, acc, hb, rfl⟩⟩
    · rw [if_neg (mt hzero.1 hn)]
      exact ⟨[], _, inp, .refl _, rfl, rfl, acc, n, hb, rfl, rfl⟩
  | cons answer rest ih =>
    intro n acc bss buf inp hbuf hb hlt
    have hzero := (int_ofNat_ne (n := n) (by omega)).1
    by_cases hn : n = 0
    · subst hn
      exact ⟨[.tau], _, inp, .single (.readEnd acc k), rfl, rfl, .inl ⟨rfl, acc, hb, rfl⟩⟩
    · cases answer with
      | none =>
        obtain ⟨buf', e, -, -⟩ := memcpy_spec buf 0
          (List.replicate (Int32.ofNat n).toUInt32.toNat 0)
          (by rw [List.length_replicate, Int32.toUInt32_ofNat', uint_ofNat (by omega)]; omega)
        rw [sockreadLoop, if_neg (mt hzero.1 hn), qStreamSocketRead, e]
        exact ⟨[.readErr], _, inp, .single (.readErr acc n k hn), rfl, rfl, .inr ⟨rfl, rfl⟩⟩
      | some c =>
        obtain ⟨buf', hl, hstep⟩ :=
          sockreadLoop_some (Nat.pos_of_ne_zero hn) (by omega) bss hbuf c rest inp
        generalize hgot : part c (inp.take n) = got at hstep
        -- what came is the beginning of the stream, and no more than was asked for
        have hle : got.length ≤ n ∧ got.length ≤ inp.length := by
          have hle := part_length c (inp.take n)
          rw [hgot, List.length_take] at hle
          omega
        have hpre : got ++ inp.drop got.length = inp := by
          have hp : got <+: inp := by
            rw [← hgot, part, List.take_take]
            exact List.take_prefix _ _
          obtain ⟨t, rfl⟩ := hp
          rw [List.drop_left]
        have hcount : got.length = (UInt32.ofNat got.length).toNat := (uint_ofNat (by omega)).symm
        obtain ⟨b, ea, hb'⟩ := Bss.append_holds hb hcount (by omega)
        rw [hstep, ea]
        obtain ⟨tr, q, left, run, hin, hm⟩ := @ih (n - got.length) _ b buf'
          (inp.drop got.length) (by omega) hb' (by rw [List.length_append]; omega)
        refine ⟨.got got :: tr, q, left, .step (.got acc n k got hn hle.1) run, ?_, hm⟩
        rw [List.map_cons, List.flatten_cons, List.append_assoc, hin]
        exact hpre

/-- A length that is not negative is a small number. -/
theorem int_eq_ofNat {i : Int32} (h : 0 ≤ i) :
    i = Int32.ofNat i.toInt.toNat ∧ i.toInt.toNat < 2 ^ 31 := by
  have h0 : 0 ≤ i.toInt := Int32.le_iff_toInt_le.1 h
  have hmax := i.toInt_lt
  have hlt : i.toInt.toNat < 2 ^ 31 := by omega
  refine ⟨?_, hlt⟩
  rw [← Int32.toInt_inj, Int32.toInt_ofNat_of_lt hlt]
  omega

/-- Every execution of `sockread` into a fresh buffer is a run of the program the
    handlers use. -/
theorem sockread_run (intended : Int32) (h : 0 ≤ intended) (answers : List Answer) (inp : Bytes) :
    ∃ tr q left, Run (sockread intended) tr q ∧ (tr.map Ev.received).flatten ++ left = inp ∧
      Mirrors .ret q left (Net.sockread Bss.constructor intended answers inp) := by
  have hneg : ¬intended < 0 := Int32.not_lt.2 h
  obtain ⟨hof, hlt⟩ := int_eq_ofNat h
  rw [sockread, if_neg hneg, Net.sockread, if_neg hneg, Prog.recv]
  generalize intended.toInt.toNat = n at hof hlt
  subst hof
  apply sockreadLoop_run .ret _ Bss.Holds.constructor
  · rw [List.length_nil]
    omega
  · exact Nat.le_of_eq List.length_replicate.symm

/-- The same for a `write` node, `out` being the stream before it. -/
def MirrorsWrite {α : Type} (k : Bool → Io α) (q : Io α) (out : Bytes) : Transfer Bytes → Prop
  | .fault => False
  | .busy s => s = out ∧ ∃ m, q = .write m k
  | .ret rc s _ => s = out ∧ ((rc = 0 ∧ q = k true) ∨ (rc = -1 ∧ q = k false))

theorem sockwriteLoop_run {α : Type} (k : Bool → Io α) {bss : Bss} {m : Bytes}
    (hb : Bss.Holds bss m) (hlt : m.length < 2 ^ 31) {answers : List Answer} :
    ∀ {a : Nat} (out : Bytes), a ≤ m.length →
      ∃ tr q, Run (.write (m.drop a) k) tr q ∧
        MirrorsWrite k q (out ++ (tr.map Ev.sent).flatten)
          (sockwriteLoop bss answers (Int32.ofNat a) out) := by
  -- the loop ends when the counter is the size of the buffer
  have hdone : ∀ {a}, a ≤ m.length →
      (bss.size - (Int32.ofNat a).toUInt32 = 0 ↔ a = m.length) := by
    intro a ha
    have hsize : bss.size = UInt32.ofNat m.length := by
      rw [← UInt32.toNat_inj, hb.size_eq, uint_ofNat (by omega)]
    rw [hsize, Int32.toUInt32_ofNat', ← UInt32.ofNat_sub ha, ← UInt32.toNat_inj,
      uint_ofNat (by omega)]
    have h0 : (0 : UInt32).toNat = 0 := rfl
    omega
  induction answers with
  | nil =>
    intro a out ha
    rw [sockwriteLoop]
    by_cases heq : a = m.length
    · rw [if_pos ((hdone ha).2 heq), heq, List.drop_length]
      exact ⟨[.tau], _, .single (.writeEnd k), (List.append_nil out).symm, .inl ⟨rfl, rfl⟩⟩
    · rw [if_neg (mt (hdone ha).1 heq)]
      exact ⟨[], _, .refl _, (List.append_nil out).symm, _, rfl⟩
  | cons answer rest ih =>
    intro a out ha
    by_cases heq : a = m.length
    · rw [sockwriteLoop, if_pos ((hdone ha).2 heq), heq, List.drop_length]
      exact ⟨[.tau], _, .single (.writeEnd k), (List.append_nil out).symm, .inl ⟨rfl, rfl⟩⟩
    · have hne : m.drop a ≠ [] := by
        rw [Ne, List.drop_eq_nil_iff]
        omega
      cases answer with
      | none =>
        have hneg : ¬Int32.ofNat a < 0 := Int32.not_lt.2 (Int32.zero_le_ofNat_of_lt (by omega))
        rw [sockwriteLoop, if_neg (mt (hdone ha).1 heq), if_neg hneg, qStreamSocketWrite]
        exact ⟨[.writeErr], _, .single (.writeErr _ k hne), (List.append_nil out).symm,
          .inr ⟨rfl, rfl⟩⟩
      | some c =>
        have hle := part_length c (m.drop a)
        rw [List.length_drop] at hle
        rw [sockwriteLoop_some hb hlt (by omega) c]
        obtain ⟨tr, q, run, hm⟩ := ih (out ++ part c (m.drop a))
          (a := a + (part c (m.drop a)).length) (by omega)
        have hcut : part c (m.drop a) ++ m.drop (a + (part c (m.drop a)).length) = m.drop a := by
          rw [← List.drop_drop]
          exact part_append_drop c (m.drop a)
        have hs := Step.wrote (part c (m.drop a)) (m.drop (a + (part c (m.drop a)).length)) k
          (List.length_pos_iff.1 (part_pos c hne))
        rw [hcut] at hs
        refine ⟨.wrote (part c (m.drop a)) :: tr, q, .step hs run, ?_⟩
        rw [List.map_cons, List.flatten_cons, ← List.append_assoc]
        exact hm

theorem sockwrite_run {bss : Bss} {m : Bytes} (hb : Bss.Holds bss m) (hlt : m.length < 2 ^ 31)
    (answers : List Answer) (out : Bytes) :
    ∃ tr q, Run (sockwrite bss) tr q ∧
      MirrorsWrite .ret q (out ++ (tr.map Ev.sent).flatten) (Net.sockwrite bss answers out) := by
  rw [sockwrite, hb.bytes]
  exact sockwriteLoop_run .ret hb hlt out (Nat.zero_le _)

end Zhwkrfsp
