import Zhwkrfsp.Netwrap

/- The transport under the protocol. A message is sent and received whole, however
   the kernel cuts it, as far as the buffers it is received into have room for it
   (`fragmentation`). When the peer goes away in the middle of a message, `sockread`
   does not notice: `read(2)` returns 0, the loop subtracts 0 and reads again, and
   the handler that waits for the bytes keeps `mu` (`connection_loss`). -/
namespace Zhwkrfsp
open Wire Chan

/-! The end of the stream. -/

/-- `sockread` comes back with -1 after finitely many reads, which move `cs 0`,
    `cs 1`, .. bytes as long as there are any. -/
def GivesUp (bss : Bss) (intended : Int32) (inp : Bytes) (cs : Nat → Nat) : Prop :=
  ∃ reads s rest,
    Net.sockread bss intended ((List.range reads).map fun i => some (cs i)) inp = .ret (-1) s rest

theorem sockread_short (bss : Bss) {intended : Int32} {inp : Bytes}
    (h : inp.length < intended.toInt) (cs : List Nat) (rc : Int32) (s : Receiving)
    (rest : List Answer) : Net.sockread bss intended (cs.map some) inp ≠ .ret rc s rest := by
  have h0 : 0 ≤ intended := by
    rw [Int32.le_iff_toInt_le]
    have hz : (0 : Int32).toInt = 0 := rfl
    omega
  obtain ⟨hof, hlt⟩ := int_eq_ofNat h0
  rw [Net.sockread, if_neg (Int32.not_lt.2 h0)]
  generalize hn : intended.toInt.toNat = n at hof hlt
  rw [hof]
  exact sockreadLoop_short bss hlt (Nat.le_of_eq List.length_replicate.symm) (by omega) rc s rest

/-- Into a fresh buffer nothing goes wrong: `sockread` reads on. -/
theorem sockread_busy {intended : Int32} {inp : Bytes} (h : inp.length < intended.toInt)
    (cs : List Nat) : ∃ s, Net.sockread .constructor intended (cs.map some) inp = .busy s := by
  have h0 : 0 ≤ intended := by
    rw [Int32.le_iff_toInt_le]
    have hz : (0 : Int32).toInt = 0 := rfl
    omega
  obtain ⟨tr, q, left, -, -, hm⟩ := sockread_run intended h0 (cs.map some) inp
  cases e : Net.sockread .constructor intended (cs.map some) inp with
  | fault =>
    rw [e] at hm
    exact hm.elim
  | busy s => exact ⟨s, rfl⟩
  | ret rc s rest => exact absurd e (sockread_short _ h cs rc s rest)

/-- A program that waits for `n` bytes of which fewer come only goes on reading. -/
theorem waits {α : Type} {k : Option Bytes → Io α} {p q : Io α} {tr : List (Ev UInt32)}
    (run : Run p tr q) :
    ∀ {acc : Bytes} {n : Nat}, p = .read acc n k → (∀ e ∈ tr, e.isErr = false) →
      (tr.map Ev.received).flatten.length < n →
      (∃ acc' n', 0 < n' ∧ q = .read acc' n' k) ∧ ∀ e ∈ tr, ∃ bs, e = .got bs := by
  induction run with
  | refl p =>
    rintro acc n rfl _ hlt
    exact ⟨⟨acc, n, Nat.zero_lt_of_lt hlt, rfl⟩, nofun⟩
  | @step p q r e tr hs _ ih =>
    rintro acc n rfl herr hlt
    cases hs with
    | got acc n k bs hn hle =>
      rw [List.map_cons, List.flatten_cons, List.length_append] at hlt
      have hbs : (Ev.got (σ := UInt32) bs).received = bs := rfl
      rw [hbs] at hlt
      obtain ⟨hq, htr⟩ := ih rfl (fun e' h' => herr e' (List.mem_cons_of_mem _ h')) (by omega)
      refine ⟨hq, fun e' h' => ?_⟩
      rcases List.mem_cons.1 h' with rfl | h'
      · exact ⟨bs, rfl⟩
      · exact htr e' h'
    | readErr acc n k hn => cases herr _ List.mem_cons_self
    | readEnd acc k => exact absurd hlt (Nat.not_lt_zero _)

/-- **Connection loss.** On a stream that ends before the intended length `sockread`
    returns on no fragmentation, neither -1 nor anything else; and a handler that
    waits for so many bytes neither returns nor unlocks `mu`. -/
theorem connection_loss (bss : Bss) (intended : Int32) (inp : Bytes)
    (h : inp.length < intended.toInt) :
    (∀ cs, ¬GivesUp bss intended inp cs) ∧
      ∀ (c : Call) (m : Locals) (acc : Bytes) (k : Option Bytes → Io Int32) (before tr : List _)
        (q : Io Int32), Run (c.prog m) before (.read acc intended.toInt.toNat k) →
        Run (.read acc intended.toInt.toNat k) tr q → (∀ e ∈ tr, e.isErr = false) →
        (tr.map Ev.received).flatten <+: inp → (∀ v, q ≠ .ret v) ∧ .unlock ∉ tr := by
  constructor
  · rintro cs ⟨reads, s, rest, e⟩
    have hmap : ((List.range reads).map fun i => some (cs i)) =
        ((List.range reads).map cs).map some := by
      rw [List.map_map]
      rfl
    rw [hmap] at e
    exact sockread_short bss h _ _ s rest e
  · intro c m acc k before tr q _ run herr hpre
    have hlen := hpre.length_le
    obtain ⟨⟨acc', n', hn, hq⟩, htr⟩ := waits run rfl herr (by omega)
    refine ⟨fun v hv => ?_, fun hun => ?_⟩
    · rw [hq] at hv
      cases hv
    · obtain ⟨bs, hbs⟩ := htr _ hun
      cases hbs

/-- A reply header of which the peer sent three bytes. -/
theorem connection_loss_header : ¬GivesUp .constructor 12 [28, 0, 0] fun _ => 1 := by
  have hshort : ([28, 0, 0] : Bytes).length < (12 : Int32).toInt := by decide
  exact (connection_loss .constructor 12 [28, 0, 0] hshort).1 fun _ => 1

/-- A reply header of which nothing came. -/
theorem connection_loss_fails : ¬GivesUp .constructor 12 [] fun _ => 1 := by
  rintro ⟨reads, s, rest, e⟩
  have hmap : ((List.range reads).map fun _ => some 1) =
      ((List.range reads).map fun _ => 1).map some := by
    rw [List.map_map]
    rfl
  rw [hmap] at e
  exact sockread_short .constructor (by decide) _ _ s rest e

/-! Whole messages. -/

/-- A message, and the buffer it is to be received into, with the bytes that it holds. -/
structure Delivery where
  bss : Bss
  held : Bytes
  msg : Bytes

/-- All bytes of a sequence of messages. -/
def stream (xs : List Delivery) : Bytes := (xs.map Delivery.msg).flatten

/-- Successive `sockwrite`s, as long as they return 0. -/
def sockwrites : List Answer → List Bss → Bytes → Transfer Bytes
  | answers, [], out => .ret 0 out answers
  | answers, bss :: more, out =>
    match Net.sockwrite bss answers out with
    | .ret rc out rest => if rc = 0 then sockwrites rest more out else .ret rc out rest
    | t => t

/-- Successive `sockread`s of the messages' lengths each return 0, append the message
    and leave the stream behind it. -/
def Receives : List Answer → Bytes → List Delivery → Prop
  | _, _, [] => True
  | answers, inp, x :: more =>
    ∃ s rest, Net.sockread x.bss (Int32.ofNat x.msg.length) answers inp = .ret 0 s rest ∧
      Bss.Holds s.bss (x.held ++ x.msg) ∧ s.inp = inp.drop x.msg.length ∧ Receives rest s.inp more

/-- Every buffer has room for its message in the pieces in which it comes. -/
def Room : List Nat → List Delivery → Prop
  | _, [] => True
  | cs, x :: more => Bss.Fits x.bss.capacity.toNat x.held.length (pieces cs x.msg) ∧
      Room (cs.drop (pieces cs x.msg).length) more

theorem sockwrites_all {bufs : List Bss} {ms : List Bytes} (h : List.Forall₂ Bss.Holds bufs ms) :
    ∀ {cs : List Nat} (out : Bytes), (∀ m ∈ ms, m.length < 2 ^ 30) →
      ms.flatten.length ≤ cs.length →
      ∃ rest, sockwrites (cs.map some) bufs out = .ret 0 (out ++ ms.flatten) rest := by
  induction h with
  | nil =>
    intro cs out _ _
    exact ⟨cs.map some, by rw [sockwrites, List.flatten_nil, List.append_nil]⟩
  | @cons bss m bufs ms hb _ ih =>
    intro cs out hlt hcs
    have hm := hlt m List.mem_cons_self
    rw [List.flatten_cons, List.length_append] at hcs
    have hone := @sockwriteLoop_pieces bss m hb (by omega) cs 0 out (Nat.zero_le _) (by omega)
    rw [List.drop_zero] at hone
    have hused := pieces_length_le cs m
    obtain ⟨rest, hrest⟩ := @ih (cs.drop (pieces cs m).length) (out ++ m)
      (fun m' h' => hlt m' (List.mem_cons_of_mem _ h')) (by rw [List.length_drop]; omega)
    refine ⟨rest, ?_⟩
    have hfirst : Net.sockwrite bss (cs.map some) out = _ := hone
    rw [sockwrites, hfirst, List.flatten_cons, ← List.append_assoc]
    exact hrest

/-- One message: it is received exactly when its pieces fit. -/
theorem sockread_whole {x : Delivery} (hb : Bss.Holds x.bss x.held) (hm : x.msg.length < 2 ^ 30)
    {cs : List Nat} (hcs : x.msg.length ≤ cs.length) (tail : Bytes) :
    (∃ s rest, Net.sockread x.bss (Int32.ofNat x.msg.length) (cs.map some) (x.msg ++ tail) =
        .ret 0 s rest ∧ Bss.Holds s.bss (x.held ++ x.msg) ∧ s.inp = tail ∧
        rest = (cs.drop (pieces cs x.msg).length).map some) ∧
      Bss.Fits x.bss.capacity.toNat x.held.length (pieces cs x.msg) ∨
    Net.sockread x.bss (Int32.ofNat x.msg.length) (cs.map some) (x.msg ++ tail) = .fault ∧
      ¬Bss.Fits x.bss.capacity.toNat x.held.length (pieces cs x.msg) := by
  have hneg : ¬Int32.ofNat x.msg.length < 0 :=
    Int32.not_lt.2 (Int32.zero_le_ofNat_of_lt (by omega))
  have hint : (Int32.ofNat x.msg.length).toInt.toNat = x.msg.length := by
    rw [Int32.toInt_ofNat_of_lt (by omega), Int.toNat_natCast]
  have hsmall : ∀ s ∈ pieces cs x.msg, s.length < 2 ^ 32 := fun s hs => by
    have := pieces_mem_length hs
    omega
  have hfits := Bss.appendAll_isSome_iff (pieces cs x.msg) hb hsmall
  have hloop := @sockreadLoop_pieces tail cs x.msg x.bss (List.replicate x.msg.length 0) (by omega)
    (Nat.le_of_eq (List.length_replicate).symm) hcs
  rw [Net.sockread, if_neg hneg, hint]
  cases e : x.bss.appendAll (pieces cs x.msg) with
  | none =>
    rw [e] at hloop hfits
    exact .inr ⟨hloop, fun hf => absurd (hfits.2 hf) (by simp)⟩
  | some b =>
    rw [e] at hloop hfits
    obtain ⟨buf', hloop⟩ := hloop
    have hheld := hb.appendAll _ e
    have hmap : (pieces cs x.msg).map Bss.counted = pieces cs x.msg :=
      (List.map_congr_left fun s hs => Bss.counted_of_lt (hsmall s hs)).trans (List.map_id _)
    rw [hmap, pieces_flatten hcs] at hheld
    exact .inl ⟨⟨_, _, hloop, hheld, rfl, rfl⟩, hfits.1 rfl⟩

theorem receives_iff {xs : List Delivery}
    (hx : ∀ x ∈ xs, Bss.Holds x.bss x.held ∧ x.msg.length < 2 ^ 30) (tail : Bytes) :
    ∀ {cs : List Nat}, (stream xs).length ≤ cs.length →
      (Receives (cs.map some) (stream xs ++ tail) xs ↔ Room cs xs) := by
  induction xs with
  | nil => exact fun _ => Iff.rfl
  | cons x more ih =>
    intro cs hcs
    obtain ⟨hb, hm⟩ := hx x List.mem_cons_self
    have hstream : stream (x :: more) = x.msg ++ stream more := rfl
    rw [hstream, List.length_append] at hcs
    have hused := pieces_length_le cs x.msg
    have hih := @ih (fun y hy => hx y (List.mem_cons_of_mem _ hy))
      (cs.drop (pieces cs x.msg).length) (by rw [List.length_drop]; omega)
    rw [hstream, List.append_assoc, Receives, Room, List.drop_left]
    rcases @sockread_whole x hb hm cs (by omega) (stream more ++ tail) with
      ⟨⟨s, rest, e, hheld, hinp, hrest⟩, hfit⟩ | ⟨e, hfit⟩
    · rw [and_iff_right hfit, ← hih]
      constructor
      · rintro ⟨s', rest', e', -, -, hmore⟩
        rw [e] at e'
        cases e'
        rw [hinp, hrest] at hmore
        exact hmore
      · intro hmore
        refine ⟨s, rest, e, hheld, hinp, ?_⟩
        rw [hinp, hrest]
        exact hmore
    · refine iff_of_false ?_ fun h => hfit h.1
      rintro ⟨s', rest', e', -⟩
      rw [e] at e'
      cases e'

/-- Below 2^31 bytes in all there is always room. -/
theorem room_of_small {xs : List Delivery} (hx : ∀ x ∈ xs, x.held.length + x.msg.length < 2 ^ 31) :
    ∀ {cs : List Nat}, (stream xs).length ≤ cs.length → Room cs xs := by
  induction xs with
  | nil => exact fun _ => trivial
  | cons x more ih =>
    intro cs hcs
    have hstream : stream (x :: more) = x.msg ++ stream more := rfl
    rw [hstream, List.length_append] at hcs
    have hused := pieces_length_le cs x.msg
    refine ⟨.inl ?_, ih (fun y hy => hx y (List.mem_cons_of_mem _ hy)) ?_⟩
    · rw [pieces_flatten (by omega)]
      exact hx x List.mem_cons_self
    · rw [List.length_drop]
      omega

/-- **Fragmentation.** However the kernel cuts them, messages below 2^30 bytes are
    sent as they are, and they are received, each appended whole to its buffer, if
    and only if every buffer has room for its message. -/
theorem fragmentation (xs : List Delivery)
    (hx : ∀ x ∈ xs, Bss.Holds x.bss x.held ∧ x.msg.length < 2 ^ 30) (sendbufs : List Bss)
    (hsend : List.Forall₂ Bss.Holds sendbufs (xs.map Delivery.msg)) (ws rs : List Nat)
    (hws : (stream xs).length ≤ ws.length) (hrs : (stream xs).length ≤ rs.length)
    (out tail : Bytes) :
    (∃ rest, sockwrites (ws.map some) sendbufs out = .ret 0 (out ++ stream xs) rest) ∧
      (Receives (rs.map some) (stream xs ++ tail) xs ↔ Room rs xs) := by
  refine ⟨sockwrites_all hsend out (fun m hm => ?_) hws, receives_iff hx tail hrs⟩
  obtain ⟨x, hmem, rfl⟩ := List.mem_map.1 hm
  exact (hx x hmem).2

theorem fragmentation_two :
    (∃ rest, sockwrites ([2, 1, 1, 1].map some) [⟨[1, 2, 3], 3, 3⟩, ⟨[4], 1, 1⟩] [] =
        .ret 0 [1, 2, 3, 4] rest) ∧
      Receives ([1, 5, 1, 1].map some) [1, 2, 3, 4, 5]
        [⟨.constructor, [], [1, 2, 3]⟩, ⟨.constructor, [], [4]⟩] := by
  have hx : ∀ x ∈ [(⟨.constructor, [], [1, 2, 3]⟩ : Delivery), ⟨.constructor, [], [4]⟩],
      Bss.Holds x.bss x.held ∧ x.msg.length < 2 ^ 30 := by
    intro x hx
    rcases List.mem_cons.1 hx with rfl | hx
    · exact ⟨.constructor, by decide⟩
    · cases List.mem_singleton.1 hx
      exact ⟨.constructor, by decide⟩
  have hsend : List.Forall₂ Bss.Holds [⟨[1, 2, 3], 3, 3⟩, ⟨[4], 1, 1⟩] [[1, 2, 3], [4]] :=
    .cons ⟨rfl, by decide, rfl⟩ (.cons ⟨rfl, by decide, rfl⟩ .nil)
  have h := fragmentation _ hx _ hsend [2, 1, 1, 1] [1, 5, 1, 1] (by decide) (by decide) [] [5]
  exact ⟨h.1, h.2.2 ⟨.inl (by decide), .inl (by decide), trivial⟩⟩

/-- A buffer filled by two appends of 2^30 bytes has just their size; reading one
    byte more into it runs over its end. -/
theorem half_full {half : Bytes} (hlen : half.length = 2 ^ 30) :
    ∃ b, Bss.constructor.appendAll [half, half] = some b ∧ Bss.Holds b (half ++ half) ∧
      ¬Receives [some 1] [7] [⟨b, half ++ half, [7]⟩] := by
  have hs : half.length = (UInt32.ofNat half.length).toNat := by
    rw [uint_ofNat (by omega)]
  have htake : half.take (UInt32.ofNat half.length).toNat = half := by
    rw [← hs, List.take_length]
  obtain ⟨b₁, e₁⟩ := Option.isSome_iff_exists.1
    ((Bss.append_isSome_iff Bss.Holds.constructor hs).2 (.inl (by rw [List.length_nil]; omega)))
  have h₁ := Bss.Holds.constructor.append (Nat.le_of_eq hs.symm) e₁
  have hcap₁ := Bss.append_capacity Bss.Holds.constructor hs e₁
  rw [htake, List.nil_append] at h₁
  rw [List.length_nil, hlen, Bss.grow, if_pos (by omega)] at hcap₁
  have h64 : Bss.constructor.capacity.toNat = 64 := rfl
  obtain ⟨b₂, e₂⟩ := Option.isSome_iff_exists.1
    ((Bss.append_isSome_iff h₁ hs).2 (.inr (by omega)))
  have h₂ := h₁.append (Nat.le_of_eq hs.symm) e₂
  have hcap₂ := Bss.append_capacity h₁ hs e₂
  rw [htake] at h₂
  rw [hlen, Bss.grow, if_neg (by omega), hcap₁] at hcap₂
  refine ⟨b₂, ?_, h₂, fun hr => ?_⟩
  · rw [Bss.appendAll, e₁, Option.bind_some, Bss.appendAll, e₂]
    rfl
  · have hx : ∀ x ∈ [(⟨b₂, half ++ half, [7]⟩ : Delivery)],
        Bss.Holds x.bss x.held ∧ x.msg.length < 2 ^ 30 := by
      intro x hx
      cases List.mem_singleton.1 hx
      exact ⟨h₂, Nat.one_lt_two_pow (by omega)⟩
    have hroom := (@receives_iff _ hx [] [1] (Nat.le_refl 1)).1 hr
    have htotal : (half ++ half).length = 2 ^ 31 := by
      rw [List.length_append]
      omega
    rcases hroom.1 with hlt | hle | ⟨pre, -, -, hlt, -⟩
    · rw [htotal] at hlt
      omega
    · have hone : (pieces [1] [7]).flatten.length = 1 := by decide
      have hcap : (⟨b₂, half ++ half, [7]⟩ : Delivery).bss.capacity.toNat = _ := hcap₂
      rw [htotal, hone, hcap, h64] at hle
      omega
    · rw [htotal] at hlt
      omega

theorem fragmentation_fails :
    ∃ b, Bss.constructor.appendAll [List.replicate (2 ^ 30) 0, List.replicate (2 ^ 30) 0] = some b ∧
      Bss.Holds b (List.replicate (2 ^ 30) 0 ++ List.replicate (2 ^ 30) 0) ∧
      ¬Receives [some 1] [7]
        [⟨b, List.replicate (2 ^ 30) 0 ++ List.replicate (2 ^ 30) 0, [7]⟩] :=
  half_full List.length_replicate

end Zhwkrfsp
