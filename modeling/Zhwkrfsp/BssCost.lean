import Mathlib.Tactic.Ring
import Zhwkrfsp.Bss
import Zhwkrfsp.Machine

/- What a buffer costs. `q__bss_append` asks for twice the new total as room, and makes the
   block just that large when it does not have it. So after the first 32 bytes the room is
   exactly twice the content (`room`), the next append never has it, and every append
   copies all that is there to a new block (`copies`): the doubling saves nothing, and
   `n` pieces of `m` bytes copy `m * n * (n - 1) / 2` bytes (`appends_copy`). -/
namespace Zhwkrfsp.Bss
open Wire

/-- An append of a block. -/
def step (bss : Bss) (s : Bytes) : Option (Unit × Bss) :=
  (bss.append s (UInt32.ofNat s.length)).map fun b => ((), b)

/-- The bytes that an append copies from the old block to a new one. -/
def copied (bss : Bss) (s : Bytes) : Nat :=
  if bss.capacity < 2 * (bss.size + UInt32.ofNat s.length) then bss.size.toNat else 0

/-- The room of a buffer of `n` bytes. -/
def room (n : Nat) : Nat := max 64 (2 * n)

/-- What appending blocks to `used` bytes copies: all that is there, each time, from the
    first total above 32 bytes on. -/
def copies : Nat → List Bytes → Nat
  | _, [] => 0
  | used, s :: rest => (if used + s.length ≤ 32 then 0 else used) + copies (used + s.length) rest

/-- A buffer with these bytes, and the room for them. -/
def Tight (b : Bss) (c : Bytes) : Prop := Holds b c ∧ b.capacity.toNat = room c.length

theorem Tight.step {b : Bss} {c s : Bytes} (h : Tight b c) (hs : s ≠ [])
    (hlt : c.length + s.length < 2 ^ 31) :
    ∃ b', Bss.step b s = some ((), b') ∧ Tight b' (c ++ s) ∧
      copied b s = if c.length + s.length ≤ 32 then 0 else c.length := by
  obtain ⟨hb, hroom⟩ := h
  have hlen : s.length = (UInt32.ofNat s.length).toNat := by
    have hs32 : s.length < 2 ^ 32 := by omega
    rw [UInt32.toNat_ofNat_of_lt' hs32]
  obtain ⟨b', e, hb'⟩ := append_holds hb hlen hlt
  have hcap := append_capacity hb hlen e
  refine ⟨b', ?_, ⟨hb', ?_⟩, ?_⟩
  · rw [Bss.step, e]
    rfl
  · rw [hcap, grow, if_pos hlt, hroom, room, room, List.length_append]
    omega
  · have hgrown := grown_toNat b.size (UInt32.ofNat s.length)
      (by rw [hb.size_eq, ← hlen]; exact hlt)
    rw [hb.size_eq, ← hlen] at hgrown
    have hpos := List.length_pos_iff.2 hs
    -- a larger total than the last one needs more than the room there is
    have hiff : b.capacity < 2 * (b.size + UInt32.ofNat s.length) ↔
        ¬c.length + s.length ≤ 32 := by
      rw [UInt32.lt_iff_toNat_lt, hgrown, hroom, room]
      omega
    rw [copied, hb.size_eq]
    by_cases hsmall : c.length + s.length ≤ 32
    · rw [if_pos hsmall, if_neg (fun hc => hiff.1 hc hsmall)]
    · rw [if_neg hsmall, if_pos (hiff.2 hsmall)]

theorem tight_constructor : Tight constructor [] := ⟨Holds.constructor, rfl⟩

/-- A run of appends, what it leaves and what it copies. -/
theorem Tight.run (blocks : List Bytes) (hne : ∀ s ∈ blocks, s ≠ []) {b : Bss} {c : Bytes}
    (h : Tight b c) (hlt : c.length + blocks.flatten.length < 2 ^ 31) :
    ∃ us b', Machine.run Bss.step blocks b = some (us, b') ∧ Tight b' (c ++ blocks.flatten) ∧
      Machine.spent Bss.step copied blocks b = copies c.length blocks := by
  induction blocks generalizing b c with
  | nil =>
    refine ⟨[], b, rfl, ?_, rfl⟩
    rwa [List.flatten_nil, List.append_nil]
  | cons s rest ih =>
    rw [List.flatten_cons, List.length_append] at hlt
    obtain ⟨b₁, e₁, h₁, hcost⟩ := h.step (hne s List.mem_cons_self) (by omega)
    obtain ⟨us, b', e', h', hspent⟩ := ih (fun t ht => hne t (List.mem_cons_of_mem s ht)) h₁
      (by rw [List.length_append]; omega)
    refine ⟨() :: us, b', ?_, ?_, ?_⟩
    · rw [Machine.run, e₁, Option.bind_eq_bind, Option.bind_some]
      dsimp only
      rw [e']
      rfl
    · rwa [List.flatten_cons, ← List.append_assoc]
    · rw [Machine.spent_cons e₁, hcost, hspent, List.length_append]
      rfl

/-- Pieces of one size, from the first 32 bytes on. -/
theorem copies_equal {m : Nat} (blocks : List Bytes) (hlen : ∀ s ∈ blocks, s.length = m)
    {k : Nat} (hk : 32 < (k + 1) * m) :
    2 * copies (k * m) blocks = m * (blocks.length * (2 * k + blocks.length - 1)) := by
  induction blocks generalizing k with
  | nil => rw [copies, List.length_nil, Nat.zero_mul, Nat.mul_zero, Nat.mul_zero]
  | cons s rest ih =>
    have hnext : k * m + s.length = (k + 1) * m := by
      rw [hlen s List.mem_cons_self, Nat.succ_mul]
    have hmore : 32 < (k + 1 + 1) * m :=
      Nat.lt_of_lt_of_le hk (Nat.mul_le_mul_right m (Nat.le_succ _))
    have hrest := ih (fun t ht => hlen t (List.mem_cons_of_mem s ht)) hmore
    have hsub : 2 * (k + 1) + rest.length - 1 = 2 * k + 1 + rest.length := by omega
    have hsub' : 2 * k + (rest.length + 1) - 1 = 2 * k + rest.length := by omega
    rw [hsub] at hrest
    rw [copies, hnext, if_neg (Nat.not_le.2 hk), List.length_cons, hsub']
    calc 2 * (k * m + copies ((k + 1) * m) rest)
        = 2 * (k * m) + 2 * copies ((k + 1) * m) rest := Nat.mul_add _ _ _
      _ = 2 * (k * m) + m * (rest.length * (2 * k + 1 + rest.length)) := by rw [hrest]
      _ = m * ((rest.length + 1) * (2 * k + rest.length)) := by ring

theorem flatten_length {m : Nat} {blocks : List Bytes} (hlen : ∀ s ∈ blocks, s.length = m) :
    blocks.flatten.length = blocks.length * m := by
  rw [List.length_flatten, List.map_congr_left hlen, List.map_const', List.sum_replicate_nat]

theorem copies_append (used : Nat) (xs ys : List Bytes) :
    copies used (xs ++ ys) = copies used xs + copies (used + xs.flatten.length) ys := by
  induction xs generalizing used with
  | nil => rw [List.nil_append, List.flatten_nil, List.length_nil, copies, Nat.zero_add,
      Nat.add_zero]
  | cons s xs ih =>
    rw [List.cons_append, copies, copies, ih, List.flatten_cons, List.length_append,
      Nat.add_assoc, Nat.add_assoc]

/-- The first 32 bytes fit the block of the constructor. -/
theorem copies_small {used : Nat} {blocks : List Bytes} (h : used + blocks.flatten.length ≤ 32) :
    copies used blocks = 0 := by
  induction blocks generalizing used with
  | nil => rfl
  | cons s rest ih =>
    rw [List.flatten_cons, List.length_append] at h
    rw [copies, if_pos (by omega), ih (by omega)]

/-- Single bytes. -/
theorem copies_bytes {n : Nat} {blocks : List Bytes} (hlen : ∀ s ∈ blocks, s.length = 1)
    (hn : blocks.length = n + 32) : 2 * copies 0 blocks = n * (n + 63) := by
  have hsplit : blocks = blocks.take 32 ++ blocks.drop 32 := (List.take_append_drop 32 blocks).symm
  have hfirst : (blocks.take 32).flatten.length = 32 := by
    rw [flatten_length fun s hs => hlen s (List.mem_of_mem_take hs), List.length_take, hn]
    omega
  have hrest := copies_equal (m := 1) (blocks.drop 32)
    (fun s hs => hlen s (List.mem_of_mem_drop hs)) (k := 32) (by omega)
  have hdrop : (blocks.drop 32).length = n := by
    rw [List.length_drop, hn]
    omega
  rw [hdrop] at hrest
  rw [hsplit, copies_append, copies_small (by rw [hfirst]), hfirst, Nat.zero_add, Nat.zero_add]
  rw [Nat.mul_one, Nat.one_mul] at hrest
  rw [hrest]
  congr 1
  omega

/-- **Appends.** Whatever non-empty blocks are appended to a new buffer, below 2^31 bytes in
    all, it holds them one after the other, its room is 64 bytes or exactly twice the
    content, and every append past the first 32 bytes has copied all that was there. So
    `n` blocks of `m` bytes each, above 32, copy `m * n * (n - 1) / 2` bytes. -/
theorem appends_copy :
    (∀ blocks : List Bytes, (∀ s ∈ blocks, s ≠ []) → blocks.flatten.length < 2 ^ 31 →
      ∃ us b, Machine.run step blocks constructor = some (us, b) ∧ Holds b blocks.flatten ∧
        b.capacity.toNat = room blocks.flatten.length ∧
        Machine.spent step copied blocks constructor = copies 0 blocks) ∧
    ∀ (m : Nat) (blocks : List Bytes), 32 < m → (∀ s ∈ blocks, s.length = m) →
      blocks.length * m < 2 ^ 31 →
      2 * Machine.spent step copied blocks constructor =
        m * (blocks.length * (blocks.length - 1)) := by
  have hrun : ∀ blocks : List Bytes, (∀ s ∈ blocks, s ≠ []) → blocks.flatten.length < 2 ^ 31 →
      ∃ us b, Machine.run step blocks constructor = some (us, b) ∧ Holds b blocks.flatten ∧
        b.capacity.toNat = room blocks.flatten.length ∧
        Machine.spent step copied blocks constructor = copies 0 blocks := by
    intro blocks hne hlt
    obtain ⟨us, b, e, ⟨hb, hroom⟩, hspent⟩ := tight_constructor.run blocks hne
      (by rwa [List.length_nil, Nat.zero_add])
    rw [List.nil_append] at hb hroom
    exact ⟨us, b, e, hb, hroom, hspent⟩
  refine ⟨hrun, fun m blocks hm hlen hlt => ?_⟩
  have hne : ∀ s ∈ blocks, s ≠ [] := by
    intro s hs
    apply List.ne_nil_of_length_pos
    rw [hlen s hs]
    omega
  obtain ⟨-, -, -, -, -, hspent⟩ := hrun blocks hne (by rwa [flatten_length hlen])
  have hequal := copies_equal blocks hlen (k := 0) (by omega)
  rw [Nat.zero_mul, Nat.mul_zero, Nat.zero_add] at hequal
  rw [hspent, hequal]

theorem appends_copy_three :
    2 * Machine.spent step copied (List.replicate 3 (List.replicate 40 0)) constructor =
      40 * (3 * 2) :=
  appends_copy.2 40 (List.replicate 3 (List.replicate 40 0)) (by decide)
    (fun _ hs => by rw [List.eq_of_mem_replicate hs, List.length_replicate]) (by decide)

end Zhwkrfsp.Bss
