import Zhwkrfsp.Codec

/- The binary safe string of `bss.c`: a heap block, the number of bytes in use
   and the capacity, both 32-bit. `append` doubles the block when the capacity
   test asks for it and then copies; a copy that would leave a block is `none`.
   `Holds b c` says that `b` is well formed and holds exactly the bytes `c`.
   `append_holds` is the specification the callers use: below 2^31 bytes in all,
   appending appends. -/
namespace Zhwkrfsp
open Wire

/-- `memcpy` of `src` to offset `off` of a block; `none` outside it. -/
def memcpy (dst : Bytes) (off : Nat) (src : Bytes) : Option Bytes :=
  if off + src.length ≤ dst.length then
    some (dst.take off ++ src ++ dst.drop (off + src.length))
  else none

theorem memcpy_spec (dst : Bytes) (off : Nat) (src : Bytes) (h : off + src.length ≤ dst.length) :
    ∃ r, memcpy dst off src = some r ∧ r.length = dst.length ∧
      r.take (off + src.length) = dst.take off ++ src := by
  refine ⟨_, if_pos h, by simp; omega, ?_⟩
  exact List.take_left' (by simp; omega)

structure Bss where
  str : Bytes
  size : UInt32
  capacity : UInt32
  deriving DecidableEq

namespace Bss

/-- `qbss_constructor` (the allocation succeeding). -/
def constructor : Bss := { str := List.replicate 64 0, size := 0, capacity := 64 }

/-- The capacity check of `q__bss_append`: a block of twice the new total when
    the capacity is below that. -/
def reserve (bss : Bss) (len : UInt32) : Option Bss :=
  if bss.capacity < 2 * (bss.size + len) then do
    let tmp := List.replicate (2 * (bss.size + len)).toNat 0
    let tmp ← memcpy tmp 0 (bss.str.take bss.size.toNat)
    return { bss with str := tmp, capacity := 2 * (bss.size + len) }
  else some bss

/-- `q__bss_append`. `s` is the source block, of at least `len` bytes. -/
def append (bss : Bss) (s : Bytes) (len : UInt32) : Option Bss := do
  let bss ← bss.reserve len
  let str ← memcpy bss.str bss.size.toNat (s.take len.toNat)
  return { bss with str := str, size := bss.size + len }

/-- The bytes in use. -/
def content (bss : Bss) : Bytes := bss.str.take bss.size.toNat

/-- `b` is well formed and its bytes in use are `c`. -/
structure Holds (b : Bss) (c : Bytes) : Prop where
  block : b.str.length = b.capacity.toNat
  fits : b.size ≤ b.capacity
  bytes : b.content = c

namespace Holds
variable {b : Bss} {c : Bytes}

theorem size_eq (h : Holds b c) : b.size.toNat = c.length := by
  have hf : b.size.toNat ≤ b.capacity.toNat := h.fits
  rw [← h.bytes, content, List.length_take, h.block, Nat.min_eq_left hf]

theorem content_length (h : Holds b c) : (b.str.take b.size.toNat).length = b.size.toNat :=
  (congrArg List.length h.bytes).trans h.size_eq.symm

theorem constructor : Holds Bss.constructor [] where
  block := rfl
  fits := by decide
  bytes := rfl

end Holds

/-- Where the doubled total still fits 32 bits, its value is the doubled total. -/
theorem grown_toNat (a l : UInt32) (h : a.toNat + l.toNat < 2 ^ 31) :
    (2 * (a + l)).toNat = 2 * (a.toNat + l.toNat) := by
  rw [UInt32.toNat_mul, UInt32.toNat_add]
  have h2 : (2 : UInt32).toNat = 2 := rfl
  rw [h2]; omega

/-- Reserving keeps the content and makes room for `len` bytes more. -/
theorem reserve_holds {b : Bss} {c : Bytes} (len : UInt32) (h : Holds b c)
    (hlt : c.length + len.toNat < 2 ^ 31) :
    ∃ b', b.reserve len = some b' ∧ Holds b' c ∧ c.length + len.toNat ≤ b'.capacity.toNat := by
  have hsz := h.size_eq
  have hf : b.size.toNat ≤ b.capacity.toNat := h.fits
  have hg := grown_toNat b.size len (by omega)
  by_cases hcap : b.capacity < 2 * (b.size + len)
  · have hcl := h.content_length
    obtain ⟨tmp, etmp, hlen, htake⟩ := memcpy_spec
      (List.replicate (2 * (b.size + len)).toNat 0) 0 (b.str.take b.size.toNat)
      (by rw [hcl, List.length_replicate]; omega)
    rw [Nat.zero_add, hcl] at htake
    refine ⟨⟨tmp, b.size, 2 * (b.size + len)⟩, ?_, ⟨?_, ?_, ?_⟩, by rw [hg]; omega⟩
    · simp only [reserve, if_pos hcap, Option.bind_eq_bind, etmp, Option.bind_some,
        Option.pure_def]
    · exact hlen.trans (List.length_replicate ..)
    · show b.size.toNat ≤ (2 * (b.size + len)).toNat
      omega
    · exact htake.trans h.bytes
  · have hcap' : (2 * (b.size + len)).toNat ≤ b.capacity.toNat := by
      simpa [UInt32.lt_iff_toNat_lt] using hcap
    exact ⟨b, if_neg hcap, h, by omega⟩

/-- **Appending appends.** The block grows when it has to, every copy stays
    inside it, and the bytes in use are the old ones followed by the new. -/
theorem append_holds {b : Bss} {c s : Bytes} {len : UInt32} (h : Holds b c)
    (hs : s.length = len.toNat) (hlt : c.length + s.length < 2 ^ 31) :
    ∃ b', b.append s len = some b' ∧ Holds b' (c ++ s) := by
  obtain ⟨r, er, hr, hroom⟩ := reserve_holds len h (by omega)
  have hsz := hr.size_eq
  have hsum : (r.size + len).toNat = r.size.toNat + len.toNat := by
    rw [UInt32.toNat_add]; omega
  have hsrc : s.take len.toNat = s := List.take_of_length_le (by omega)
  obtain ⟨str, estr, hlen, htake⟩ := memcpy_spec r.str r.size.toNat s
    (by rw [hr.block]; omega)
  refine ⟨⟨str, r.size + len, r.capacity⟩, ?_, ⟨?_, ?_, ?_⟩⟩
  · simp [append, er, hsrc, estr]
  · exact hlen.trans hr.block
  · show (r.size + len).toNat ≤ r.capacity.toNat
    omega
  · rw [content, hsum, ← hs, htake]
    exact congrArg (· ++ s) hr.bytes

/-- Append several blocks of known sizes, one after another. -/
def appendAll : Bss → List Bytes → Option Bss
  | b, [] => some b
  | b, s :: rest => (b.append s (UInt32.ofNat s.length)).bind fun b' => b'.appendAll rest

theorem appendAll_holds : ∀ (parts : List Bytes) {b : Bss} {c : Bytes}, Holds b c →
    c.length + parts.flatten.length < 2 ^ 31 →
    ∃ b', b.appendAll parts = some b' ∧ Holds b' (c ++ parts.flatten)
  | [], b, c, h, _ => ⟨b, rfl, by simpa using h⟩
  | s :: rest, b, c, h, hlt => by
    simp only [List.flatten_cons, List.length_append] at hlt
    have hs : s.length = (UInt32.ofNat s.length).toNat := by simp; omega
    obtain ⟨b₁, e₁, h₁⟩ := append_holds h hs (by omega)
    obtain ⟨b₂, e₂, h₂⟩ := appendAll_holds rest h₁ (by rw [List.length_append]; omega)
    refine ⟨b₂, ?_, by simpa using h₂⟩
    simp [appendAll, e₁, e₂]

/-! Without a bound on the sizes: an append either fails or appends what its
    32-bit length argument says. -/

theorem Holds.reserve {b r : Bss} {c : Bytes} {len : UInt32} (h : Holds b c)
    (e : b.reserve len = some r) : Holds r c := by
  by_cases hcap : b.capacity < 2 * (b.size + len)
  · rw [Bss.reserve, if_pos hcap] at e
    obtain ⟨tmp, etmp, er⟩ := Option.bind_eq_some_iff.1 e
    have hcl := h.content_length
    have hroom : b.size.toNat ≤ (2 * (b.size + len)).toNat := by
      by_contra hc
      rw [memcpy, if_neg (by rw [hcl, List.length_replicate]; omega)] at etmp
      cases etmp
    obtain ⟨t, et, hlen, htake⟩ := memcpy_spec
      (List.replicate (2 * (b.size + len)).toNat 0) 0 (b.str.take b.size.toNat)
      (by rw [hcl, List.length_replicate]; omega)
    rw [Nat.zero_add, hcl] at htake
    cases etmp.symm.trans et
    cases er
    exact ⟨hlen.trans (List.length_replicate ..), hroom, htake.trans h.bytes⟩
  · rw [Bss.reserve, if_neg hcap] at e
    cases e
    exact h

theorem Holds.append {b b' : Bss} {c s : Bytes} {len : UInt32} (h : Holds b c)
    (hs : len.toNat ≤ s.length) (e : b.append s len = some b') :
    Holds b' (c ++ s.take len.toNat) := by
  obtain ⟨r, er, e⟩ := Option.bind_eq_some_iff.1 e
  obtain ⟨str, estr, e⟩ := Option.bind_eq_some_iff.1 e
  have hr := h.reserve er
  have hcut : (s.take len.toNat).length = len.toNat := by rw [List.length_take]; omega
  have hroom : r.size.toNat + len.toNat ≤ r.capacity.toNat := by
    by_contra hc
    rw [memcpy, if_neg (by rw [hcut, hr.block]; omega)] at estr
    cases estr
  have hsum : (r.size + len).toNat = r.size.toNat + len.toNat := by
    have := r.capacity.toNat_lt
    rw [UInt32.toNat_add]; omega
  obtain ⟨t, et, hlen, htake⟩ := memcpy_spec r.str r.size.toNat (s.take len.toNat)
    (by rw [hcut, hr.block]; exact hroom)
  cases estr.symm.trans et
  cases e
  refine ⟨hlen.trans hr.block, ?_, ?_⟩
  · show (r.size + len).toNat ≤ r.capacity.toNat
    omega
  · rw [content, hsum]
    rw [hcut] at htake
    rw [htake]
    exact congrArg (· ++ s.take len.toNat) hr.bytes

/-- The bytes of a block that a 32-bit length still counts. -/
def counted (s : Bytes) : Bytes := s.take (s.length % 2 ^ 32)

theorem counted_of_lt {s : Bytes} (h : s.length < 2 ^ 32) : counted s = s := by
  rw [counted, Nat.mod_eq_of_lt h, List.take_length]

@[simp] theorem counted_length (s : Bytes) : (counted s).length = s.length % 2 ^ 32 := by
  rw [counted, List.length_take, Nat.min_eq_left (Nat.mod_le _ _)]

theorem Holds.appendAll : ∀ (parts : List Bytes) {b b' : Bss} {c : Bytes}, Holds b c →
    b.appendAll parts = some b' → Holds b' (c ++ (parts.map counted).flatten)
  | [], b, b', c, h, e => by
    cases e
    simpa using h
  | s :: rest, b, b', c, h, e => by
    obtain ⟨b₁, e₁, e⟩ := Option.bind_eq_some_iff.1 e
    have hlen : (UInt32.ofNat s.length).toNat = s.length % 2 ^ 32 := by simp
    have h₁ := h.append (by rw [hlen]; exact Nat.mod_le _ _) e₁
    rw [hlen] at h₁
    simpa [counted] using Holds.appendAll rest h₁ e

/-! Runs of appends, and exactly when they stay inside their blocks. -/

/-- The capacity after an append that brings the buffer to `total` bytes: twice
    the total where 32 bits hold that, else what it was. -/
def grow (capacity total : Nat) : Nat :=
  if total < 2 ^ 31 then max capacity (2 * total) else capacity

/-- What a reservation leaves when an append of `len` bytes can be carried out. -/
theorem reserve_grow {b : Bss} {c : Bytes} {len : UInt32} (h : Holds b c)
    (hroom : c.length + len.toNat < 2 ^ 31 ∨ c.length + len.toNat ≤ b.capacity.toNat) :
    ∃ r, b.reserve len = some r ∧ Holds r c ∧
      r.capacity.toNat = grow b.capacity.toNat (c.length + len.toNat) ∧
      c.length + len.toNat ≤ r.capacity.toNat := by
  have hsz := h.size_eq
  unfold grow
  by_cases hlt : c.length + len.toNat < 2 ^ 31
  · obtain ⟨r, er, hr, hle⟩ := reserve_holds len h hlt
    refine ⟨r, er, hr, ?_, hle⟩
    have hg := grown_toNat b.size len (by omega)
    rw [if_pos hlt]
    by_cases hcap : b.capacity < 2 * (b.size + len)
    · have hcap' : b.capacity.toNat < (2 * (b.size + len)).toNat := hcap
      rw [reserve, if_pos hcap] at er
      obtain ⟨tmp, -, er⟩ := Option.bind_eq_some_iff.1 er
      cases er
      show (2 * (b.size + len)).toNat = _
      omega
    · have hcap' : (2 * (b.size + len)).toNat ≤ b.capacity.toNat := by
        simpa [UInt32.lt_iff_toNat_lt] using hcap
      rw [reserve, if_neg hcap] at er
      cases er
      omega
  · -- the doubled total has wrapped below the capacity
    have hle := hroom.resolve_left hlt
    have hmax := b.capacity.toNat_lt
    have hcap : ¬b.capacity < 2 * (b.size + len) := by
      rw [UInt32.lt_iff_toNat_lt, UInt32.toNat_mul, UInt32.toNat_add]
      have h2 : (2 : UInt32).toNat = 2 := rfl
      rw [h2]
      omega
    exact ⟨b, by rw [reserve, if_neg hcap], h, by rw [if_neg hlt], hle⟩

/-- An append succeeds exactly when the new total is below 2^31 bytes or within
    the capacity there is. -/
theorem append_isSome_iff {b : Bss} {c s : Bytes} {len : UInt32} (h : Holds b c)
    (hs : s.length = len.toNat) :
    (b.append s len).isSome ↔
      c.length + s.length < 2 ^ 31 ∨ c.length + s.length ≤ b.capacity.toNat := by
  have hsz := h.size_eq
  constructor
  · intro hsome
    obtain ⟨b', e⟩ := Option.isSome_iff_exists.1 hsome
    by_contra hno
    rw [not_or, Nat.not_lt, Nat.not_le] at hno
    obtain ⟨hge, hover⟩ := hno
    have hb' := (h.append (Nat.le_of_eq hs.symm) e).size_eq
    have htake : s.take len.toNat = s := List.take_of_length_le (by omega)
    rw [htake, List.length_append] at hb'
    have hmax := b'.size.toNat_lt
    obtain ⟨r, er, e⟩ := Option.bind_eq_some_iff.1 e
    obtain ⟨str, estr, e⟩ := Option.bind_eq_some_iff.1 e
    have hr := h.reserve er
    have hrcap : r.capacity.toNat < c.length + s.length := by
      by_cases hcap : b.capacity < 2 * (b.size + len)
      · rw [reserve, if_pos hcap] at er
        obtain ⟨tmp, -, er⟩ := Option.bind_eq_some_iff.1 er
        cases er
        show (2 * (b.size + len)).toNat < _
        rw [UInt32.toNat_mul, UInt32.toNat_add]
        have h2 : (2 : UInt32).toNat = 2 := rfl
        rw [h2]
        omega
      · rw [reserve, if_neg hcap] at er
        cases er
        exact hover
    rw [memcpy, if_neg (by rw [htake, hr.block, hr.size_eq]; omega)] at estr
    cases estr
  · intro hroom
    rw [hs] at hroom
    obtain ⟨r, er, hr, -, hle⟩ := reserve_grow h hroom
    obtain ⟨str, estr, -⟩ := memcpy_spec r.str r.size.toNat (s.take len.toNat)
      (by rw [hr.block, hr.size_eq, List.length_take]; omega)
    simp [append, er, estr]

/-- The capacity an append leaves. -/
theorem append_capacity {b b' : Bss} {c s : Bytes} {len : UInt32} (h : Holds b c)
    (hs : s.length = len.toNat) (e : b.append s len = some b') :
    b'.capacity.toNat = grow b.capacity.toNat (c.length + s.length) := by
  have hroom := (append_isSome_iff h hs).1 (by rw [e]; rfl)
  rw [hs] at hroom ⊢
  obtain ⟨r, er, -, hcap, -⟩ := reserve_grow h hroom
  obtain ⟨r', er', e⟩ := Option.bind_eq_some_iff.1 e
  obtain ⟨str, -, e⟩ := Option.bind_eq_some_iff.1 e
  cases er.symm.trans er'
  cases e
  exact hcap

/-- Blocks can be appended to a buffer of `used` bytes: everything together is
    below 2^31 bytes, or within the capacity, or within twice what the buffer
    holds after some of them, that being below 2^31. -/
def Fits (capacity used : Nat) (parts : List Bytes) : Prop :=
  used + parts.flatten.length < 2 ^ 31 ∨ used + parts.flatten.length ≤ capacity ∨
    ∃ pre, pre ≠ [] ∧ pre <+: parts ∧ used + pre.flatten.length < 2 ^ 31 ∧
      used + parts.flatten.length ≤ 2 * (used + pre.flatten.length)

theorem fits_cons {capacity used : Nat} {s : Bytes} {rest : List Bytes} :
    Fits capacity used (s :: rest) ↔
      (used + s.length < 2 ^ 31 ∨ used + s.length ≤ capacity) ∧
        Fits (grow capacity (used + s.length)) (used + s.length) rest := by
  unfold Fits grow
  simp only [List.flatten_cons, List.length_append, ← Nat.add_assoc]
  constructor
  · rintro (h | h | ⟨pre, hne, hp, hlt, hle⟩)
    · exact ⟨.inl (by omega), .inl h⟩
    · refine ⟨.inr (by omega), .inr (.inl ?_)⟩
      split <;> omega
    · obtain ⟨t, pre, rfl⟩ := List.exists_cons_of_ne_nil hne
      obtain ⟨rfl, hp'⟩ := List.cons_prefix_cons.1 hp
      rw [List.flatten_cons, List.length_append, ← Nat.add_assoc] at hlt hle
      refine ⟨.inl (by omega), .inr ?_⟩
      rcases List.eq_nil_or_concat pre with rfl | hpre
      · rw [List.flatten_nil, List.length_nil] at hlt hle
        rw [if_pos (by omega)]
        exact .inl (by omega)
      · refine .inr ⟨pre, ?_, hp', hlt, hle⟩
        obtain ⟨l, a, rfl⟩ := hpre
        simp
  · rintro ⟨h₁, h | h | ⟨pre, hne, hp, hlt, hle⟩⟩
    · exact .inl h
    · split at h
      · by_cases hcap : used + s.length + rest.flatten.length ≤ capacity
        · exact .inr (.inl hcap)
        · refine .inr (.inr ⟨[s], by simp, by simp, by simpa, ?_⟩)
          rw [List.flatten_singleton]
          omega
      · exact .inr (.inl h)
    · refine .inr (.inr ⟨s :: pre, by simp, by simpa using hp, ?_, ?_⟩)
      all_goals
        rw [List.flatten_cons, List.length_append]
        omega

theorem appendAll_isSome_iff : ∀ (parts : List Bytes) {b : Bss} {c : Bytes}, Holds b c →
    (∀ s ∈ parts, s.length < 2 ^ 32) →
    ((b.appendAll parts).isSome ↔ Fits b.capacity.toNat c.length parts)
  | [], b, c, h, _ => by
    have hf : b.size.toNat ≤ b.capacity.toNat := h.fits
    rw [h.size_eq] at hf
    simp [appendAll, Fits, hf]
  | s :: rest, b, c, h, hlen => by
    have hs : s.length = (UInt32.ofNat s.length).toNat := by
      rw [UInt32.toNat_ofNat_of_lt' (hlen s List.mem_cons_self)]
    rw [fits_cons, ← append_isSome_iff h hs, appendAll]
    cases e : b.append s (UInt32.ofNat s.length) with
    | none => simp
    | some b' =>
      have h' := h.append (Nat.le_of_eq hs.symm) e
      rw [← hs, List.take_length] at h'
      have ih := appendAll_isSome_iff rest h' fun t ht => hlen t (List.mem_cons_of_mem _ ht)
      rw [append_capacity h hs e, List.length_append] at ih
      simpa using ih

/-- Only the counted bytes of the source matter. -/
theorem append_take (b : Bss) (s : Bytes) (len : UInt32) :
    b.append (s.take len.toNat) len = b.append s len := by
  rw [append, append, List.take_take, Nat.min_self]

/-- Only the counted bytes of each block go into a buffer. -/
theorem appendAll_counted (parts : List Bytes) :
    ∀ b : Bss, b.appendAll (parts.map counted) = b.appendAll parts := by
  induction parts with
  | nil => exact fun _ => rfl
  | cons s rest ih =>
    intro b
    have hlen : UInt32.ofNat (counted s).length = UInt32.ofNat s.length := by
      rw [← UInt32.toNat_inj, UInt32.toNat_ofNat', UInt32.toNat_ofNat', counted_length, Nat.mod_mod]
    have htake : counted s = s.take (UInt32.ofNat s.length).toNat := by
      rw [counted, UInt32.toNat_ofNat']
    rw [List.map_cons, appendAll, appendAll, hlen, htake, append_take]
    exact congrArg _ (funext ih)

/-! Buffers as their users make them. -/

/-- `chkerr`: a pending error of the library. -/
def chkerr (zhwk_error : Int32) : Int32 := if zhwk_error ≠ 0 then -1 else 0

/-- `qbss__from_array` (the allocation succeeding). It asks `chkerr` whether the
    constructor failed, and so sees any error still pending. -/
def fromArray (zhwk_error : Int32) (arr : Bytes) (size : UInt32) : Option Bss :=
  if chkerr zhwk_error = 0 then constructor.append arr size else some constructor

/-- A buffer made by `qbss_constructor`, or by `qbss__from_array` of a block, and
    then appended to. -/
def build (zhwk_error : Int32) (arr : Option Bytes) (parts : List Bytes) : Option Bss :=
  match arr with
  | none => constructor.appendAll parts
  | some s => (fromArray zhwk_error s (UInt32.ofNat s.length)).bind fun b => b.appendAll parts

/-- The buffer holds all blocks in order, each copy having stayed inside its block. -/
def Intact (zhwk_error : Int32) (arr : Option Bytes) (parts : List Bytes) : Prop :=
  ∃ b, build zhwk_error arr parts = some b ∧ b.size ≤ b.capacity ∧
    b.str.length = b.capacity.toNat ∧
    b.size.toNat = (arr.toList ++ parts).flatten.length ∧
    b.str.take b.size.toNat = (arr.toList ++ parts).flatten

/-- From the constructor on: some first blocks have fewer than 2^31 bytes and at
    least half of all bytes. -/
theorem fits_constructor (parts : List Bytes) :
    Fits 64 0 parts ↔ ∃ pre, pre <+: parts ∧ pre.flatten.length < 2 ^ 31 ∧
      parts.flatten.length ≤ 2 * pre.flatten.length := by
  unfold Fits
  simp only [Nat.zero_add]
  constructor
  · rintro (h | h | ⟨pre, -, hp, hlt, hle⟩)
    · exact ⟨parts, List.prefix_rfl, h, by omega⟩
    · exact ⟨parts, List.prefix_rfl, by omega, by omega⟩
    · exact ⟨pre, hp, hlt, hle⟩
  · rintro ⟨pre, hp, hlt, hle⟩
    rcases List.eq_nil_or_concat pre with rfl | hpre
    · rw [List.flatten_nil, List.length_nil] at hle
      exact .inl (by omega)
    · refine .inr (.inr ⟨pre, ?_, hp, hlt, hle⟩)
      obtain ⟨l, a, rfl⟩ := hpre
      simp

theorem appendAll_intact_iff {blocks : List Bytes} (hlt : blocks.flatten.length < 2 ^ 32) :
    (∃ b, constructor.appendAll blocks = some b ∧ Holds b blocks.flatten) ↔
      ∃ pre, pre <+: blocks ∧ pre.flatten.length < 2 ^ 31 ∧
        blocks.flatten.length ≤ 2 * pre.flatten.length := by
  have hlen : ∀ s ∈ blocks, s.length < 2 ^ 32 := fun s hs =>
    Nat.lt_of_le_of_lt (List.Sublist.length_le (List.sublist_flatten_of_mem hs)) hlt
  have h64 : constructor.capacity.toNat = 64 := rfl
  have hiff := appendAll_isSome_iff blocks Holds.constructor hlen
  rw [h64, List.length_nil, fits_constructor] at hiff
  rw [← hiff, Option.isSome_iff_exists]
  refine exists_congr fun b => and_iff_left_of_imp fun e => ?_
  have hb := Holds.constructor.appendAll blocks e
  have hmap : blocks.map counted = blocks :=
    (List.map_congr_left fun s hs => counted_of_lt (hlen s hs)).trans (List.map_id _)
  rw [List.nil_append, hmap] at hb
  exact hb

theorem intact_iff_holds {zhwk_error : Int32} {arr : Option Bytes} {parts : List Bytes} :
    Intact zhwk_error arr parts ↔
      ∃ b, build zhwk_error arr parts = some b ∧ Holds b (arr.toList ++ parts).flatten :=
  exists_congr fun _ => and_congr_right fun _ =>
    ⟨fun ⟨hfits, hblock, _, hbytes⟩ => ⟨hblock, hfits, hbytes⟩,
      fun h => ⟨h.fits, h.block, h.size_eq, h.bytes⟩⟩

/-- With no error pending, `from_array` is the constructor and one append; the
    empty array makes no difference. -/
theorem build_eq {zhwk_error : Int32} {arr : Option Bytes} (parts : List Bytes)
    (h : zhwk_error = 0 ∨ arr.toList.flatten = []) :
    build zhwk_error arr parts = constructor.appendAll (arr.toList ++ parts) := by
  cases arr with
  | none => rfl
  | some s =>
    by_cases herr : chkerr zhwk_error = 0
    · rw [build, fromArray, if_pos herr]
      rfl
    · have hs : s = [] := by
        rcases h with rfl | h
        · exact absurd rfl herr
        · simpa using h
      have hnil : constructor.append [] 0 = some constructor := rfl
      subst hs
      rw [build, fromArray, if_neg herr]
      exact (congrArg (·.bind fun b => b.appendAll parts) hnil).symm

/-- With an error pending, `from_array` leaves its array out. -/
theorem build_pending {zhwk_error : Int32} (h : zhwk_error ≠ 0) (s : Bytes) (parts : List Bytes) :
    build zhwk_error (some s) parts = constructor.appendAll parts := by
  have herr : chkerr zhwk_error ≠ 0 := by
    rw [chkerr, if_pos h]
    decide
  rw [build, fromArray, if_neg herr]
  rfl

/-- **The buffer invariant.** For blocks of fewer than 2^32 bytes in all, the buffer
    ends up with exactly the blocks, all copies inside their capacity, if and only
    if no error is pending when `from_array` makes it and some first blocks have
    fewer than 2^31 bytes and at least half of all bytes. -/
theorem buffer_invariant (zhwk_error : Int32) (arr : Option Bytes) (parts : List Bytes)
    (hlt : (arr.toList ++ parts).flatten.length < 2 ^ 32) :
    Intact zhwk_error arr parts ↔
      (zhwk_error = 0 ∨ arr.toList.flatten = []) ∧
        ∃ pre, pre <+: arr.toList ++ parts ∧ pre.flatten.length < 2 ^ 31 ∧
          (arr.toList ++ parts).flatten.length ≤ 2 * pre.flatten.length := by
  rw [intact_iff_holds]
  by_cases herr : zhwk_error = 0 ∨ arr.toList.flatten = []
  · rw [build_eq parts herr, appendAll_intact_iff hlt, and_iff_right herr]
  · refine ⟨fun ⟨b, e, hb⟩ => ?_, fun h => absurd h.1 herr⟩
    rw [not_or] at herr
    obtain ⟨hne, harr⟩ := herr
    cases arr with
    | none => exact absurd rfl harr
    | some s =>
      -- the array is missing, so the sizes differ
      rw [build_pending hne] at e
      have hsz := (Holds.constructor.appendAll parts e).size_eq
      have hlen : ∀ t ∈ parts, t.length < 2 ^ 32 := fun t ht =>
        Nat.lt_of_le_of_lt
          (List.Sublist.length_le (List.sublist_flatten_of_mem (List.mem_append_right _ ht))) hlt
      have hmap : parts.map counted = parts :=
        (List.map_congr_left fun t ht => counted_of_lt (hlen t ht)).trans (List.map_id _)
      rw [hmap, hb.size_eq] at hsz
      have hs : s.length = 0 := by simpa using hsz
      exact absurd (by simpa using List.eq_nil_of_length_eq_zero hs) harr

theorem buffer_invariant_two : Intact 0 (some [1, 2]) [[3]] :=
  (buffer_invariant 0 (some [1, 2]) [[3]] (by decide)).2
    ⟨.inl rfl, [[1, 2], [3]], List.prefix_rfl, by decide, by decide⟩

/-- One append of 2^31 bytes to a new buffer: the doubled total is 0. -/
theorem buffer_invariant_fails : ¬Intact 0 none [List.replicate (2 ^ 31) 0] := by
  have hlen : [List.replicate (2 ^ 31) (0 : UInt8)].flatten.length = 2 ^ 31 := by
    rw [List.flatten_singleton, List.length_replicate]
  rw [intact_iff_holds]
  rintro ⟨b, e, hb⟩
  have e' : constructor.appendAll [List.replicate (2 ^ 31) (0 : UInt8)] = some b := e
  obtain ⟨pre, hp, hlt, hle⟩ := (appendAll_intact_iff (by rw [hlen]; omega)).1 ⟨b, e', hb⟩
  rw [hlen] at hle
  rcases List.prefix_cons_iff.1 hp with rfl | ⟨t, rfl, ht⟩
  · rw [List.flatten_nil, List.length_nil] at hle
    omega
  · rw [List.prefix_nil.1 ht, List.flatten_singleton, List.length_replicate] at hlt
    omega

end Bss
end Zhwkrfsp
