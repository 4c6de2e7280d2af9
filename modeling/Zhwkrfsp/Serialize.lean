import Zhwkrfsp.ListBlock

/- The encoder of `zhwkre/serialization/serialization.c`. Each depth of a nested list
   becomes a byte string of records: the positions of the elements that an element is
   nested in, its own position, its size and its bytes. The recursion merges the
   strings of a list within a list behind those there are, from the second on.
   `none` is an access outside a block or to no cell, and a recursion that goes on for
   more cells than `fuel`. Below 2^31 bytes a string is what `level` says
   (`listSerialize_spec`). -/
namespace Zhwkrfsp.Serialization
open Wire Linked Nested QList
open QMap (Block)

/-- The appends for one element: prefix, counter, size and data. -/
def appendRecord (buffer pfx : Bss) (counter : UInt32) (data : Block) : Option Bss := do
  let buffer ← buffer.append pfx.str pfx.size
  let buffer ← buffer.append (Codec.u32.enc counter) 4
  let buffer ← buffer.append (Codec.u32.enc (UInt32.ofNat data.bytes.length)) 4
  buffer.append data.bytes (UInt32.ofNat data.bytes.length)

/-- The body of the loop over `irdesc`: the string of `appiter` goes behind the one
    `retcnt` links after the head, or behind the last. -/
def appendLevel (rdesc : List Bss) (retcnt : Nat) (appiter : Bss) : Option (List Bss) :=
  if retcnt = rdesc.length then some (rdesc ++ [appiter])
  else do
    let rdescit ← rdesc[retcnt]?
    let rdescit ← rdescit.append appiter.str appiter.size
    return rdesc.set retcnt rdescit

def appendLevels : List Bss → Nat → List Bss → Option (List Bss)
  | rdesc, _, [] => some rdesc
  | rdesc, retcnt, appiter :: irdesc => do
    let rdesc ← appendLevel rdesc retcnt appiter
    appendLevels rdesc (retcnt + 1) irdesc

/-- The loop of `q__list_serialize`, from the cell `iter` on. -/
def serializeFrom (h : Heap (Option Block)) :
    Nat → Option Nat → Bss → UInt32 → List Bss → Option (List Bss)
  | _, none, _, _, rdesc => some rdesc
  | 0, some _, _, _, _ => none
  | fuel + 1, some iter, pfx, counter, rdesc => do
    let c ← h.cell iter
    let data ← c.data
    let buffer ← rdesc[0]?
    let buffer ← appendRecord buffer pfx counter data
    let rdesc := rdesc.set 0 buffer
    if !islist data.bytes then serializeFrom h fuel c.next pfx (counter + 1) rdesc
    else
      let idesc ← readDesc data.bytes
      let tmpiprefix ← Bss.constructor.append pfx.str pfx.size
      let tmpiprefix ← tmpiprefix.append (Codec.u32.enc counter) 4
      let irdesc ← serializeFrom h fuel idesc.head tmpiprefix 0 [Bss.constructor]
      let rdesc ← appendLevels rdesc 1 irdesc
      serializeFrom h fuel c.next pfx (counter + 1) rdesc

/-- `q__list_serialize`. -/
def listSerialize (h : Heap (Option Block)) (fuel : Nat) (desc : Descriptor) (pfx : Bss) :
    Option (List Bss) :=
  serializeFrom h fuel desc.head pfx 0 [Bss.constructor]

/-- `qSerialize`. -/
def qSerialize (h : Heap (Option Block)) (fuel : Nat) (data : Block) : Option (List Bss) :=
  if islist data.bytes then do
    let desc ← readDesc data.bytes
    listSerialize h fuel desc Bss.constructor
  else do
    let tmpbss ← Bss.constructor.append data.bytes (UInt32.ofNat data.bytes.length)
    return [tmpbss]

/-! What the strings are. -/

/-- A path as a prefix of a record. -/
def key (p : List Nat) : Bytes := p.flatMap fun c => Codec.u32.enc (UInt32.ofNat c)

def recordBytes (r : Record Block) : Bytes :=
  key r.path ++ Codec.u32.enc (UInt32.ofNat r.pos) ++
    Codec.u32.enc (UInt32.ofNat r.val.bytes.length) ++ r.val.bytes

def levelBytes (rs : List (Record Block)) : Bytes := rs.flatMap recordBytes

/-- There are `n` strings, and string `k` holds `f k`. -/
structure Holding (levels : List Bss) (n : Nat) (f : Nat → Bytes) : Prop where
  length : levels.length = n
  holds : ∀ (k : Nat) (b : Bss), levels[k]? = some b → b.Holds (f k)
  empty : ∀ k, n ≤ k → f k = []

/-- The strings `g` behind the strings `f`, from string `retcnt` on. -/
def merge (f : Nat → Bytes) (retcnt : Nat) (g : Nat → Bytes) (k : Nat) : Bytes :=
  if retcnt ≤ k then f k ++ g (k - retcnt) else f k

@[simp] theorem key_nil : key [] = [] := rfl

theorem key_append (p q : List Nat) : key (p ++ q) = key p ++ key q := List.flatMap_append

theorem key_single (c : Nat) : key [c] = Codec.u32.enc (UInt32.ofNat c) := by
  rw [key, List.flatMap_cons, List.flatMap_nil, List.append_nil]

theorem length_key (p : List Nat) : (key p).length = 4 * p.length := by
  induction p with
  | nil => rfl
  | cons c p ih =>
    rw [key, List.flatMap_cons, List.length_append, Codec.enc_length]
    rw [key] at ih
    rw [ih, Codec.size_u32, List.length_cons]
    omega

@[simp] theorem levelBytes_nil : levelBytes [] = [] := rfl

@[simp] theorem levelBytes_cons (r : Record Block) (rs : List (Record Block)) :
    levelBytes (r :: rs) = recordBytes r ++ levelBytes rs := List.flatMap_cons

@[simp] theorem levelBytes_append (rs rs' : List (Record Block)) :
    levelBytes (rs ++ rs') = levelBytes rs ++ levelBytes rs' := List.flatMap_append

theorem length_recordBytes (r : Record Block) :
    (recordBytes r).length = (key r.path).length + 8 + r.val.bytes.length := by
  rw [recordBytes, List.length_append, List.length_append, List.length_append, Codec.enc_length,
    Codec.enc_length, Codec.size_u32]

/-- A record takes eight bytes at least. -/
theorem length_le_levelBytes (rs : List (Record Block)) :
    8 * rs.length ≤ (levelBytes rs).length := by
  induction rs with
  | nil => exact Nat.le_refl _
  | cons r rs ih =>
    rw [levelBytes_cons, List.length_append, length_recordBytes, List.length_cons]
    omega

namespace Holding
variable {levels : List Bss} {n k : Nat} {f : Nat → Bytes} {b : Bss} {c : Bytes}

theorem get (hl : Holding levels n f) (hk : k < n) : ∃ b, levels[k]? = some b ∧ b.Holds (f k) := by
  have hlt : k < levels.length := by rwa [hl.length]
  exact ⟨_, List.getElem?_eq_getElem hlt, hl.holds k _ (List.getElem?_eq_getElem hlt)⟩

theorem set (hl : Holding levels n f) (hk : k < n) (hb : b.Holds c) :
    Holding (levels.set k b) n (Function.update f k c) := by
  refine ⟨by rw [List.length_set, hl.length], fun j b' hj => ?_, fun j hj => ?_⟩
  · by_cases hjk : j = k
    · subst hjk
      rw [List.getElem?_set_self (by rwa [hl.length])] at hj
      cases hj
      rw [Function.update_self]
      exact hb
    · rw [List.getElem?_set_ne (Ne.symm hjk)] at hj
      rw [Function.update_of_ne hjk]
      exact hl.holds j b' hj
  · rw [Function.update_of_ne (by omega)]
    exact hl.empty j hj

theorem concat (hl : Holding levels n f) (hb : b.Holds c) :
    Holding (levels ++ [b]) (n + 1) (Function.update f n c) := by
  refine ⟨by rw [List.length_append, hl.length]; rfl, fun j b' hj => ?_, fun j hj => ?_⟩
  · rw [List.getElem?_append, hl.length] at hj
    split at hj
    · rename_i hlt
      rw [Function.update_of_ne (by omega)]
      exact hl.holds j b' hj
    · rename_i hge
      rcases Nat.eq_or_lt_of_le (Nat.not_lt.1 hge) with rfl | hlt
      · rw [Nat.sub_self] at hj
        cases hj
        rw [Function.update_self]
        exact hb
      · rw [List.getElem?_eq_none (by rw [List.length_singleton]; omega)] at hj
        cases hj
  · rw [Function.update_of_ne (by omega)]
    exact hl.empty j (by omega)

theorem tail (hl : Holding (b :: levels) n f) :
    Holding levels (n - 1) fun k => f (k + 1) := by
  refine ⟨?_, fun k b' hk => hl.holds (k + 1) b' hk, fun k hk => hl.empty (k + 1) (by omega)⟩
  rw [← hl.length]
  rfl

theorem single : Holding [Bss.constructor] 1 fun _ => [] := by
  refine ⟨rfl, fun k b hk => ?_, fun _ _ => rfl⟩
  rcases List.getElem?_eq_some_iff.1 hk with ⟨hlt, rfl⟩
  rw [List.getElem_singleton]
  exact .constructor

end Holding

/-! One step each. -/

/-- Of another buffer only what it holds is appended. -/
theorem append_str (b : Bss) {b' : Bss} {c' : Bytes} (hb' : b'.Holds c') :
    b.append b'.str b'.size = b.append c' b'.size := by
  have hcut : b'.str.take b'.size.toNat = c'.take b'.size.toNat := by
    rw [hb'.size_eq, List.take_length, ← hb'.size_eq]
    exact hb'.bytes
  rw [Bss.append, Bss.append, hcut]

theorem append_bss {b b' : Bss} {c c' : Bytes} (hb : b.Holds c) (hb' : b'.Holds c')
    (hlt : (c ++ c').length < 2 ^ 31) :
    ∃ r, b.append b'.str b'.size = some r ∧ r.Holds (c ++ c') := by
  rw [append_str b hb']
  rw [List.length_append] at hlt
  exact Bss.append_holds hb hb'.size_eq.symm hlt

theorem append_counter {b : Bss} {c : Bytes} (hb : b.Holds c) (n : UInt32)
    (hlt : c.length + 4 < 2 ^ 31) :
    ∃ r, b.append (Codec.u32.enc n) 4 = some r ∧ r.Holds (c ++ Codec.u32.enc n) := by
  have hlen : (Codec.u32.enc n).length = 4 := Codec.u32.enc_length n
  exact Bss.append_holds hb hlen (by rw [hlen]; exact hlt)

theorem appendRecord_spec {b pfx : Bss} {c : Bytes} (hb : b.Holds c) (r : Record Block)
    (hp : pfx.Holds (key r.path)) (hlt : (c ++ recordBytes r).length < 2 ^ 31) :
    ∃ b', appendRecord b pfx (UInt32.ofNat r.pos) r.val = some b' ∧
      b'.Holds (c ++ recordBytes r) := by
  rw [List.length_append, length_recordBytes] at hlt
  obtain ⟨b₁, e₁, h₁⟩ := append_bss hb hp (by rw [List.length_append]; omega)
  obtain ⟨b₂, e₂, h₂⟩ := append_counter h₁ (UInt32.ofNat r.pos)
    (by rw [List.length_append]; omega)
  have hlen : ∀ n : UInt32, (Codec.u32.enc n).length = 4 := Codec.u32.enc_length
  obtain ⟨b₃, e₃, h₃⟩ := append_counter h₂ (UInt32.ofNat r.val.bytes.length)
    (by rw [List.length_append, List.length_append, hlen]; omega)
  have hsize : r.val.bytes.length = (UInt32.ofNat r.val.bytes.length).toNat :=
    (UInt32.toNat_ofNat_of_lt' r.val.short).symm
  obtain ⟨b₄, e₄, h₄⟩ := Bss.append_holds h₃ hsize
    (by rw [List.length_append, List.length_append, List.length_append, hlen, hlen]; omega)
  refine ⟨b₄, ?_, ?_⟩
  · simp only [appendRecord, e₁, e₂, e₃, e₄, Option.bind_eq_bind, Option.bind_some]
  · simpa only [recordBytes, List.append_assoc] using h₄

theorem appendLevel_spec {rdesc : List Bss} {n retcnt : Nat} {f : Nat → Bytes} {b : Bss} {c : Bytes}
    (hr : Holding rdesc n f) (hle : retcnt ≤ n) (hb : b.Holds c)
    (hlt : (f retcnt ++ c).length < 2 ^ 31) :
    ∃ rdesc', appendLevel rdesc retcnt b = some rdesc' ∧
      Holding rdesc' (max n (retcnt + 1)) (Function.update f retcnt (f retcnt ++ c)) := by
  rcases Nat.eq_or_lt_of_le hle with rfl | hlt'
  · refine ⟨rdesc ++ [b], if_pos hr.length.symm, ?_⟩
    rw [Nat.max_eq_right (Nat.le_succ _), hr.empty retcnt (Nat.le_refl _), List.nil_append]
    exact hr.concat hb
  · obtain ⟨b₀, e₀, h₀⟩ := hr.get hlt'
    obtain ⟨b₁, e₁, h₁⟩ := append_bss h₀ hb hlt
    refine ⟨rdesc.set retcnt b₁, ?_, ?_⟩
    · rw [appendLevel, if_neg (by rw [hr.length]; omega), e₀]
      simp only [Option.bind_eq_bind, Option.bind_some, e₁]
      rfl
    · rw [Nat.max_eq_left hlt']
      exact hr.set hlt' h₁

theorem appendLevels_spec {irdesc : List Bss} : ∀ {rdesc : List Bss} {n n' retcnt : Nat}
    {f g : Nat → Bytes}, Holding rdesc n f → retcnt ≤ n → Holding irdesc n' g →
    (∀ k, (merge f retcnt g k).length < 2 ^ 31) →
    ∃ rdesc', appendLevels rdesc retcnt irdesc = some rdesc' ∧
      Holding rdesc' (max n (retcnt + n')) (merge f retcnt g) := by
  induction irdesc with
  | nil =>
    intro rdesc n n' retcnt f g hr hle hi _
    have hn' : n' = 0 := hi.length.symm
    have hmerge : merge f retcnt g = f := by
      funext k
      rw [merge, hi.empty _ (by omega), List.append_nil, ite_self]
    refine ⟨rdesc, rfl, ?_⟩
    rw [hmerge, hn', Nat.add_zero, Nat.max_eq_left hle]
    exact hr
  | cons b irdesc ih =>
    intro rdesc n n' retcnt f g hr hle hi hlt
    have hn' : n' = irdesc.length + 1 := hi.length.symm
    have hfirst : (f retcnt ++ g 0).length < 2 ^ 31 := by
      have h := hlt retcnt
      rwa [merge, if_pos (Nat.le_refl _), Nat.sub_self] at h
    obtain ⟨r₁, e₁, h₁⟩ := appendLevel_spec hr hle (hi.holds 0 b rfl) hfirst
    -- the rest is merged behind the string that has just grown
    have hmerge : merge (Function.update f retcnt (f retcnt ++ g 0)) (retcnt + 1)
        (fun k => g (k + 1)) = merge f retcnt g := by
      funext k
      rw [merge, merge]
      rcases Nat.lt_trichotomy k retcnt with hk | rfl | hk
      · rw [if_neg (by omega), if_neg (by omega), Function.update_of_ne (by omega)]
      · rw [if_neg (by omega), if_pos (Nat.le_refl _), Function.update_self, Nat.sub_self]
      · rw [if_pos (by omega), if_pos (by omega), Function.update_of_ne (by omega),
          show k - (retcnt + 1) + 1 = k - retcnt by omega]
    obtain ⟨r₂, e₂, h₂⟩ := ih h₁ (Nat.le_max_right _ _) hi.tail (by rw [hmerge]; exact hlt)
    refine ⟨r₂, ?_, ?_⟩
    · rw [appendLevels, e₁]
      exact e₂
    · rw [hmerge] at h₂
      have hmax : max (max n (retcnt + 1)) (retcnt + 1 + (n' - 1)) = max n (retcnt + n') := by
        omega
      rwa [hmax] at h₂

/-! The recursion. -/

section
variable {p : List Nat} {i : Nat} {f : Nat → Bytes} {x : Block} {s r : Forest Block}

/-- The strings after an element: its record is in the first one. -/
theorem strings_leaf (k : Nat) : Function.update f 0 (f 0 ++ recordBytes ⟨p, i, x⟩) k ++
    levelBytes (r.level p (i + 1) k) = f k ++ levelBytes ((Forest.leaf x r).level p i k) := by
  cases k with
  | zero => rw [Function.update_self, Forest.level, levelBytes_cons, List.append_assoc]
  | succ k => rw [Function.update_of_ne (Nat.succ_ne_zero k), Forest.level]

theorem strings_node (k : Nat) : merge (Function.update f 0 (f 0 ++ recordBytes ⟨p, i, x⟩)) 1
      (fun k => levelBytes (s.level (p ++ [i]) 0 k)) k ++ levelBytes (r.level p (i + 1) k) =
    f k ++ levelBytes ((Forest.node x s r).level p i k) := by
  cases k with
  | zero =>
    rw [merge, if_neg (by omega), Function.update_self, Forest.level, levelBytes_cons,
      List.append_assoc]
  | succ k =>
    rw [merge, if_pos (by omega), Function.update_of_ne (Nat.succ_ne_zero k), Forest.level,
      levelBytes_append, Nat.add_sub_cancel, List.append_assoc]

end

theorem ofNat_succ (i : Nat) : UInt32.ofNat i + 1 = UInt32.ofNat (i + 1) := (UInt32.ofNat_add i 1).symm

theorem serializeFrom_spec {h : Heap (Option Block)} {F : Forest Block} {l : List (Nat × Block)}
    (hi : Items h F l) : ∀ {q : Option Nat} {fuel : Nat} {p : List Nat} {i n : Nat}
      {f : Nat → Bytes} {pfx : Bss} {rdesc : List Bss}, Chain h.cell q (boxed l) none →
      F.size ≤ fuel → pfx.Holds (key p) → Holding rdesc n f → 0 < n →
      (∀ k, (f k ++ levelBytes (F.level p i k)).length < 2 ^ 31) →
      ∃ levels, serializeFrom h fuel (first l none) pfx (UInt32.ofNat i) rdesc = some levels ∧
        Holding levels (max n F.height) fun k => f k ++ levelBytes (F.level p i k) := by
  induction hi with
  | nil =>
    intro q fuel p i n f pfx rdesc _ _ _ hr hn _
    refine ⟨rdesc, ?_, ?_⟩
    · rw [first_nil]
      cases fuel <;> rfl
    · have hf : (fun k => f k ++ levelBytes ((Forest.nil : Forest Block).level p i k)) = f := by
        funext k
        rw [Forest.level_nil, levelBytes_nil, List.append_nil]
      rw [hf, Forest.height, Nat.max_eq_left hn]
      exact hr
  | @leaf a x r l hx _ ih =>
    intro q fuel p i n f pfx rdesc hc hfuel hp hr hn hlt
    rw [boxed_cons] at hc
    obtain ⟨hcell, hrest⟩ := hc
    rw [first_boxed] at hcell
    rw [Forest.size] at hfuel
    obtain ⟨fuel, rfl⟩ := Nat.exists_eq_succ_of_ne_zero (show fuel ≠ 0 by omega)
    simp only [← strings_leaf] at hlt ⊢
    obtain ⟨b, eb, hb⟩ := hr.get hn
    obtain ⟨b', eb', hb'⟩ := appendRecord_spec hb ⟨p, i, x⟩ hp (by
      have h := hlt 0
      rw [Function.update_self, List.length_append] at h
      omega)
    obtain ⟨levels, e, hl⟩ := ih hrest (Nat.le_of_succ_le_succ hfuel) hp (hr.set hn hb') hn hlt
    refine ⟨levels, ?_, hl⟩
    rw [first_cons, serializeFrom, hcell]
    simp only [Option.bind_eq_bind, Option.bind_some, eb, eb', hx, Bool.not_false, if_true,
      ofNat_succ, e]
  | @node a x s r l ls d hx hd hs _ _ ihs ihr =>
    intro q fuel p i n f pfx rdesc hc hfuel hp hr hn hlt
    rw [boxed_cons] at hc
    obtain ⟨hcell, hrest⟩ := hc
    rw [first_boxed] at hcell
    rw [Forest.size] at hfuel
    obtain ⟨fuel, rfl⟩ := Nat.exists_eq_succ_of_ne_zero (show fuel ≠ 0 by omega)
    have hsize : s.size ≤ fuel := by omega
    have hsize' : r.size ≤ fuel := by omega
    simp only [← strings_node] at hlt ⊢
    have h₀ := hlt 0
    have hrec : (recordBytes ⟨p, i, x⟩).length = (key p).length + 8 + x.bytes.length :=
      length_recordBytes _
    rw [merge, if_neg (by omega), Function.update_self, List.length_append, List.length_append] at h₀
    obtain ⟨b, eb, hb⟩ := hr.get hn
    obtain ⟨b', eb', hb'⟩ := appendRecord_spec hb ⟨p, i, x⟩ hp (by
      rw [List.length_append]
      omega)
    -- the list within
    obtain ⟨t₁, et₁, ht₁⟩ := append_bss Bss.Holds.constructor hp (by
      rw [List.nil_append]
      omega)
    rw [List.nil_append] at ht₁
    obtain ⟨t₂, et₂, ht₂⟩ := append_counter ht₁ (UInt32.ofNat i) (by omega)
    rw [← key_single, ← key_append] at ht₂
    have hsub : ∀ k, ([] ++ levelBytes (s.level (p ++ [i]) 0 k)).length < 2 ^ 31 := fun k => by
      have h := hlt (k + 1)
      rw [merge, if_pos (by omega), Nat.add_sub_cancel, List.length_append, List.length_append] at h
      rw [List.nil_append]
      omega
    obtain ⟨irdesc, ei, hi⟩ := ihs hs.chain hsize ht₂ Holding.single Nat.one_pos hsub
    rw [Nat.max_eq_right s.height_pos] at hi
    simp only [List.nil_append] at hi
    obtain ⟨rdesc', er, hr'⟩ := appendLevels_spec (hr.set hn hb') hn hi fun k =>
      Nat.lt_of_le_of_lt (List.length_append ▸ Nat.le_add_right _ _) (hlt k)
    obtain ⟨levels, e, hl⟩ := ihr hrest hsize' hp hr'
      (Nat.lt_of_lt_of_le hn (Nat.le_max_left _ _)) hlt
    refine ⟨levels, ?_, ?_⟩
    · rw [first_cons, serializeFrom, hcell]
      simp only [Option.bind_eq_bind, Option.bind_some, eb, eb', hx, Bool.not_true,
        Bool.false_eq_true, if_false, hd, et₁, et₂, hs.head]
      rw [show (0 : UInt32) = UInt32.ofNat 0 from rfl, ei]
      simp only [Option.bind_some, er, ofNat_succ, e]
    · rwa [Nat.max_assoc, Nat.add_comm 1] at hl

/-- The strings of a nested list that is nowhere longer than 2^31 bytes. -/
theorem listSerialize_spec {h : Heap (Option Block)} {d : Descriptor} {F : Forest Block} {fuel : Nat}
    (hl : Live h d F) (hfuel : F.size ≤ fuel)
    (hlt : ∀ k, (levelBytes (F.level [] 0 k)).length < 2 ^ 31) :
    ∃ levels, listSerialize h fuel d Bss.constructor = some levels ∧
      Holding levels F.height fun k => levelBytes (F.level [] 0 k) := by
  obtain ⟨l, hs, hi⟩ := hl
  obtain ⟨levels, e, hlv⟩ := serializeFrom_spec hi hs.chain hfuel
    (show Bss.constructor.Holds (key []) from .constructor) Holding.single Nat.one_pos
    (fun k => by rw [List.nil_append]; exact hlt k)
  rw [Nat.max_eq_right F.height_pos] at hlv
  simp only [List.nil_append] at hlv
  refine ⟨levels, ?_, hlv⟩
  rw [listSerialize, hs.head]
  exact e

end Zhwkrfsp.Serialization
