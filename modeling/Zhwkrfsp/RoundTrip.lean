import Zhwkrfsp.Unserialize

/- Decoding what was encoded. The decoder works from the deepest string up. Its
   invariant: of every list of the depth it comes from, the lists by prefix hold a
   copy, or nothing where the list is empty (`Restored`). One string then turns the
   copies of one depth into the copies of the depth above. -/
namespace Zhwkrfsp.Serialization
open Wire Linked Nested QList
open QMap (Block)

/-- A record as the decoder sees it. -/
def raw (r : Record Block) : Raw := ⟨key r.path, UInt32.ofNat r.pos, r.val⟩

/-- What the decoder has of a list: a copy, and of an empty one nothing. -/
def Restored (h : Heap (Option Block)) (o : Option Descriptor) (F : Forest Block) : Prop :=
  match o with
  | none => F = .nil
  | some d => F ≠ .nil ∧ ∃ F', Live h d F' ∧ Forest.Same Alike F F'

/-- What it has of the lists that the elements of `F` hold, these being at `p` from
    position `i` on. -/
def Below (h : Heap (Option Block)) (sis : Bytes → Option Descriptor) (p : List Nat) (i : Nat)
    (F : Forest Block) : Prop :=
  ∀ j, i + j < 2 ^ 32 → Restored h (sis (key (p ++ [i + j]))) (F.sub [j])

theorem levelBytes_eq (rs : List (Record Block)) : levelBytes rs = rawBytes (rs.map raw) := by
  rw [rawBytes, List.flatMap_map]
  rfl

/-- Prefixes of one length are those of one path. -/
theorem key_injective {p : List Nat} : ∀ {q : List Nat}, p.length = q.length →
    (∀ c ∈ p, c < 2 ^ 32) → (∀ c ∈ q, c < 2 ^ 32) → key p = key q → p = q := by
  induction p with
  | nil =>
    intro q hlen _ _ _
    exact (List.eq_nil_of_length_eq_zero hlen.symm).symm
  | cons c p ih =>
    intro q hlen hp hq h
    cases q with
    | nil => cases hlen
    | cons d q =>
      rw [key, key, List.flatMap_cons, List.flatMap_cons] at h
      have hsize : ∀ n : UInt32, (Codec.u32.enc n).length = 4 := Codec.u32.enc_length
      obtain ⟨hc, hrest⟩ := List.append_inj h (by rw [hsize, hsize])
      have hcd : c = d := by
        have h' := congrArg UInt32.toNat (Codec.u32.enc_injective hc)
        rwa [UInt32.toNat_ofNat_of_lt' (hp c List.mem_cons_self),
          UInt32.toNat_ofNat_of_lt' (hq d List.mem_cons_self)] at h'
      rw [hcd, ih (Nat.succ.inj hlen) (fun c hc => hp c (List.mem_cons_of_mem _ hc))
        (fun c hc => hq c (List.mem_cons_of_mem _ hc)) hrest]

/-! The elements of one list. -/

section
variable {h₀ h : Heap (Option Block)} {sis : Bytes → Option Descriptor} {F : Forest Block}
  {l₀ : List (Nat × Block)}

theorem Restored.frame {h' : Heap (Option Block)} {o : Option Descriptor} (ho : Restored h o F)
    (hcell : ∀ a < h.brk, h'.cell a = h.cell a) (hbrk : h.brk ≤ h'.brk) : Restored h' o F := by
  cases o with
  | none => exact ho
  | some d =>
    obtain ⟨hne, F', hl, hs⟩ := ho
    exact ⟨hne, F', hl.frame hcell hbrk, hs⟩

theorem Restored.eq_none {o : Option Descriptor} (ho : Restored h o .nil) : o = none := by
  cases o with
  | none => rfl
  | some d => exact absurd rfl ho.1

/-- An element that holds a list gets the fields of the copy. -/
theorem reunite_node {x : Block} {d₀ : Descriptor} {s : Forest Block} {o : Option Descriptor}
    (hx : islist x.bytes = true) (hd : readDesc x.bytes = some d₀) (hl : Live h₀ d₀ s)
    (ho : Restored h o s) (hbrk : h.brk < 2 ^ 64) :
    ∃ b d s', reunite x o = some b ∧ islist b.bytes = true ∧ Alike x b ∧
      readDesc b.bytes = some d ∧ Live h d s' ∧ Forest.Same Alike s s' := by
  cases o with
  | none =>
    cases show s = .nil from ho
    cases hl.eq_constructor
    exact ⟨x, _, .nil, rfl, hx, alike_refl x, hd, live_nil h, .nil⟩
  | some d =>
    obtain ⟨-, s', hl', hs⟩ := ho
    have hfits : d.Fits := by
      obtain ⟨l, hst, -⟩ := hl'
      exact hst.fits hbrk
    obtain ⟨b, e, hb, halike⟩ := assign_spec hfits (length_of_islist hx)
    exact ⟨b, d, s', e, by rw [halike.islist]; exact hx, halike, hb, hl', hs⟩

theorem Below.head {p : List Nat} {i : Nat} (hb : Below h sis p i F) (hi : i < 2 ^ 32) :
    Restored h (sis (key p ++ Codec.u32.enc (UInt32.ofNat i))) (F.sub [0]) := by
  have h := hb 0 hi
  rwa [Nat.add_zero, key_append, key_single] at h

theorem Below.leaf_tail {p : List Nat} {i : Nat} {x : Block} (hb : Below h sis p i (.leaf x F)) :
    Below h sis p (i + 1) F := by
  intro j hj
  have h := hb (j + 1)
  rw [← Nat.add_assoc, Nat.add_right_comm] at h
  exact h hj

theorem Below.node_tail {p : List Nat} {i : Nat} {x : Block} {s : Forest Block}
    (hb : Below h sis p i (.node x s F)) : Below h sis p (i + 1) F := by
  intro j hj
  have h := hb (j + 1)
  rw [← Nat.add_assoc, Nat.add_right_comm] at h
  exact h hj

theorem patch_isSome (hi : Items h₀ F l₀) (hbrk : h.brk < 2 ^ 64) : ∀ {p : List Nat} {i : Nat},
    Below h sis p i F → i + (F.level p i 0).length ≤ 2 ^ 32 →
    ∀ r ∈ F.level p i 0, (patch sis (raw r)).isSome := by
  induction hi with
  | nil =>
    intro p i _ _ r hr
    rw [Forest.level_nil] at hr
    cases hr
  | @leaf a x r l hx _ ih =>
    intro p i hb hle r' hr
    rw [Forest.level, List.length_cons] at hle
    rcases List.mem_cons.1 hr with rfl | hr
    · rw [patch, raw, Restored.eq_none (hb.head (by omega))]
      rfl
    · exact ih hb.leaf_tail (by omega) r' hr
  | @node a x s r l ls d hx hd hs hi _ _ ih =>
    intro p i hb hle r' hr
    rw [Forest.level, List.length_cons] at hle
    rcases List.mem_cons.1 hr with rfl | hr
    · have ho := hb.head (by omega)
      rw [Forest.sub, Forest.sub_nil] at ho
      obtain ⟨b, -, -, e, -⟩ := reunite_node hx hd ⟨ls, hs, hi⟩ ho hbrk
      rw [patch, raw, e]
      rfl
    · exact ih hb.node_tail (by omega) r' hr

/-- The patched elements of a list stand for a copy of it. -/
theorem restore (hi : Items h₀ F l₀) (hbrk : h.brk < 2 ^ 64) :
    ∀ {p : List Nat} {i : Nat} {l : List (Nat × Block)}, Below h sis p i F →
      i + (F.level p i 0).length ≤ 2 ^ 32 →
      l.map Prod.snd = (F.level p i 0).map (fun r => patched sis (raw r)) →
      ∃ F', Items h F' l ∧ Forest.Same Alike F F' := by
  induction hi with
  | nil =>
    intro p i l _ _ hl
    rw [Forest.level_nil, List.map_nil, List.map_eq_nil_iff] at hl
    rw [hl]
    exact ⟨.nil, .nil, .nil⟩
  | @leaf a x r l₀ hx _ ih =>
    intro p i l hb hle hl
    rw [Forest.level, List.length_cons] at hle
    rw [Forest.level, List.map_cons] at hl
    obtain ⟨⟨a', b⟩, l, rfl, hbx, hl⟩ := List.map_eq_cons_iff.1 hl
    have hx' : patch sis (raw ⟨p, i, x⟩) = some x := by
      rw [patch, raw, Restored.eq_none (hb.head (by omega))]
      rfl
    obtain ⟨F', hi', hs'⟩ := ih hb.leaf_tail (by omega) hl
    rw [show b = x from hbx.trans (patched_of_some hx')]
    exact ⟨.leaf x F', .leaf hx hi', .leaf hs'⟩
  | @node a x s r l₀ ls d hx hd hs hi _ _ ih =>
    intro p i l hb hle hl
    rw [Forest.level, List.length_cons] at hle
    rw [Forest.level, List.map_cons] at hl
    obtain ⟨⟨a', b⟩, l, rfl, hbx, hl⟩ := List.map_eq_cons_iff.1 hl
    have ho := hb.head (by omega)
    rw [Forest.sub, Forest.sub_nil] at ho
    obtain ⟨b', d', s', e, hb', halike, hd', ⟨l', hst, hi'⟩, hss⟩ :=
      reunite_node hx hd ⟨ls, hs, hi⟩ ho hbrk
    have hx' : patch sis (raw ⟨p, i, x⟩) = some b' := e
    obtain ⟨F', hir, hsr⟩ := ih hb.node_tail (by omega) hl
    rw [show b = b' from hbx.trans (patched_of_some hx')]
    exact ⟨.node b' s' F', .node hb' hd' hst hi' hir, .node halike hss hsr⟩

end

/-! The elements of one depth. -/

section
variable {F : Forest Block}

theorem length_level_lt (hlt : ∀ k, (levelBytes (F.level [] 0 k)).length < 2 ^ 31) (k : Nat) :
    (F.level [] 0 k).length < 2 ^ 28 := by
  have h := length_le_levelBytes (F.level [] 0 k)
  have h' := hlt k
  omega

theorem positions_lt (hlt : ∀ k, (levelBytes (F.level [] 0 k)).length < 2 ^ 31) {k : Nat}
    {r : Record Block} (hr : r ∈ F.level [] 0 k) : ∀ c ∈ r.path, c < 2 ^ 32 := by
  have hN : ∀ k, (F.level [] 0 k).length ≤ 2 ^ 32 := fun k => by
    have h := length_level_lt hlt k
    omega
  have hnil : ∀ c ∈ ([] : List Nat), c < 2 ^ 32 := nofun
  exact (F.level_lt hnil (by rw [Nat.zero_add]; exact hN 0) hN hr).2

/-- A prefix and a counter fit into a string. -/
theorem height_lt (hlt : ∀ k, (levelBytes (F.level [] 0 k)).length < 2 ^ 31) :
    F.height * 4 < 2 ^ 31 := by
  by_cases hone : F.height = 1
  · rw [hone]
    decide
  · have hpos := F.height_pos
    have hne : F.level [] 0 (F.height - 2) ≠ [] := F.level_ne_nil (by omega)
    obtain ⟨r, hr⟩ := List.exists_mem_of_ne_nil _ hne
    have hpath := Forest.path_length hr
    have hlen := length_recordBytes r
    rw [length_key, hpath, List.length_nil] at hlen
    -- the deepest element with a list
    calc F.height * 4
        ≤ (recordBytes r).length := by
          rw [hlen]
          omega
      _ ≤ (levelBytes (F.level [] 0 (F.height - 2))).length :=
          (List.sublist_flatten_of_mem (List.mem_map_of_mem hr)).length_le
      _ < 2 ^ 31 := hlt (F.height - 2)

/-- By prefix the records of a depth are those of one list. -/
theorem filter_raw (hlt : ∀ k, (levelBytes (F.level [] 0 k)).length < 2 ^ 31) {q : List Nat}
    (hq : ∀ c ∈ q, c < 2 ^ 32) (pat : Raw → Block) :
    ((((F.level [] 0 q.length).map raw).map fun r => (r.key, pat r)).filter
        fun e => e.1 = key q).map Prod.snd =
      ((F.sub q).level q 0 0).map fun r => pat (raw r) := by
  rw [List.map_map, List.filter_map, List.map_map, ← Forest.filter_level]
  have hsame : (F.level [] 0 q.length).filter
      ((fun e : Bytes × Block => decide (e.1 = key q)) ∘ (fun r => (r.key, pat r)) ∘ raw) =
      (F.level [] 0 q.length).filter fun r => r.path = q := by
    refine List.filter_congr fun r hr => decide_eq_decide.2 ⟨fun h => ?_, fun h => ?_⟩
    · have hlen := Forest.path_length hr
      rw [List.length_nil, Nat.zero_add] at hlen
      exact key_injective hlen (positions_lt hlt hr) hq h
    · exact congrArg key h
  rw [hsame]
  rfl

theorem length_sub_le (hlt : ∀ k, (levelBytes (F.level [] 0 k)).length < 2 ^ 31) (q : List Nat) :
    0 + ((F.sub q).level q 0 0).length ≤ 2 ^ 32 := by
  have h := length_level_lt hlt q.length
  have hle := List.length_filter_le (fun r : Record Block => r.path = q) (F.level [] 0 q.length)
  rw [Forest.filter_level] at hle
  omega

/-- What the decoder has of the lists of a depth is what it has of the lists that the
    elements of the depth above hold. -/
theorem below_of_restored {h : Heap (Option Block)} {sis : Bytes → Option Descriptor} {k : Nat}
    (hres : ∀ q : List Nat, q.length = k + 1 → (∀ c ∈ q, c < 2 ^ 32) →
      Restored h (sis (key q)) (F.sub q)) {q : List Nat} (hk : q.length = k)
    (hq : ∀ c ∈ q, c < 2 ^ 32) : Below h sis q 0 (F.sub q) := by
  intro j hj
  rw [Nat.zero_add] at hj ⊢
  rw [← Forest.sub_append]
  apply hres _ (by rw [List.length_append, hk]; rfl)
  intro c hc
  rcases List.mem_append.1 hc with hc | hc
  · exact hq c hc
  · rw [List.mem_singleton.1 hc]
    exact hj

end

/-- One string: from the copies of the lists of depth `k + 1` to those of depth `k`. -/
theorem loadFrom_restores {F : Forest Block} {h₀ h : Heap (Option Block)} {d₀ : Descriptor}
    (hl : Live h₀ d₀ F) (hlt : ∀ k, (levelBytes (F.level [] 0 k)).length < 2 ^ 31)
    {previous_data : Option QMap.State} {sis : Bytes → Option Descriptor} {k : Nat} {lbss : Bss}
    (hk : k < F.height) (hb : lbss.Holds (levelBytes (F.level [] 0 k)))
    (hs : Serves previous_data (k * 4 + 4) sis)
    (hres : ∀ q : List Nat, q.length = k + 1 → (∀ c ∈ q, c < 2 ^ 32) →
      Restored h (sis (key q)) (F.sub q))
    (hm : h.mallocs = []) (hbrk : h.brk + (F.level [] 0 k).length < 2 ^ 64) :
    ∃ w desc l done, loadFrom previous_data (UInt32.ofNat k) lbss lbss.str.length 0
        ⟨QMap.init defaultMaxHashv, QList.constructor, h⟩ = some w ∧
      Loaded (UInt32.ofNat k) h w done desc l ∧ done.length = (F.level [] 0 k).length ∧
      ∀ q : List Nat, q.length = k → (∀ c ∈ q, c < 2 ^ 32) →
        ∃ F', Items w.heap F' (l (key q)) ∧ Forest.Same Alike (F.sub q) F' := by
  have hheight := height_lt hlt
  have hnum : (UInt32.ofNat k).toNat = k :=
    UInt32.toNat_ofNat_of_lt' (show k < 2 ^ 32 by omega)
  have hbrk' : h.brk < 2 ^ 64 := Nat.lt_of_le_of_lt (Nat.le_add_right _ _) hbrk
  have hpatch : ∀ r ∈ F.level [] 0 k, (patch sis (raw r)).isSome := by
    intro r hr
    have hpath := Forest.path_length hr
    rw [List.length_nil, Nat.zero_add] at hpath
    -- the list that the element is in
    obtain ⟨d, l₀, -, hi⟩ := hl.sub r.path
    have hbelow := below_of_restored hres hpath (positions_lt hlt hr)
    apply patch_isSome hi hbrk' hbelow (length_sub_le hlt _) r
    rw [← Forest.filter_level, hpath]
    exact List.mem_filter.2 ⟨hr, decide_eq_true rfl⟩
  have hraw : ∀ r ∈ (F.level [] 0 k).map raw,
      r.Keyed (UInt32.ofNat k) ∧ (patch sis r).isSome := by
    intro s hs
    obtain ⟨r, hr, rfl⟩ := List.mem_map.1 hs
    have hlen : (raw r).key.length = k * 4 := by
      have hpath := Forest.path_length hr
      rw [raw, length_key, hpath, List.length_nil, Nat.zero_add, Nat.mul_comm]
    exact ⟨⟨by rw [hlen, hnum], by rw [hlen]; omega⟩, hpatch r hr⟩
  have hcount := length_level_lt hlt k
  have hlen : ((F.level [] 0 k).map raw).length = (F.level [] 0 k).length := List.length_map ..
  rw [levelBytes_eq] at hb
  rw [← hnum] at hs
  obtain ⟨w, desc, l, e, hw⟩ := load_spec hs hm hb hraw (by rw [hlen]; exact hbrk)
  refine ⟨w, desc, l, _, e, hw, by rw [List.length_map, hlen], fun q hqk hq => ?_⟩
  subst hqk
  obtain ⟨d, l₀, -, hi⟩ := hl.sub q
  -- the copies from below are still there
  have hgrow : h.brk ≤ w.heap.brk := by
    rw [hw.filed.brk]
    exact Nat.le_add_right _ _
  have hbelow : Below w.heap sis q 0 (F.sub q) := fun j hj =>
    (below_of_restored hres rfl hq j hj).frame hw.filed.frame hgrow
  refine restore hi ?_ hbelow (length_sub_le hlt q) ?_
  · rw [hw.filed.brk, List.length_map, hlen]
    exact hbrk
  · rw [hw.filed.blocks, filter_raw hlt hq]

/-- The strings of a nested list, from the one of depth `rev.length - 1` up. -/
theorem listUnserialize_spec {F : Forest Block} {h₀ : Heap (Option Block)} {d₀ : Descriptor}
    (hl : Live h₀ d₀ F) (hlt : ∀ k, (levelBytes (F.level [] 0 k)).length < 2 ^ 31)
    {rev : List Bss} : ∀ {previous_data : Option QMap.State} {sis : Bytes → Option Descriptor}
      {h : Heap (Option Block)}, rev ≠ [] → rev.length ≤ F.height →
      (∀ (k : Nat) (b : Bss), rev.reverse[k]? = some b → b.Holds (levelBytes (F.level [] 0 k))) →
      Serves previous_data (rev.length * 4) sis →
      (∀ q : List Nat, q.length = rev.length → (∀ c ∈ q, c < 2 ^ 32) →
        Restored h (sis (key q)) (F.sub q)) →
      h.mallocs = [] → h.brk + F.upTo rev.length < 2 ^ 64 →
      ∃ d h' F', listUnserialize rev previous_data h = some (d, h') ∧ Live h' d F' ∧
        Forest.Same Alike F F' ∧ ∀ a < h.brk, h'.cell a = h.cell a := by
  induction rev with
  | nil =>
    intro _ _ _ hne
    exact absurd rfl hne
  | cons lbss tmpng ih =>
    intro previous_data sis h _ hheight hlevels hs hres hm hbrk
    rw [List.length_cons, Forest.upTo_succ] at hbrk
    rw [List.length_cons] at hheight hs hres
    have hb : lbss.Holds (levelBytes (F.level [] 0 tmpng.length)) := by
      apply hlevels
      rw [List.reverse_cons, ← List.length_reverse, List.getElem?_concat_length]
    have hfour := height_lt hlt
    obtain ⟨w, desc, l, done, e, hw, hdone, hitems⟩ := loadFrom_restores hl hlt hheight hb
      (by rw [Nat.succ_mul] at hs; exact hs) hres hm (by omega)
    obtain ⟨m, hmap, -⟩ := hw.lists
    obtain ⟨cleared, eclear⟩ := hmap.clear uhashf_lt
    have hnum : (UInt32.ofNat tmpng.length).toNat = tmpng.length :=
      UInt32.toNat_ofNat_of_lt' (show tmpng.length < 2 ^ 32 by omega)
    by_cases hz : UInt32.ofNat tmpng.length = 0
    · have hnil : tmpng.length = 0 := by
        rw [← hnum, hz]
        rfl
      obtain ⟨F', hi, hsame⟩ := hitems [] hnil.symm nofun
      refine ⟨w.itemslist, w.heap, F', ?_, ?_, by rwa [Forest.sub_nil] at hsame, hw.filed.frame⟩
      · rw [listUnserialize, e]
        simp only [Option.bind_eq_bind, Option.bind_some, if_pos hz, eclear]
        rfl
      · rw [hw.top hz]
        exact ⟨_, hw.filed.family.stored [], hi⟩
    · have hne : tmpng ≠ [] := by
        rintro rfl
        exact hz rfl
      -- what this string leaves for the one above
      have hres' : ∀ q : List Nat, q.length = tmpng.length → (∀ c ∈ q, c < 2 ^ 32) →
          Restored w.heap (occupied desc l (key q)) (F.sub q) := by
        intro q hq hc
        obtain ⟨F', hi, hsame⟩ := hitems q hq hc
        by_cases hempty : l (key q) = []
        · rw [hempty] at hi
          cases hi
          rw [occupied, if_pos hempty]
          cases hF : F.sub q with
          | nil => rfl
          | leaf x r => rw [hF] at hsame; cases hsame
          | node x s r => rw [hF] at hsame; cases hsame
        · rw [occupied, if_neg hempty]
          refine ⟨fun hF => ?_, F', ⟨_, hw.filed.family.stored _, hi⟩, hsame⟩
          rw [hF] at hsame
          cases hsame
          exact hempty hi.eq_nil
      have hlevels' : ∀ (k : Nat) (b : Bss), tmpng.reverse[k]? = some b →
          b.Holds (levelBytes (F.level [] 0 k)) := by
        intro k b hk
        apply hlevels
        rw [List.reverse_cons]
        exact List.getElem?_append_left (List.getElem?_eq_some_iff.1 hk).1 ▸ hk
      have hserves := hw.serves hz
      rw [hnum] at hserves
      obtain ⟨d, h', F', e', hlive, hsame, hframe⟩ := ih hne (Nat.le_of_succ_le hheight) hlevels'
        hserves hres' hw.filed.mallocs (by rw [hw.filed.brk, hdone]; omega)
      refine ⟨d, h', F', ?_, hlive, hsame, fun a ha => ?_⟩
      · rw [listUnserialize, e]
        simp only [Option.bind_eq_bind, Option.bind_some, if_neg hz, e', eclear]
        rfl
      · have hlt' : a < w.heap.brk := by
          rw [hw.filed.brk]
          omega
        rw [hframe a hlt', hw.filed.frame a ha]

/-- **The round trip.** A block that begins with the descriptor of a nested list, where
    no string reaches 2^31 bytes, is encoded; and wherever the cells of a copy have
    addresses the strings are decoded to a list of the same shape: leaves are the same
    bytes, blocks with a list differ in the fields of its descriptor only, and what was
    there stays. The heap of the decoder need not have the list that was encoded. -/
theorem round_trip (h : Heap (Option Block)) (data : Block) (d : Descriptor) (F : Forest Block)
    (fuel : Nat) (hdata : islist data.bytes = true) (hd : readDesc data.bytes = some d)
    (hl : Live h d F) (hlt : ∀ k, (levelBytes (F.level [] 0 k)).length < 2 ^ 31)
    (hfuel : F.size ≤ fuel) :
    ∃ levels, qSerialize h fuel data = some levels ∧
      ∀ h₁ : Heap (Option Block), h₁.mallocs = [] → h₁.brk + F.size < 2 ^ 64 →
        ∃ d' h' F', qUnserialize levels true h₁ = some (.list d', h') ∧ Live h' d' F' ∧
          Forest.Same Alike F F' ∧ ∀ a < h₁.brk, h'.cell a = h₁.cell a := by
  obtain ⟨levels, e, hlv⟩ := listSerialize_spec hl hfuel hlt
  refine ⟨levels, ?_, fun h₁ hm hbrk => ?_⟩
  · rw [qSerialize, if_pos hdata, hd]
    exact e
  have hlen : levels.reverse.length = F.height := by rw [List.length_reverse, hlv.length]
  have hne : levels.reverse ≠ [] := by
    intro hnil
    rw [hnil] at hlen
    exact absurd hlen (Nat.ne_of_lt F.height_pos)
  -- below the last string there is nothing
  have hres : ∀ q : List Nat, q.length = levels.reverse.length → (∀ c ∈ q, c < 2 ^ 32) →
      Restored h₁ none (F.sub q) := by
    intro q hq _
    have hnone := F.filter_level q
    rw [hq, hlen, F.level_of_height_le (Nat.le_refl _)] at hnone
    exact Forest.eq_nil_of_level hnone.symm
  obtain ⟨d', h', F', e', hlive, hsame, hframe⟩ := @listUnserialize_spec F h d hl hlt
    levels.reverse none (fun _ => none) h₁ hne (Nat.le_of_eq hlen)
    (fun k b hk => hlv.holds k b (by rwa [List.reverse_reverse] at hk)) (fun _ => rfl) hres hm
    (Nat.lt_of_le_of_lt (Nat.add_le_add_left (F.upTo_le_size _) _) hbrk)
  refine ⟨d', h', F', ?_, hlive, hsame, hframe⟩
  rw [qUnserialize, if_pos rfl, e']
  rfl

/-! One byte, and a list with one byte. -/

def innerDesc : Descriptor := ⟨some 0, some 0, 1⟩

def outerDesc : Descriptor := ⟨some 1, some 2, 2⟩

def innerBlock : Block := ⟨innerDesc.bytes ++ [9], by decide⟩

def nestedHeap : Heap (Option Block) where
  cell
    | 0 => some ⟨some (QMap.block 5), none, none⟩
    | 1 => some ⟨some (QMap.block 7), none, some 2⟩
    | 2 => some ⟨some innerBlock, some 1, none⟩
    | _ => none
  brk := 3
  mallocs := []

def nestedForest : Forest Block :=
  .leaf (QMap.block 7) (.node innerBlock (.leaf (QMap.block 5) .nil) .nil)

theorem live_nested : Live nestedHeap outerDesc nestedForest := by
  have hinner : Stored nestedHeap innerDesc [(0, QMap.block 5)] :=
    ⟨⟨rfl, trivial⟩, by decide, by decide, rfl, rfl, rfl⟩
  have houter : Stored nestedHeap outerDesc [(1, QMap.block 7), (2, innerBlock)] :=
    ⟨⟨rfl, rfl, trivial⟩, by decide, by decide, rfl, rfl, rfl⟩
  exact ⟨_, houter, .leaf (by decide) (.node (by decide) (by decide) hinner
    (.leaf (by decide) .nil) .nil)⟩

/-- Decoded where there is nothing yet, all cells of the copy are new. -/
theorem round_trip_nested : ∃ levels d' h' F',
    qSerialize nestedHeap 3 ⟨outerDesc.bytes, by decide⟩ = some levels ∧
    qUnserialize levels true Heap.empty = some (.list d', h') ∧ Live h' d' F' ∧
    Forest.Same Alike nestedForest F' := by
  have hlt : ∀ k, (levelBytes (nestedForest.level [] 0 k)).length < 2 ^ 31 := by
    intro k
    match k with
    | 0 => decide
    | 1 => decide
    | k + 2 =>
      have hnone : nestedForest.level [] 0 (k + 2) = [] :=
        nestedForest.level_of_height_le (Nat.le_add_left 2 k)
      rw [hnone]
      decide
  obtain ⟨levels, e, hdec⟩ := round_trip nestedHeap ⟨outerDesc.bytes, by decide⟩ outerDesc
    nestedForest 3 (by decide) (by decide) live_nested hlt (by decide)
  obtain ⟨d', h', F', e', hlive, hsame, -⟩ := hdec Heap.empty rfl (by decide)
  exact ⟨levels, d', h', F', e, e', hlive, hsame⟩

end Zhwkrfsp.Serialization
