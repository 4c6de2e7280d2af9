import Zhwkrfsp.RoundTrip

/- The decoder on any bytes. It checks nothing: the loop ends when the iterator is the
   end of the string and not when it is behind it, the sizes are those of the records,
   and the fields of a list are written into an element of any size. So it comes back
   exactly when every string is a sequence of whole records with prefixes of the
   length that its depth asks for, and every element with a list of its own in the
   string below has room for the fields (`Intact`). -/
namespace Zhwkrfsp.Serialization
open Wire Linked Nested QList
open QMap (Block)

/-- The contents of the strings from the last one up, `below` being the prefixes of the
    records in the string behind the last: what the decoder relies on. -/
def Intact : List Bytes → List Bytes → Prop
  | _, [] => False
  | below, content :: above =>
    ∃ rs : List Raw, content = rawBytes rs ∧
      (∀ r ∈ rs, r.Keyed (UInt32.ofNat above.length) ∧
        (r.key ++ Codec.u32.enc r.pos ∈ below → 36 ≤ r.val.bytes.length)) ∧
      (UInt32.ofNat above.length = 0 ∨ Intact (rs.map Raw.key) above)

/-! What one turn must have read. -/

section
variable {str a b s : Bytes} {off n : Nat}

theorem readAt_some (h : str = a ++ b) (e : readAt str a.length n = some s) :
    ∃ c, b = s ++ c ∧ s.length = n := by
  rw [readAt] at e
  split at e
  · rename_i hle
    rw [h, List.length_append] at hle
    rw [h, List.drop_left' rfl] at e
    cases e
    exact ⟨b.drop n, (List.take_append_drop n b).symm, by rw [List.length_take]; omega⟩
  · cases e

theorem readWord_some {w : UInt32} (h : str = a ++ b) (e : readWord str a.length = some w) :
    ∃ c, b = Codec.u32.enc w ++ c := by
  obtain ⟨s, es, rfl⟩ := Option.map_eq_some_iff.1 e
  obtain ⟨c, hb, hlen⟩ := readAt_some h es
  exact ⟨c, by rw [Codec.enc_dec_u32 hlen]; exact hb⟩

theorem readBlock_some {size : UInt32} {x : Block} (h : str = a ++ b)
    (e : readBlock str a.length size = some x) :
    ∃ c, b = x.bytes ++ c ∧ x.bytes.length = size.toNat := by
  rw [readBlock] at e
  split at e
  · rename_i hle
    have hdrop : str.drop a.length = b := by rw [h, List.drop_left' rfl]
    have hx : x.bytes = b.take size.toNat := by
      cases e
      rw [← hdrop]
    rw [h, List.length_append] at hle
    refine ⟨b.drop size.toNat, ?_, ?_⟩
    · rw [hx, List.take_append_drop]
    · rw [hx, List.length_take]
      omega
  · cases e

theorem takePrefix_some {prefix_num : UInt32} {p : Bss} (h : str = a ++ b)
    (hstr : str.length < 2 ^ 32) (e : takePrefix prefix_num str a.length = some (p, off)) :
    ∃ key c, b = key ++ c ∧ key.length = prefix_num.toNat * 4 ∧ key.length < 2 ^ 31 ∧
      off = (a ++ key).length := by
  rw [takePrefix] at e
  split at e
  · obtain ⟨key, ek, e⟩ := Option.bind_eq_some_iff.1 e
    obtain ⟨p', ep, e⟩ := Option.bind_eq_some_iff.1 e
    cases e
    obtain ⟨c, hb, hkey⟩ := readAt_some h ek
    have hlt : key.length < 2 ^ 32 := by
      rw [h, hb, List.length_append, List.length_append] at hstr
      omega
    have hsize : key.length = (UInt32.ofNat (prefix_num.toNat * 4)).toNat := by
      rw [← hkey, UInt32.toNat_ofNat_of_lt' hlt]
    have hroom := (Bss.append_isSome_iff .constructor hsize).1 (by rw [ep]; rfl)
    rw [List.length_nil, Nat.zero_add, show Bss.constructor.capacity.toNat = 64 from rfl] at hroom
    exact ⟨key, c, hb, hkey, by omega, by rw [List.length_append, hkey]⟩
  · rename_i hz
    cases e
    have hzero : prefix_num.toNat = 0 := by
      rw [UInt32.lt_iff_toNat_lt] at hz
      exact Nat.le_zero.1 (Nat.not_lt.1 hz)
    exact ⟨[], b, rfl, by rw [hzero]; rfl, Nat.two_pow_pos 31, by rw [List.append_nil]⟩

theorem takeItem_some {prefix_num : UInt32} {item : Item} (h : str = a ++ b)
    (hstr : str.length < 2 ^ 32) (e : takeItem prefix_num str a.length = some (item, off)) :
    ∃ (r : Raw) (c : Bytes), b = r.bytes ++ c ∧ r.Keyed prefix_num ∧ off = (a ++ r.bytes).length := by
  have hlen : ∀ n : UInt32, (Codec.u32.enc n).length = 4 := Codec.u32.enc_length
  obtain ⟨⟨p, off₁⟩, e₁, e⟩ := Option.bind_eq_some_iff.1 e
  obtain ⟨cnt, e₂, e⟩ := Option.bind_eq_some_iff.1 e
  obtain ⟨size, e₃, e⟩ := Option.bind_eq_some_iff.1 e
  obtain ⟨x, e₄, e⟩ := Option.bind_eq_some_iff.1 e
  cases e
  obtain ⟨key, c₁, rfl, hkey, hlt, rfl⟩ := takePrefix_some h hstr e₁
  rw [← List.append_assoc] at h
  obtain ⟨c₂, rfl⟩ := readWord_some h e₂
  rw [← List.append_assoc] at h
  rw [← hlen cnt, ← List.length_append] at e₃ e₄
  obtain ⟨c₃, rfl⟩ := readWord_some h e₃
  rw [← List.append_assoc] at h
  rw [hlen cnt, ← hlen size, ← List.length_append] at e₄
  obtain ⟨c₄, rfl, hx⟩ := readBlock_some h e₄
  have hsize : UInt32.ofNat x.bytes.length = size := by rw [hx, UInt32.ofNat_toNat]
  refine ⟨⟨key, cnt, x⟩, c₄, ?_, ⟨hkey, hlt⟩, ?_⟩
  · simp only [Raw.bytes, hsize, List.append_assoc]
  · simp only [Raw.bytes, List.length_append, hlen, hx]
    omega

end

/-! The loop. -/

section
variable {previous_data : Option QMap.State} {prefix_num : UInt32} {lbss : Bss}
  {sis : Bytes → Option Descriptor} {h₀ : Heap (Option Block)} {junk : Bytes} {rs : List Raw}
  {turns n : Nat} {before : Bytes} {w w' : Work} {done : List (Bytes × Block)}
  {desc : Bytes → Descriptor} {l : Bytes → List (Nat × Block)}

theorem no_records (rest : Bytes) (h : before.length = n) : ∃ rs junk,
    rest = rawBytes rs ++ junk ∧ (before ++ rawBytes rs).length = n ∧
      ∀ r ∈ rs, r.Keyed prefix_num := by
  refine ⟨[], rest, rfl, ?_, ?_⟩
  · rw [← h]
    exact congrArg _ (List.append_nil _)
  · intro r hr
    cases hr

/-- What the loop went through, if it has come to an end, were whole records. -/
theorem loadFrom_some {rest : Bytes} (hstr : lbss.str = before ++ rest)
    (hlt : lbss.str.length < 2 ^ 32)
    (e : loadFrom previous_data prefix_num lbss turns before.length w = some w') :
    ∃ rs junk, rest = rawBytes rs ++ junk ∧ (before ++ rawBytes rs).length = lbss.size.toNat ∧
      ∀ r ∈ rs, r.Keyed prefix_num := by
  induction turns generalizing before rest w with
  | zero =>
    rw [loadFrom] at e
    split at e
    · next hend => exact no_records rest hend
    · cases e
  | succ turns ih =>
    rw [loadFrom] at e
    split at e
    · next hend => exact no_records rest hend
    · obtain ⟨⟨item, off⟩, e₁, e⟩ := Option.bind_eq_some_iff.1 e
      obtain ⟨tmpsister, -, e⟩ := Option.bind_eq_some_iff.1 e
      obtain ⟨tmpdata, -, e⟩ := Option.bind_eq_some_iff.1 e
      obtain ⟨w₁, -, e⟩ := Option.bind_eq_some_iff.1 e
      obtain ⟨r, c, rfl, hr, rfl⟩ := takeItem_some hstr hlt e₁
      rw [← List.append_assoc] at hstr
      obtain ⟨rs, junk, rfl, hend, hrs⟩ := ih hstr e
      have hcons : rawBytes (r :: rs) = r.bytes ++ rawBytes rs := List.flatMap_cons
      refine ⟨r :: rs, junk, by rw [hcons, List.append_assoc], ?_, ?_⟩
      · rw [hcons, ← List.append_assoc, hend]
      · intro r' hr'
        rcases List.mem_cons.1 hr' with rfl | hr'
        · exact hr
        · exact hrs r' hr'

/-- And every assignment to an element stayed within it. -/
theorem loadFrom_patch (hs : Serves previous_data (prefix_num.toNat * 4 + 4) sis)
    (hl : Loaded prefix_num h₀ w done desc l) (hstr : lbss.str = before ++ (rawBytes rs ++ junk))
    (hsize : lbss.size.toNat = (before ++ rawBytes rs).length)
    (hrs : ∀ r ∈ rs, r.Keyed prefix_num) (hcount : done.length + rs.length < 2 ^ 32)
    (hbrk : h₀.brk + (done.length + rs.length) < 2 ^ 64)
    (e : loadFrom previous_data prefix_num lbss turns before.length w = some w') :
    ∀ r ∈ rs, (patch sis r).isSome := by
  induction rs generalizing turns before w done desc l with
  | nil =>
    intro r hr
    cases hr
  | cons r rs ih =>
    rw [List.length_cons] at hcount hbrk
    have hcons : rawBytes (r :: rs) = r.bytes ++ rawBytes rs := List.flatMap_cons
    rw [hcons, List.append_assoc] at hstr
    rw [hcons, ← List.append_assoc] at hsize
    have hr := hrs r List.mem_cons_self
    cases turns with
    | zero =>
      have h₈ := length_le_rawBytes [r]
      rw [rawBytes, List.flatMap_cons, List.flatMap_nil, List.append_nil] at h₈
      rw [loadFrom, if_neg (by
        rw [hsize, List.length_append, List.length_append]
        exact Nat.ne_of_lt (by simp only [List.length_singleton] at h₈; omega))] at e
      cases e
    | succ turns =>
      have hturn := loadFrom_turn turns hs hl hstr
        (by rw [hsize]; exact (List.prefix_append _ _).length_le) hr (by omega) (by omega)
      intro r' hr'
      cases hp : patch sis r with
      | none =>
        rw [hp] at hturn
        cases hturn.symm.trans e
      | some b =>
        rw [hp] at hturn
        obtain ⟨w₁, desc₁, l₁, e₁, hl₁⟩ := hturn
        rcases List.mem_cons.1 hr' with rfl | hr'
        · rw [hp]
          rfl
        · exact ih hl₁ (by rw [hstr, List.append_assoc]) hsize
            (fun r'' h'' => hrs r'' (List.mem_cons_of_mem _ h''))
            (by rw [List.length_append, List.length_singleton]; omega)
            (by rw [List.length_append, List.length_singleton]; omega) (e₁.symm.trans e) r' hr'

/-- What a string must be for the loop to come back. -/
theorem load_some (hs : Serves previous_data (prefix_num.toNat * 4 + 4) sis)
    (hm : h₀.mallocs = []) (hb : lbss.Holds lbss.content)
    (hbrk : h₀.brk + lbss.content.length < 2 ^ 64)
    (e : loadFrom previous_data prefix_num lbss lbss.str.length 0
      ⟨QMap.init defaultMaxHashv, QList.constructor, h₀⟩ = some w') :
    ∃ rs, lbss.content = rawBytes rs ∧ ∀ r ∈ rs, r.Keyed prefix_num ∧ (patch sis r).isSome := by
  have hlt : lbss.str.length < 2 ^ 32 := by
    rw [hb.block]
    exact lbss.capacity.toNat_lt
  have hstr : lbss.str = [] ++ lbss.str := rfl
  obtain ⟨rs, junk, hrest, hend, hrs⟩ := loadFrom_some hstr hlt e
  rw [List.nil_append] at hend
  have hcontent : lbss.content = rawBytes rs := by
    rw [Bss.content, ← hend, hrest, List.take_left' rfl]
  rw [hcontent] at hb hbrk
  have h₈ := length_le_rawBytes rs
  refine ⟨rs, hcontent, fun r hr => ⟨hrs r hr, ?_⟩⟩
  have hstr' : lbss.str = [] ++ (rawBytes rs ++ lbss.str.drop lbss.size.toNat) := str_eq hb
  exact loadFrom_patch hs (.init prefix_num hm) hstr' hb.size_eq hrs
    (by rw [List.length_nil, Nat.zero_add]; exact (records_lt hb).2)
    (by rw [List.length_nil]; omega) e r hr

end

/-! The strings. -/

/-- Whether the assignments succeed depends on the size of the element only. -/
theorem patch_isSome_iff {sis : Bytes → Option Descriptor} {below : List Bytes} {r : Raw}
    (hbelow : (sis (r.key ++ Codec.u32.enc r.pos)).isSome ↔
      r.key ++ Codec.u32.enc r.pos ∈ below) :
    (patch sis r).isSome ↔ (r.key ++ Codec.u32.enc r.pos ∈ below → 36 ≤ r.val.bytes.length) := by
  rw [← hbelow, patch]
  cases sis (r.key ++ Codec.u32.enc r.pos) with
  | none => simp [reunite]
  | some d => simp [reunite, assign]

theorem toNat_pred {n : Nat} (h : UInt32.ofNat n ≠ 0) :
    (UInt32.ofNat n).toNat = (UInt32.ofNat (n - 1)).toNat + 1 := by
  have hne : n % 2 ^ 32 ≠ 0 := fun e => h (by rw [← UInt32.toNat_inj]; exact e)
  show n % 2 ^ 32 = (n - 1) % 2 ^ 32 + 1
  omega

/-- There is a list for a prefix exactly when a record has it. -/
theorem occupied_isSome {prefix_num : UInt32} {h₀ : Heap (Option Block)} {w : Work}
    {rs : List Raw} {f : Raw → Block} {desc : Bytes → Descriptor} {l : Bytes → List (Nat × Block)}
    (hl : Loaded prefix_num h₀ w (rs.map fun r => (r.key, f r)) desc l) (k : Bytes) :
    (occupied desc l k).isSome ↔ k ∈ rs.map Raw.key := by
  have hblocks := hl.filed.blocks k
  have hempty : l k = [] ↔ k ∉ rs.map Raw.key := by
    rw [← List.map_eq_nil_iff (f := Prod.snd), hblocks, List.map_eq_nil_iff,
      List.filter_eq_nil_iff, List.forall_mem_map]
    simp
  rw [occupied]
  by_cases hk : k ∈ rs.map Raw.key
  · rw [if_neg (mt hempty.1 (not_not.2 hk))]
    simp [hk]
  · rw [if_pos (hempty.2 hk)]
    simp [hk]

/-- The decoder from the last string up. -/
theorem listUnserialize_iff (rev : List Bss) : ∀ (previous_data : Option QMap.State)
    (sis : Bytes → Option Descriptor) (below : List Bytes) {h : Heap (Option Block)},
    (∀ b ∈ rev, b.Holds b.content) →
    Serves previous_data ((UInt32.ofNat (rev.length - 1)).toNat * 4 + 4) sis →
    (∀ k : Bytes, k.length = (UInt32.ofNat (rev.length - 1)).toNat * 4 + 4 →
      ((sis k).isSome ↔ k ∈ below)) →
    h.mallocs = [] → h.brk + (rev.map Bss.content).flatten.length < 2 ^ 64 →
    ((listUnserialize rev previous_data h).isSome ↔ Intact below (rev.map Bss.content)) := by
  induction rev with
  | nil =>
    intro previous_data sis below h _ _ _ _ _
    exact iff_of_false (by simp [listUnserialize]) id
  | cons lbss tmpng ih =>
    intro previous_data sis below h hb hs hbelow hm hbrk
    rw [List.length_cons, Nat.add_sub_cancel] at hs hbelow
    rw [List.map_cons, List.flatten_cons, List.length_append] at hbrk
    have hlen : (tmpng.map Bss.content).length = tmpng.length := List.length_map _
    have hkeyed : ∀ r : Raw, r.Keyed (UInt32.ofNat tmpng.length) → ((patch sis r).isSome ↔
        (r.key ++ Codec.u32.enc r.pos ∈ below → 36 ≤ r.val.bytes.length)) := by
      intro r hr
      refine patch_isSome_iff (hbelow _ ?_)
      rw [List.length_append, hr.1, Codec.enc_length, Codec.size_u32]
    -- a string of whole records, and what is above it
    have hrest : ∀ rs, lbss.content = rawBytes rs →
        (∀ r ∈ rs, r.Keyed (UInt32.ofNat tmpng.length) ∧ (patch sis r).isSome) →
        ((listUnserialize (lbss :: tmpng) previous_data h).isSome ↔
          (UInt32.ofNat tmpng.length = 0 ∨ Intact (rs.map Raw.key) (tmpng.map Bss.content))) := by
      intro rs hcontent hrs
      have h₈ := length_le_rawBytes rs
      rw [hcontent] at hbrk
      obtain ⟨w, desc, l, e, hw⟩ := load_spec hs hm (hcontent ▸ hb lbss List.mem_cons_self) hrs
        (by omega)
      obtain ⟨m, hmap, -⟩ := hw.lists
      obtain ⟨cleared, eclear⟩ := hmap.clear uhashf_lt
      rw [listUnserialize, e]
      by_cases hz : UInt32.ofNat tmpng.length = 0
      · simp [hz, eclear]
      · have hserves := hw.serves hz
        rw [toNat_pred hz, Nat.succ_mul] at hserves
        have hup := ih (some w.lists) _ (rs.map Raw.key)
          (fun b hb' => hb b (List.mem_cons_of_mem _ hb')) hserves
          (fun k _ => occupied_isSome hw k) hw.filed.mallocs (by
            rw [hw.filed.brk, List.length_map]
            omega)
        rw [← hup]
        cases e' : listUnserialize tmpng (some w.lists) w.heap <;> simp [hz, e', eclear]
    rw [List.map_cons, Intact, hlen]
    constructor
    · intro hsome
      have hload : ∃ w, loadFrom previous_data (UInt32.ofNat tmpng.length) lbss lbss.str.length 0
          ⟨QMap.init defaultMaxHashv, QList.constructor, h⟩ = some w := by
        obtain ⟨r, e⟩ := Option.isSome_iff_exists.1 hsome
        obtain ⟨w, ew, -⟩ := Option.bind_eq_some_iff.1 e
        exact ⟨w, ew⟩
      obtain ⟨w, ew⟩ := hload
      obtain ⟨rs, hcontent, hrs⟩ := load_some hs hm (hb lbss List.mem_cons_self) (by omega) ew
      exact ⟨rs, hcontent, fun r hr => ⟨(hrs r hr).1, (hkeyed r (hrs r hr).1).1 (hrs r hr).2⟩,
        (hrest rs hcontent hrs).1 hsome⟩
    · rintro ⟨rs, hcontent, hrs, hup⟩
      exact (hrest rs hcontent fun r hr => ⟨(hrs r hr).1, (hkeyed r (hrs r hr).1).2 (hrs r hr).2⟩).2
        hup

/-- On strings of any bytes the decoder comes back, without an access outside a block, exactly
    when they are intact. -/
theorem unserialize_survives {dataset : List Bss} {h : Heap (Option Block)}
    (hb : ∀ b ∈ dataset, b.Holds b.content) (hm : h.mallocs = [])
    (hbrk : h.brk + (dataset.map Bss.content).flatten.length < 2 ^ 64) :
    (qUnserialize dataset true h).isSome ↔ Intact [] (dataset.reverse.map Bss.content) := by
  have hflat : (dataset.reverse.map Bss.content).flatten.length =
      (dataset.map Bss.content).flatten.length := by
    rw [List.map_reverse]
    exact (List.reverse_perm _).flatten.length_eq
  have hlist := listUnserialize_iff dataset.reverse none (fun _ => none) []
    (fun b hb' => hb b (List.mem_reverse.1 hb')) (fun _ => rfl) (fun k _ => by simp) hm
    (by rw [hflat]; exact hbrk)
  rw [← hlist, qUnserialize, if_pos rfl]
  cases listUnserialize dataset.reverse none h <;> simp

/-! Two strings that nobody encoded. -/

/-- A buffer with these bytes. -/
def buffer (content : Bytes) : Bss := ⟨content, UInt32.ofNat content.length, UInt32.ofNat content.length⟩

theorem buffer_holds {content : Bytes} (h : content.length < 2 ^ 32) :
    (buffer content).Holds (buffer content).content :=
  ⟨(UInt32.toNat_ofNat_of_lt' h).symm, UInt32.le_refl _, rfl⟩

/-- The first string: one byte, and 40 bytes of any kind. -/
def outerRecords : List Raw :=
  [⟨[], 0, QMap.block 7⟩, ⟨[], 1, ⟨List.replicate 40 95, by decide⟩⟩]

/-- The second string: two elements of the list that the 40 bytes become. -/
def innerRecords : List Raw :=
  [⟨Codec.u32.enc 1, 0, QMap.block 5⟩, ⟨Codec.u32.enc 1, 1, ⟨[], by decide⟩⟩]

theorem unserialize_survives_patched :
    (qUnserialize [buffer (rawBytes outerRecords), buffer (rawBytes innerRecords)] true
      Heap.empty).isSome := by
  have houter : ∀ r ∈ outerRecords, r.Keyed 0 ∧
      (r.key ++ Codec.u32.enc r.pos ∈ innerRecords.map Raw.key → 36 ≤ r.val.bytes.length) := by
    decide
  have hinner : ∀ r ∈ innerRecords, r.Keyed 1 ∧
      (r.key ++ Codec.u32.enc r.pos ∈ ([] : List Bytes) → 36 ≤ r.val.bytes.length) := by
    decide
  refine (unserialize_survives ?_ rfl (by decide)).2
    ⟨innerRecords, rfl, hinner, .inr ⟨outerRecords, rfl, houter, .inl rfl⟩⟩
  intro b hb
  rcases List.mem_pair.1 hb with rfl | rfl
  · exact buffer_holds (by decide)
  · exact buffer_holds (by decide)

/-! A record of no bytes, and the same with a record in a string below it. -/

def emptyRecord : Raw := ⟨[], 0, ⟨[], by decide⟩⟩

def emptyBelow : Raw := ⟨Codec.u32.enc 0, 0, ⟨[], by decide⟩⟩

/-- One byte is no record, and a list does not go into an element of no bytes. -/
theorem unserialize_survives_fails :
    qUnserialize [buffer [0]] true Heap.empty = none ∧
    qUnserialize [buffer emptyRecord.bytes, buffer emptyBelow.bytes] true Heap.empty = none := by
  exact ⟨by decide, by decide⟩

end Zhwkrfsp.Serialization
