import Zhwkrfsp.RoundTrip

/- Lists of plain data. Whether an element holds a list is decided by `q__List_islist` on
   its bytes alone: 40 of them or more, and the magic in front. Where no element is
   taken for a list, the encoder makes one string with a record for each element and
   looks at no cell but those of the list, and the decoder gives the elements back.
   One that is taken for a list makes a second string, if its bytes lead to cells at
   all. -/
namespace Zhwkrfsp.Serialization
open Wire Linked Nested QList
open QMap (Block)

/-- A record for each block, from position `i` on. -/
def records : Nat → List Block → List (Record Block)
  | _, [] => []
  | i, x :: xs => ⟨[], i, x⟩ :: records (i + 1) xs

/-- The blocks that are appended for them. The prefix is empty. -/
def appends : Nat → List Block → List Bytes
  | _, [] => []
  | i, x :: xs => [] :: Codec.u32.enc (UInt32.ofNat i) ::
      Codec.u32.enc (UInt32.ofNat x.bytes.length) :: x.bytes :: appends (i + 1) xs

/-- The elements of the list `l` at the descriptor in `data` are encoded as data, from the
    cells of the list alone, and come back. -/
def AsData (h : Heap (Option Block)) (fuel : Nat) (data : Block) (l : List (Nat × Block)) : Prop :=
  ∃ level, level.Holds (levelBytes (records 0 (l.map Prod.snd))) ∧
    (∀ h', (∀ a ∈ l.map Prod.fst, h'.cell a = h.cell a) →
      qSerialize h' fuel data = some [level]) ∧
    ∃ d h' l', qUnserialize [level] true h = some (.list d, h') ∧ Stored h' d l' ∧
      l'.map Prod.snd = l.map Prod.snd

theorem flatten_appends (i : Nat) (xs : List Block) :
    (appends i xs).flatten = levelBytes (records i xs) := by
  induction xs generalizing i with
  | nil => rfl
  | cons x xs ih =>
    rw [records, levelBytes_cons, ← ih, appends]
    simp [recordBytes]

theorem appends_short (i : Nat) (xs : List Block) : ∀ s ∈ appends i xs, s.length < 2 ^ 32 := by
  have hlen : ∀ n : UInt32, (Codec.u32.enc n).length = 4 := Codec.u32.enc_length
  induction xs generalizing i with
  | nil => exact nofun
  | cons x xs ih =>
    intro s hs
    simp only [appends, List.mem_cons] at hs
    rcases hs with rfl | rfl | rfl | rfl | hs
    · decide
    · rw [hlen]
      decide
    · rw [hlen]
      decide
    · exact x.short
    · exact ih (i + 1) s hs

theorem mem_records {i : Nat} {xs : List Block} {r : Record Block} (hr : r ∈ records i xs) :
    r.path = [] := by
  induction xs generalizing i with
  | nil => cases hr
  | cons x xs ih =>
    rcases List.mem_cons.1 hr with rfl | hr
    · rfl
    · exact ih hr

theorem map_val_records (i : Nat) (xs : List Block) : (records i xs).map Record.val = xs := by
  induction xs generalizing i with
  | nil => rfl
  | cons x xs ih => rw [records, List.map_cons, ih]

/-! Encoding. -/

theorem appendAll_append (b : Bss) (p q : List Bytes) :
    b.appendAll (p ++ q) = (b.appendAll p).bind fun b => b.appendAll q := by
  induction p generalizing b with
  | nil => rfl
  | cons s p ih =>
    rw [List.cons_append, Bss.appendAll, Bss.appendAll, Option.bind_assoc]
    exact congrArg _ (funext fun b => ih b)

/-- The four appends of an element of the list itself. -/
theorem appendRecord_eq (b : Bss) (counter : UInt32) (x : Block) :
    appendRecord b Bss.constructor counter x = b.appendAll [[], Codec.u32.enc counter,
      Codec.u32.enc (UInt32.ofNat x.bytes.length), x.bytes] := by
  have hlen : ∀ n : UInt32, (Codec.u32.enc n).length = 4 := Codec.u32.enc_length
  have hnone : b.append Bss.constructor.str Bss.constructor.size = b.append [] 0 := by
    rw [← Bss.append_take b Bss.constructor.str]
    rfl
  simp only [appendRecord, hnone, Bss.appendAll, hlen, List.length_nil, Option.bind_eq_bind,
    Option.bind_fun_some]
  rfl

theorem serializeFrom_data {h : Heap (Option Block)} {l : List (Nat × Block)} {q : Option Nat}
    {fuel i : Nat} {b : Bss} (hc : Chain h.cell q (boxed l) none) (hfuel : l.length ≤ fuel)
    (hdata : ∀ x ∈ l.map Prod.snd, islist x.bytes = false) :
    serializeFrom h fuel (first l none) Bss.constructor (UInt32.ofNat i) [b] =
      (b.appendAll (appends i (l.map Prod.snd))).map fun b => [b] := by
  induction l generalizing q fuel i b with
  | nil => cases fuel <;> rfl
  | cons c l ih =>
    obtain ⟨a, x⟩ := c
    rw [boxed_cons] at hc
    obtain ⟨hcell, hrest⟩ := hc
    rw [first_boxed] at hcell
    obtain ⟨fuel, rfl⟩ := Nat.exists_eq_succ_of_ne_zero (Nat.ne_of_gt (Nat.zero_lt_of_lt hfuel))
    have hx : islist x.bytes = false := hdata x List.mem_cons_self
    have hsplit : appends i (x :: l.map Prod.snd) = [[], Codec.u32.enc (UInt32.ofNat i),
        Codec.u32.enc (UInt32.ofNat x.bytes.length), x.bytes] ++
          appends (i + 1) (l.map Prod.snd) := rfl
    rw [first_cons, serializeFrom, hcell, List.map_cons, hsplit, appendAll_append, ← appendRecord_eq]
    cases e : appendRecord b Bss.constructor (UInt32.ofNat i) x with
    | none => simp [e]
    | some b' =>
      simp only [Option.bind_eq_bind, Option.bind_some, List.getElem?_cons_zero, e, hx,
        Bool.not_false, if_true, List.set_cons_zero, ofNat_succ]
      exact ih hrest (Nat.le_of_succ_le_succ hfuel) fun y hy =>
        hdata y (List.mem_cons_of_mem _ hy)

/-! More than one string. -/

theorem appendLevel_length {rdesc levels : List Bss} {retcnt : Nat} {b : Bss}
    (e : appendLevel rdesc retcnt b = some levels) :
    rdesc.length ≤ levels.length ∧ retcnt < levels.length := by
  rw [appendLevel] at e
  split at e
  · rename_i hlen
    cases e
    rw [List.length_append, hlen]
    exact ⟨Nat.le_succ _, Nat.lt_succ_self _⟩
  · obtain ⟨rdescit, hget, e⟩ := Option.bind_eq_some_iff.1 e
    obtain ⟨rdescit', -, e⟩ := Option.bind_eq_some_iff.1 e
    cases e
    rw [List.length_set]
    exact ⟨Nat.le_refl _, (List.getElem?_eq_some_iff.1 hget).1⟩

theorem appendLevels_length {irdesc rdesc levels : List Bss} {retcnt : Nat}
    (e : appendLevels rdesc retcnt irdesc = some levels) :
    rdesc.length ≤ levels.length ∧ (irdesc ≠ [] → retcnt < levels.length) := by
  induction irdesc generalizing rdesc retcnt with
  | nil =>
    cases e
    exact ⟨Nat.le_refl _, fun h => absurd rfl h⟩
  | cons b irdesc ih =>
    obtain ⟨rdesc', e₁, e⟩ := Option.bind_eq_some_iff.1 e
    obtain ⟨hle, hlt⟩ := appendLevel_length e₁
    have hle' := (ih e).1
    exact ⟨Nat.le_trans hle hle', fun _ => Nat.lt_of_lt_of_le hlt hle'⟩

/-- There are never fewer strings than the call starts with. -/
theorem serializeFrom_length {h : Heap (Option Block)} {fuel : Nat} {o : Option Nat} {pfx : Bss}
    {counter : UInt32} {rdesc levels : List Bss}
    (e : serializeFrom h fuel o pfx counter rdesc = some levels) :
    rdesc.length ≤ levels.length := by
  induction fuel generalizing o pfx counter rdesc levels with
  | zero =>
    cases o <;> cases e
    exact Nat.le_refl _
  | succ fuel ih =>
    cases o with
    | none =>
      cases e
      exact Nat.le_refl _
    | some iter =>
      simp only [serializeFrom, Option.bind_eq_bind, Option.bind_eq_some_iff] at e
      obtain ⟨c, -, data, -, b, -, b', -, e⟩ := e
      split at e
      · have hle := ih e
        rwa [List.length_set] at hle
      · simp only [Option.bind_eq_some_iff] at e
        obtain ⟨idesc, -, t₁, -, t₂, -, irdesc, -, rdesc', er, e⟩ := e
        have hle := (appendLevels_length er).1
        rw [List.length_set] at hle
        exact Nat.le_trans hle (ih e)

/-- An element that is taken for a list makes a second string. -/
theorem serializeFrom_list {h : Heap (Option Block)} {l : List (Nat × Block)} {q : Option Nat}
    {fuel : Nat} {pfx : Bss} {counter : UInt32} {rdesc levels : List Bss}
    (hc : Chain h.cell q (boxed l) none) (hlist : ∃ x ∈ l.map Prod.snd, islist x.bytes = true)
    (e : serializeFrom h fuel (first l none) pfx counter rdesc = some levels) :
    1 < levels.length := by
  induction l generalizing q fuel counter rdesc with
  | nil =>
    obtain ⟨x, hx, -⟩ := hlist
    cases hx
  | cons c l ih =>
    obtain ⟨a, x⟩ := c
    rw [boxed_cons] at hc
    obtain ⟨hcell, hrest⟩ := hc
    rw [first_boxed] at hcell
    cases fuel with
    | zero => cases e
    | succ fuel =>
      simp only [first_cons, serializeFrom, hcell, Option.bind_eq_bind, Option.bind_some,
        Option.bind_eq_some_iff] at e
      obtain ⟨b, -, b', -, e⟩ := e
      cases hx : islist x.bytes with
      | false =>
        simp only [hx, Bool.not_false, if_true] at e
        refine ih hrest ?_ e
        obtain ⟨y, hy, hyl⟩ := hlist
        rcases List.mem_cons.1 hy with rfl | hy
        · rw [hx] at hyl
          cases hyl
        · exact ⟨y, hy, hyl⟩
      | true =>
        simp only [hx, Bool.not_true, Bool.false_eq_true, if_false, Option.bind_eq_some_iff] at e
        obtain ⟨idesc, -, t₁, -, t₂, -, irdesc, ei, rdesc', er, e⟩ := e
        have hne : irdesc ≠ [] := by
          have hle := serializeFrom_length ei
          rintro rfl
          exact absurd hle (by decide)
        exact Nat.lt_of_lt_of_le ((appendLevels_length er).2 hne) (serializeFrom_length e)

/-! Decoding. -/

/-- The records of one string, read back into a list. -/
theorem qUnserialize_data {h : Heap (Option Block)} {level : Bss} {xs : List Block}
    (hl : level.Holds (levelBytes (records 0 xs))) (hm : h.mallocs = [])
    (hbrk : h.brk + xs.length < 2 ^ 64) :
    ∃ d h' l, qUnserialize [level] true h = some (.list d, h') ∧ Stored h' d l ∧
      l.map Prod.snd = xs := by
  have hlen : (records 0 xs).length = xs.length := by
    rw [← List.length_map, map_val_records]
  have hrs : ∀ r ∈ (records 0 xs).map raw, r.Keyed 0 ∧ (patch (fun _ => none) r).isSome := by
    intro s hs
    obtain ⟨r, hr, rfl⟩ := List.mem_map.1 hs
    rw [Raw.Keyed, raw, mem_records hr]
    exact ⟨⟨rfl, Nat.two_pow_pos 31⟩, rfl⟩
  rw [levelBytes_eq] at hl
  have hserves : Serves none ((0 : UInt32).toNat * 4 + 4) fun _ => none := fun _ => rfl
  obtain ⟨w, desc, l, e, hw⟩ := load_spec hserves hm hl hrs
    (by rw [List.length_map, hlen]; exact hbrk)
  obtain ⟨m, hmap, -⟩ := hw.lists
  obtain ⟨cleared, eclear⟩ := hmap.clear uhashf_lt
  refine ⟨w.itemslist, w.heap, l [], ?_, ?_, ?_⟩
  · have hzero : UInt32.ofNat ([] : List Bss).length = 0 := rfl
    rw [qUnserialize, if_pos rfl, List.reverse_singleton, listUnserialize, hzero, e]
    simp only [Option.bind_eq_bind, Option.bind_some, if_true, eclear]
    rfl
  · rw [hw.top rfl]
    exact hw.filed.family.stored []
  · -- every prefix is empty
    have hall : ∀ e ∈ ((records 0 xs).map raw).map fun r => (r.key, patched (fun _ => none) r),
        decide (e.1 = []) = true := by
      intro e he
      obtain ⟨s, hs, rfl⟩ := List.mem_map.1 he
      obtain ⟨r, hr, rfl⟩ := List.mem_map.1 hs
      rw [raw, mem_records hr]
      rfl
    rw [hw.filed.blocks, List.filter_eq_self.2 hall, List.map_map, List.map_map]
    exact map_val_records 0 xs

/-- As long as the string takes the records, the elements of a flat list are encoded as data
    and come back exactly when no element is taken for a list. -/
theorem flat_round_trip {h : Heap (Option Block)} {d : Descriptor} {l : List (Nat × Block)}
    {fuel : Nat} (data : Block) (hdata : islist data.bytes = true) (hd : readDesc data.bytes = some d)
    (hs : Stored h d l) (hm : h.mallocs = []) (hbrk : h.brk + l.length < 2 ^ 64)
    (hfuel : l.length ≤ fuel) (hfits : Bss.Fits 64 0 (appends 0 (l.map Prod.snd))) :
    AsData h fuel data l ↔ ∀ x ∈ l.map Prod.snd, islist x.bytes = false := by
  have hser : ∀ h', qSerialize h' fuel data =
      serializeFrom h' fuel (first l none) Bss.constructor 0 [Bss.constructor] := by
    intro h'
    rw [qSerialize, if_pos hdata, hd, ← hs.head]
    rfl
  constructor
  · rintro ⟨level, -, e, -⟩ x hx
    cases hxl : islist x.bytes with
    | false => rfl
    | true =>
      have e' := e h fun _ _ => rfl
      rw [hser] at e'
      exact absurd (serializeFrom_list hs.chain ⟨x, hx, hxl⟩ e') (Nat.lt_irrefl 1)
  · intro hplain
    obtain ⟨level, e⟩ := Option.isSome_iff_exists.1 ((Bss.appendAll_isSome_iff
      (appends 0 (l.map Prod.snd)) .constructor (appends_short _ _)).2 hfits)
    have hcounted : (appends 0 (l.map Prod.snd)).map Bss.counted = appends 0 (l.map Prod.snd) := by
      refine (List.map_congr_left fun s hs => ?_).trans (List.map_id _)
      exact Bss.counted_of_lt (appends_short _ _ s hs)
    have hl := Bss.Holds.appendAll _ .constructor e
    rw [List.nil_append, hcounted, flatten_appends] at hl
    obtain ⟨d', h', l', e', hst, hsnd⟩ := qUnserialize_data hl hm
      (by rw [List.length_map]; exact hbrk)
    refine ⟨level, hl, fun h₁ hcells => ?_, d', h', l', e', hst, hsnd⟩
    have hc : Chain h₁.cell none (boxed l) none :=
      hs.chain.frame (by rw [map_fst_boxed]; exact hcells)
    have eser := serializeFrom_data (i := 0) (b := .constructor) hc hfuel hplain
    rw [e] at eser
    rw [hser]
    exact eser

/-! Whether the magic is in front of an element. -/

/-- 39 bytes of a user that begin with the magic. -/
def almost : Block := ⟨magic ++ List.replicate 29 95, by decide⟩

def flatDesc : Descriptor := ⟨some 0, some 2, 3⟩

/-- A list of three elements, `almost` between two of one byte. -/
def flatList : List (Nat × Block) := [(0, QMap.block 7), (1, almost), (2, QMap.block 8)]

def flatHeap : Heap (Option Block) where
  cell
    | 0 => some ⟨some (QMap.block 7), none, some 1⟩
    | 1 => some ⟨some almost, some 0, some 2⟩
    | 2 => some ⟨some (QMap.block 8), some 1, none⟩
    | _ => none
  brk := 3
  mallocs := []

theorem flat_round_trip_almost : AsData flatHeap 3 ⟨flatDesc.bytes, by decide⟩ flatList := by
  have hs : Stored flatHeap flatDesc flatList :=
    ⟨⟨rfl, rfl, rfl, trivial⟩, by decide, by decide, rfl, rfl, rfl⟩
  have hplain : ∀ x ∈ flatList.map Prod.snd, islist x.bytes = false := by decide
  exact (flat_round_trip ⟨flatDesc.bytes, by decide⟩ (by decide) (by decide) hs rfl (by decide)
    (by decide) (.inl (by decide))).2 hplain

/-- A heap with one cell. -/
def oneHeap (x : Block) : Heap (Option Block) :=
  ⟨fun a => if a = 0 then some ⟨some x, none, none⟩ else none, 1, []⟩

def oneDesc : Descriptor := ⟨some 0, some 0, 1⟩

theorem stored_one (x : Block) : Stored (oneHeap x) oneDesc [(0, x)] :=
  ⟨⟨rfl, trivial⟩, List.nodup_singleton 0, by simp [oneHeap], rfl, rfl, rfl⟩

/-- 40 bytes of a user that begin with the magic, and no descriptor. -/
def lookalike : Block := ⟨magic ++ List.replicate 30 95, by decide⟩

/-- Its bytes are followed to a cell that is not there. -/
theorem flat_round_trip_fails : Stored (oneHeap lookalike) oneDesc [(0, lookalike)] ∧
    qSerialize (oneHeap lookalike) 2 ⟨oneDesc.bytes, by decide⟩ = none ∧
    ¬AsData (oneHeap lookalike) 2 ⟨oneDesc.bytes, by decide⟩ [(0, lookalike)] := by
  have e : qSerialize (oneHeap lookalike) 2 ⟨oneDesc.bytes, by decide⟩ = none := by decide
  refine ⟨stored_one _, e, ?_⟩
  rintro ⟨level, -, e', -⟩
  rw [e' _ fun _ _ => rfl] at e
  cases e

end Zhwkrfsp.Serialization
