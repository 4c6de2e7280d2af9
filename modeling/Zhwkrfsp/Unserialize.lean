import Zhwkrfsp.Serialize

/- The decoder of `zhwkre/serialization/serialization.c`. It starts with the last
   string and files the elements it reads by their prefixes, in a hash map from
   prefixes to list descriptors; an element for which the map of the string before
   has a list gets the fields of its descriptor written into its bytes. The
   dataset is taken from its last string on. `none` is an access outside a block or
   to no cell; an allocation fails only where the heap says so. -/
namespace Zhwkrfsp.Serialization
open Wire Linked Nested QList
open QMap (Block)

/-- `q__uhashf`. -/
def uhashf (str : Bytes) : UInt32 := str.foldl (fun tmpr c => (tmpr + c.toUInt32) * 131) 0 % 131

/-- `Q_DEFAULT_MAXHASHV`. -/
def defaultMaxHashv : UInt32 := 131

/-- `n` bytes of a block from `off` on. -/
def readAt (str : Bytes) (off n : Nat) : Option Bytes :=
  if off + n ≤ str.length then some ((str.drop off).take n) else none

def readWord (str : Bytes) (off : Nat) : Option UInt32 := (readAt str off 4).map Codec.u32.dec

/-- The copy of `size` bytes from `off` on to a block of its own. -/
def readBlock (str : Bytes) (off : Nat) (size : UInt32) : Option Block :=
  if off + size.toNat ≤ str.length then
    some ⟨(str.drop off).take size.toNat,
      Nat.lt_of_le_of_lt (List.length_take_le _ _) size.toNat_lt⟩
  else none

/-- What one turn of the loop reads. -/
structure Item where
  tmprefixBss : Bss
  tmpcnt : UInt32
  tmpdata : Block

/-- `tmprefixBss`, and the iterator behind it. -/
def takePrefix (prefix_num : UInt32) (str : Bytes) (stringiter : Nat) : Option (Bss × Nat) :=
  if 0 < prefix_num then do
    let s ← readAt str stringiter (prefix_num.toNat * 4)
    let tmprefixBss ← Bss.constructor.append s (UInt32.ofNat (prefix_num.toNat * 4))
    return (tmprefixBss, stringiter + prefix_num.toNat * 4)
  else some (Bss.constructor, stringiter)

/-- The reads of one turn, and the iterator behind them. -/
def takeItem (prefix_num : UInt32) (str : Bytes) (stringiter : Nat) : Option (Item × Nat) := do
  let (tmprefixBss, stringiter) ← takePrefix prefix_num str stringiter
  let tmpcnt ← readWord str stringiter
  let stringiter := stringiter + 4
  let tmpsize ← readWord str stringiter
  let stringiter := stringiter + 4
  let tmpdata ← readBlock str stringiter tmpsize
  return (⟨tmprefixBss, tmpcnt, tmpdata⟩, stringiter + tmpsize.toNat)

/-- The bytes of a buffer in use, as a key. -/
def bssKey (bss : Bss) : Block :=
  ⟨bss.content, Nat.lt_of_le_of_lt (List.length_take_le _ _) bss.size.toNat_lt⟩

/-- A counter as a key. -/
def wordKey (n : UInt32) : Block :=
  ⟨Codec.u32.enc n, by rw [Codec.enc_length]; decide⟩

/-- `q__Map_ptr_at` on the lists of the string before, and the descriptor that its
    entry holds. -/
def ask (previous_data : QMap.State) (key : Block) : Option (Option Descriptor) := do
  match ← QMap.ptrAt uhashf key previous_data with
  | none => return none
  | some tmpmd => return some (← readDesc tmpmd.value)

/-- `tmpsister`. -/
def sister (previous_data : Option QMap.State) (prefix_num : UInt32) (item : Item) :
    Option (Option Descriptor) :=
  match previous_data with
  | none => some none
  | some previous_data =>
    if prefix_num = 0 then ask previous_data (wordKey item.tmpcnt)
    else do
      let tmpsearcher ← Bss.constructor.append item.tmprefixBss.str item.tmprefixBss.size
      let tmpsearcher ← tmpsearcher.append (Codec.u32.enc item.tmpcnt) 4
      ask previous_data (bssKey tmpsearcher)

/-- The assignments through `tmpldrefr`. -/
def reunite (tmpdata : Block) : Option Descriptor → Option Block
  | none => some tmpdata
  | some tmpsister => assign tmpdata tmpsister

/-- The element goes to its siblings, whose descriptor is changed in its map entry, or
    founds a list. -/
def settle (key tmpdata : Block) (lists : QMap.State) (h : Heap (Option Block)) :
    Option (QMap.State × Heap (Option Block)) := do
  match ← QMap.find uhashf lists.map key lists.heap with
  | some iter =>
    let c ← lists.heap.cell iter
    let tmpaddress ← c.data
    let tmpsiblings ← readDesc tmpaddress.value
    let (_, tmpsiblings, h) ← pushBack tmpsiblings tmpdata h
    let value ← writeDesc tmpaddress.value tmpsiblings
    let entries ← lists.heap.modify iter fun c =>
      { c with data := some { tmpaddress with value := value } }
    return (⟨lists.map, entries⟩, h)
  | none =>
    let (_, tmphouse, h) ← pushBack QList.constructor tmpdata h
    let (_, lists) ← QMap.insert uhashf key
      ⟨tmphouse.bytes, by rw [Descriptor.length_bytes]; decide⟩ lists
    return (lists, h)

/-- What the loop changes. -/
structure Work where
  lists : QMap.State
  itemslist : Descriptor
  heap : Heap (Option Block)

/-- Where the element goes. On top of all, with or without lists below, that is
    `itemslist`. -/
def house (prefix_num : UInt32) (tmprefixBss : Bss) (tmpdata : Block) (w : Work) : Option Work :=
  if prefix_num = 0 then do
    let (_, itemslist, h) ← pushBack w.itemslist tmpdata w.heap
    return ⟨w.lists, itemslist, h⟩
  else do
    let (lists, h) ← settle (bssKey tmprefixBss) tmpdata w.lists w.heap
    return ⟨lists, w.itemslist, h⟩

/-- The loop over a string. A turn reads eight bytes at least, so that there are no
    more turns than bytes. -/
def loadFrom (previous_data : Option QMap.State) (prefix_num : UInt32) (lbss : Bss) :
    Nat → Nat → Work → Option Work
  | 0, stringiter, w => if stringiter = lbss.size.toNat then some w else none
  | turns + 1, stringiter, w =>
    if stringiter = lbss.size.toNat then some w
    else do
      let (item, stringiter) ← takeItem prefix_num lbss.str stringiter
      let tmpsister ← sister previous_data prefix_num item
      let tmpdata ← reunite item.tmpdata tmpsister
      let w ← house prefix_num item.tmprefixBss tmpdata w
      loadFrom previous_data prefix_num lbss turns stringiter w

/-- `q__list_unserialize`. -/
def listUnserialize : List Bss → Option QMap.State → Heap (Option Block) →
    Option (Descriptor × Heap (Option Block))
  | [], _, _ => none
  | lbss :: tmpng, previous_data, h => do
    let prefix_num := UInt32.ofNat tmpng.length
    let w ← loadFrom previous_data prefix_num lbss lbss.str.length 0
      ⟨QMap.init defaultMaxHashv, QList.constructor, h⟩
    if prefix_num = 0 then
      let _ ← QMap.clear w.lists
      return (w.itemslist, w.heap)
    else
      let tmpretld ← listUnserialize tmpng (some w.lists) w.heap
      let _ ← QMap.clear w.lists
      return tmpretld

/-- What `qUnserialize` returns a pointer to. -/
inductive Unserialized where
  | list (ld : Descriptor)
  | str (s : Bytes)

/-- `qUnserialize`. -/
def qUnserialize (dataset : List Bss) (isList : Bool) (h : Heap (Option Block)) :
    Option (Unserialized × Heap (Option Block)) :=
  if isList then do
    let (buffer, h) ← listUnserialize dataset.reverse none h
    return (.list buffer, h)
  else do
    let first ← dataset[0]?
    let bss ← Bss.constructor.append first.str first.size
    return (.str bss.str, h)

/-! One turn of the loop. -/

theorem uhashf_lt (k : Bytes) : uhashf k < defaultMaxHashv := by
  rw [UInt32.lt_iff_toNat_lt, uhashf, UInt32.toNat_mod]
  exact Nat.mod_lt _ (by decide)

/-- A record as the decoder sees it. -/
structure Raw where
  key : Bytes
  pos : UInt32
  val : Block

def Raw.bytes (r : Raw) : Bytes :=
  r.key ++ Codec.u32.enc r.pos ++ Codec.u32.enc (UInt32.ofNat r.val.bytes.length) ++ r.val.bytes

theorem readAt_append {str a b c : Bytes} (h : str = a ++ (b ++ c)) :
    readAt str a.length b.length = some b := by
  rw [readAt, if_pos (by rw [h, List.length_append, List.length_append]; omega), h,
    List.drop_left' rfl, List.take_left' rfl]

theorem readWord_append {str a c : Bytes} {n : UInt32} (h : str = a ++ (Codec.u32.enc n ++ c)) :
    readWord str a.length = some n := by
  have hlen : (Codec.u32.enc n).length = 4 := Codec.u32.enc_length n
  have hread := readAt_append h
  rw [hlen] at hread
  rw [readWord, hread, Option.map_some, Codec.dec_enc_nil]

theorem readBlock_append {str a c : Bytes} {b : Block} (h : str = a ++ (b.bytes ++ c)) :
    readBlock str a.length (UInt32.ofNat b.bytes.length) = some b := by
  have hlen : (UInt32.ofNat b.bytes.length).toNat = b.bytes.length :=
    UInt32.toNat_ofNat_of_lt' b.short
  have hcut : (str.drop a.length).take (UInt32.ofNat b.bytes.length).toNat = b.bytes := by
    rw [hlen, h, List.drop_left' rfl, List.take_left' rfl]
  rw [readBlock, if_pos (by rw [hlen, h, List.length_append, List.length_append]; omega)]
  exact congrArg some (by
    cases b
    exact QMap.Block.mk.injEq .. ▸ hcut)

theorem takePrefix_spec {prefix_num : UInt32} {str a key c : Bytes} (h : str = a ++ (key ++ c))
    (hkey : key.length = prefix_num.toNat * 4) (hlt : key.length < 2 ^ 31) :
    ∃ tmprefixBss, takePrefix prefix_num str a.length = some (tmprefixBss, (a ++ key).length) ∧
      tmprefixBss.Holds key := by
  by_cases hp : 0 < prefix_num
  · have hread := readAt_append h
    rw [hkey] at hread
    have hsize : key.length = (UInt32.ofNat (prefix_num.toNat * 4)).toNat := by
      rw [← hkey, UInt32.toNat_ofNat_of_lt' (Nat.lt_trans hlt (by decide))]
    obtain ⟨b, eb, hb⟩ := Bss.append_holds Bss.Holds.constructor hsize
      (by rw [List.length_nil]; omega)
    rw [List.nil_append] at hb
    refine ⟨b, ?_, hb⟩
    rw [takePrefix, if_pos hp, hread]
    simp only [Option.bind_eq_bind, Option.bind_some, eb]
    rw [List.length_append, hkey]
    rfl
  · have hzero : prefix_num.toNat = 0 := by
      rw [UInt32.lt_iff_toNat_lt] at hp
      exact Nat.le_zero.1 (Nat.not_lt.1 hp)
    rw [hzero, Nat.zero_mul] at hkey
    rw [List.eq_nil_of_length_eq_zero hkey, List.append_nil]
    exact ⟨_, if_neg hp, .constructor⟩

theorem takeItem_spec {prefix_num : UInt32} {str a c : Bytes} {r : Raw}
    (h : str = a ++ (r.bytes ++ c)) (hkey : r.key.length = prefix_num.toNat * 4)
    (hlt : r.key.length < 2 ^ 31) :
    ∃ tmprefixBss, takeItem prefix_num str a.length =
        some (⟨tmprefixBss, r.pos, r.val⟩, (a ++ r.bytes).length) ∧ tmprefixBss.Holds r.key := by
  have hlen : ∀ n : UInt32, (Codec.u32.enc n).length = 4 := Codec.u32.enc_length
  simp only [Raw.bytes, List.append_assoc] at h
  obtain ⟨tmprefixBss, ep, hp⟩ := takePrefix_spec h hkey hlt
  -- the fields behind the prefix, one after another
  have h₁ : str = (a ++ r.key) ++ (Codec.u32.enc r.pos ++
      (Codec.u32.enc (UInt32.ofNat r.val.bytes.length) ++ (r.val.bytes ++ c))) := by
    simpa only [List.append_assoc] using h
  have h₂ : str = (a ++ r.key ++ Codec.u32.enc r.pos) ++
      (Codec.u32.enc (UInt32.ofNat r.val.bytes.length) ++ (r.val.bytes ++ c)) := by
    simpa only [List.append_assoc] using h
  have h₃ : str = (a ++ r.key ++ Codec.u32.enc r.pos ++
      Codec.u32.enc (UInt32.ofNat r.val.bytes.length)) ++ (r.val.bytes ++ c) := by
    simpa only [List.append_assoc] using h
  have e₁ := readWord_append h₁
  have e₂ := readWord_append h₂
  have e₃ := readBlock_append h₃
  rw [List.length_append, hlen] at e₂ e₃
  rw [List.length_append, hlen] at e₃
  have hsize : (UInt32.ofNat r.val.bytes.length).toNat = r.val.bytes.length :=
    UInt32.toNat_ofNat_of_lt' r.val.short
  refine ⟨tmprefixBss, ?_, hp⟩
  rw [takeItem, ep]
  simp only [Option.bind_eq_bind, Option.bind_some, e₁, e₂, e₃, hsize]
  have hend : (a ++ r.bytes).length = (a ++ r.key).length + 4 + 4 + r.val.bytes.length := by
    rw [Raw.bytes]
    simp only [List.length_append, hlen]
    omega
  rw [hend]
  rfl

/-- What the lists of the string before have for the keys of `len` bytes. -/
def Serves (previous_data : Option QMap.State) (len : Nat) (sis : Bytes → Option Descriptor) :
    Prop :=
  match previous_data with
  | none => ∀ k, sis k = none
  | some previous_data =>
    ∀ k : Block, k.bytes.length = len → ask previous_data k = some (sis k.bytes)

/-- The key of a record and its counter in one buffer. Twice what the first append
    brings it to leaves room for the second. -/
theorem searcher_spec {tmprefixBss : Bss} {key : Bytes} (hp : tmprefixBss.Holds key)
    (hlt : key.length < 2 ^ 31) (n : UInt32) :
    ∃ b₁ b₂, Bss.constructor.append tmprefixBss.str tmprefixBss.size = some b₁ ∧
      b₁.append (Codec.u32.enc n) 4 = some b₂ ∧ b₂.Holds (key ++ Codec.u32.enc n) := by
  have hlen : (Codec.u32.enc n).length = (4 : UInt32).toNat := Codec.u32.enc_length n
  have hsize : key.length = tmprefixBss.size.toNat := hp.size_eq.symm
  obtain ⟨b₁, e₁, h₁⟩ := append_bss Bss.Holds.constructor hp (by rw [List.nil_append]; exact hlt)
  rw [List.nil_append] at h₁
  have hcap : b₁.capacity.toNat = Bss.grow 64 key.length := by
    rw [append_str _ hp] at e₁
    have h := Bss.append_capacity Bss.Holds.constructor hsize e₁
    rwa [List.length_nil, Nat.zero_add] at h
  have hroom : key.length + (Codec.u32.enc n).length < 2 ^ 31 ∨
      key.length + (Codec.u32.enc n).length ≤ b₁.capacity.toNat := by
    rw [hcap, Bss.grow, if_pos hlt, hlen, show (4 : UInt32).toNat = 4 from rfl]
    omega
  obtain ⟨b₂, e₂⟩ := Option.isSome_iff_exists.1 ((Bss.append_isSome_iff h₁ hlen).2 hroom)
  have h₂ := h₁.append (Nat.le_of_eq hlen.symm) e₂
  rw [List.take_of_length_le (Nat.le_of_eq hlen)] at h₂
  exact ⟨b₁, b₂, e₁, e₂, h₂⟩

theorem sister_spec {previous_data : Option QMap.State} {prefix_num : UInt32}
    {sis : Bytes → Option Descriptor} {item : Item} {key : Bytes}
    (hs : Serves previous_data (prefix_num.toNat * 4 + 4) sis) (hp : item.tmprefixBss.Holds key)
    (hkey : key.length = prefix_num.toNat * 4) (hlt : key.length < 2 ^ 31) :
    sister previous_data prefix_num item = some (sis (key ++ Codec.u32.enc item.tmpcnt)) := by
  have hlen : (Codec.u32.enc item.tmpcnt).length = 4 := Codec.u32.enc_length _
  cases previous_data with
  | none => exact congrArg some (hs _).symm
  | some previous_data =>
    by_cases hz : prefix_num = 0
    · rw [hz, show (0 : UInt32).toNat = 0 from rfl] at hkey
      rw [List.eq_nil_of_length_eq_zero hkey, List.nil_append]
      have h := hs (wordKey item.tmpcnt) (by rw [hz]; exact hlen)
      rw [sister, if_pos hz]
      exact h
    · obtain ⟨b₁, b₂, e₁, e₂, h₂⟩ := searcher_spec hp hlt item.tmpcnt
      have hbytes : (bssKey b₂).bytes = key ++ Codec.u32.enc item.tmpcnt := h₂.bytes
      have h := hs (bssKey b₂) (by rw [hbytes, List.length_append, hkey, hlen])
      rw [sister, if_neg hz]
      simp only [Option.bind_eq_bind, e₁, e₂, Option.bind_some]
      rw [h, hbytes]

/-! Where the elements go: the lists of blocks, and the map that knows them. -/

/-- Since the heap `h₀` the blocks of `done` have been pushed to the lists of their
    keys. -/
structure Filed (h₀ h : Heap (Option Block)) (done : List (Bytes × Block))
    (desc : Bytes → Descriptor) (l : Bytes → List (Nat × Block)) : Prop where
  family : Family h desc l
  blocks : ∀ k, (l k).map Prod.snd = (done.filter fun e => e.1 = k).map Prod.snd
  above : ∀ k, ∀ a ∈ (l k).map Prod.fst, h₀.brk ≤ a
  brk : h.brk = h₀.brk + done.length
  mallocs : h.mallocs = []
  frame : ∀ a < h₀.brk, h.cell a = h₀.cell a

/-- The map has the descriptors of the lists that are not empty. -/
structure Registered (m : QMap.ByteMap) (desc : Bytes → Descriptor)
    (l : Bytes → List (Nat × Block)) : Prop where
  absent : ∀ k, l k = [] → k ∉ m
  present : ∀ k, l k ≠ [] →
    ∃ v, m.lookup k = some v ∧ v.length = sizeofDescriptor ∧ readDesc v = some (desc k)

section
variable {h₀ h : Heap (Option Block)} {done : List (Bytes × Block)} {desc : Bytes → Descriptor}
  {l : Bytes → List (Nat × Block)} {m : QMap.ByteMap}

theorem Filed.init (h₀ : Heap (Option Block)) (hm : h₀.mallocs = []) :
    Filed h₀ h₀ [] (fun _ => QList.constructor) fun _ => [] :=
  ⟨.constructor h₀, fun _ => rfl, fun _ _ => nofun, rfl, hm, fun _ _ => rfl⟩

theorem Filed.push (hf : Filed h₀ h done desc l) (key : Bytes) (b : Block) :
    ∃ d h', pushBack (desc key) b h = some (0, d, h') ∧
      Filed h₀ h' (done ++ [(key, b)]) (Function.update desc key d)
        (Function.update l key (l key ++ [(h.brk, b)])) := by
  obtain ⟨d, h', e, hfam, hbrk, hm, hframe⟩ := hf.family.pushBack hf.mallocs key b
  refine ⟨d, h', e, hfam, fun k => ?_, fun k a ha => ?_, ?_, hm, fun a ha => ?_⟩
  · rw [List.filter_append, List.map_append, ← hf.blocks]
    by_cases hk : k = key
    · subst hk
      rw [Function.update_self, List.map_append, List.filter_cons_of_pos (by simp)]
      rfl
    · rw [Function.update_of_ne hk, List.filter_cons_of_neg (by simpa using Ne.symm hk)]
      exact (List.append_nil _).symm
  · by_cases hk : k = key
    · subst hk
      rw [Function.update_self] at ha
      rcases mem_addresses_concat.1 ha with ha | rfl
      · exact hf.above k a ha
      · rw [hf.brk]
        exact Nat.le_add_right _ _
    · rw [Function.update_of_ne hk] at ha
      exact hf.above k a ha
  · rw [hbrk, hf.brk, List.length_append, List.length_singleton, Nat.add_assoc]
  · have hlt : a < h.brk := by
      rw [hf.brk]
      omega
    rw [hframe a (fun k hk => Nat.not_le_of_gt ha (hf.above k a hk)) (Nat.ne_of_lt hlt)]
    exact hf.frame a ha

/-- A key of the map is that of a block. -/
theorem Registered.mem_done (hr : Registered m desc l) (hf : Filed h₀ h done desc l) {k : Bytes}
    (hk : k ∈ m) : k ∈ done.map Prod.fst := by
  have hne : l k ≠ [] := fun e => hr.absent k e hk
  obtain ⟨b, hb⟩ := List.exists_mem_of_ne_nil _ (mt List.map_eq_nil_iff.1 hne)
  rw [hf.blocks k] at hb
  obtain ⟨e, he, -⟩ := List.mem_map.1 hb
  obtain ⟨hmem, hke⟩ := List.mem_filter.1 he
  rw [← of_decide_eq_true hke]
  exact List.mem_map_of_mem hmem

theorem Registered.card_le (hr : Registered m desc l) (hf : Filed h₀ h done desc l) :
    m.keys.card ≤ done.length := by
  have hsub : m.keys ⊆ (done.map Prod.fst).toFinset := fun k hk => by
    rw [List.mem_toFinset]
    exact hr.mem_done hf (Finmap.mem_keys.1 hk)
  calc m.keys.card
      ≤ (done.map Prod.fst).toFinset.card := Finset.card_le_card hsub
    _ ≤ (done.map Prod.fst).length := List.toFinset_card_le _
    _ = done.length := List.length_map _

/-- A list has grown, and its descriptor is in the map. -/
theorem Registered.push (hr : Registered m desc l) {key v : Bytes} {d : Descriptor} {c : Nat × Block}
    (hlen : v.length = sizeofDescriptor) (hv : readDesc v = some d) :
    Registered (m.insert key v) (Function.update desc key d)
      (Function.update l key (l key ++ [c])) := by
  refine ⟨fun k hk hmem => ?_, fun k hk => ?_⟩
  · by_cases hkk : k = key
    · subst hkk
      rw [Function.update_self] at hk
      exact List.append_ne_nil_of_right_ne_nil _ (List.cons_ne_nil _ _) hk
    · rw [Function.update_of_ne hkk] at hk
      exact hr.absent k hk ((Finmap.mem_insert.1 hmem).resolve_left hkk)
  · by_cases hkk : k = key
    · subst hkk
      rw [Finmap.lookup_insert, Function.update_self]
      exact ⟨v, rfl, hlen, hv⟩
    · rw [Function.update_of_ne hkk] at hk
      rw [Finmap.lookup_insert_of_ne _ hkk, Function.update_of_ne hkk]
      exact hr.present k hk

theorem settle_spec {lists : QMap.State} (hf : Filed h₀ h done desc l) (hr : Registered m desc l)
    (hm : QMap.Refines uhashf defaultMaxHashv lists m) {key : Block}
    (hlen : ∀ k ∈ m, k.length = key.bytes.length) (hkey : key.bytes.length < 2 ^ 31)
    (hcount : done.length + 1 < 2 ^ 32) (hbrk : h₀.brk + done.length + 1 < 2 ^ 64) (b : Block) :
    ∃ lists' h' d m', settle key b lists h = some (lists', h') ∧
      Filed h₀ h' (done ++ [(key.bytes, b)]) (Function.update desc key.bytes d)
        (Function.update l key.bytes (l key.bytes ++ [(h.brk, b)])) ∧
      Registered m' (Function.update desc key.bytes d)
        (Function.update l key.bytes (l key.bytes ++ [(h.brk, b)])) ∧
      QMap.Refines uhashf defaultMaxHashv lists' m' := by
  obtain ⟨d, h', epush, hf'⟩ := hf.push key.bytes b
  have hfits : d.Fits := by
    have hst := hf'.family.stored key.bytes
    rw [Function.update_self] at hst
    apply hst.fits
    rw [hf'.brk, List.length_append, List.length_singleton]
    exact hbrk
  by_cases hempty : l key.bytes = []
  · -- the first one with this prefix
    have hnew := hr.absent _ hempty
    have hdesc : desc key.bytes = QList.constructor := by
      have hst := hf.family.stored key.bytes
      rw [hempty] at hst
      exact Live.eq_constructor ⟨[], hst, .nil⟩
    have hsize : d.bytes.length < 2 ^ 31 := by
      rw [d.length_bytes]
      decide
    obtain ⟨lists', eins, hm'⟩ := hm.insert uhashf_lt hlen hnew
      ⟨d.bytes, Nat.lt_trans hsize (by decide)⟩ hkey hsize
      (Nat.lt_of_le_of_lt (Nat.succ_le_succ (hr.card_le hf)) hcount)
    refine ⟨lists', h', d, _, ?_, hf', hr.push d.length_bytes (readDesc_bytes hfits), hm'⟩
    rw [settle, hm.find_none uhashf_lt hlen hnew]
    simp only [Option.bind_eq_bind, Option.bind_some]
    rw [← hdesc, epush]
    simp only [Option.bind_some, eins]
    rfl
  · -- the descriptor in the map is read, and written back after the push
    obtain ⟨v, hv, hvlen, hvd⟩ := hr.present _ hempty
    have h36 : 36 ≤ v.length := by
      rw [hvlen]
      decide
    have hvw : (overwrite v d).length = v.length := length_overwrite h36 d
    obtain ⟨iter, c, e, heap', efind, ecell, edata, evalue, emod, hm'⟩ := hm.write uhashf_lt hlen hv
      ⟨overwrite v d, by rw [hvw, hvlen]; decide⟩ hvw
    refine ⟨⟨lists.map, heap'⟩, h', d, _, ?_, hf',
      hr.push (hvw.trans hvlen) (readDesc_overwrite hfits (Nat.le_of_eq hvlen.symm)), hm'⟩
    rw [settle, efind]
    simp only [Option.bind_eq_bind, Option.bind_some, ecell, edata, evalue, hvd, epush]
    rw [writeDesc, if_pos h36, Option.bind_some, emod]
    rfl

end

/-- The lists that are not empty. -/
def occupied (desc : Bytes → Descriptor) (l : Bytes → List (Nat × Block)) (k : Bytes) :
    Option Descriptor :=
  if l k = [] then none else some (desc k)

/-- After some elements of a string. -/
structure Loaded (prefix_num : UInt32) (h₀ : Heap (Option Block)) (w : Work)
    (done : List (Bytes × Block)) (desc : Bytes → Descriptor) (l : Bytes → List (Nat × Block)) :
    Prop where
  filed : Filed h₀ w.heap done desc l
  keyed : ∀ e ∈ done, e.1.length = prefix_num.toNat * 4
  top : prefix_num = 0 → w.itemslist = desc []
  lists : ∃ m, QMap.Refines uhashf defaultMaxHashv w.lists m ∧
    (prefix_num ≠ 0 → Registered m desc l)

namespace Loaded
variable {prefix_num : UInt32} {h₀ : Heap (Option Block)} {w : Work} {done : List (Bytes × Block)}
  {desc : Bytes → Descriptor} {l : Bytes → List (Nat × Block)}

theorem init (prefix_num : UInt32) {h₀ : Heap (Option Block)} (hm : h₀.mallocs = []) :
    Loaded prefix_num h₀ ⟨QMap.init defaultMaxHashv, QList.constructor, h₀⟩ []
      (fun _ => QList.constructor) fun _ => [] where
  filed := .init h₀ hm
  keyed := nofun
  top _ := rfl
  lists := ⟨∅, QMap.refines_init _ _, fun _ =>
    ⟨fun _ _ => Finmap.notMem_empty, fun _ h => absurd rfl h⟩⟩

theorem house (hl : Loaded prefix_num h₀ w done desc l) {tmprefixBss : Bss} {key : Bytes}
    (hp : tmprefixBss.Holds key) (hkey : key.length = prefix_num.toNat * 4) (hlt : key.length < 2 ^ 31)
    (hcount : done.length + 1 < 2 ^ 32) (hbrk : h₀.brk + done.length + 1 < 2 ^ 64) (b : Block) :
    ∃ w' desc' l', Serialization.house prefix_num tmprefixBss b w = some w' ∧
      Loaded prefix_num h₀ w' (done ++ [(key, b)]) desc' l' := by
  have hkeyed : ∀ e ∈ done ++ [(key, b)], e.1.length = prefix_num.toNat * 4 := by
    intro e he
    rcases List.mem_append.1 he with he | he
    · exact hl.keyed e he
    · rw [List.mem_singleton.1 he]
      exact hkey
  obtain ⟨m, hm, hreg⟩ := hl.lists
  by_cases hz : prefix_num = 0
  · have hnil : key = [] := by
      rw [hz, show (0 : UInt32).toNat = 0 from rfl] at hkey
      exact List.eq_nil_of_length_eq_zero hkey
    obtain ⟨d, h', e, hf⟩ := hl.filed.push key b
    refine ⟨⟨w.lists, d, h'⟩, _, _, ?_, hf, hkeyed, fun _ => ?_, m, hm, fun h => absurd hz h⟩
    · rw [Serialization.house, if_pos hz, hl.top hz, ← hnil, e]
      rfl
    · rw [hnil, Function.update_self]
  · have hr := hreg hz
    have hlen : ∀ k ∈ m, k.length = (bssKey tmprefixBss).bytes.length := by
      intro k hk
      obtain ⟨e, he, rfl⟩ := List.mem_map.1 (hr.mem_done hl.filed hk)
      rw [hl.keyed e he, ← hkey, ← hp.bytes]
      rfl
    obtain ⟨lists', h', d, m', e, hf, hr', hm'⟩ := settle_spec hl.filed hr hm hlen
      (by rw [show (bssKey tmprefixBss).bytes = key from hp.bytes]; exact hlt) hcount hbrk b
    rw [show (bssKey tmprefixBss).bytes = key from hp.bytes] at hf hr'
    refine ⟨⟨lists', w.itemslist, h'⟩, _, _, ?_, hf, hkeyed, fun h => absurd h hz, m', hm',
      fun _ => hr'⟩
    rw [Serialization.house, if_neg hz, e]
    rfl

/-- What the map answers for the string above. -/
theorem serves (hl : Loaded prefix_num h₀ w done desc l) (hz : prefix_num ≠ 0) :
    Serves (some w.lists) (prefix_num.toNat * 4) (occupied desc l) := by
  obtain ⟨m, hm, hreg⟩ := hl.lists
  have hr := hreg hz
  intro key hkey
  have hlen : ∀ k ∈ m, k.length = key.bytes.length := by
    intro k hk
    obtain ⟨e, he, rfl⟩ := List.mem_map.1 (hr.mem_done hl.filed hk)
    rw [hl.keyed e he, hkey]
  obtain ⟨e, he, hv⟩ := hm.ptrAt uhashf_lt hlen
  by_cases hempty : l key.bytes = []
  · rw [Finmap.lookup_eq_none.2 (hr.absent _ hempty), Option.map_eq_none_iff] at hv
    rw [ask, he, hv, occupied, if_pos hempty]
    rfl
  · obtain ⟨v, hv', -, hvd⟩ := hr.present _ hempty
    rw [hv'] at hv
    obtain ⟨tmpmd, rfl, hval⟩ := Option.map_eq_some_iff.1 hv
    rw [ask, he, occupied, if_neg hempty]
    simp only [Option.bind_eq_bind, Option.bind_some, hval, hvd]
    rfl

end Loaded

/-! The loop. -/

/-- The element of a record with the fields of the list below it, if there is one. -/
def patch (sis : Bytes → Option Descriptor) (r : Raw) : Option Block :=
  reunite r.val (sis (r.key ++ Codec.u32.enc r.pos))

/-- It, where the assignments succeed. -/
def patched (sis : Bytes → Option Descriptor) (r : Raw) : Block := (patch sis r).getD r.val

theorem patched_of_some {sis : Bytes → Option Descriptor} {r : Raw} {b : Block}
    (h : patch sis r = some b) : patched sis r = b := by
  rw [patched, h]
  rfl

def rawBytes (rs : List Raw) : Bytes := rs.flatMap Raw.bytes

theorem length_le_rawBytes (rs : List Raw) : 8 * rs.length ≤ (rawBytes rs).length := by
  induction rs with
  | nil => exact Nat.le_refl _
  | cons r rs ih =>
    have hr : 8 ≤ r.bytes.length := by
      rw [Raw.bytes, List.length_append, List.length_append, List.length_append, Codec.enc_length,
        Codec.enc_length, Codec.size_u32]
      omega
    rw [rawBytes, List.flatMap_cons, List.length_append, List.length_cons]
    rw [rawBytes] at ih
    omega

/-- A record has the key of the string it is in. -/
def Raw.Keyed (prefix_num : UInt32) (r : Raw) : Prop :=
  r.key.length = prefix_num.toNat * 4 ∧ r.key.length < 2 ^ 31

instance (prefix_num : UInt32) (r : Raw) : Decidable (r.Keyed prefix_num) :=
  inferInstanceAs (Decidable (_ ∧ _))

section
variable {previous_data : Option QMap.State} {prefix_num : UInt32} {lbss : Bss}
  {sis : Bytes → Option Descriptor} {h₀ : Heap (Option Block)} {junk : Bytes} {rs : List Raw}
  {turns : Nat} {before : Bytes} {w : Work} {done : List (Bytes × Block)}
  {desc : Bytes → Descriptor} {l : Bytes → List (Nat × Block)}

/-- One turn. It goes on when the assignments to the element succeed. -/
theorem loadFrom_turn {r : Raw} (turns : Nat)
    (hs : Serves previous_data (prefix_num.toNat * 4 + 4) sis)
    (hl : Loaded prefix_num h₀ w done desc l) (hstr : lbss.str = before ++ (r.bytes ++ junk))
    (hsize : (before ++ r.bytes).length ≤ lbss.size.toNat) (hr : r.Keyed prefix_num)
    (hcount : done.length + 1 < 2 ^ 32) (hbrk : h₀.brk + done.length + 1 < 2 ^ 64) :
    match patch sis r with
    | none => loadFrom previous_data prefix_num lbss (turns + 1) before.length w = none
    | some b => ∃ w' desc' l', loadFrom previous_data prefix_num lbss (turns + 1) before.length w =
          loadFrom previous_data prefix_num lbss turns (before ++ r.bytes).length w' ∧
        Loaded prefix_num h₀ w' (done ++ [(r.key, b)]) desc' l' := by
  obtain ⟨hkey, hlt⟩ := hr
  obtain ⟨tmprefixBss, eitem, hp⟩ := takeItem_spec hstr hkey hlt
  have esis : sister previous_data prefix_num ⟨tmprefixBss, r.pos, r.val⟩ =
      some (sis (r.key ++ Codec.u32.enc r.pos)) := sister_spec hs hp hkey hlt
  have h₈ : 8 ≤ r.bytes.length := by
    have h := length_le_rawBytes [r]
    rwa [rawBytes, List.flatMap_cons, List.flatMap_nil, List.append_nil] at h
  have hne : before.length ≠ lbss.size.toNat := by
    rw [List.length_append] at hsize
    omega
  have hturn : loadFrom previous_data prefix_num lbss (turns + 1) before.length w =
      (patch sis r).bind fun b => (Serialization.house prefix_num tmprefixBss b w).bind fun w =>
        loadFrom previous_data prefix_num lbss turns (before ++ r.bytes).length w := by
    rw [loadFrom, if_neg hne, eitem]
    simp only [Option.bind_eq_bind, Option.bind_some, esis]
    rfl
  rw [hturn]
  cases patch sis r with
  | none => rfl
  | some b =>
    obtain ⟨w', desc', l', ehouse, hl'⟩ := hl.house hp hkey hlt hcount hbrk b
    exact ⟨w', desc', l', by rw [Option.bind_some, ehouse, Option.bind_some], hl'⟩

theorem loadFrom_spec (hs : Serves previous_data (prefix_num.toNat * 4 + 4) sis)
    (hl : Loaded prefix_num h₀ w done desc l) (hstr : lbss.str = before ++ (rawBytes rs ++ junk))
    (hsize : lbss.size.toNat = (before ++ rawBytes rs).length) (hturns : rs.length ≤ turns)
    (hrs : ∀ r ∈ rs, r.Keyed prefix_num ∧ (patch sis r).isSome)
    (hcount : done.length + rs.length < 2 ^ 32)
    (hbrk : h₀.brk + (done.length + rs.length) < 2 ^ 64) :
    ∃ w' desc' l', loadFrom previous_data prefix_num lbss turns before.length w = some w' ∧
      Loaded prefix_num h₀ w' (done ++ rs.map fun r => (r.key, patched sis r)) desc' l' := by
  induction rs generalizing turns before w done desc l with
  | nil =>
    rw [show rawBytes [] = [] from rfl, List.append_nil] at hsize
    refine ⟨w, desc, l, ?_, by rw [List.map_nil, List.append_nil]; exact hl⟩
    cases turns <;> exact if_pos hsize.symm
  | cons r rs ih =>
    obtain ⟨turns, rfl⟩ := Nat.exists_eq_succ_of_ne_zero
      (Nat.ne_of_gt (Nat.lt_of_lt_of_le (Nat.succ_pos _) hturns))
    rw [List.length_cons] at hcount hbrk hturns
    obtain ⟨hr, hsome⟩ := hrs r List.mem_cons_self
    obtain ⟨b, hpatch⟩ := Option.isSome_iff_exists.1 hsome
    have hcons : rawBytes (r :: rs) = r.bytes ++ rawBytes rs := List.flatMap_cons
    rw [hcons, List.append_assoc] at hstr
    rw [hcons, ← List.append_assoc] at hsize
    have hturn := loadFrom_turn turns hs hl hstr
      (by rw [hsize]; exact (List.prefix_append _ _).length_le) hr (by omega) (by omega)
    rw [hpatch] at hturn
    obtain ⟨w₁, desc₁, l₁, e₁, hl₁⟩ := hturn
    obtain ⟨w', desc', l', e, hl'⟩ := ih hl₁ (by rw [hstr, List.append_assoc]) hsize
      (Nat.le_of_succ_le_succ hturns)
      (fun r' hr' => hrs r' (List.mem_cons_of_mem _ hr'))
      (by rw [List.length_append, List.length_singleton]; omega)
      (by rw [List.length_append, List.length_singleton]; omega)
    refine ⟨w', desc', l', e₁.trans e, ?_⟩
    rw [List.append_assoc] at hl'
    rw [List.map_cons, patched_of_some hpatch]
    exact hl'

theorem str_eq (hb : lbss.Holds (rawBytes rs)) :
    lbss.str = rawBytes rs ++ lbss.str.drop lbss.size.toNat := by
  calc lbss.str
      = lbss.content ++ lbss.str.drop lbss.size.toNat := (List.take_append_drop _ _).symm
    _ = rawBytes rs ++ lbss.str.drop lbss.size.toNat := by rw [hb.bytes]

/-- There are fewer records in a string than bytes. -/
theorem records_lt (hb : lbss.Holds (rawBytes rs)) :
    rs.length ≤ lbss.str.length ∧ rs.length < 2 ^ 32 := by
  have h₈ := length_le_rawBytes rs
  have hsize := hb.size_eq
  have hlt := lbss.size.toNat_lt
  rw [str_eq hb, List.length_append]
  exact ⟨by omega, by omega⟩

/-- A whole string. -/
theorem load_spec (hs : Serves previous_data (prefix_num.toNat * 4 + 4) sis)
    (hm : h₀.mallocs = []) (hb : lbss.Holds (rawBytes rs))
    (hrs : ∀ r ∈ rs, r.Keyed prefix_num ∧ (patch sis r).isSome)
    (hbrk : h₀.brk + rs.length < 2 ^ 64) :
    ∃ w desc l, loadFrom previous_data prefix_num lbss lbss.str.length 0
        ⟨QMap.init defaultMaxHashv, QList.constructor, h₀⟩ = some w ∧
      Loaded prefix_num h₀ w (rs.map fun r => (r.key, patched sis r)) desc l := by
  obtain ⟨hturns, hcount⟩ := records_lt hb
  have hstr : lbss.str = [] ++ (rawBytes rs ++ lbss.str.drop lbss.size.toNat) := str_eq hb
  exact loadFrom_spec hs (.init prefix_num hm) hstr hb.size_eq hturns hrs
    (by rw [List.length_nil, Nat.zero_add]; exact hcount)
    (by rw [List.length_nil, Nat.zero_add]; exact hbrk)

end

end Zhwkrfsp.Serialization
