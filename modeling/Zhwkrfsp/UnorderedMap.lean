import Mathlib.Data.Finmap
import Zhwkrfsp.Bss
import Zhwkrfsp.Machine
import Zhwkrfsp.QList

/- The hash map of `zhwkre/containers/unordered_map.c`: an array of lists, the entries
   of a bucket in the order of their insertion. A key or value is passed as a pointer
   with an `unsigned int` size, a `Block`. The loops compare with `memcmp` over the
   size of the key they look for, whatever the size of the key they meet; an update
   copies the new value over the old block. `none` is an access outside a block.
   Below, the map refines a finite map in every run in which the loops meet no key
   that is shorter than the one they look for or an extension of it, and updates keep
   the value's size (`hash_map`). -/
namespace Zhwkrfsp.QMap
open Linked Wire QList

/-- A byte string whose size an `unsigned int` holds. -/
structure Block where
  bytes : Bytes
  short : bytes.length < 2 ^ 32
  deriving DecidableEq

structure MapData where
  key : Bytes
  value : Bytes
  keylen : Int32
  valuelen : Int32
  deriving DecidableEq

structure Map where
  listArray : Nat → QList.Descriptor
  maxlength : UInt32
  counts : UInt32

/-- A map, and the heap its list nodes are in. -/
structure State where
  map : Map
  heap : Heap (Option MapData)

/-- `qMap_constructor` (the allocation succeeding). -/
def constructor (maxhashv : UInt32) : Map := ⟨fun _ => QList.constructor, maxhashv, 0⟩

def init (maxhashv : UInt32) : State := ⟨constructor maxhashv, Heap.empty⟩

/-- `thas->listArray[hashv]`. -/
def Map.bucket (thas : Map) (hashv : UInt32) : Option QList.Descriptor :=
  if hashv < thas.maxlength then some (thas.listArray hashv.toNat) else none

def Map.setBucket (thas : Map) (hashv : Nat) (desc : QList.Descriptor) : Map :=
  { thas with listArray := Function.update thas.listArray hashv desc }

/-- `!memcmp(a, b, n)`. -/
def memcmpZero (a b : Bytes) (n : Nat) : Option Bool :=
  if n ≤ a.length ∧ n ≤ b.length then some (a.take n = b.take n) else none

/-- `q__MapData_constructor` (the allocations succeeding). The sizes become `int`. -/
def mapDataConstructor (key value : Block) : MapData where
  key := key.bytes
  value := value.bytes
  keylen := Int32.ofNat key.bytes.length
  valuelen := Int32.ofNat value.bytes.length

section
variable (hashf : Bytes → UInt32)

/-- The loop that insertion, erasure and lookup share: the node of the first entry
    whose key agrees with the given one in the size of the latter. -/
def find (thas : Map) (key : Block) (h : Heap (Option MapData)) : Option (Option Nat) := do
  let referred_list ← thas.bucket (hashf key.bytes)
  foreach (fun e => memcmpZero e.key key.bytes key.bytes.length) referred_list h

/-- `q__Map_insert`. -/
def insert (key value : Block) (s : State) : Option (Int32 × State) := do
  match ← find hashf s.map key s.heap with
  | some iter =>
    let c ← s.heap.cell iter
    let e ← c.data
    let v ← memcpy e.value 0 value.bytes
    let h ← s.heap.modify iter fun c => { c with data := some { e with value := v } }
    return (0, ⟨s.map, h⟩)
  | none =>
    let tmpmpd := mapDataConstructor key value
    let desc ← s.map.bucket (hashf key.bytes)
    let (_, desc, h) ← pushBack desc tmpmpd s.heap
    let thas := s.map.setBucket (hashf key.bytes).toNat desc
    return (0, ⟨{ thas with counts := thas.counts + 1 }, h⟩)

/-- `q__Map_erase`. -/
def erase (key : Block) (s : State) : Option (Int32 × State) := do
  match ← find hashf s.map key s.heap with
  | some iter =>
    let desc ← s.map.bucket (hashf key.bytes)
    let (desc, h) ← eraseElem desc iter s.heap
    let thas := s.map.setBucket (hashf key.bytes).toNat desc
    return (0, ⟨{ thas with counts := thas.counts - 1 }, h⟩)
  | none => return (-1, s)

/-- `q__Map_ptr_at`: the entry, or NULL. -/
def ptrAt (key : Block) (s : State) : Option (Option MapData) := do
  match ← find hashf s.map key s.heap with
  | some iter =>
    let c ← s.heap.cell iter
    return some (← c.data)
  | none => return none

/-- The loop of `q__Map_clear` over `n` buckets from `iter` on. -/
def clearFrom : Nat → Nat → State → Option State
  | 0, _, s => some s
  | n + 1, iter, s => do
    if (s.map.listArray iter).size = 0 then clearFrom n (iter + 1) s
    else
      -- the keys and values of all entries are freed, then the list
      let _ ← foreach (fun _ => some false) (s.map.listArray iter) s.heap
      let (desc, h) ← destructor (s.map.listArray iter) s.heap
      clearFrom n (iter + 1) ⟨s.map.setBucket iter desc, h⟩

/-- `q__Map_clear`. -/
def clear (s : State) : Option (Int32 × State) := do
  let s ← clearFrom s.map.maxlength.toNat 0 s
  return (0, { s with map := { s.map with counts := 0 } })

end

/-! Operations, and the finite map that they are meant to act on. -/

inductive Op where
  | insert (key value : Block)
  | erase (key : Block)
  | ptrAt (key : Block)
  | clear
  deriving DecidableEq

/-- What a caller sees of an entry. -/
structure Entry where
  key : Bytes
  value : Bytes
  keylen : Int
  valuelen : Int
  deriving DecidableEq

inductive Answer where
  | status (rc : Int32)
  | entry (e : Option Entry)
  deriving DecidableEq

def MapData.entry (e : MapData) : Entry := ⟨e.key, e.value, e.keylen.toInt, e.valuelen.toInt⟩

def step (hashf : Bytes → UInt32) (s : State) : Op → Option (Answer × State)
  | .insert key value => do
    let (rc, s) ← insert hashf key value s
    return (.status rc, s)
  | .erase key => do
    let (rc, s) ← erase hashf key s
    return (.status rc, s)
  | .ptrAt key => do
    let e ← ptrAt hashf key s
    return (.entry (e.map MapData.entry), s)
  | .clear => do
    let (rc, s) ← clear s
    return (.status rc, s)

/-- A finite map from byte strings to byte strings. -/
abbrev ByteMap := Finmap fun _ : Bytes => Bytes

def spec (m : ByteMap) : Op → Answer × ByteMap
  | .insert key value => (.status 0, m.insert key.bytes value.bytes)
  | .erase key => (.status (if key.bytes ∈ m then 0 else -1), m.erase key.bytes)
  | .ptrAt key =>
    (.entry ((m.lookup key.bytes).map fun v => ⟨key.bytes, v, key.bytes.length, v.length⟩), m)
  | .clear => (.status 0, ∅)

/-- The entries of the bucket of `key`. -/
def State.entries (hashf : Bytes → UInt32) (s : State) (key : Bytes) : List MapData :=
  blocks (s.map.listArray (hashf key).toNat) s.heap

/-- Among the entries that a loop meets before the one with `key`, or among all if
    there is none, no key is shorter than `key` and none an extension of it. -/
def Unmistaken (key : Bytes) (es : List MapData) : Prop :=
  ∀ e ∈ es.takeWhile fun e => e.key ≠ key, key.length ≤ e.key.length ∧ ¬key <+: e.key

/-- An insertion that `int` sizes and `counts` allow: of a value of the size of the
    old one, or of a new key with sizes below 2^31 that is not the 2^32nd. -/
def Insertable (key value : Bytes) (es : List MapData) (counts : UInt32) : Prop :=
  match es.find? fun e => e.key = key with
  | some e => e.value.length = value.length
  | none => key.length < 2 ^ 31 ∧ value.length < 2 ^ 31 ∧ counts.toNat + 1 < 2 ^ 32

def Ok (hashf : Bytes → UInt32) (s : State) : Op → Prop
  | .insert key value => Unmistaken key.bytes (s.entries hashf key.bytes) ∧
      Insertable key.bytes value.bytes (s.entries hashf key.bytes) s.map.counts
  | .erase key => Unmistaken key.bytes (s.entries hashf key.bytes)
  | .ptrAt key => Unmistaken key.bytes (s.entries hashf key.bytes)
  | .clear => True

instance (key : Bytes) (es : List MapData) : Decidable (Unmistaken key es) :=
  inferInstanceAs (Decidable (∀ e ∈ es.takeWhile fun e => e.key ≠ key,
    key.length ≤ e.key.length ∧ ¬key <+: e.key))

instance (key value : Bytes) (es : List MapData) (counts : UInt32) :
    Decidable (Insertable key value es counts) :=
  match h : es.find? fun e => e.key = key with
  | some e => decidable_of_iff (e.value.length = value.length) (by rw [Insertable, h])
  | none => decidable_of_iff
      (key.length < 2 ^ 31 ∧ value.length < 2 ^ 31 ∧ counts.toNat + 1 < 2 ^ 32)
      (by rw [Insertable, h])

instance (hashf : Bytes → UInt32) (s : State) : ∀ op, Decidable (Ok hashf s op)
  | .insert _ _ => inferInstanceAs (Decidable (_ ∧ _))
  | .erase key => inferInstanceAs (Decidable (Unmistaken key.bytes (s.entries hashf key.bytes)))
  | .ptrAt key => inferInstanceAs (Decidable (Unmistaken key.bytes (s.entries hashf key.bytes)))
  | .clear => .isTrue trivial

/-- The state is well formed, `lists` being its buckets, and stands for `m`. -/
structure Rep (hashf : Bytes → UInt32) (s : State) (lists : Nat → List (Nat × MapData))
    (m : ByteMap) : Prop where
  stored : ∀ i, Stored s.heap (s.map.listArray i) (lists i)
  apart : ∀ i j, i ≠ j → ∀ a ∈ (lists i).map Prod.fst, a ∉ (lists j).map Prod.fst
  hashed : ∀ i, ∀ b ∈ lists i, (hashf b.2.key).toNat = i
  sized : ∀ i, ∀ b ∈ lists i, b.2.keylen.toInt = b.2.key.length ∧
    b.2.valuelen.toInt = b.2.value.length
  nodup : ∀ i, ((lists i).map fun b => b.2.key).Nodup
  lookup : ∀ k, m.lookup k =
    ((lists (hashf k).toNat).find? fun b => b.2.key = k).map fun b => b.2.value
  counts : s.map.counts.toNat = m.keys.card
  mallocs : s.heap.mallocs = []

/-! The search loop. -/

theorem memcmpZero_self (key : Bytes) : memcmpZero key key key.length = some true := by
  rw [memcmpZero, if_pos ⟨Nat.le_refl _, Nat.le_refl _⟩, decide_eq_true rfl]

theorem memcmpZero_other {a key : Bytes} (hlen : key.length ≤ a.length) (hne : ¬key <+: a) :
    memcmpZero a key key.length = some false := by
  rw [memcmpZero, if_pos ⟨hlen, Nat.le_refl _⟩, List.take_length, decide_eq_false]
  intro e
  rw [← e] at hne
  exact hne (List.take_prefix _ _)

theorem found_unmistaken {key : Bytes} {l : List (Nat × MapData)}
    (h : Unmistaken key (l.map Prod.snd)) :
    found (fun e => memcmpZero e.key key key.length) l =
      some ((l.find? fun b => b.2.key = key).map Prod.fst) := by
  induction l with
  | nil => rfl
  | cons b l ih =>
    rw [found]
    by_cases hb : b.2.key = key
    · rw [hb, memcmpZero_self, List.find?_cons_of_pos (by simpa using hb)]
      rfl
    · have hwhile : ∀ es : List MapData, (b.2 :: es).takeWhile (fun e => e.key ≠ key) =
          b.2 :: es.takeWhile fun e => e.key ≠ key := fun es =>
        List.takeWhile_cons_of_pos (by simpa using hb)
      rw [Unmistaken, List.map_cons, hwhile] at h
      obtain ⟨hlen, hpre⟩ := h b.2 List.mem_cons_self
      rw [memcmpZero_other hlen hpre, List.find?_cons_of_neg (by simpa using hb)]
      exact ih fun e he => h e (List.mem_cons_of_mem _ he)

section
variable {hashf : Bytes → UInt32} {s : State} {lists : Nat → List (Nat × MapData)} {m : ByteMap}

theorem Rep.entries (hr : Rep hashf s lists m) (key : Bytes) :
    s.entries hashf key = (lists (hashf key).toNat).map Prod.snd :=
  blocks_eq (hr.stored _)

theorem Rep.find_entries (hr : Rep hashf s lists m) (key : Bytes) :
    ((s.entries hashf key).find? fun e => e.key = key) =
      ((lists (hashf key).toNat).find? fun b => b.2.key = key).map Prod.snd := by
  rw [hr.entries, List.find?_map]
  rfl

theorem Rep.find (hr : Rep hashf s lists m) (hh : ∀ k, hashf k < s.map.maxlength) {key : Block}
    (hok : Unmistaken key.bytes (s.entries hashf key.bytes)) :
    find hashf s.map key s.heap = some
      (((lists (hashf key.bytes).toNat).find? fun b => b.2.key = key.bytes).map Prod.fst) := by
  rw [hr.entries] at hok
  rw [QMap.find, Map.bucket, if_pos (hh _)]
  exact (foreach_eq (hr.stored _)).trans (found_unmistaken hok)

/-- One bucket, the count and the finite map change; the new nodes of the bucket are
    old ones of it or the one that was just allocated. -/
theorem Rep.change (hr : Rep hashf s lists m) (i : Nat) (counts : UInt32) (m' : ByteMap)
    {desc : Descriptor} {h : Heap (Option MapData)} {l : List (Nat × MapData)}
    (hstored : Stored h desc l)
    (hframe : ∀ b ∉ (lists i).map Prod.fst, b ≠ s.heap.brk → h.cell b = s.heap.cell b)
    (hbrk : s.heap.brk ≤ h.brk)
    (haddr : ∀ a ∈ l.map Prod.fst, a ∈ (lists i).map Prod.fst ∨ a = s.heap.brk)
    (hhashed : ∀ b ∈ l, (hashf b.2.key).toNat = i)
    (hsized : ∀ b ∈ l, b.2.keylen.toInt = b.2.key.length ∧ b.2.valuelen.toInt = b.2.value.length)
    (hnodup : (l.map fun b => b.2.key).Nodup)
    (hlookup : ∀ k, (hashf k).toNat = i →
      m'.lookup k = (l.find? fun b => b.2.key = k).map fun b => b.2.value)
    (hother : ∀ k, (hashf k).toNat ≠ i → m'.lookup k = m.lookup k)
    (hcounts : counts.toNat = m'.keys.card) (hm : h.mallocs = []) :
    Rep hashf ⟨⟨Function.update s.map.listArray i desc, s.map.maxlength, counts⟩, h⟩
      (Function.update lists i l) m' := by
  have hf := (Family.mk hr.stored hr.apart).replace (i := i) hstored
    (fun a ha => (haddr a ha).imp_right fun e => Nat.le_of_eq e.symm)
    (fun b hb hlt => hframe b hb (Nat.ne_of_lt hlt)) hbrk
  refine ⟨hf.stored, hf.apart, ?_, ?_, ?_, fun k => ?_, hcounts, hm⟩
  · rw [Function.forall_update_iff lists fun j l => ∀ b ∈ l, (hashf b.2.key).toNat = j]
    exact ⟨hhashed, fun j _ => hr.hashed j⟩
  · rw [Function.forall_update_iff lists fun _ l => ∀ b ∈ l,
      b.2.keylen.toInt = b.2.key.length ∧ b.2.valuelen.toInt = b.2.value.length]
    exact ⟨hsized, fun j _ => hr.sized j⟩
  · rw [Function.forall_update_iff lists fun _ l => (l.map fun b => b.2.key).Nodup]
    exact ⟨hnodup, fun j _ => hr.nodup j⟩
  · by_cases hk : (hashf k).toNat = i
    · rw [hk, Function.update_self]
      exact hlookup k hk
    · rw [Function.update_of_ne hk, hother k hk]
      exact hr.lookup k

/-- The entry of a key, and the entries before and behind it. -/
theorem split_of_find {key : Bytes} {l : List (Nat × MapData)} {b : Nat × MapData}
    (h : (l.find? fun b => b.2.key = key) = some b) :
    b.2.key = key ∧ ∃ l₁ l₂, l = l₁ ++ b :: l₂ := by
  obtain ⟨hb, l₁, l₂, hl, -⟩ := List.find?_eq_some_iff_append.1 h
  exact ⟨by simpa using hb, l₁, l₂, hl⟩

/-- Where keys are distinct, the entry of a key is found wherever it stands. -/
theorem find_mid {l₁ l₂ : List (Nat × MapData)} {b : Nat × MapData}
    (nd : ((l₁ ++ b :: l₂).map fun b => b.2.key).Nodup) (k : Bytes) :
    ((l₁ ++ b :: l₂).find? fun b => b.2.key = k) =
      if b.2.key = k then some b else (l₁ ++ l₂).find? fun b => b.2.key = k := by
  rw [List.map_append, List.map_cons, List.nodup_append] at nd
  rw [List.find?_append, List.find?_cons, List.find?_append]
  by_cases hk : b.2.key = k
  · have h₁ : (l₁.find? fun b => b.2.key = k) = none := by
      rw [List.find?_eq_none]
      intro c hc
      have hne := nd.2.2 c.2.key (List.mem_map_of_mem hc) b.2.key List.mem_cons_self
      rw [hk] at hne
      simpa using hne
    simp [h₁, hk]
  · simp [hk]

/-- Without its entry a key is not found. -/
theorem find_cut {l₁ l₂ : List (Nat × MapData)} {b : Nat × MapData}
    (nd : ((l₁ ++ b :: l₂).map fun b => b.2.key).Nodup) :
    ((l₁ ++ l₂).find? fun c => c.2.key = b.2.key) = none := by
  have hperm : ((l₁ ++ b :: l₂).map fun b => b.2.key).Perm
      (b.2.key :: (l₁ ++ l₂).map fun b => b.2.key) := by
    rw [List.map_append, List.map_cons, List.map_append]
    exact List.perm_middle
  have hnot := (List.nodup_cons.1 (hperm.nodup_iff.1 nd)).1
  rw [List.find?_eq_none]
  intro c hc he
  apply hnot
  rw [← show c.2.key = b.2.key by simpa using he]
  exact List.mem_map_of_mem hc

/-! One operation each. -/

/-- Overwriting a block by one of its size. -/
theorem memcpy_whole {dst src : Bytes} (h : dst.length = src.length) :
    memcpy dst 0 src = some src := by
  rw [memcpy, if_pos (by omega), List.take_zero, List.nil_append, Nat.zero_add,
    List.drop_of_length_le (by omega), List.append_nil]

theorem Rep.mem_iff (hr : Rep hashf s lists m) (key : Bytes) :
    key ∈ m ↔ ∃ b, ((lists (hashf key).toNat).find? fun b => b.2.key = key) = some b := by
  rw [← Finmap.lookup_isSome, hr.lookup, Option.isSome_map, Option.isSome_iff_exists]

theorem Rep.notMem_iff (hr : Rep hashf s lists m) (key : Bytes) :
    key ∉ m ↔ ((lists (hashf key).toNat).find? fun b => b.2.key = key) = none := by
  rw [← Finmap.lookup_eq_none, hr.lookup, Option.map_eq_none_iff]

/-- An update in place. -/
theorem Rep.insert_old (hr : Rep hashf s lists m) (hh : ∀ k, hashf k < s.map.maxlength)
    {key value : Block} (hok : Ok hashf s (.insert key value)) {b : Nat × MapData}
    (hb : ((lists (hashf key.bytes).toNat).find? fun b => b.2.key = key.bytes) = some b) :
    ∃ s' lists', insert hashf key value s = some (0, s') ∧
      Rep hashf s' lists' (m.insert key.bytes value.bytes) ∧
      s'.map.maxlength = s.map.maxlength := by
  obtain ⟨hkey, l₁, l₂, hl⟩ := split_of_find hb
  obtain ⟨a, e⟩ := b
  have hfind := hr.find hh hok.1
  rw [hb] at hfind
  have hlen : e.value.length = value.bytes.length := by
    have hins := hok.2
    rw [Insertable, hr.find_entries, hb] at hins
    exact hins
  have hst := hr.stored (hashf key.bytes).toNat
  have nd := hr.nodup (hashf key.bytes).toNat
  have hsized := hr.sized (hashf key.bytes).toNat
  have hhashed := hr.hashed (hashf key.bytes).toNat
  rw [hl] at hst nd hsized hhashed
  simp only [List.forall_mem_append, List.forall_mem_cons] at hsized hhashed
  obtain ⟨h', hmod, hst', hbrk, hm, hframe⟩ := write_spec { e with value := value.bytes } hst
  have hcell := hst.cell
  have hmem : key.bytes ∈ m := (hr.mem_iff _).2 ⟨_, hb⟩
  have hkeys : ((l₁ ++ (a, { e with value := value.bytes }) :: l₂).map fun b => b.2.key) =
      (l₁ ++ (a, e) :: l₂).map fun b => b.2.key := by
    rw [List.map_append, List.map_append, List.map_cons, List.map_cons]
  have nd' := nd
  rw [← hkeys] at nd'
  have hrep := hr.change (hashf key.bytes).toNat s.map.counts
    (m.insert key.bytes value.bytes) hst' (by rw [hl]; exact fun b hb _ => hframe b hb)
    (Nat.le_of_eq hbrk.symm) (fun c hc => .inl (by rw [hl]; simpa using hc)) ?_ ?_ nd' ?_ ?_ ?_
    (hm.trans hr.mallocs)
  · refine ⟨_, _, ?_, hrep, rfl⟩
    rw [QMap.insert, hfind]
    simp only [Option.map_some, Option.bind_eq_bind, Option.bind_some, hcell, memcpy_whole hlen,
      Function.update_eq_self]
    have hmod' : s.heap.modify a (fun c => { c with data := some { e with value := value.bytes } }) =
        some h' := hmod
    rw [hmod']
    rfl
  · simp only [List.forall_mem_append, List.forall_mem_cons]
    exact hhashed
  · obtain ⟨hsized₁, ⟨hkeylen, hvaluelen⟩, hsized₂⟩ := hsized
    simp only [List.forall_mem_append, List.forall_mem_cons]
    exact ⟨hsized₁, ⟨hkeylen, hvaluelen.trans (congrArg Nat.cast hlen)⟩, hsized₂⟩
  · intro k hk
    rw [find_mid nd']
    by_cases hkk : key.bytes = k
    · subst hkk
      rw [Finmap.lookup_insert, if_pos hkey]
      rfl
    · have hne : ¬e.key = k := fun h' => hkk (hkey.symm.trans h')
      rw [Finmap.lookup_insert_of_ne _ (Ne.symm hkk), if_neg hne, hr.lookup, hk, hl, find_mid nd,
        if_neg hne]
  · intro k hk
    exact Finmap.lookup_insert_of_ne _ fun e' => hk (by rw [e'])
  · have hk : (m.insert key.bytes value.bytes).keys = m.keys := by
      ext k
      rw [Finmap.mem_keys, Finmap.mem_keys, Finmap.mem_insert]
      constructor
      · rintro (rfl | h')
        · exact hmem
        · exact h'
      · exact .inr
    rw [hk]
    exact hr.counts

/-- A new entry. -/
theorem Rep.insert_new (hr : Rep hashf s lists m) (hh : ∀ k, hashf k < s.map.maxlength)
    {key value : Block} (hok : Ok hashf s (.insert key value))
    (hb : ((lists (hashf key.bytes).toNat).find? fun b => b.2.key = key.bytes) = none) :
    ∃ s' lists', insert hashf key value s = some (0, s') ∧
      Rep hashf s' lists' (m.insert key.bytes value.bytes) ∧
      s'.map.maxlength = s.map.maxlength := by
  have hfind := hr.find hh hok.1
  rw [hb] at hfind
  have hins : key.bytes.length < 2 ^ 31 ∧ value.bytes.length < 2 ^ 31 ∧
      s.map.counts.toNat + 1 < 2 ^ 32 := by
    have hins := hok.2
    rw [Insertable, hr.find_entries, hb] at hins
    exact hins
  obtain ⟨hkl, hvl, hcl⟩ := hins
  have hst := hr.stored (hashf key.bytes).toNat
  obtain ⟨desc, h', hpush, hst', hbrk, hm, hframe⟩ :=
    pushBack_spec (mapDataConstructor key value) hst hr.mallocs
  have hnone := List.find?_eq_none.1 hb
  have hmem := (hr.notMem_iff _).2 hb
  have hrep := hr.change (hashf key.bytes).toNat (s.map.counts + 1)
    (m.insert key.bytes value.bytes) hst' hframe (by omega) (fun c hc => ?_) ?_ ?_ ?_ ?_ ?_
    ?_ hm
  · refine ⟨_, _, ?_, hrep, rfl⟩
    rw [QMap.insert, hfind]
    simp only [Option.map_none, Option.bind_eq_bind, Option.bind_some, Map.bucket, if_pos (hh _),
      hpush]
    rfl
  · exact mem_addresses_concat.1 hc
  · exact List.forall_mem_append.2 ⟨hr.hashed _, List.forall_mem_singleton.2 rfl⟩
  · refine List.forall_mem_append.2 ⟨hr.sized _, List.forall_mem_singleton.2 ?_⟩
    exact ⟨Int32.toInt_ofNat_of_lt hkl, Int32.toInt_ofNat_of_lt hvl⟩
  · rw [List.map_append, List.nodup_append]
    refine ⟨hr.nodup _, List.pairwise_singleton _ _, fun k hk k' hk' he => ?_⟩
    obtain ⟨c, hc, rfl⟩ := List.mem_map.1 hk
    rw [List.map_cons, List.map_nil, List.mem_singleton] at hk'
    have hkey : c.2.key = key.bytes := he.trans hk'
    exact hnone c hc (by simpa using hkey)
  · intro k hk
    rw [List.find?_append]
    by_cases hkk : key.bytes = k
    · subst hkk
      rw [Finmap.lookup_insert, hb]
      simp [mapDataConstructor]
    · have hnew : ([(s.heap.brk, mapDataConstructor key value)].find? fun b => b.2.key = k) =
          none := by simp [mapDataConstructor, hkk]
      rw [Finmap.lookup_insert_of_ne _ (Ne.symm hkk), hnew, Option.or_none, hr.lookup, hk]
  · intro k hk
    exact Finmap.lookup_insert_of_ne _ fun e' => hk (by rw [e'])
  · have hk : (m.insert key.bytes value.bytes).keys = Insert.insert key.bytes m.keys := by
      ext k
      rw [Finmap.mem_keys, Finmap.mem_insert, Finset.mem_insert, Finmap.mem_keys]
    rw [hk, Finset.card_insert_of_notMem (by rwa [Finmap.mem_keys]), ← hr.counts,
      UInt32.toNat_add]
    exact Nat.mod_eq_of_lt hcl

theorem Rep.erase (hr : Rep hashf s lists m) (hh : ∀ k, hashf k < s.map.maxlength) {key : Block}
    (hok : Unmistaken key.bytes (s.entries hashf key.bytes)) :
    ∃ s' lists', QMap.erase hashf key s = some (if key.bytes ∈ m then 0 else -1, s') ∧
      Rep hashf s' lists' (m.erase key.bytes) ∧ s'.map.maxlength = s.map.maxlength := by
  have hfind := hr.find hh hok
  cases hb : (lists (hashf key.bytes).toNat).find? fun b => b.2.key = key.bytes with
  | none =>
    rw [hb] at hfind
    have hmem := (hr.notMem_iff _).2 hb
    have hsame : m.erase key.bytes = m := by
      apply Finmap.ext_lookup
      intro k
      by_cases hk : k = key.bytes
      · rw [hk, Finmap.lookup_erase, Finmap.lookup_eq_none.2 hmem]
      · exact Finmap.lookup_erase_ne hk
    refine ⟨s, lists, ?_, by rw [hsame]; exact hr, rfl⟩
    rw [if_neg hmem, QMap.erase, hfind]
    rfl
  | some b =>
    obtain ⟨hkey, l₁, l₂, hl⟩ := split_of_find hb
    obtain ⟨a, e⟩ := b
    rw [hb] at hfind
    have hmem : key.bytes ∈ m := (hr.mem_iff _).2 ⟨_, hb⟩
    have hst := hr.stored (hashf key.bytes).toNat
    have nd := hr.nodup (hashf key.bytes).toNat
    rw [hl] at hst nd
    obtain ⟨desc, h', herase, hst', hbrk, hm, hframe⟩ := eraseElem_spec hst
    have hsub : (l₁ ++ l₂).Sublist (l₁ ++ (a, e) :: l₂) :=
      (List.Sublist.refl l₁).append (List.sublist_cons_self _ _)
    have hold : ∀ c ∈ l₁ ++ l₂, c ∈ lists (hashf key.bytes).toNat := fun c hc => by
      rw [hl]
      exact hsub.subset hc
    have hrep := hr.change (hashf key.bytes).toNat (s.map.counts - 1)
      (m.erase key.bytes) hst' (by rw [hl]; exact fun b hb _ => hframe b hb)
      (Nat.le_of_eq hbrk.symm) (fun c hc => .inl (by rw [hl]; exact (hsub.map _).subset hc))
      (fun c hc => hr.hashed _ c (hold c hc)) (fun c hc => hr.sized _ c (hold c hc))
      (nd.sublist (hsub.map _)) ?_ ?_ ?_ (hm.trans hr.mallocs)
    · refine ⟨_, _, ?_, hrep, rfl⟩
      rw [if_pos hmem, QMap.erase, hfind]
      simp only [Option.map_some, Option.bind_eq_bind, Option.bind_some, Map.bucket, if_pos (hh _),
        herase]
      rfl
    · intro k hk
      by_cases hkk : k = key.bytes
      · subst hkk
        have hnone := find_cut nd
        rw [show (a, e).2.key = key.bytes from hkey] at hnone
        rw [Finmap.lookup_erase, hnone]
        rfl
      · have hne : ¬(a, e).2.key = k := fun h' => hkk (h'.symm.trans hkey)
        rw [Finmap.lookup_erase_ne hkk, hr.lookup, hk, hl, find_mid nd, if_neg hne]
    · intro k hk
      exact Finmap.lookup_erase_ne fun e' => hk (by rw [e'])
    · have hmem' : key.bytes ∈ m.keys := Finmap.mem_keys.2 hmem
      have hpos := Finset.card_pos.2 ⟨_, hmem'⟩
      have hone : (1 : UInt32) ≤ s.map.counts := by
        rw [UInt32.le_iff_toNat_le, hr.counts]
        exact hpos
      rw [Finmap.keys_erase, Finset.card_erase_of_mem hmem', ← hr.counts,
        UInt32.toNat_sub_of_le _ _ hone]
      rfl

theorem Rep.ptrAt (hr : Rep hashf s lists m) (hh : ∀ k, hashf k < s.map.maxlength) {key : Block}
    (hok : Unmistaken key.bytes (s.entries hashf key.bytes)) :
    ∃ e, QMap.ptrAt hashf key s = some e ∧ e.map MapData.entry = (m.lookup key.bytes).map fun v =>
      ⟨key.bytes, v, key.bytes.length, v.length⟩ := by
  have hfind := hr.find hh hok
  rw [hr.lookup]
  cases hb : (lists (hashf key.bytes).toNat).find? fun b => b.2.key = key.bytes with
  | none =>
    rw [hb] at hfind
    refine ⟨none, ?_, rfl⟩
    rw [QMap.ptrAt, hfind]
    rfl
  | some b =>
    obtain ⟨hkey, l₁, l₂, hl⟩ := split_of_find hb
    obtain ⟨a, e⟩ := b
    rw [hb] at hfind
    have hst := hr.stored (hashf key.bytes).toNat
    have hmem := List.mem_of_find?_eq_some hb
    obtain ⟨h₁, h₂⟩ := hr.sized _ (a, e) hmem
    rw [hl] at hst
    refine ⟨some e, ?_, ?_⟩
    · rw [QMap.ptrAt, hfind]
      simp only [Option.map_some, Option.bind_eq_bind, Option.bind_some, hst.cell]
      rfl
    · have hkey' : e.key = key.bytes := hkey
      have h₁' : e.keylen.toInt = e.key.length := h₁
      have h₂' : e.valuelen.toInt = e.value.length := h₂
      rw [Option.map_some, Option.map_some, Option.map_some, MapData.entry, h₁', h₂', hkey']

theorem Rep.mem_of_entry (hr : Rep hashf s lists m) {i : Nat} {b : Nat × MapData}
    (hb : b ∈ lists i) : b.2.key ∈ m := by
  rw [hr.mem_iff, hr.hashed i b hb, ← Option.isSome_iff_exists, List.find?_isSome]
  exact ⟨b, hb, by simp⟩

/-- No bucket has more entries than the map. -/
theorem Rep.length_lt (hr : Rep hashf s lists m) (i : Nat) : (lists i).length < 2 ^ 32 := by
  have hsub : ((lists i).map fun b => b.2.key).toFinset ⊆ m.keys := by
    intro k hk
    rw [List.mem_toFinset] at hk
    obtain ⟨b, hb, rfl⟩ := List.mem_map.1 hk
    exact Finmap.mem_keys.2 (hr.mem_of_entry hb)
  calc (lists i).length
      = ((lists i).map fun b => b.2.key).toFinset.card := by
        rw [List.toFinset_card_of_nodup (hr.nodup i), List.length_map]
    _ ≤ m.keys.card := Finset.card_le_card hsub
    _ = s.map.counts.toNat := hr.counts.symm
    _ < 2 ^ 32 := s.map.counts.toNat_lt

theorem ite_range {β : Type} {iter n i : Nat} (h : i ≠ iter) (x y : β) :
    (if iter + 1 ≤ i ∧ i < iter + 1 + n then x else y) =
      if iter ≤ i ∧ i < iter + (n + 1) then x else y :=
  if_congr (by omega) rfl rfl

theorem clearFrom_spec {n : Nat} :
    ∀ {iter : Nat} {s : State} {lists : Nat → List (Nat × MapData)},
      (∀ i, Stored s.heap (s.map.listArray i) (lists i)) →
      (∀ i j, i ≠ j → ∀ a ∈ (lists i).map Prod.fst, a ∉ (lists j).map Prod.fst) →
      (∀ i, (lists i).length < 2 ^ 32) →
      ∃ s', clearFrom n iter s = some s' ∧ s'.map.maxlength = s.map.maxlength ∧
        s'.heap.mallocs = s.heap.mallocs ∧
        ∀ i, Stored s'.heap (s'.map.listArray i)
          (if iter ≤ i ∧ i < iter + n then [] else lists i) := by
  induction n with
  | zero =>
    intro iter s lists hst _ _
    refine ⟨s, rfl, rfl, rfl, fun i => ?_⟩
    rw [if_neg (by omega)]
    exact hst i
  | succ n ih =>
    intro iter s lists hst hapart hlen
    have hsize : (s.map.listArray iter).size = 0 ↔ lists iter = [] := by
      rw [(hst iter).size, ← UInt32.toNat_inj, UInt32.toNat_ofNat_of_lt' (hlen iter)]
      exact List.length_eq_zero_iff
    by_cases hempty : lists iter = []
    · obtain ⟨s', e, hmax, hm, hst'⟩ := @ih (iter + 1) s lists hst hapart hlen
      refine ⟨s', ?_, hmax, hm, fun i => ?_⟩
      · rw [clearFrom, if_pos (hsize.2 hempty), e]
      · have hi := hst' i
        by_cases hit : i = iter
        · subst hit
          rw [if_neg (by omega), hempty] at hi
          rw [if_pos (by omega)]
          exact hi
        · rw [ite_range hit] at hi
          exact hi
    · obtain ⟨h', hdes, hbrk, hm, hframe⟩ := destructor_spec (hst iter)
      -- the other buckets after this one is gone
      have hst₁ : ∀ i, Stored h' (Function.update s.map.listArray iter QList.constructor i)
          (if i = iter then [] else lists i) := by
        intro i
        by_cases hi : i = iter
        · rw [if_pos hi, hi, Function.update_self]
          exact .constructor h'
        · rw [if_neg hi, Function.update_of_ne hi]
          exact (hst i).frame (fun a ha => hframe a (hapart i iter hi a ha)) (Nat.le_of_eq hbrk.symm)
      have hapart₁ : ∀ i j, i ≠ j → ∀ a ∈ (if i = iter then [] else lists i).map Prod.fst,
          a ∉ (if j = iter then [] else lists j).map Prod.fst := by
        intro i j hij a ha
        by_cases hi : i = iter
        · rw [if_pos hi] at ha
          cases ha
        · rw [if_neg hi] at ha
          by_cases hj : j = iter
          · rw [if_pos hj]
            exact List.not_mem_nil
          · rw [if_neg hj]
            exact hapart i j hij a ha
      have hlen₁ : ∀ i, (if i = iter then [] else lists i).length < 2 ^ 32 := by
        intro i
        split
        · exact Nat.two_pow_pos 32
        · exact hlen i
      obtain ⟨s', e, hmax, hm', hst'⟩ := @ih (iter + 1)
        ⟨s.map.setBucket iter QList.constructor, h'⟩ _ hst₁ hapart₁ hlen₁
      refine ⟨s', ?_, hmax, hm'.trans hm, fun i => ?_⟩
      · rw [clearFrom, if_neg (mt hsize.1 hempty), foreach_eq (hst iter), found_none]
        simp only [Option.bind_eq_bind, Option.bind_some, hdes, e]
      · have hi := hst' i
        by_cases hit : i = iter
        · subst hit
          rw [if_neg (by omega), if_pos rfl] at hi
          rw [if_pos (by omega)]
          exact hi
        · rw [if_neg hit, ite_range hit] at hi
          exact hi

theorem Rep.clear (hr : Rep hashf s lists m) (hh : ∀ k, hashf k < s.map.maxlength) :
    ∃ s' lists', QMap.clear s = some (0, s') ∧ Rep hashf s' lists' ∅ ∧
      s'.map.maxlength = s.map.maxlength := by
  obtain ⟨s', e, hmax, hm, hst⟩ :=
    @clearFrom_spec s.map.maxlength.toNat 0 s lists hr.stored hr.apart hr.length_lt
  have hall : ∀ i, (if 0 ≤ i ∧ i < 0 + s.map.maxlength.toNat then [] else lists i) = [] := by
    intro i
    by_cases hi : i < s.map.maxlength.toNat
    · rw [if_pos (by omega)]
    · rw [if_neg (by omega)]
      cases hl : lists i with
      | nil => rfl
      | cons b l =>
        -- a bucket that no hash value names has no entry
        have hb := hr.hashed i b (by rw [hl]; exact List.mem_cons_self)
        have hlt : (hashf b.2.key).toNat < s.map.maxlength.toNat := hh b.2.key
        omega
  refine ⟨⟨{ s'.map with counts := 0 }, s'.heap⟩, fun _ => [], ?_, ?_, hmax⟩
  · rw [QMap.clear, e]
    rfl
  · refine ⟨fun i => ?_, fun _ _ _ _ ha => ?_, nofun, nofun, fun _ => List.nodup_nil, fun k => ?_, ?_,
      hm.trans hr.mallocs⟩
    · have hi := hst i
      rw [hall i] at hi
      exact hi
    · cases ha
    · rw [Finmap.lookup_empty]
      rfl
    · rw [Finmap.keys_empty]
      rfl

end

/-! Whole runs. -/

/-- The map stands for the finite map `m`. -/
def Refines (hashf : Bytes → UInt32) (maxlength : UInt32) (s : State) (m : ByteMap) : Prop :=
  s.map.maxlength = maxlength ∧ ∃ lists, Rep hashf s lists m

theorem refines_init (hashf : Bytes → UInt32) (maxlength : UInt32) :
    Refines hashf maxlength (init maxlength) ∅ := by
  refine ⟨rfl, fun _ => [], fun _ => .constructor _, fun _ _ _ _ ha => ?_, nofun, nofun,
    fun _ => List.nodup_nil, fun k => ?_, ?_, rfl⟩
  · cases ha
  · rw [Finmap.lookup_empty]
    rfl
  · rw [Finmap.keys_empty]
    rfl

/-! Where all keys have one size, the loops mistake none for another. -/

theorem Rep.unmistaken {hashf : Bytes → UInt32} {s : State}
    {lists : Nat → List (Nat × MapData)} {m : ByteMap} (hr : Rep hashf s lists m) {key : Bytes}
    (hlen : ∀ k ∈ m, k.length = key.length) : Unmistaken key (s.entries hashf key) := by
  intro e he
  have hne : e.key ≠ key := by simpa using List.all_eq_true.1 List.all_takeWhile e he
  have hmem := (List.takeWhile_prefix _).subset he
  rw [hr.entries] at hmem
  obtain ⟨b, hb, rfl⟩ := List.mem_map.1 hmem
  have hsize := hlen _ (hr.mem_of_entry hb)
  exact ⟨Nat.le_of_eq hsize.symm, fun hp => hne (hp.eq_of_length hsize.symm).symm⟩

section
variable {hashf : Bytes → UInt32} {maxlength : UInt32} {s : State} {m : ByteMap} {key : Block}

theorem Refines.find_none (hr : Refines hashf maxlength s m) (hh : ∀ k, hashf k < maxlength)
    (hlen : ∀ k ∈ m, k.length = key.bytes.length) (hnew : key.bytes ∉ m) :
    find hashf s.map key s.heap = some none := by
  obtain ⟨rfl, lists, hr⟩ := hr
  rw [hr.find hh (hr.unmistaken hlen), (hr.notMem_iff _).1 hnew]
  rfl

theorem Refines.insert (hr : Refines hashf maxlength s m) (hh : ∀ k, hashf k < maxlength)
    (hlen : ∀ k ∈ m, k.length = key.bytes.length) (hnew : key.bytes ∉ m) (value : Block)
    (hkey : key.bytes.length < 2 ^ 31) (hvalue : value.bytes.length < 2 ^ 31)
    (hcard : m.keys.card + 1 < 2 ^ 32) :
    ∃ s', QMap.insert hashf key value s = some (0, s') ∧
      Refines hashf maxlength s' (m.insert key.bytes value.bytes) := by
  obtain ⟨rfl, lists, hr⟩ := hr
  have hb := (hr.notMem_iff _).1 hnew
  have hok : Ok hashf s (.insert key value) := by
    refine ⟨hr.unmistaken hlen, ?_⟩
    rw [Insertable, hr.find_entries, hb]
    exact ⟨hkey, hvalue, by rw [hr.counts]; exact hcard⟩
  obtain ⟨s', lists', e, hr', hmax⟩ := hr.insert_new hh hok hb
  exact ⟨s', e, hmax, lists', hr'⟩

/-- A value overwritten behind the pointer that the search loop returns. -/
theorem Refines.write (hr : Refines hashf maxlength s m) (hh : ∀ k, hashf k < maxlength)
    (hlen : ∀ k ∈ m, k.length = key.bytes.length) {v : Bytes} (hv : m.lookup key.bytes = some v)
    (value : Block) (hsize : value.bytes.length = v.length) :
    ∃ iter c e h', find hashf s.map key s.heap = some (some iter) ∧ s.heap.cell iter = some c ∧
      c.data = some e ∧ e.value = v ∧
      (s.heap.modify iter fun c => { c with data := some { e with value := value.bytes } }) =
        some h' ∧ Refines hashf maxlength ⟨s.map, h'⟩ (m.insert key.bytes value.bytes) := by
  obtain ⟨rfl, lists, hr⟩ := hr
  have hfind := hr.find hh (hr.unmistaken hlen)
  rw [hr.lookup] at hv
  obtain ⟨b, hb, hbv⟩ := Option.map_eq_some_iff.1 hv
  obtain ⟨-, l₁, l₂, hl⟩ := split_of_find hb
  obtain ⟨a, e⟩ := b
  have hev : e.value = v := hbv
  have hst := hr.stored (hashf key.bytes).toNat
  rw [hl] at hst
  have hok : Ok hashf s (.insert key value) := by
    refine ⟨hr.unmistaken hlen, ?_⟩
    rw [Insertable, hr.find_entries, hb]
    exact (congrArg List.length hev).trans hsize.symm
  obtain ⟨s', lists', hins, hr', hmax⟩ := hr.insert_old hh hok hb
  rw [hb] at hfind
  -- an insertion does the same through the same pointer
  rw [QMap.insert, hfind] at hins
  simp only [Option.map_some, Option.bind_eq_bind, Option.bind_some, hst.cell,
    memcpy_whole ((congrArg List.length hev).trans hsize.symm)] at hins
  obtain ⟨h', hmod, hs'⟩ := Option.bind_eq_some_iff.1 hins
  cases hs'
  exact ⟨a, _, e, h', hfind, hst.cell, rfl, hev, hmod, rfl, lists', hr'⟩

theorem Refines.ptrAt (hr : Refines hashf maxlength s m) (hh : ∀ k, hashf k < maxlength)
    (hlen : ∀ k ∈ m, k.length = key.bytes.length) :
    ∃ e, QMap.ptrAt hashf key s = some e ∧ e.map MapData.value = m.lookup key.bytes := by
  obtain ⟨rfl, lists, hr⟩ := hr
  obtain ⟨e, he, hentry⟩ := hr.ptrAt hh (hr.unmistaken hlen)
  refine ⟨e, he, ?_⟩
  have h := congrArg (Option.map Entry.value) hentry
  rw [Option.map_map, Option.map_map] at h
  apply h.trans
  cases m.lookup key.bytes <;> rfl

theorem Refines.clear (hr : Refines hashf maxlength s m) (hh : ∀ k, hashf k < maxlength) :
    ∃ s', QMap.clear s = some (0, s') := by
  obtain ⟨rfl, lists, hr⟩ := hr
  obtain ⟨s', -, e, -⟩ := hr.clear hh
  exact ⟨s', e⟩

end

/-- One step of the map answers as one step of the finite map. -/
theorem step_refines {hashf : Bytes → UInt32} {maxlength : UInt32}
    (hh : ∀ k, hashf k < maxlength) {s : State} {m : ByteMap} {op : Op}
    (hr : Refines hashf maxlength s m) (hok : Ok hashf s op) :
    ∃ s', step hashf s op = some ((spec m op).1, s') ∧ Refines hashf maxlength s' (spec m op).2 := by
  obtain ⟨rfl, lists, hr⟩ := hr
  cases op with
  | insert key value =>
    have hins : ∃ s' lists', QMap.insert hashf key value s = some (0, s') ∧
        Rep hashf s' lists' (m.insert key.bytes value.bytes) ∧
        s'.map.maxlength = s.map.maxlength := by
      cases hb : (lists (hashf key.bytes).toNat).find? fun b => b.2.key = key.bytes with
      | none => exact hr.insert_new hh hok hb
      | some b => exact hr.insert_old hh hok hb
    obtain ⟨s', lists', e, hr', hmax⟩ := hins
    exact ⟨s', by rw [step, e]; rfl, hmax, lists', hr'⟩
  | erase key =>
    obtain ⟨s', lists', e, hr', hmax⟩ := hr.erase hh hok
    exact ⟨s', by rw [step, e]; rfl, hmax, lists', hr'⟩
  | ptrAt key =>
    obtain ⟨e, he, hentry⟩ := hr.ptrAt hh hok
    refine ⟨s, ?_, rfl, lists, hr⟩
    rw [step, he, spec, ← hentry]
    rfl
  | clear =>
    obtain ⟨s', lists', e, hr', hmax⟩ := hr.clear hh
    exact ⟨s', by rw [step, e]; rfl, hmax, lists', hr'⟩

/-- **The hash map.** In every run from an empty map whose steps all meet `Ok`, no
    access leaves a block, every operation answers as on a finite map, and `counts` is
    the number of keys. -/
theorem hash_map (hashf : Bytes → UInt32) (maxlength : UInt32) (hh : ∀ k, hashf k < maxlength)
    (ops : List Op) (hok : Machine.Along (step hashf) (Ok hashf) ops (init maxlength)) :
    ∃ s', Machine.run (step hashf) ops (init maxlength) =
        some ((Machine.runs spec ops ∅).1, s') ∧
      s'.map.counts.toNat = (Machine.runs spec ops ∅).2.keys.card := by
  have sim : ∀ s m op, Refines hashf maxlength s m → Ok hashf s op →
      ∃ s', step hashf s op = some ((spec m op).1, s') ∧ Refines hashf maxlength s' (spec m op).2 :=
    fun s m op hr hok => step_refines hh hr hok
  obtain ⟨s', e, -, lists, hr⟩ :=
    Machine.refines_along sim ops _ _ (refines_init hashf maxlength) hok
  exact ⟨s', e, hr.counts⟩

/-- Short keys and values. -/
def block (b : UInt8) : Block := ⟨[b], Nat.one_lt_two_pow (by omega)⟩

/-- One bucket. -/
def hashZero (_ : Bytes) : UInt32 := 0

theorem hashZero_lt (k : Bytes) : hashZero k < 1 := UInt32.zero_lt_one

theorem hash_map_one_bucket :
    ∃ s', Machine.run (step hashZero) [.insert (block 1) (block 7), .insert (block 2) (block 8),
        .insert (block 1) (block 9), .ptrAt (block 1), .erase (block 2), .ptrAt (block 2)] (init 1) =
      some ([.status 0, .status 0, .status 0, .entry (some ⟨[1], [9], 1, 1⟩), .status 0,
        .entry none], s') ∧ s'.map.counts.toNat = 1 :=
  hash_map hashZero 1 hashZero_lt [.insert (block 1) (block 7),
    .insert (block 2) (block 8), .insert (block 1) (block 9), .ptrAt (block 1), .erase (block 2),
    .ptrAt (block 2)] (by decide)

/-- A key of which the searched one is a beginning is taken for it. -/
theorem hash_map_fails :
    (Machine.run (step hashZero) [.insert ⟨[1, 2], by decide⟩ (block 7), .ptrAt (block 1)]
      (init 1)).map Prod.fst ≠
    some (Machine.runs spec [.insert ⟨[1, 2], by decide⟩ (block 7), .ptrAt (block 1)] ∅).1 := by
  decide

end Zhwkrfsp.QMap
