import Mathlib.Data.Fintype.Basic
import Zhwkrfsp.UnorderedMap

/- The trie of `zhwkre/containers/trie.c`. A subtree is a value (no two nodes share a
   child), and `sub` is the node at the end of a path. The bytes of a key are plain
   `char`, which is signed, and the loops use them as indices as they are: `none` is an
   index outside `children`, the overflow of the loop counter, or an append that leaves
   its block. Below, a run of insertions and a lookup do what they should exactly when
   the keys have no byte from 128 on, keys and payloads are shorter than 2^31, and the
   lookup meets no such byte before it can end (`trie_stores`). -/
namespace Zhwkrfsp.Trie
open QMap (Block)
open Wire

/-- `qTrieNode`, NULL included. -/
inductive Node where
  | null
  | mk (value payload : Bss) (children : Fin 256 → Node)

namespace Node

def isNull : Node → Bool
  | null => true
  | mk .. => false

def payload? : Node → Option Bss
  | null => none
  | mk _ payload _ => some payload

/-- The node that the bytes lead to. -/
def sub : Node → Bytes → Node
  | it, [] => it
  | null, _ :: _ => null
  | mk _ _ children, c :: key => (children ⟨c.toNat, c.toNat_lt⟩).sub key

end Node

open Node

structure Descriptor where
  size : Int32
  root : Node

structure Iterator where
  realiter : Node
  limit : Node

/-- `qTrieNode__constructor` (the allocations succeeding). -/
def nodeConstructor : Node := mk Bss.constructor Bss.constructor fun _ => null

/-- `qTrie_constructor`. -/
def constructor : Descriptor := ⟨0, null⟩

/-- A `char` as an index of `children`. -/
def childIndex (c : UInt8) : Option (Fin 256) :=
  if h : 0 ≤ c.toInt8.toInt ∧ c.toInt8.toInt < 256 then some ⟨c.toInt8.toInt.toNat, by omega⟩
  else none

/-- `i++`, in an `int`. -/
def increment (i : Nat) : Option Nat := if i + 1 < 2 ^ 31 then some (i + 1) else none

/-- The loop of `qTrie__ptr_at` over the bytes from `i` on; no node when a child is missing. -/
def ptrAtFrom : Node → Bytes → Nat → Option (Option Node)
  | it, [], _ => some (some it)
  | null, _ :: _, _ => none
  | mk _ _ children, c :: key, i => do
    let index ← childIndex c
    if (children index).isNull then return none
    -- the counter goes up behind a byte that was matched only
    let i ← increment i
    ptrAtFrom (children index) key i

/-- `qTrie__ptr_at`. -/
def ptrAt (desc : Descriptor) (key : Block) : Option (Int32 × Option Iterator) :=
  if desc.root.isNull then some (-1, none)
  else do
    match ← ptrAtFrom desc.root key.bytes 0 with
    | none => return (-1, none)
    | some it => return (0, some ⟨it, desc.root⟩)

/-- The child on the way of a key. A missing one is made, with the first `i` bytes of the
    key as its value. -/
def childFor (key : Bytes) (i : Nat) (child : Node) : Option Node :=
  if child.isNull then do
    let value ← Bss.constructor.append key (UInt32.ofNat i)
    return mk value Bss.constructor fun _ => null
  else some child

/-- The loop of `qTrie__insert` over the bytes from `i` on, and the new payload. -/
def insertFrom (key : Bytes) (payload : Block) : Node → Bytes → Nat → Option Node
  | null, _, _ => none
  | mk value _ children, [], _ => do
    -- the old payload is dropped, not appended to
    let payload ← Bss.constructor.append payload.bytes (UInt32.ofNat payload.bytes.length)
    return mk value payload children
  | mk value old children, c :: rest, i => do
    let index ← childIndex c
    let child ← childFor key i (children index)
    let i ← increment i
    let child ← insertFrom key payload child rest i
    return mk value old (Function.update children index child)

/-- `qTrie__insert`. -/
def insert (desc : Descriptor) (kv : Block × Block) : Option (Int32 × Descriptor) := do
  let root := if desc.root.isNull then nodeConstructor else desc.root
  let root ← insertFrom kv.1.bytes kv.2 root kv.1.bytes 0
  return (0, { desc with root })

/-! What insertions and lookups should do, and when they can. -/

/-- After the insertions `kvs`, the lookup of `key` finds what it should. -/
def Stores (kvs : List (Block × Block)) (key : Block) : Prop :=
  ∃ rcs desc rc iter, Machine.run insert kvs constructor = some (rcs, desc) ∧
    ptrAt desc key = some (rc, iter) ∧
    (∀ payload, kvs.reverse.lookup key = some payload → rc = 0 ∧
      ∃ it b, iter = some it ∧ it.realiter.payload? = some b ∧ b.Holds payload.bytes) ∧
    ((∀ kv ∈ kvs, ¬key.bytes <+: kv.1.bytes) → rc = -1 ∧ iter = none)

/-- A key that is a valid path, and a payload that the buffer can take. -/
def Plain (kv : Block × Block) : Prop :=
  (∀ c ∈ kv.1.bytes, c < 128) ∧ kv.1.bytes.length < 2 ^ 31 ∧ kv.2.bytes.length < 2 ^ 31

/-- Before any byte from 128 on, the key has left the keys inserted. -/
def Clear (kvs : List (Block × Block)) (key : Block) : Prop :=
  ∀ pre c rest, key.bytes = pre ++ c :: rest → 128 ≤ c → ∀ kv ∈ kvs, ¬pre <+: kv.1.bytes

/-! Single steps. -/

theorem childIndex_low {c : UInt8} (h : c < 128) : childIndex c = some ⟨c.toNat, c.toNat_lt⟩ := by
  have hi : c.toInt8.toInt = c.toNat := by
    have hlt : c.toNat < 128 := h
    rw [Int8.toInt, UInt8.toBitVec_toInt8, BitVec.toInt_eq_toNat_of_lt]
    · rfl
    · show 2 * c.toNat < 2 ^ 8
      omega
  have hlt := c.toNat_lt
  rw [childIndex, dif_pos ⟨by omega, by omega⟩]
  simp [hi]

theorem childIndex_high {c : UInt8} (h : 128 ≤ c) : childIndex c = none := by
  have hge : 128 ≤ c.toNat := h
  have hlt := c.toNat_lt
  have hi : c.toInt8.toInt < 0 := by
    rw [Int8.toInt, UInt8.toBitVec_toInt8, BitVec.toInt_eq_toNat_cond, if_neg]
    · show ((c.toNat : Nat) : Int) - _ < 0
      omega
    · show ¬2 * c.toNat < 2 ^ 8
      omega
  rw [childIndex, dif_neg (by omega)]

theorem increment_eq {i : Nat} (h : i + 1 < 2 ^ 31) : increment i = some (i + 1) := if_pos h

theorem append_fresh (s : Bytes) (h : s.length < 2 ^ 31) :
    ∃ b, Bss.constructor.append s (UInt32.ofNat s.length) = some b ∧ b.Holds s := by
  have hs : s.length = (UInt32.ofNat s.length).toNat := by
    rw [UInt32.toNat_ofNat_of_lt' (Nat.lt_trans h (by decide))]
  obtain ⟨b, e, hb⟩ := Bss.append_holds Bss.Holds.constructor hs (by simpa using h)
  exact ⟨b, e, by simpa using hb⟩

/-! Paths. -/

section
variable {t old : Node} {key pre rest : Bytes} {payload : Block} {i : Nat} {c : UInt8}

@[simp] theorem sub_nil (t : Node) : t.sub [] = t := by
  cases t <;> rfl

theorem sub_null (s : Bytes) : null.sub s = null := by
  cases s <;> rfl

/-- A new node has no children. -/
theorem sub_fresh (value payload : Bss) (s : Bytes) :
    ((mk value payload fun _ => null).sub s).isNull = false ↔ s = [] := by
  cases s with
  | nil => exact iff_of_true rfl rfl
  | cons c s =>
    show (null.sub s).isNull = false ↔ _
    rw [sub_null]
    exact iff_of_false nofun nofun

theorem isNull_of_payload {t : Node} {b : Bss} (h : t.payload? = some b) : t.isNull = false := by
  cases t with
  | null => cases h
  | mk => rfl

theorem sub_append (t : Node) (s r : Bytes) : t.sub (s ++ r) = (t.sub s).sub r := by
  induction s generalizing t with
  | nil => rw [List.nil_append, sub_nil]
  | cons c s ih =>
    cases t with
    | null => rw [List.cons_append, sub_null, sub_null, sub_null]
    | mk value payload children => exact ih _

/-- The nodes on the way to a node. -/
theorem sub_prefix {s r : Bytes} (hp : s <+: r) (h : (t.sub r).isNull = false) :
    (t.sub s).isNull = false := by
  obtain ⟨u, rfl⟩ := hp
  rw [sub_append] at h
  cases e : t.sub s with
  | null =>
    rw [e, sub_null] at h
    cases h
  | mk => rfl

/-- The first node of a path that is there. -/
theorem start_of_path {s : Bytes} (h : (t.sub s).isNull = false) : t.isNull = false := by
  have hstart := sub_prefix List.nil_prefix h
  rwa [sub_nil] at hstart

theorem child_of_path {value old : Bss} {children : Fin 256 → Node} {c : UInt8} {s : Bytes}
    (h : ((mk value old children).sub (c :: s)).isNull = false) :
    (children ⟨c.toNat, c.toNat_lt⟩).isNull = false := by
  apply start_of_path (s := s)
  exact h

theorem byte_inj {c d : UInt8} :
    (⟨c.toNat, c.toNat_lt⟩ : Fin 256) = ⟨d.toNat, d.toNat_lt⟩ ↔ c = d := by
  rw [Fin.mk.injEq, UInt8.toNat_inj]

theorem sub_update_self (value old : Bss) (children : Fin 256 → Node) (c : UInt8) (child : Node)
    (s : Bytes) :
    (mk value old (Function.update children ⟨c.toNat, c.toNat_lt⟩ child)).sub (c :: s) =
      child.sub s := by
  rw [sub, Function.update_self]

theorem sub_update_of_ne (value old : Bss) (children : Fin 256 → Node) {c d : UInt8} (h : d ≠ c)
    (child : Node) (s : Bytes) :
    (mk value old (Function.update children ⟨c.toNat, c.toNat_lt⟩ child)).sub (d :: s) =
      (mk value old children).sub (d :: s) := by
  rw [sub, sub, Function.update_of_ne fun e => h (byte_inj.1 e)]

/-! Insertion. -/

/-- The child that the loop goes on with: the one there is, or a new one. -/
theorem child_spec (old : Node) (hi : i ≤ key.length) (hkey : key.length < 2 ^ 31) : ∃ child,
    childFor key i old = some child ∧ child.isNull = false ∧
      (∀ s, (child.sub s).isNull = false ↔ (old.sub s).isNull = false ∨ s = []) ∧
      ∀ s, (old.sub s).isNull = false → child.sub s = old.sub s := by
  cases old with
  | null =>
    have hlen : (key.take i).length = i := by rw [List.length_take, Nat.min_eq_left hi]
    obtain ⟨b, e, -⟩ := append_fresh (key.take i) (by omega)
    have hcount : (UInt32.ofNat i).toNat = i :=
      UInt32.toNat_ofNat_of_lt' (Nat.lt_trans (Nat.lt_of_le_of_lt hi hkey) (by decide))
    have htake := Bss.append_take Bss.constructor key (UInt32.ofNat i)
    rw [hcount] at htake
    rw [hlen, htake] at e
    refine ⟨mk b Bss.constructor fun _ => null, ?_, rfl, fun s => ?_, fun s h => ?_⟩
    · rw [childFor, isNull, if_pos rfl, e]
      rfl
    · rw [sub_null, sub_fresh]
      exact (or_iff_right nofun).symm
    · rw [sub_null] at h
      cases h
  | mk value payload children =>
    refine ⟨_, rfl, rfl, fun s => ⟨.inl, fun h => ?_⟩, fun s _ => rfl⟩
    rcases h with h | rfl
    · exact h
    · rfl

theorem insertFrom_spec (hp : payload.bytes.length < 2 ^ 31) (ht : t.isNull = false)
    (hlow : ∀ c ∈ rest, c < 128) (hi : i + rest.length = key.length)
    (hkey : key.length < 2 ^ 31) : ∃ t',
      insertFrom key payload t rest i = some t' ∧ t'.isNull = false ∧
        (∀ s, (t'.sub s).isNull = false ↔ (t.sub s).isNull = false ∨ s <+: rest) ∧
        (∃ b, (t'.sub rest).payload? = some b ∧ b.Holds payload.bytes) ∧
        ∀ s, s ≠ rest → (t.sub s).isNull = false →
          (t'.sub s).payload? = (t.sub s).payload? := by
  induction rest generalizing t i with
  | nil =>
    cases t with
    | null => cases ht
    | mk value old children =>
      obtain ⟨b, e, hb⟩ := append_fresh payload.bytes hp
      refine ⟨mk value b children, ?_, rfl, fun s => ?_, ⟨b, rfl, hb⟩, fun s hs _ => ?_⟩
      · rw [insertFrom, e]
        rfl
      · cases s with
        | nil => exact iff_of_true rfl (.inl rfl)
        | cons d s =>
          rw [List.prefix_nil]
          exact (or_iff_left (List.cons_ne_nil d s)).symm
      · cases s with
        | nil => exact absurd rfl hs
        | cons d s => rfl
  | cons c rest ih =>
    cases t with
    | null => cases ht
    | mk value old children =>
      rw [List.length_cons] at hi
      have hc : c < 128 := hlow c List.mem_cons_self
      obtain ⟨child, echild, hchild, hthere, hsame⟩ :=
        child_spec (children ⟨c.toNat, c.toNat_lt⟩) (show i ≤ key.length by omega) hkey
      obtain ⟨child', e, -, hthere', hpay, hsame'⟩ := ih hchild
        (fun d hd => hlow d (List.mem_cons_of_mem _ hd))
        (show i + 1 + rest.length = key.length by omega)
      refine ⟨mk value old (Function.update children ⟨c.toNat, c.toNat_lt⟩ child'), ?_, rfl,
        fun s => ?_, ?_, fun s hs hnull => ?_⟩
      · have hnext := increment_eq (show i + 1 < 2 ^ 31 by omega)
        rw [insertFrom, childIndex_low hc]
        simp only [Option.bind_eq_bind, Option.bind_some, echild, hnext, e]
        rfl
      · cases s with
        | nil => exact iff_of_true rfl (.inl rfl)
        | cons d s =>
          by_cases hd : d = c
          · subst hd
            rw [sub_update_self, hthere', hthere, List.cons_prefix_cons, sub]
            constructor
            · rintro ((h | rfl) | h)
              · exact .inl h
              · exact .inr ⟨rfl, List.nil_prefix⟩
              · exact .inr ⟨rfl, h⟩
            · rintro (h | h)
              · exact .inl (.inl h)
              · exact .inr h.2
          · rw [sub_update_of_ne _ _ _ hd, List.cons_prefix_cons, or_iff_left fun h => hd h.1]
      · rw [sub_update_self]
        exact hpay
      · cases s with
        | nil => rfl
        | cons d s =>
          by_cases hd : d = c
          · subst hd
            have hold : ((children ⟨d.toNat, d.toNat_lt⟩).sub s).isNull = false := hnull
            rw [sub_update_self, hsame' s (fun h => hs (by rw [h])) ((hthere s).2 (.inl hold)),
              hsame s hold]
            rfl
          · rw [sub_update_of_ne _ _ _ hd]

/-- The loop gets to its end only over bytes below 128, and only with a counter that an
    `int` can hold. -/
theorem insertFrom_some {t' : Node} (h : insertFrom key payload t rest i = some t')
    (hi : i < 2 ^ 31) : (∀ c ∈ rest, c < 128) ∧ i + rest.length < 2 ^ 31 ∧
      payload.bytes.length < 2 ^ 31 := by
  induction rest generalizing t t' i with
  | nil =>
    cases t with
    | null => cases h
    | mk value old children =>
      rw [insertFrom] at h
      obtain ⟨b, e, -⟩ := Option.bind_eq_some_iff.1 h
      have hs : payload.bytes.length = (UInt32.ofNat payload.bytes.length).toNat := by
        rw [UInt32.toNat_ofNat_of_lt' payload.short]
      have hfits := (Bss.append_isSome_iff Bss.Holds.constructor hs).1 (by rw [e]; rfl)
      have h64 : Bss.constructor.capacity.toNat = 64 := rfl
      rw [List.length_nil, Nat.zero_add, h64] at hfits
      exact ⟨nofun, hi, by omega⟩
  | cons c rest ih =>
    cases t with
    | null => cases h
    | mk value old children =>
      rw [insertFrom] at h
      obtain ⟨index, e₁, h⟩ := Option.bind_eq_some_iff.1 h
      obtain ⟨child, -, h⟩ := Option.bind_eq_some_iff.1 h
      obtain ⟨i', e₂, h⟩ := Option.bind_eq_some_iff.1 h
      obtain ⟨child', e₃, -⟩ := Option.bind_eq_some_iff.1 h
      have hc : c < 128 := by
        by_contra hc
        rw [childIndex_high (UInt8.not_lt.1 hc)] at e₁
        cases e₁
      have hi' : i + 1 < 2 ^ 31 ∧ i' = i + 1 := by
        rw [increment] at e₂
        split at e₂
        · next hlt =>
          cases e₂
          exact ⟨hlt, rfl⟩
        · cases e₂
      obtain ⟨hlt, rfl⟩ := hi'
      obtain ⟨hlow, hlen, hpay⟩ := ih e₃ hlt
      refine ⟨fun d hd => ?_, by rw [List.length_cons]; omega, hpay⟩
      rcases List.mem_cons.1 hd with rfl | hd
      · exact hc
      · exact hlow d hd

/-! Lookup. -/

/-- A path that is there is followed to its end. -/
theorem ptrAtFrom_found (h : (t.sub key).isNull = false) (hlow : ∀ c ∈ key, c < 128)
    (hi : i + key.length < 2 ^ 31) : ptrAtFrom t key i = some (some (t.sub key)) := by
  induction key generalizing t i with
  | nil =>
    rw [sub_nil]
    cases t <;> rfl
  | cons c key ih =>
    cases t with
    | null =>
      rw [sub_null] at h
      cases h
    | mk value old children =>
      rw [List.length_cons] at hi
      have hc : c < 128 := hlow c List.mem_cons_self
      rw [ptrAtFrom, childIndex_low hc]
      simp only [Option.bind_eq_bind, Option.bind_some, child_of_path h,
        increment_eq (show i + 1 < 2 ^ 31 by omega)]
      exact ih h (fun d hd => hlow d (List.mem_cons_of_mem _ hd)) (by omega)

/-- A path that is not there is left at the first node that is missing, if the bytes up to
    there are below 128 and no path is too long for the counter. -/
theorem ptrAtFrom_missing (ht : t.isNull = false) (h : (t.sub key).isNull = true)
    (hclear : ∀ pre c rest, key = pre ++ c :: rest → 128 ≤ c → (t.sub pre).isNull = true)
    (hdepth : ∀ s, (t.sub s).isNull = false → i + s.length < 2 ^ 31) :
    ptrAtFrom t key i = some none := by
  induction key generalizing t i with
  | nil =>
    rw [sub_nil, ht] at h
    cases h
  | cons c key ih =>
    cases t with
    | null => cases ht
    | mk value old children =>
      have hc : c < 128 := by
        by_contra hc
        have := hclear [] c key rfl (UInt8.not_lt.1 hc)
        rw [sub_nil, ht] at this
        cases this
      rw [ptrAtFrom, childIndex_low hc]
      simp only [Option.bind_eq_bind, Option.bind_some]
      cases hchild : (children ⟨c.toNat, c.toNat_lt⟩).isNull with
      | true => rfl
      | false =>
        have hstep : (mk value old children).sub [c] = children ⟨c.toNat, c.toNat_lt⟩ := sub_nil _
        have hlen := hdepth [c] (by rw [hstep, hchild])
        rw [List.length_singleton] at hlen
        rw [increment_eq hlen]
        refine ih hchild h (fun pre d rest e hd => ?_) fun s hs => ?_
        · exact hclear (c :: pre) d rest (by rw [e]; rfl) hd
        · have := hdepth (c :: s) hs
          rw [List.length_cons] at this
          omega

/-- A byte from 128 on that is met at a node is an index outside its children. -/
theorem ptrAtFrom_stuck (h : (t.sub pre).isNull = false) (hc : 128 ≤ c) :
    ptrAtFrom t (pre ++ c :: rest) i = none := by
  induction pre generalizing t i with
  | nil =>
    cases t with
    | null => rfl
    | mk value old children =>
      rw [List.nil_append, ptrAtFrom, childIndex_high hc]
      rfl
  | cons d pre ih =>
    cases t with
    | null => rfl
    | mk value old children =>
      rw [List.cons_append, ptrAtFrom]
      by_cases hd : d < 128
      · rw [childIndex_low hd]
        simp only [Option.bind_eq_bind, Option.bind_some, child_of_path h]
        cases e : increment i with
        | none => rfl
        | some i' => exact ih h
      · rw [childIndex_high (UInt8.not_lt.1 hd)]
        rfl

end

/-! Runs of insertions. -/

/-- The nodes are the beginnings of the keys inserted, and each key has its last payload. -/
structure Rep (root : Node) (kvs : List (Block × Block)) : Prop where
  nodes : ∀ s, (root.sub s).isNull = false ↔ ∃ kv ∈ kvs, s <+: kv.1.bytes
  payloads : ∀ key payload, kvs.reverse.lookup key = some payload →
    ∃ b, (root.sub key.bytes).payload? = some b ∧ b.Holds payload.bytes
  plain : ∀ kv ∈ kvs, Plain kv

section
variable {kvs : List (Block × Block)} {desc : Descriptor} {kv : Block × Block}

theorem Rep.init : Rep constructor.root [] where
  nodes s := by
    have hnull : constructor.root.sub s = null := sub_null s
    rw [hnull]
    exact iff_of_false nofun fun ⟨kv, hkv, _⟩ => by cases hkv
  payloads key payload h := by cases h
  plain kv h := by cases h

/-- The root, made if it is missing. -/
theorem root_spec (desc : Descriptor) : ∃ root,
    (if desc.root.isNull then nodeConstructor else desc.root) = root ∧ root.isNull = false ∧
      (∀ s, (root.sub s).isNull = false ↔ (desc.root.sub s).isNull = false ∨ s = []) ∧
      ∀ s, (desc.root.sub s).isNull = false → root.sub s = desc.root.sub s := by
  cases h : desc.root.isNull with
  | true =>
    have hnull : ∀ s, desc.root.sub s = null := by
      intro s
      cases e : desc.root with
      | null => exact sub_null s
      | mk =>
        rw [e] at h
        cases h
    refine ⟨nodeConstructor, if_pos rfl, rfl, fun s => ?_, fun s hs => ?_⟩
    · rw [hnull, nodeConstructor, sub_fresh]
      exact (or_iff_right nofun).symm
    · rw [hnull] at hs
      cases hs
  | false =>
    refine ⟨desc.root, if_neg nofun, h, fun s => ⟨.inl, fun hs => ?_⟩, fun s _ => rfl⟩
    rcases hs with hs | rfl
    · exact hs
    · rwa [sub_nil]

theorem insert_spec (hr : Rep desc.root kvs) (hp : Plain kv) :
    ∃ desc', insert desc kv = some (0, desc') ∧ Rep desc'.root (kvs ++ [kv]) := by
  obtain ⟨hlow, hkey, hpay⟩ := hp
  obtain ⟨root, eroot, hroot, hnodes, hsame⟩ := root_spec desc
  obtain ⟨t', e, -, hnodes', hlast, hothers⟩ :=
    insertFrom_spec hpay hroot hlow (Nat.zero_add _) hkey
  refine ⟨{ desc with root := t' }, ?_, fun s => ?_, fun key payload h => ?_, fun kv' hkv' => ?_⟩
  · rw [insert, eroot]
    simp only [Option.bind_eq_bind, e, Option.bind_some]
    rfl
  · show (t'.sub s).isNull = false ↔ _
    rw [hnodes', hnodes, hr.nodes]
    simp only [List.mem_append, List.mem_singleton, or_and_right, exists_or, exists_eq_left]
    constructor
    · rintro ((h | rfl) | h)
      · exact .inl h
      · exact .inr List.nil_prefix
      · exact .inr h
    · rintro (h | h)
      · exact .inl (.inl h)
      · exact .inr h
  · rw [List.reverse_append, List.reverse_singleton, List.singleton_append, List.lookup_cons] at h
    by_cases hk : key = kv.1
    · rw [hk, beq_self_eq_true] at h
      cases h
      rw [hk]
      exact hlast
    · rw [beq_false_of_ne hk] at h
      obtain ⟨b, hb, hholds⟩ := hr.payloads key payload h
      have hthere := isNull_of_payload hb
      have hne : key.bytes ≠ kv.1.bytes := by
        intro hbytes
        apply hk
        cases key
        cases kv with | mk k v => cases k; cases hbytes; rfl
      refine ⟨b, ?_, hholds⟩
      show (t'.sub key.bytes).payload? = some b
      rw [hothers _ hne ((hnodes _).2 (.inl hthere)), hsame _ hthere, hb]
  · rcases List.mem_append.1 hkv' with h | h
    · exact hr.plain kv' h
    · rw [List.mem_singleton.1 h]
      exact ⟨hlow, hkey, hpay⟩

/-- Only insertions of plain keys and payloads come back. -/
theorem insert_some {r : Int32 × Descriptor} (h : insert desc kv = some r) : Plain kv := by
  obtain ⟨root, e, -⟩ := Option.bind_eq_some_iff.1 h
  have := insertFrom_some e (by decide)
  rwa [Nat.zero_add] at this

theorem run_spec (hr : Rep desc.root kvs) (kvs' : List (Block × Block))
    (hp : ∀ kv ∈ kvs', Plain kv) : ∃ rcs desc', Machine.run insert kvs' desc = some (rcs, desc') ∧
      Rep desc'.root (kvs ++ kvs') := by
  induction kvs' generalizing desc kvs with
  | nil => exact ⟨[], desc, rfl, by rwa [List.append_nil]⟩
  | cons kv kvs' ih =>
    obtain ⟨desc₁, e₁, hr₁⟩ := insert_spec hr (hp kv List.mem_cons_self)
    obtain ⟨rcs, desc₂, e₂, hr₂⟩ := ih hr₁ fun kv' h => hp kv' (List.mem_cons_of_mem _ h)
    refine ⟨0 :: rcs, desc₂, ?_, ?_⟩
    · rw [Machine.run, e₁]
      simp only [Option.bind_eq_bind, Option.bind_some, e₂]
      rfl
    · rwa [List.append_assoc] at hr₂

theorem run_some {rcs : List Int32} {desc' : Descriptor}
    (h : Machine.run insert kvs desc = some (rcs, desc')) : ∀ kv ∈ kvs, Plain kv := by
  induction kvs generalizing desc rcs with
  | nil => nofun
  | cons kv kvs ih =>
    obtain ⟨⟨rc, desc₁⟩, e₁, h⟩ := Option.bind_eq_some_iff.1 h
    obtain ⟨⟨rcs', desc₂⟩, e₂, h⟩ := Option.bind_eq_some_iff.1 h
    cases h
    intro kv' hkv'
    rcases List.mem_cons.1 hkv' with rfl | hkv'
    · exact insert_some e₁
    · exact ih e₂ kv' hkv'

/-! The theorem. -/

/-- A lookup that can end finds the node of its key, or that there is none. -/
theorem ptrAt_spec (hr : Rep desc.root kvs) {key : Block} (hc : Clear kvs key) :
    ptrAt desc key = if (desc.root.sub key.bytes).isNull then some (-1, none)
      else some (0, some ⟨desc.root.sub key.bytes, desc.root⟩) := by
  have hnot : ∀ s, (∀ kv ∈ kvs, ¬s <+: kv.1.bytes) → (desc.root.sub s).isNull = true := by
    intro s h
    rw [← Bool.not_eq_false, hr.nodes]
    rintro ⟨kv, hkv, hs⟩
    exact h kv hkv hs
  have hdepth : ∀ s, (desc.root.sub s).isNull = false → 0 + s.length < 2 ^ 31 := by
    intro s hs
    obtain ⟨kv, hkv, hpre⟩ := (hr.nodes s).1 hs
    have := hpre.length_le
    have := (hr.plain kv hkv).2.1
    omega
  cases hroot : desc.root.isNull with
  | true =>
    have hsub : (desc.root.sub key.bytes).isNull = true := by
      rw [← Bool.not_eq_false]
      intro h
      rw [start_of_path h] at hroot
      cases hroot
    rw [ptrAt, if_pos hroot, if_pos hsub]
  | false =>
    rw [ptrAt, if_neg (by rw [hroot]; nofun)]
    cases hsub : (desc.root.sub key.bytes).isNull with
    | true =>
      have e := ptrAtFrom_missing hroot hsub
        (fun pre c rest h hge => hnot pre (hc pre c rest h hge)) hdepth
      simp only [Option.bind_eq_bind, e, Option.bind_some]
      rfl
    | false =>
      obtain ⟨kv, hkv, hpre⟩ := (hr.nodes _).1 hsub
      have e := ptrAtFrom_found hsub
        (fun c h => (hr.plain kv hkv).1 c (hpre.subset h)) (hdepth _ hsub)
      simp only [Option.bind_eq_bind, e, Option.bind_some]
      rfl

/-- A lookup that meets a byte from 128 on does not come back. -/
theorem clear_of_ptrAt (hr : Rep desc.root kvs) {key : Block} {r : Int32 × Option Iterator}
    (h : ptrAt desc key = some r) : Clear kvs key := by
  intro pre c rest e hge kv hkv hpre
  have hsub := (hr.nodes pre).2 ⟨kv, hkv, hpre⟩
  have hroot := start_of_path hsub
  rw [ptrAt, if_neg (by rw [hroot]; nofun), e, ptrAtFrom_stuck hsub hge] at h
  cases h

/-- **The trie stores its keys.** Insertions and a lookup do what they should if and only if
    the keys inserted have no byte from 128 on, keys and payloads are shorter than 2^31,
    and the key looked up has such a byte only where no key inserted leads. -/
theorem trie_stores (kvs : List (Block × Block)) (key : Block) :
    Stores kvs key ↔ (∀ kv ∈ kvs, Plain kv) ∧ Clear kvs key := by
  constructor
  · rintro ⟨rcs, desc, rc, iter, hrun, hat, -⟩
    have hp := run_some hrun
    obtain ⟨rcs', desc', e, hr⟩ := run_spec Rep.init kvs hp
    cases e.symm.trans hrun
    rw [List.nil_append] at hr
    exact ⟨hp, clear_of_ptrAt hr hat⟩
  · rintro ⟨hp, hc⟩
    obtain ⟨rcs, desc, hrun, hr⟩ := run_spec Rep.init kvs hp
    rw [List.nil_append] at hr
    have hat := ptrAt_spec hr hc
    cases hsub : (desc.root.sub key.bytes).isNull with
    | true =>
      rw [hsub, if_pos rfl] at hat
      refine ⟨rcs, desc, -1, none, hrun, hat, fun payload hlook => ?_, fun _ => ⟨rfl, rfl⟩⟩
      obtain ⟨b, hb, -⟩ := hr.payloads key payload hlook
      rw [isNull_of_payload hb] at hsub
      cases hsub
    | false =>
      rw [hsub, if_neg nofun] at hat
      refine ⟨rcs, desc, 0, _, hrun, hat, fun payload hlook => ?_, fun hnone => ?_⟩
      · obtain ⟨b, hb, hholds⟩ := hr.payloads key payload hlook
        exact ⟨rfl, _, b, rfl, hb, hholds⟩
      · obtain ⟨kv, hkv, hpre⟩ := (hr.nodes _).1 hsub
        exact absurd hpre (hnone kv hkv)

/-- The insertion of the one-byte key 0x80 uses the index -128. -/
theorem trie_stores_fails :
    ¬Stores [(⟨[0x80], by decide⟩, ⟨[1], by decide⟩)] ⟨[0x80], by decide⟩ := by
  rintro ⟨rcs, desc, rc, iter, hrun, -⟩
  have hlow := (run_some hrun _ List.mem_cons_self).1 0x80 List.mem_cons_self
  exact absurd hlow (by decide)

end

end Zhwkrfsp.Trie
