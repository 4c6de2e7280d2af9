import Zhwkrfsp.Nested
import Zhwkrfsp.UnorderedMap

/- List descriptors in memory, and lists within lists. A block that is long enough
   and begins with the magic is taken for a `qListDescriptor`; its pointers and its
   size are the bytes from 16 to 36. `Items` relates the blocks of a list to a nested
   list: a block that is not taken for a descriptor is a leaf, and one that is must
   begin with the descriptor of a list in the same heap. -/
namespace Zhwkrfsp.QList
open Wire Linked Nested
open QMap (Block)

/-- `Q__LD_MAGIC`, `__listdesc`. -/
def magic : Bytes := [95, 95, 108, 105, 115, 116, 100, 101, 115, 99]

/-- `sizeof(struct q__ListDescriptor)`. -/
def sizeofDescriptor : Nat := 40

/-- `q__List_islist`. -/
def islist (data : Bytes) : Bool := sizeofDescriptor ≤ data.length ∧ data.take 10 = magic

/-- A pointer to a cell. NULL is 0, and the cells are numbered from 1 on. -/
def address : Option Nat → UInt64
  | none => 0
  | some a => UInt64.ofNat (a + 1)

def pointer (w : UInt64) : Option Nat := if w = 0 then none else some (w.toNat - 1)

/-- `head`, `tail` and `size`. -/
def fields : Codec (UInt64 × UInt64 × UInt32) := .pair .u64 (.pair .u64 .u32)

namespace Descriptor

def fields (d : Descriptor) : Bytes := QList.fields.enc (address d.head, address d.tail, d.size)

/-- The struct: the magic, padding to the alignment of the pointers, the fields and
    padding at the end. -/
def bytes (d : Descriptor) : Bytes := magic ++ List.replicate 6 0 ++ d.fields ++ List.replicate 4 0

/-- Its pointers have addresses. -/
def Fits (d : Descriptor) : Prop := ∀ a, d.head = some a ∨ d.tail = some a → a + 1 < 2 ^ 64

@[simp] theorem length_fields (d : Descriptor) : d.fields.length = 20 := Codec.enc_length _ _

theorem length_bytes (d : Descriptor) : d.bytes.length = sizeofDescriptor := by
  rw [bytes, List.length_append, List.length_append, List.length_append, length_fields,
    List.length_replicate, List.length_replicate]
  rfl

end Descriptor

/-- The descriptor that a block begins with; `none` when it is too short for one. -/
def readDesc (data : Bytes) : Option Descriptor :=
  if sizeofDescriptor ≤ data.length then
    let (head, tail, size) := fields.dec (data.drop 16)
    some ⟨pointer head, pointer tail, size⟩
  else none

/-- Bytes with the fields of a descriptor over their own. -/
def overwrite (data : Bytes) (d : Descriptor) : Bytes :=
  data.take 16 ++ d.fields ++ data.drop 36

/-- Assignments to `head`, `tail` and `size` through a pointer; `none` when they leave
    the block. -/
def writeDesc (data : Bytes) (d : Descriptor) : Option Bytes :=
  if 36 ≤ data.length then some (overwrite data d) else none

theorem length_overwrite {data : Bytes} (h : 36 ≤ data.length) (d : Descriptor) :
    (overwrite data d).length = data.length := by
  rw [overwrite, List.length_append, List.length_append, Descriptor.length_fields, List.length_take,
    List.length_drop]
  omega

/-- `writeDesc` on a block with its size. -/
def assign (b : Block) (d : Descriptor) : Option Block :=
  if h : 36 ≤ b.bytes.length then
    some ⟨overwrite b.bytes d, by rw [length_overwrite h]; exact b.short⟩
  else none

/-- The same bytes but for the fields of a descriptor. -/
structure Alike (b b' : Block) : Prop where
  length : b'.bytes.length = b.bytes.length
  before : b'.bytes.take 16 = b.bytes.take 16
  behind : b'.bytes.drop 36 = b.bytes.drop 36

/-- The blocks `l` of a list stand for the nested list. -/
inductive Items (h : Heap (Option Block)) : Forest Block → List (Nat × Block) → Prop
  | nil : Items h .nil []
  | leaf {a : Nat} {x : Block} {r : Forest Block} {l : List (Nat × Block)} :
      islist x.bytes = false → Items h r l → Items h (.leaf x r) ((a, x) :: l)
  | node {a : Nat} {x : Block} {s r : Forest Block} {l ls : List (Nat × Block)} {d : Descriptor} :
      islist x.bytes = true → readDesc x.bytes = some d → Stored h d ls → Items h s ls →
      Items h r l → Items h (.node x s r) ((a, x) :: l)

/-- `d` is the descriptor of a list that stands for the nested list. -/
def Live (h : Heap (Option Block)) (d : Descriptor) (F : Forest Block) : Prop :=
  ∃ l, Stored h d l ∧ Items h F l

/-! Descriptors in bytes. -/

theorem pointer_address {o : Option Nat} (h : ∀ a, o = some a → a + 1 < 2 ^ 64) :
    pointer (address o) = o := by
  cases o with
  | none => rfl
  | some a =>
    have ha : (UInt64.ofNat (a + 1)).toNat = a + 1 := UInt64.toNat_ofNat_of_lt' (h a rfl)
    have hne : UInt64.ofNat (a + 1) ≠ 0 := by
      intro e
      rw [e] at ha
      exact absurd ha (Nat.succ_ne_zero a).symm
    rw [address, pointer, if_neg hne, ha]
    rfl

theorem dec_fields {d : Descriptor} (hd : d.Fits) (rest : Bytes) :
    (⟨pointer (fields.dec (d.fields ++ rest)).1, pointer (fields.dec (d.fields ++ rest)).2.1,
      (fields.dec (d.fields ++ rest)).2.2⟩ : Descriptor) = d := by
  rw [Descriptor.fields, Codec.dec_enc, pointer_address fun a h => hd a (.inl h),
    pointer_address fun a h => hd a (.inr h)]

theorem readDesc_overwrite {d : Descriptor} (hd : d.Fits) {data : Bytes}
    (h : sizeofDescriptor ≤ data.length) : readDesc (overwrite data d) = some d := by
  have h36 : 36 ≤ data.length := Nat.le_trans (by decide) h
  have hdrop : (overwrite data d).drop 16 = d.fields ++ data.drop 36 := by
    rw [overwrite, List.append_assoc]
    exact List.drop_left' (by rw [List.length_take]; omega)
  rw [readDesc, if_pos (by rwa [length_overwrite h36]), hdrop]
  exact congrArg some (dec_fields hd _)

theorem readDesc_bytes {d : Descriptor} (hd : d.Fits) : readDesc d.bytes = some d := by
  have hdrop : d.bytes.drop 16 = d.fields ++ List.replicate 4 0 := by
    rw [Descriptor.bytes, List.append_assoc]
    exact List.drop_left' rfl
  rw [readDesc, if_pos (Nat.le_of_eq d.length_bytes.symm), hdrop]
  exact congrArg some (dec_fields hd _)

theorem alike_refl (b : Block) : Alike b b := ⟨rfl, rfl, rfl⟩

/-- An assignment to a long enough block succeeds, can be read back and changes
    nothing else. -/
theorem assign_spec {b : Block} {d : Descriptor} (hd : d.Fits)
    (hb : sizeofDescriptor ≤ b.bytes.length) :
    ∃ b', assign b d = some b' ∧ readDesc b'.bytes = some d ∧ Alike b b' := by
  have h36 : 36 ≤ b.bytes.length := Nat.le_trans (by decide) hb
  have h16 : (b.bytes.take 16).length = 16 := by
    rw [List.length_take]
    omega
  refine ⟨_, dif_pos h36, readDesc_overwrite hd hb, length_overwrite h36 d, ?_, ?_⟩
  · show (overwrite b.bytes d).take 16 = _
    rw [overwrite, List.append_assoc]
    exact List.take_left' h16
  · show (overwrite b.bytes d).drop 36 = _
    rw [overwrite]
    exact List.drop_left' (by rw [List.length_append, h16, Descriptor.length_fields])

theorem length_of_islist {data : Bytes} (h : islist data = true) : sizeofDescriptor ≤ data.length :=
  (of_decide_eq_true h).1

theorem Alike.islist {b b' : Block} (h : Alike b b') : islist b'.bytes = islist b.bytes := by
  have hcut : ∀ data : Bytes, data.take 10 = (data.take 16).take 10 := fun data => by
    rw [List.take_take]
    rfl
  rw [QList.islist, QList.islist, h.length, hcut b'.bytes, h.before, ← hcut]

theorem Stored.fits {h : Heap (Option Block)} {d : Descriptor} {l : List (Nat × Block)}
    (hs : Stored h d l) (hbrk : h.brk < 2 ^ 64) : d.Fits := by
  have hmem : ∀ a ∈ l.map Prod.fst, a + 1 < 2 ^ 64 := fun a ha =>
    Nat.lt_of_le_of_lt (hs.fresh a ha) hbrk
  rintro a (ha | ha)
  · exact hmem a (first_mem (hs.head.symm.trans ha) nofun)
  · exact hmem a (last_mem (hs.tail.symm.trans ha) nofun)

/-! What the cells of nested lists depend on. -/

section
variable {h h' : Heap (Option Block)} {d : Descriptor} {F : Forest Block} {l : List (Nat × Block)}

theorem Items.eq_nil (hi : Items h .nil l) : l = [] := by
  cases hi
  rfl

/-- New cells do not change a nested list. -/
theorem Items.frame (hi : Items h F l) (hcell : ∀ a < h.brk, h'.cell a = h.cell a)
    (hbrk : h.brk ≤ h'.brk) : Items h' F l := by
  induction hi with
  | nil => exact .nil
  | leaf hx _ ih => exact .leaf hx ih
  | node hx hd hs _ _ ihs ihr =>
    exact .node hx hd (hs.frame (fun a ha => hcell a (hs.fresh a ha)) hbrk) ihs ihr

theorem Live.frame (hl : Live h d F) (hcell : ∀ a < h.brk, h'.cell a = h.cell a)
    (hbrk : h.brk ≤ h'.brk) : Live h' d F := by
  obtain ⟨l, hs, hi⟩ := hl
  exact ⟨l, hs.frame (fun a ha => hcell a (hs.fresh a ha)) hbrk, hi.frame hcell hbrk⟩

theorem live_nil (h : Heap (Option Block)) : Live h constructor .nil := ⟨[], .constructor h, .nil⟩

/-- An empty list has the descriptor of a new one. -/
theorem Live.eq_constructor (hl : Live h d .nil) : d = constructor := by
  obtain ⟨l, hs, hi⟩ := hl
  cases hi
  obtain ⟨head, tail, size⟩ := d
  rw [constructor, show head = none from hs.head, show tail = none from hs.tail,
    show size = 0 from hs.size]

/-- The lists within a list. -/
theorem Items.sub (hi : Items h F l) : ∀ (j : Nat) (q : List Nat), ∃ d, Live h d (F.sub (j :: q)) := by
  induction hi with
  | nil =>
    intro j q
    exact ⟨_, live_nil h⟩
  | leaf _ _ ih =>
    intro j q
    cases j with
    | zero => exact ⟨_, live_nil h⟩
    | succ j => exact ih j q
  | @node a x s r l ls d _ _ hs hi _ ihs ihr =>
    intro j q
    cases j with
    | zero =>
      cases q with
      | nil => exact ⟨d, ls, hs, by rw [Forest.sub, Forest.sub_nil]; exact hi⟩
      | cons j q => exact ihs j q
    | succ j => exact ihr j q

theorem Live.sub (hl : Live h d F) (q : List Nat) : ∃ d', Live h d' (F.sub q) := by
  obtain ⟨l, hs, hi⟩ := hl
  cases q with
  | nil => exact ⟨d, l, hs, by rw [Forest.sub_nil]; exact hi⟩
  | cons j q => exact hi.sub j q

end

end Zhwkrfsp.QList
