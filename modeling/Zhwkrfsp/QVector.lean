import Zhwkrfsp.Bss
import Zhwkrfsp.Machine

/- The vector of `zhwkre/containers/vector.c`: a block of `allocated` bytes that begins with
   the `size` elements, of `elemstep` bytes each. It grows when an element no longer
   fits, to twice the room for one element more, and it shrinks to half when a removal
   leaves less than half of it in use. `none` is an access outside a block, or a value
   that an `int` cannot hold. An iterator points to the block and the size of the vector
   it was made of, so the functions on iterators take that vector. -/
namespace Zhwkrfsp.QVector
open Wire

/-- An `int` expression. -/
def int (x : Int) : Option Int := if -2 ^ 31 ≤ x ∧ x < 2 ^ 31 then some x else none

/-- The `n` bytes of a block from `off` on. -/
def load (block : Bytes) (off n : Int) : Option Bytes :=
  if 0 ≤ off ∧ 0 ≤ n ∧ off + n ≤ block.length then some ((block.drop off.toNat).take n.toNat)
  else none

/-- `memcpy` of `src` to `off`. -/
def store (block : Bytes) (off : Int) (src : Bytes) : Option Bytes :=
  if 0 ≤ off then memcpy block off.toNat src else none

/-- A block of `n` bytes, if the next allocation succeeds; when the outcomes are used
    up, all do. -/
def malloc (n : Int) : List Bool → Option Bytes × List Bool
  | [] => (some (List.replicate n.toNat 0), [])
  | ok :: mallocs => (if ok then some (List.replicate n.toNat 0) else none, mallocs)

structure Descriptor where
  content : Option Bytes
  size : Int
  elemstep : Int
  allocated : Int
  deriving DecidableEq

structure Iterator where
  count : Int
  elemstep : Int
  deriving DecidableEq

/-- `qVector_constructor` (the allocation succeeding). -/
def constructor (elemsize : Int) : Descriptor := ⟨none, 0, elemsize, 0⟩

/-- The reallocation in `qVector__push_back`; no descriptor when it fails. -/
def reserve (desc : Descriptor) (mallocs : List Bool) :
    Option (Option Descriptor × List Bool) := do
  let needed ← int ((← int (desc.size + 1)) * desc.elemstep)
  if desc.allocated < needed then
    let allocated ← int (2 * (← int (desc.allocated + desc.elemstep)))
    match malloc allocated mallocs with
    | (none, mallocs) => return (none, mallocs)
    | (some tmprealloc, mallocs) =>
      match desc.content with
      | none => return (some { desc with content := some tmprealloc, allocated }, mallocs)
      | some content =>
        -- the old block as a whole, what follows the elements too
        let tmprealloc ← store tmprealloc 0 (← load content 0 desc.allocated)
        return (some { desc with content := some tmprealloc, allocated }, mallocs)
  else return (some desc, mallocs)

/-- `qVector__push_back`. -/
def pushBack (desc : Descriptor) (elem : Bytes) (mallocs : List Bool) :
    Option (Int32 × Descriptor × List Bool) := do
  match ← reserve desc mallocs with
  | (none, mallocs) => return (-1, desc, mallocs)
  | (some desc, mallocs) =>
    let content ← desc.content
    let content ← store content (← int (desc.size * desc.elemstep)) (← load elem 0 desc.elemstep)
    let size ← int (desc.size + 1)
    return (0, { desc with content := some content, size }, mallocs)

/-- `qVector__pop_back`. -/
def popBack (desc : Descriptor) (mallocs : List Bool) :
    Option (Int32 × Descriptor × List Bool) := do
  let size ← int (desc.size - 1)
  let desc := { desc with size }
  let used ← int (size * desc.elemstep)
  let twice ← int (2 * used)
  if twice < desc.allocated ∧ desc.allocated.tdiv 2 ≠ 0 then
    match malloc (desc.allocated.tdiv 2) mallocs with
    -- the element is gone by then
    | (none, mallocs) => return (-1, desc, mallocs)
    | (some tmprealloc, mallocs) =>
      let tmprealloc ← store tmprealloc 0 (← load (← desc.content) 0 used)
      return (0, { desc with content := some tmprealloc, allocated := desc.allocated.tdiv 2 },
        mallocs)
  else return (0, desc, mallocs)

/-! Iterators. -/

/-- `qVector_begin`. -/
def begin (desc : Descriptor) : Iterator := ⟨0, desc.elemstep⟩

/-- `qVectorIterator_isvalid`. -/
def isvalid (desc : Descriptor) (iter : Iterator) : Bool :=
  iter.count < desc.size && 0 ≤ iter.count

/-- `qVectorIterator_deref`: where in the block the element is. -/
def deref (iter : Iterator) : Option Int := int (iter.count * iter.elemstep)

/-- `qVectorIterator_move`. -/
def move (iter : Iterator) (delta : Int) : Option Iterator := do
  let count ← int (iter.count + delta)
  return { iter with count }

/-- The loop of `qVector__erase`, and where it ends. -/
def shiftFrom (desc : Descriptor) : Nat → Iterator → Bytes → Option (Iterator × Bytes)
  | 0, _, _ => none
  | turns + 1, i, content => do
    let next ← move i 1
    if isvalid desc next then
      let elem ← load content (← deref next) desc.elemstep
      let content ← store content (← deref i) elem
      shiftFrom desc turns next content
    else return (i, content)

/-- `qVector__erase`. -/
def erase (desc : Descriptor) (positional : Iterator) (mallocs : List Bool) :
    Option (Int32 × Descriptor × List Bool) :=
  match malloc desc.elemstep mallocs with
  | (none, mallocs) => some (-1, desc, mallocs)
  | (some _, mallocs) => do
    let content ← desc.content
    let buffer ← load content (← deref positional) desc.elemstep
    let (i, content) ← shiftFrom desc (desc.size.toNat + 1) positional content
    -- the erased element becomes the last one, and is popped
    let content ← store content (← deref i) buffer
    popBack { desc with content := some content } mallocs

/-- The element at an iterator moved from the beginning. -/
def elem (desc : Descriptor) (delta : Int) : Option Bytes := do
  load (← desc.content) (← deref (← move (begin desc) delta)) desc.elemstep

/-! The operations, and what they do to the sequence of elements. -/

inductive Op where
  | pushBack (elem : Bytes)
  | popBack
  | erase (delta : Int)

structure State where
  desc : Descriptor
  mallocs : List Bool

def init (elemsize : Int) : State := ⟨constructor elemsize, []⟩

def step (s : State) : Op → Option (Int32 × State)
  | .pushBack elem => (pushBack s.desc elem s.mallocs).map fun r => (r.1, ⟨r.2.1, r.2.2⟩)
  | .popBack => (popBack s.desc s.mallocs).map fun r => (r.1, ⟨r.2.1, r.2.2⟩)
  | .erase delta => do
    let positional ← move (begin s.desc) delta
    let r ← erase s.desc positional s.mallocs
    return (r.1, ⟨r.2.1, r.2.2⟩)

/-- An element of the right size that leaves fewer than 2^29 bytes in all, a removal
    from a non-empty vector, an iterator that is valid. -/
def Allowed (s : State) : Op → Prop
  | .pushBack elem => elem.length = s.desc.elemstep ∧ (s.desc.size + 1) * s.desc.elemstep < 2 ^ 29
  | .popBack => 0 < s.desc.size
  | .erase delta => isvalid s.desc ⟨delta, s.desc.elemstep⟩ = true

instance (s : State) : ∀ op, Decidable (Allowed s op)
  | .pushBack _ => inferInstanceAs (Decidable (_ ∧ _))
  | .popBack => inferInstanceAs (Decidable (_ < _))
  | .erase _ => inferInstanceAs (Decidable (_ = _))

def seqStep (xs : List Bytes) : Op → Int32 × List Bytes
  | .pushBack elem => (0, xs ++ [elem])
  | .popBack => (0, xs.dropLast)
  | .erase delta => (0, xs.eraseIdx delta.toNat)

/-- The block begins with the elements `xs`, of `step` bytes each, and `rest` follows. -/
structure Holds (step : Nat) (desc : Descriptor) (xs : List Bytes) (rest : Bytes) : Prop where
  size : desc.size = xs.length
  elemstep : desc.elemstep = step
  elems : ∀ x ∈ xs, x.length = step
  block : desc.content.getD [] = xs.flatten ++ rest
  allocated : desc.allocated = (xs.flatten ++ rest).length
  short : xs.length * step < 2 ^ 29
  small : (xs.flatten ++ rest).length < 2 ^ 31

/-! Blocks. -/

/-- A step that succeeds. (With `simp` the kernel would have to see through `int`.) -/
theorem bind_of_eq_some {α β : Type} {o : Option α} {a : α} (h : o = some a) (f : α → Option β) :
    (o >>= f) = f a := by
  rw [h]
  rfl

theorem int_eq {x : Int} (h : -2 ^ 31 ≤ x) (h' : x < 2 ^ 31) : int x = some x := if_pos ⟨h, h'⟩

theorem load_append (pre x rest : Bytes) {off n : Int} (ho : off = pre.length)
    (hn : n = x.length) : load (pre ++ (x ++ rest)) off n = some x := by
  subst ho hn
  have hroom : 0 ≤ (pre.length : Int) ∧ 0 ≤ (x.length : Int) ∧
      (pre.length : Int) + x.length ≤ (pre ++ (x ++ rest)).length := by
    rw [List.length_append, List.length_append]
    omega
  rw [load, if_pos hroom, Int.toNat_natCast, Int.toNat_natCast, List.drop_left, List.take_left]

theorem store_append (pre rest : Bytes) {x y : Bytes} (h : y.length = x.length) {off : Int}
    (ho : off = pre.length) : store (pre ++ (x ++ rest)) off y = some (pre ++ (y ++ rest)) := by
  subst ho
  have hlen : pre.length + y.length ≤ (pre ++ (x ++ rest)).length := by
    simp only [List.length_append]
    omega
  rw [store, if_pos (Int.natCast_nonneg _), Int.toNat_natCast, memcpy, if_pos hlen, List.take_left,
    h, ← List.drop_drop, List.drop_left, List.drop_left, List.append_assoc]

theorem flatten_length {step : Nat} {xs : List Bytes} (h : ∀ x ∈ xs, x.length = step) :
    xs.flatten.length = xs.length * step := by
  induction xs with
  | nil => simp
  | cons x xs ih =>
    rw [List.flatten_cons, List.length_append, h x List.mem_cons_self,
      ih fun y hy => h y (List.mem_cons_of_mem _ hy), List.length_cons, Nat.succ_mul, Nat.add_comm]

theorem flatten_concat (xs : List Bytes) (x rest : Bytes) :
    (xs ++ [x]).flatten ++ rest = xs.flatten ++ (x ++ rest) := by
  rw [List.flatten_append, List.flatten_singleton, List.append_assoc]

theorem flatten_split (xs : List Bytes) (x : Bytes) (ys : List Bytes) (rest : Bytes) :
    (xs ++ x :: ys).flatten ++ rest = xs.flatten ++ (x ++ (ys.flatten ++ rest)) := by
  rw [List.flatten_append, List.flatten_cons, List.append_assoc, List.append_assoc]

theorem take_cons_drop {xs : List Bytes} {i : Nat} (h : i < xs.length) :
    xs = xs.take i ++ xs[i] :: xs.drop (i + 1) := by
  rw [List.getElem_cons_drop, List.take_append_drop]

theorem int_natCast {n : Nat} (h : n < 2 ^ 31) : int n = some (n : Int) :=
  int_eq (by omega) (by omega)

theorem int_succ {n : Nat} (h : n + 1 < 2 ^ 31) :
    int ((n : Int) + 1) = some ((n : Int) + 1) := int_natCast h

theorem int_mul {m n : Nat} (h : m * n < 2 ^ 31) :
    int ((m : Int) * n) = some ((m * n : Nat) : Int) := by
  rw [← int_natCast h, Int.natCast_mul]

section
variable {step : Nat} {desc : Descriptor} {xs : List Bytes} {rest : Bytes}

namespace Holds

theorem room (h : Holds step desc xs rest) :
    desc.allocated = ((xs.length * step + rest.length : Nat) : Int) := by
  rw [h.allocated, List.length_append, flatten_length h.elems]

theorem room_lt (h : Holds step desc xs rest) : xs.length * step + rest.length < 2 ^ 31 := by
  have := h.small
  rwa [List.length_append, flatten_length h.elems] at this

theorem length_lt (h : Holds step desc xs rest) (hstep : 0 < step) : xs.length < 2 ^ 29 :=
  Nat.lt_of_le_of_lt (Nat.le_mul_of_pos_right _ hstep) h.short

/-- There is a block as soon as there is room in it. -/
theorem content (h : Holds step desc xs rest) (hpos : 0 < xs.length * step + rest.length) :
    desc.content = some (xs.flatten ++ rest) := by
  have hb := h.block
  cases hc : desc.content with
  | some content =>
    rw [hc] at hb
    exact congrArg some hb
  | none =>
    rw [hc] at hb
    have hlen := congrArg List.length hb
    rw [List.length_append, flatten_length h.elems] at hlen
    exact absurd hlen (Nat.ne_of_lt hpos)

end Holds

/-- A new block for the bytes of the old one. -/
theorem move_block (pre : Bytes) (n : Nat) (h : pre.length ≤ n) :
    store (List.replicate n 0) 0 pre = some (pre ++ List.replicate (n - pre.length) 0) := by
  have e : List.replicate n (0 : UInt8) =
      List.replicate pre.length 0 ++ List.replicate (n - pre.length) 0 := by
    rw [List.replicate_append_replicate, Nat.add_sub_cancel' h]
  rw [e]
  exact store_append [] _ (List.length_replicate).symm rfl

theorem load_all (block : Bytes) {n : Int} (hn : n = block.length) : load block 0 n = some block := by
  have h := load_append [] block [] rfl hn
  rwa [List.nil_append, List.append_nil] at h

/-! The operations. -/

theorem reserve_spec (hstep : 0 < step) (h : Holds step desc xs rest)
    (hfit : (xs.length + 1) * step < 2 ^ 29) : ∃ desc' rest',
      reserve desc [] = some (some desc', []) ∧ Holds step desc' xs rest' ∧ step ≤ rest'.length ∧
        desc'.content = some (xs.flatten ++ rest') := by
  have hn := h.length_lt hstep
  have hroom := h.room
  have hlt31 := h.room_lt
  have hlen : (xs.flatten ++ rest).length = xs.length * step + rest.length := by
    rw [List.length_append, flatten_length h.elems]
  rw [Nat.succ_mul] at hfit
  have hneed : int (((xs.length : Int) + 1) * step) =
      some ((xs.length * step + step : Nat) : Int) := by
    rw [← Nat.succ_mul]
    apply int_mul
    rw [Nat.succ_mul]
    omega
  rw [reserve, h.size, h.elemstep, hroom, bind_of_eq_some (int_succ (by omega)),
    bind_of_eq_some hneed]
  by_cases hlt : xs.length * step + rest.length < xs.length * step + step
  · -- the room is below 2^29 and so is a step, so twice their sum is an `int`
    have hgrow : int (((xs.length * step + rest.length : Nat) : Int) + step) =
        some ((xs.length * step + rest.length + step : Nat) : Int) := by
      rw [← Int.natCast_add]
      exact int_natCast (by omega)
    have htwo : int (2 * ((xs.length * step + rest.length + step : Nat) : Int)) =
        some ((2 * (xs.length * step + rest.length + step) : Nat) : Int) := int_mul (m := 2) (by omega)
    -- the bytes that follow the elements in the new block
    obtain ⟨rest', erest⟩ : ∃ rest', rest' = rest ++ List.replicate
      (2 * (xs.length * step + rest.length + step) - (xs.flatten ++ rest).length) (0 : UInt8) :=
      ⟨_, rfl⟩
    have hrest : rest'.length = xs.length * step + 2 * rest.length + 2 * step := by
      rw [erest, List.length_append, List.length_replicate, hlen]
      omega
    rw [if_pos (Int.ofNat_lt.2 hlt), bind_of_eq_some hgrow, bind_of_eq_some htwo, malloc,
      Int.toNat_natCast]
    refine ⟨{ desc with
        content := some (xs.flatten ++ rest')
        allocated := ((2 * (xs.length * step + rest.length + step) : Nat) : Int) }, rest', ?_,
      ⟨h.size, h.elemstep, h.elems, rfl, ?_, h.short, ?_⟩, by omega, rfl⟩
    · have hb := h.block
      cases hc : desc.content with
      | none =>
        rw [hc, Option.getD_none] at hb
        have hnil : xs.flatten = [] ∧ rest = [] := List.append_eq_nil_iff.1 hb.symm
        rw [erest, hnil.1, hnil.2, h.size, h.elemstep]
        rfl
      | some content =>
        rw [hc, Option.getD_some] at hb
        subst hb
        have hmove := move_block (xs.flatten ++ rest)
          (2 * (xs.length * step + rest.length + step)) (by omega)
        have hload := load_all (xs.flatten ++ rest) (congrArg Nat.cast hlen.symm)
        dsimp only
        rw [bind_of_eq_some hload, bind_of_eq_some hmove, erest, List.append_assoc, h.size,
          h.elemstep]
        rfl
    · rw [List.length_append, flatten_length h.elems, hrest]
      exact congrArg Nat.cast (by omega)
    · rw [List.length_append, flatten_length h.elems, hrest]
      omega
  · rw [if_neg fun hc => hlt (Int.ofNat_lt.1 hc)]
    exact ⟨desc, rest, rfl, h, by omega, h.content (by omega)⟩

theorem pushBack_spec (hstep : 0 < step) (h : Holds step desc xs rest) {x : Bytes}
    (hx : x.length = step) (hfit : (xs.length + 1) * step < 2 ^ 29) : ∃ desc' rest',
      pushBack desc x [] = some (0, desc', []) ∧ Holds step desc' (xs ++ [x]) rest' := by
  obtain ⟨d, rest', e, hd, hroom, hc⟩ := reserve_spec hstep h hfit
  have hn := hd.length_lt hstep
  have hshort := hd.short
  have hload : load x 0 step = some x := load_all x (congrArg Nat.cast hx.symm)
  have hflat := flatten_concat xs x (rest'.drop step)
  have hlen : (xs.flatten ++ (x ++ rest'.drop step)).length = (xs.flatten ++ rest').length := by
    simp only [List.length_append, List.length_drop, hx]
    omega
  have hstore : store (xs.flatten ++ rest') ((xs.length * step : Nat) : Int) x =
      some (xs.flatten ++ (x ++ rest'.drop step)) := by
    have hs := store_append xs.flatten (rest'.drop step) (x := rest'.take step) (y := x)
      (by rw [hx, List.length_take, Nat.min_eq_left hroom])
      (congrArg Nat.cast (flatten_length hd.elems).symm)
    rwa [List.take_append_drop] at hs
  refine ⟨{ d with
      content := some (xs.flatten ++ (x ++ rest'.drop step)), size := (xs.length : Int) + 1 },
    rest'.drop step, ?_, ⟨?_, hd.elemstep, ?_, ?_, ?_, ?_, ?_⟩⟩
  · rw [pushBack, bind_of_eq_some e]
    dsimp only
    rw [hd.size, hd.elemstep, bind_of_eq_some hc, bind_of_eq_some (int_mul (by omega)),
      bind_of_eq_some hload, bind_of_eq_some hstore, bind_of_eq_some (int_succ (by omega))]
    rfl
  · rw [List.length_append, List.length_singleton]
    rfl
  · exact List.forall_mem_append.2 ⟨hd.elems, List.forall_mem_singleton.2 hx⟩
  · exact hflat.symm
  · rw [hflat, hlen]
    exact hd.allocated
  · rwa [List.length_append, List.length_singleton]
  · rw [hflat, hlen]
    exact hd.small

/-- The last element becomes part of what follows. -/
theorem Holds.drop_last (hstep : 0 < step) {x : Bytes} (h : Holds step desc (xs ++ [x]) rest) :
    Holds step { desc with size := (xs.length : Int) } xs (x ++ rest) := by
  have hflat := flatten_concat xs x rest
  have hshort := h.short
  rw [List.length_append, List.length_singleton, Nat.succ_mul] at hshort
  refine ⟨rfl, h.elemstep, fun y hy => h.elems y (List.mem_append_left _ hy), ?_, ?_, by omega, ?_⟩
  · rw [← hflat]
    exact h.block
  · rw [← hflat]
    exact h.allocated
  · rw [← hflat]
    exact h.small

theorem popBack_spec (hstep : 0 < step) {x : Bytes} (h : Holds step desc (xs ++ [x]) rest) :
    ∃ desc' rest', popBack desc [] = some (0, desc', []) ∧ Holds step desc' xs rest' := by
  have hd := h.drop_last hstep
  have hn := hd.length_lt hstep
  have hshort := hd.short
  have hlt31 := hd.room_lt
  have hroom : desc.allocated = ((xs.length * step + (x ++ rest).length : Nat) : Int) := hd.room
  have hsize : int (desc.size - 1) = some (xs.length : Int) := by
    rw [h.size, List.length_append, List.length_singleton, ← int_natCast (by omega)]
    congr 1
    omega
  have hused : int ((xs.length : Int) * desc.elemstep) = some ((xs.length * step : Nat) : Int) := by
    rw [h.elemstep]
    exact int_mul (by omega)
  have htwice : int (2 * ((xs.length * step : Nat) : Int)) =
      some ((2 * (xs.length * step) : Nat) : Int) := int_mul (m := 2) (by omega)
  rw [popBack, bind_of_eq_some hsize]
  dsimp only
  rw [bind_of_eq_some hused, bind_of_eq_some htwice]
  have hhalf : desc.allocated.tdiv 2 =
      (((xs.length * step + (x ++ rest).length) / 2 : Nat) : Int) := by
    rw [hroom, Int.ofNat_tdiv]
    rfl
  by_cases hshrink : ((2 * (xs.length * step) : Nat) : Int) < desc.allocated ∧
      desc.allocated.tdiv 2 ≠ 0
  · have hlt : 2 * (xs.length * step) < xs.length * step + (x ++ rest).length := by
      have := hshrink.1
      rw [hroom] at this
      exact Int.ofNat_lt.1 this
    have hc := hd.content (by omega)
    have hload : load (xs.flatten ++ (x ++ rest)) 0 ((xs.length * step : Nat) : Int) =
        some xs.flatten := by
      exact load_append [] xs.flatten (x ++ rest) rfl
        (congrArg Nat.cast (flatten_length hd.elems).symm)
    have hmove := move_block xs.flatten ((xs.length * step + (x ++ rest).length) / 2) (by
      rw [flatten_length hd.elems]
      omega)
    have hlen' : (xs.flatten ++ List.replicate
        ((xs.length * step + (x ++ rest).length) / 2 - xs.flatten.length) (0 : UInt8)).length =
        (xs.length * step + (x ++ rest).length) / 2 := by
      rw [List.length_append, List.length_replicate, flatten_length hd.elems]
      omega
    rw [if_pos hshrink, hhalf, malloc, Int.toNat_natCast]
    dsimp only
    rw [bind_of_eq_some hc, bind_of_eq_some hload, bind_of_eq_some hmove]
    refine ⟨_, _, rfl, rfl, hd.elemstep, hd.elems, rfl, ?_, hd.short, ?_⟩
    · rw [hlen']
    · rw [hlen']
      omega
  · rw [if_neg hshrink]
    exact ⟨_, _, rfl, hd⟩

/-! Iterators and erasure. -/

theorem move_begin (desc : Descriptor) {i : Nat} (h : i < 2 ^ 31) :
    move (begin desc) i = some ⟨(i : Int), desc.elemstep⟩ := by
  have e : int ((begin desc).count + i) = some (i : Int) := by
    rw [begin, Int.zero_add]
    exact int_natCast h
  rw [move, bind_of_eq_some e]
  rfl

theorem move_one {n : Nat} (h : n + 1 < 2 ^ 31) (elemstep : Int) :
    move ⟨n, elemstep⟩ 1 = some ⟨((n + 1 : Nat) : Int), elemstep⟩ := by
  have e : int ((n : Int) + 1) = some ((n + 1 : Nat) : Int) := by
    rw [← int_natCast h]
    rfl
  rw [move, bind_of_eq_some e]
  rfl

theorem deref_eq {n : Nat} (h : n * step < 2 ^ 31) :
    deref ⟨n, step⟩ = some ((n * step : Nat) : Int) := int_mul h

/-- The loop moves the elements `ys` down by one, over the element at the iterator. -/
theorem shiftFrom_spec (pre ys : List Bytes) (y rest : Bytes) {turns : Nat}
    (hsize : desc.size = ((pre.length + ys.length + 1 : Nat) : Int)) (hstep : desc.elemstep = step)
    (hpre : ∀ x ∈ pre, x.length = step) (hy : y.length = step) (hys : ∀ x ∈ ys, x.length = step)
    (hfit : (pre.length + ys.length + 1) * step < 2 ^ 29) (hn : pre.length + ys.length + 1 < 2 ^ 29)
    (hturns : ys.length < turns) : ∃ z : Bytes, z.length = step ∧
      shiftFrom desc turns ⟨pre.length, step⟩ (pre.flatten ++ (y ++ (ys.flatten ++ rest))) =
        some (⟨((pre.length + ys.length : Nat) : Int), step⟩,
          (pre ++ ys).flatten ++ (z ++ rest)) := by
  induction ys generalizing pre y turns with
  | nil =>
    obtain ⟨turns, rfl⟩ := Nat.exists_eq_succ_of_ne_zero (Nat.ne_of_gt hturns)
    refine ⟨y, hy, ?_⟩
    have hend : isvalid desc ⟨((pre.length + 1 : Nat) : Int), step⟩ = false := by
      rw [isvalid, hsize]
      simp
    rw [shiftFrom, bind_of_eq_some (move_one (by omega) _), hend, List.append_nil]
    rfl
  | cons w ys ih =>
    obtain ⟨turns, rfl⟩ := Nat.exists_eq_succ_of_ne_zero (Nat.ne_of_gt (Nat.zero_lt_of_lt hturns))
    simp only [List.length_cons] at hsize hfit hn hturns
    have hw : w.length = step := hys w List.mem_cons_self
    have hle : (pre.length + 1) * step ≤ (pre.length + (ys.length + 1) + 1) * step :=
      Nat.mul_le_mul_right _ (by omega)
    have hsucc : (pre.length + 1) * step = pre.length * step + step := Nat.succ_mul _ _
    have hvalid : isvalid desc ⟨((pre.length + 1 : Nat) : Int), step⟩ = true := by
      rw [isvalid, hsize]
      simp
      omega
    have hload : load (pre.flatten ++ (y ++ ((w :: ys).flatten ++ rest)))
        (((pre.length + 1) * step : Nat) : Int) step = some w := by
      have hoff : (pre.length + 1) * step = (pre.flatten ++ y).length := by
        rw [List.length_append, flatten_length hpre, hy, hsucc]
      rw [List.flatten_cons, List.append_assoc w, ← List.append_assoc]
      exact load_append _ w _ (congrArg Nat.cast hoff) (congrArg Nat.cast hw.symm)
    have hstore : store (pre.flatten ++ (y ++ ((w :: ys).flatten ++ rest)))
        ((pre.length * step : Nat) : Int) w =
          some ((pre ++ [w]).flatten ++ (w ++ (ys.flatten ++ rest))) := by
      rw [store_append pre.flatten _ (hw.trans hy.symm)
        (congrArg Nat.cast (flatten_length hpre).symm), List.flatten_cons, List.append_assoc,
        flatten_concat]
    have hcount : (pre ++ [w]).length + ys.length + 1 = pre.length + (ys.length + 1) + 1 := by
      rw [List.length_append, List.length_singleton]
      omega
    have hpre' : ∀ x ∈ pre ++ [w], x.length = step :=
      List.forall_mem_append.2 ⟨hpre, List.forall_mem_singleton.2 hw⟩
    obtain ⟨z, hz, e⟩ := ih (pre ++ [w]) w (by rw [hsize, hcount]) hpre' hw
      (fun x hx => hys x (List.mem_cons_of_mem _ hx)) (by rwa [hcount]) (by rwa [hcount])
      (Nat.lt_of_succ_lt_succ hturns)
    refine ⟨z, hz, ?_⟩
    rw [shiftFrom, bind_of_eq_some (move_one (by omega) _), hvalid, if_pos rfl,
      bind_of_eq_some (deref_eq (by omega)), hstep, bind_of_eq_some hload,
      bind_of_eq_some (deref_eq (by omega)), bind_of_eq_some hstore]
    rw [List.length_append, List.length_singleton] at e
    rw [e]
    simp
    omega

theorem erase_spec (hstep : 0 < step) {x : Bytes} {ys : List Bytes}
    (h : Holds step desc (xs ++ x :: ys) rest) : ∃ desc' rest',
      erase desc ⟨xs.length, desc.elemstep⟩ [] = some (0, desc', []) ∧
        Holds step desc' (xs ++ ys) rest' := by
  have hx : x.length = step := h.elems x (by simp)
  have hxs : ∀ y ∈ xs, y.length = step := fun y hy => h.elems y (by simp [hy])
  have hys : ∀ y ∈ ys, y.length = step := fun y hy => h.elems y (by simp [hy])
  have hxys : ∀ y ∈ xs ++ ys, y.length = step := List.forall_mem_append.2 ⟨hxs, hys⟩
  have hlen : (xs ++ x :: ys).length = xs.length + ys.length + 1 := by
    rw [List.length_append, List.length_cons]
    rfl
  have hshort := h.short
  have hn := h.length_lt hstep
  have hroom := h.room
  rw [hlen] at hshort hn hroom
  have hle : xs.length * step ≤ (xs.length + ys.length + 1) * step :=
    Nat.mul_le_mul_right _ (by omega)
  have hle' : (xs.length + ys.length) * step ≤ (xs.length + ys.length + 1) * step :=
    Nat.mul_le_mul_right _ (by omega)
  have hpos : 0 < (xs.length + ys.length + 1) * step := Nat.mul_pos (by omega) hstep
  have hc : desc.content = some (xs.flatten ++ (x ++ (ys.flatten ++ rest))) := by
    rw [← flatten_split]
    apply h.content
    rw [hlen]
    omega
  have hsize : desc.size = ((xs.length + ys.length + 1 : Nat) : Int) := by rw [h.size, hlen]
  have hload : load (xs.flatten ++ (x ++ (ys.flatten ++ rest))) ((xs.length * step : Nat) : Int)
      step = some x :=
    load_append _ x _ (congrArg Nat.cast (flatten_length hxs).symm) (congrArg Nat.cast hx.symm)
  have hturns : ys.length < desc.size.toNat + 1 := by
    rw [hsize, Int.toNat_natCast]
    omega
  obtain ⟨z, hz, hshift⟩ :=
    shiftFrom_spec xs ys x rest hsize h.elemstep hxs hx hys hshort hn hturns
  have hstore : store ((xs ++ ys).flatten ++ (z ++ rest))
      (((xs.length + ys.length) * step : Nat) : Int) x =
        some ((xs ++ ys).flatten ++ (x ++ rest)) := by
    apply store_append _ _ (hx.trans hz.symm)
    rw [flatten_length hxys, List.length_append]
  -- the element at the end is the erased one
  have hlast := flatten_concat (xs ++ ys) x rest
  have hlast_len : (((xs ++ ys) ++ [x]).flatten ++ rest).length =
      ((xs ++ x :: ys).flatten ++ rest).length := by
    simp only [List.length_append, List.flatten_append, List.flatten_cons, List.flatten_nil,
      List.length_nil]
    omega
  have hd : Holds step { desc with content := some ((xs ++ ys).flatten ++ (x ++ rest)) }
      ((xs ++ ys) ++ [x]) rest := by
    have helems : ∀ y ∈ (xs ++ ys) ++ [x], y.length = step :=
      List.forall_mem_append.2 ⟨hxys, List.forall_mem_singleton.2 hx⟩
    refine ⟨?_, h.elemstep, helems, hlast.symm, ?_, ?_, ?_⟩
    · rw [List.length_append, List.length_append, List.length_singleton]
      exact hsize
    · rw [hlast_len]
      exact h.allocated
    · rwa [List.length_append, List.length_append, List.length_singleton]
    · rw [hlast_len]
      exact h.small
  obtain ⟨desc', rest', e, hh⟩ := popBack_spec hstep hd
  refine ⟨desc', rest', ?_, hh⟩
  rw [erase, malloc, h.elemstep]
  dsimp only
  rw [bind_of_eq_some hc, bind_of_eq_some (deref_eq (by omega)), bind_of_eq_some hload,
    bind_of_eq_some hshift]
  dsimp only
  rw [bind_of_eq_some (deref_eq (by omega)), bind_of_eq_some hstore]
  rw [h.elemstep] at e
  exact e

/-- An element is read where it is stored. -/
theorem elem_spec (hstep : 0 < step) (h : Holds step desc xs rest) {i : Nat} {x : Bytes}
    (hx : xs[i]? = some x) : elem desc i = some x := by
  obtain ⟨hi, rfl⟩ := List.getElem?_eq_some_iff.1 hx
  have hn := h.length_lt hstep
  have hshort := h.short
  have hle : i * step < xs.length * step := Nat.mul_lt_mul_of_pos_right hi hstep
  have hdrop : xs.flatten ++ rest =
      (xs.take i).flatten ++ (xs[i] ++ ((xs.drop (i + 1)).flatten ++ rest)) := by
    calc xs.flatten ++ rest = (xs.take i ++ xs[i] :: xs.drop (i + 1)).flatten ++ rest := by
          rw [← take_cons_drop hi]
      _ = _ := flatten_split _ _ _ _
  have hoff : i * step = (xs.take i).flatten.length := by
    rw [flatten_length fun y hy => h.elems y (List.mem_of_mem_take hy), List.length_take,
      Nat.min_eq_left (Nat.le_of_lt hi)]
  rw [elem, bind_of_eq_some (h.content (by omega)), bind_of_eq_some (move_begin desc (by omega)),
    h.elemstep, bind_of_eq_some (deref_eq (by omega)), hdrop]
  exact load_append _ _ _ (congrArg Nat.cast hoff)
    (congrArg Nat.cast (h.elems _ (List.getElem_mem hi)).symm)

/-! Runs. -/

/-- The vector holds `xs`, and no allocation fails. -/
def Rep (step : Nat) (s : State) (xs : List Bytes) : Prop :=
  s.mallocs = [] ∧ ∃ rest, Holds step s.desc xs rest

theorem rep_init (step : Nat) : Rep step (init step) [] :=
  ⟨rfl, [], rfl, rfl, nofun, rfl, rfl, by simp, by simp⟩

/-- A step does to the vector what it does to the sequence. -/
theorem sim (hstep : 0 < step) (s : State) (xs : List Bytes) (op : Op) (hr : Rep step s xs)
    (hok : Allowed s op) : ∃ s', QVector.step s op = some ((seqStep xs op).1, s') ∧
      Rep step s' (seqStep xs op).2 := by
  obtain ⟨desc, mallocs⟩ := s
  obtain ⟨rfl, rest, h⟩ := hr
  have h : Holds step desc xs rest := h
  cases op with
  | pushBack x =>
    obtain ⟨hx, hfit⟩ := hok
    have hx : (x.length : Int) = desc.elemstep := hx
    have hfit : (desc.size + 1) * desc.elemstep < 2 ^ 29 := hfit
    rw [h.elemstep] at hx hfit
    rw [h.size] at hfit
    have hnat : (xs.length + 1) * step < 2 ^ 29 := by
      apply Int.ofNat_lt.1
      rw [Int.natCast_mul]
      exact hfit
    obtain ⟨desc', rest', e, hd⟩ := pushBack_spec hstep h (Int.ofNat_inj.1 hx) hnat
    exact ⟨⟨desc', []⟩, by rw [QVector.step, e]; rfl, rfl, rest', hd⟩
  | popBack =>
    have hpos : 0 < desc.size := hok
    rw [h.size] at hpos
    obtain rfl | ⟨ys, x, rfl⟩ := List.eq_nil_or_concat xs
    · exact absurd hpos (Int.lt_irrefl 0)
    · rw [List.concat_eq_append] at h
      obtain ⟨desc', rest', e, hd⟩ := popBack_spec hstep h
      refine ⟨⟨desc', []⟩, by rw [QVector.step, e]; rfl, rfl, rest', ?_⟩
      rw [List.concat_eq_append]
      show Holds step desc' (ys ++ [x]).dropLast rest'
      rw [List.dropLast_concat]
      exact hd
  | erase delta =>
    have hvalid : isvalid desc ⟨delta, desc.elemstep⟩ = true := hok
    rw [isvalid, Bool.and_eq_true, decide_eq_true_eq, decide_eq_true_eq, h.size] at hvalid
    obtain ⟨i, rfl⟩ := Int.eq_ofNat_of_zero_le hvalid.2
    have hi : i < xs.length := Int.ofNat_lt.1 hvalid.1
    have hlen : (xs.take i).length = i := by rw [List.length_take, Nat.min_eq_left (Nat.le_of_lt hi)]
    have hn := h.length_lt hstep
    rw [take_cons_drop hi] at h
    obtain ⟨desc', rest', e, hd⟩ := erase_spec hstep h
    rw [hlen] at e
    refine ⟨⟨desc', []⟩, ?_, rfl, rest', ?_⟩
    · rw [QVector.step, bind_of_eq_some (move_begin desc (by omega)), bind_of_eq_some e]
      rfl
    · show Holds step desc' (xs.eraseIdx (i : Int).toNat) rest'
      rw [Int.toNat_natCast, List.eraseIdx_eq_take_drop_succ]
      exact hd

end

/-- **The vector is a sequence.** In every run of allowed steps no copy leaves its blocks,
    `size` is the number of elements, they fit the room allocated, and the iterators
    read them in order. -/
theorem vector_refinement {elemsize : Nat} (hsize : 0 < elemsize) (ops : List Op)
    (ha : Machine.Along step Allowed ops (init elemsize)) :
    ∃ s, Machine.run step ops (init elemsize) = some ((Machine.runs seqStep ops []).1, s) ∧
      s.desc.size = (Machine.runs seqStep ops []).2.length ∧ s.desc.elemstep = elemsize ∧
      s.desc.size * s.desc.elemstep ≤ s.desc.allocated ∧
      (s.desc.content.getD []).length = s.desc.allocated ∧
      ∀ (i : Nat) (x : Bytes), (Machine.runs seqStep ops []).2[i]? = some x →
        elem s.desc i = some x := by
  obtain ⟨s, e, -, rest, h⟩ := Machine.refines_along (sim hsize) ops _ _ (rep_init elemsize) ha
  refine ⟨s, e, h.size, h.elemstep, ?_, ?_, fun i x hx => elem_spec hsize h hx⟩
  · rw [h.size, h.elemstep, h.room, ← Int.natCast_mul]
    exact Int.ofNat_le.2 (Nat.le_add_right _ _)
  · rw [h.block, h.allocated]

/-- Three elements of two bytes, the second erased, the last removed. -/
theorem vector_refinement_three :
    ∃ s, Machine.run step [.pushBack [1, 2], .pushBack [3, 4], .pushBack [5, 6], .erase 1, .popBack]
        (init (2 : Nat)) = some ([0, 0, 0, 0, 0], s) ∧
      s.desc.size = 1 ∧ elem s.desc 0 = some [1, 2] := by
  obtain ⟨s, e, hsize, -, -, -, helem⟩ := vector_refinement (by decide : 0 < 2)
    [.pushBack [1, 2], .pushBack [3, 4], .pushBack [5, 6], .erase 1, .popBack] (by decide)
  exact ⟨s, e, hsize, helem 0 [1, 2] rfl⟩

end Zhwkrfsp.QVector
