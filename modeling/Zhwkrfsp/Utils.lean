import Zhwkrfsp.BssCost
import Zhwkrfsp.StringComparator

/- The rest of `zhwkre/utils/utils.c`. Files are read byte by byte, into a buffer to which
   each is appended; a `FILE *` is what is left of the file. `readall` takes a file whole, and
   `readline`, called again and again, its lines, as long as none is longer than 2^32 - 2
   bytes (`files_read`); the appends make it quadratic. `fullstrcmp` and `partstrcmp` say
   whether strings are equal, and whether one is the beginning of the other
   (`strings_compare`). -/
namespace Zhwkrfsp.Utils
open Wire

/-- The loop of `readline` and `readall`. -/
def readTo (stop : UInt8 → Bool) : Bss → Bytes → Option (Bss × Bytes)
  | result, [] => some (result, [])
  | result, ch :: fp =>
    if stop ch then some (result, fp)
    else do
      let result ← result.append [ch] 1
      readTo stop result fp

def newline : UInt8 := 10

def readline (fp : Bytes) : Option (Bss × Bytes) := readTo (· == newline) Bss.constructor fp

def readall (fp : Bytes) : Option (Bss × Bytes) := readTo (fun _ => false) Bss.constructor fp

/-- The appends of single bytes. -/
def pieces (bs : Bytes) : List Bytes := bs.map fun ch => [ch]

theorem pieces_flatten (bs : Bytes) : (pieces bs).flatten = bs := by
  induction bs with
  | nil => rfl
  | cons ch bs ih => exact congrArg (ch :: ·) ih

theorem pieces_length {bs : Bytes} : ∀ s ∈ pieces bs, s.length = 1 := by
  intro s hs
  obtain ⟨ch, -, rfl⟩ := List.mem_map.1 hs
  rfl

/-- Up to the first byte at which it stops, the loop appends; that byte it takes too. -/
theorem readTo_eq (stop : UInt8 → Bool) (line rest : Bytes) (hline : ∀ ch ∈ line, stop ch = false)
    (hrest : ∀ ch ∈ rest.head?, stop ch = true) (b : Bss) :
    readTo stop b (line ++ rest) = (b.appendAll (pieces line)).map fun b => (b, rest.tail) := by
  induction line generalizing b with
  | nil =>
    cases rest with
    | nil => rfl
    | cons ch rest =>
      have hstop : stop ch = true := hrest ch rfl
      rw [List.nil_append, readTo, if_pos hstop]
      rfl
  | cons ch line ih =>
    have hgo : ¬stop ch = true := by
      rw [hline ch List.mem_cons_self]
      exact Bool.false_ne_true
    rw [List.cons_append, readTo, if_neg hgo]
    show _ = Option.map _ ((b.append [ch] 1).bind fun b' => b'.appendAll (pieces line))
    cases b.append [ch] 1 with
    | none => rfl
    | some b' => exact ih (fun c hc => hline c (List.mem_cons_of_mem ch hc)) b'

/-- Single bytes fit a buffer until a doubled total has wrapped, and the room of the last one
    that has not is used up. -/
theorem fits_pieces (bs : Bytes) : Bss.Fits 64 0 (pieces bs) ↔ bs.length ≤ 2 ^ 32 - 2 := by
  rw [Bss.fits_constructor, pieces_flatten]
  constructor
  · intro h
    obtain ⟨pre, -, hlt, hle⟩ := h
    omega
  · intro hle
    refine ⟨pieces (bs.take (2 ^ 31 - 1)), ?_, ?_, ?_⟩
    · unfold pieces
      rw [List.map_take]
      exact List.take_prefix _ _
    · rw [pieces_flatten, List.length_take]
      omega
    · rw [pieces_flatten, List.length_take]
      omega

/-- What is read when the loop stops behind `line`. -/
theorem readTo_content (stop : UInt8 → Bool) (line rest : Bytes)
    (hline : ∀ ch ∈ line, stop ch = false) (hrest : ∀ ch ∈ rest.head?, stop ch = true) :
    (readTo stop Bss.constructor (line ++ rest)).map (fun r => (r.1.content, r.2)) =
      if line.length ≤ 2 ^ 32 - 2 then some (line, rest.tail) else none := by
  have hiff := Bss.appendAll_isSome_iff (pieces line) Bss.Holds.constructor
    fun s hs => by rw [pieces_length s hs]; omega
  have h64 : Bss.constructor.capacity.toNat = 64 := rfl
  rw [h64, List.length_nil, fits_pieces] at hiff
  rw [readTo_eq stop line rest hline hrest, Option.map_map]
  cases e : Bss.constructor.appendAll (pieces line) with
  | none =>
    rw [e] at hiff
    rw [if_neg fun h => Bool.false_ne_true (hiff.2 h)]
    rfl
  | some b =>
    rw [e] at hiff
    have hb := Bss.Holds.constructor.appendAll (pieces line) e
    have hmap : (pieces line).map Bss.counted = pieces line := by
      apply (List.map_congr_left fun s hs => ?_).trans (List.map_id _)
      apply Bss.counted_of_lt
      rw [pieces_length s hs]
      decide
    rw [hmap, pieces_flatten, List.nil_append] at hb
    rw [if_pos (hiff.1 rfl)]
    exact congrArg (fun c => some (c, rest.tail)) hb.bytes

/-- A call of `readline`: the line, and the file behind it. -/
def nextLine (fp : Bytes) (_ : Unit) : Option (Bytes × Bytes) :=
  (readline fp).map fun r => (r.1.content, r.2)

theorem nextLine_mid {line : Bytes} (h : newline ∉ line) (rest : Bytes) :
    nextLine (line ++ newline :: rest) () =
      if line.length ≤ 2 ^ 32 - 2 then some (line, rest) else none := by
  apply readTo_content
  · intro ch hch
    exact beq_eq_false_iff_ne.2 fun e => h (e ▸ hch)
  · intro ch hch
    obtain rfl : newline = ch := Option.some.inj hch
    exact beq_self_eq_true newline

theorem nextLine_last {line : Bytes} (h : newline ∉ line) :
    nextLine line () = if line.length ≤ 2 ^ 32 - 2 then some (line, []) else none := by
  have hall := readTo_content (· == newline) line []
    (fun ch hch => beq_eq_false_iff_ne.2 fun e => h (e ▸ hch)) nofun
  rwa [List.append_nil] at hall

/-- A file, line by line. -/
theorem run_lines (lines : List Bytes) (hne : lines ≠ []) (h : ∀ l ∈ lines, newline ∉ l) :
    Machine.run nextLine (List.replicate lines.length ()) ([newline].intercalate lines) =
      if ∀ l ∈ lines, l.length ≤ 2 ^ 32 - 2 then some (lines, []) else none := by
  induction lines with
  | nil => exact absurd rfl hne
  | cons line lines ih =>
    have hline : newline ∉ line := h line List.mem_cons_self
    rw [List.length_cons, List.replicate_succ, Machine.run]
    cases lines with
    | nil =>
      rw [List.intercalate_singleton, nextLine_last hline]
      by_cases hfit : line.length ≤ 2 ^ 32 - 2
      · rw [if_pos hfit, if_pos (by simpa using hfit)]
        rfl
      · rw [if_neg hfit, if_neg (by simpa using hfit)]
        rfl
    | cons next lines =>
      have hrest := ih (List.cons_ne_nil _ _) fun l hl => h l (List.mem_cons_of_mem line hl)
      rw [List.intercalate_cons_cons, List.append_assoc, List.singleton_append,
        nextLine_mid hline]
      by_cases hfit : line.length ≤ 2 ^ 32 - 2
      · rw [if_pos hfit, Option.bind_eq_bind, Option.bind_some]
        dsimp only
        rw [hrest]
        by_cases hall : ∀ l ∈ next :: lines, l.length ≤ 2 ^ 32 - 2
        · have hall' : ∀ l ∈ line :: next :: lines, l.length ≤ 2 ^ 32 - 2 := by
            intro l hl
            rcases List.mem_cons.1 hl with rfl | hl
            · exact hfit
            · exact hall l hl
          rw [if_pos hall, if_pos hall']
          rfl
        · rw [if_neg hall, if_neg fun h => hall fun l hl => h l (List.mem_cons_of_mem line hl)]
          rfl
      · rw [if_neg hfit, if_neg fun h => hfit (h line List.mem_cons_self)]
        rfl

theorem not_mem_splitOn (fp : Bytes) : ∀ l ∈ fp.splitOn newline, newline ∉ l := by
  induction fp with
  | nil => simp
  | cons ch fp ih =>
    rw [List.splitOn_cons_eq_if_modifyHead]
    by_cases hch : ch = newline
    · rw [if_pos (beq_iff_eq.2 hch)]
      intro l hl
      rcases List.mem_cons.1 hl with rfl | hl
      · exact List.not_mem_nil
      · exact ih l hl
    · rw [if_neg fun h => hch (beq_iff_eq.1 h)]
      cases hs : fp.splitOn newline with
      | nil => simp
      | cons line lines =>
        rw [hs] at ih
        intro l hl
        rcases List.mem_cons.1 hl with rfl | hl
        · intro hm
          rcases List.mem_cons.1 hm with h | hm
          · exact hch h.symm
          · exact ih line List.mem_cons_self hm
        · exact ih l (List.mem_cons_of_mem line hl)

/-- **Files.** `readall` has the whole file, and `readline` called as many times as the file
    has lines has the lines one after the other, if and only if no more than 2^32 - 2 bytes
    go to one buffer; otherwise a copy leaves its block. Of a file of `n + 32` bytes, below
    2^31, `readall` copies `n * (n + 63) / 2` bytes from block to block. -/
theorem files_read (fp : Bytes) :
    (readall fp).map (fun r => (r.1.content, r.2)) =
        (if fp.length ≤ 2 ^ 32 - 2 then some (fp, []) else none) ∧
      Machine.run nextLine (List.replicate (fp.splitOn newline).length ()) fp =
        (if ∀ l ∈ fp.splitOn newline, l.length ≤ 2 ^ 32 - 2 then some (fp.splitOn newline, [])
          else none) ∧
      readall fp = (Bss.constructor.appendAll (pieces fp)).map (fun b => (b, [])) ∧
      ∀ n, fp.length = n + 32 → fp.length < 2 ^ 31 →
        2 * Machine.spent Bss.step Bss.copied (pieces fp) Bss.constructor = n * (n + 63) := by
  have hall := readTo_content (fun _ => false) fp [] (fun _ _ => rfl) nofun
  have heq := readTo_eq (fun _ => false) fp [] (fun _ _ => rfl) nofun Bss.constructor
  rw [List.append_nil] at hall heq
  refine ⟨hall, ?_, heq, fun n hn hlt => ?_⟩
  · have hrun := run_lines (fp.splitOn newline) (List.splitOn_ne_nil _ _) (not_mem_splitOn fp)
    rwa [List.intercalate_splitOn] at hrun
  · have hne : ∀ s ∈ pieces fp, s ≠ [] := by
      intro s hs
      apply List.ne_nil_of_length_pos
      rw [pieces_length s hs]
      exact Nat.one_pos
    have hflat : (pieces fp).flatten.length = fp.length := congrArg List.length (pieces_flatten fp)
    have hcount : (pieces fp).length = n + 32 := by rw [pieces, List.length_map, hn]
    obtain ⟨-, -, -, -, hspent⟩ := Bss.tight_constructor.run (pieces fp) hne
      (by rwa [hflat, List.length_nil, Nat.zero_add])
    rw [hspent]
    exact Bss.copies_bytes pieces_length hcount

/-! Strings. -/

/-- The loop of `fullstrcmp` and `partstrcmp` from `i` on, for `turns` more turns. -/
def sameFrom (a b : Bytes) : Nat → Nat → Option Bool
  | 0, _ => some true
  | turns + 1, i => do
    let x ← a[i]?
    let y ← b[i]?
    if x ≠ y then return false
    sameFrom a b turns (i + 1)

def fullstrcmp (a b : Bytes) : Option Int32 := do
  let lena := Int32.ofNat (← strlen a)
  let lenb := Int32.ofNat (← strlen b)
  if lena ≠ lenb then return 0
  if ← sameFrom a b lena.toNatClampNeg 0 then return 1 else return 0

def partstrcmp (a b : Bytes) : Option Int32 := do
  let lena := Int32.ofNat (← strlen a)
  let lenb := Int32.ofNat (← strlen b)
  let rlen := if lena > lenb then lenb else lena
  if ← sameFrom a b rlen.toNatClampNeg 0 then return 1 else return 0

/-- One of the strings is the beginning of the other. -/
def Agree (s t : Bytes) : Prop := s <+: t ∨ t <+: s

instance (s t : Bytes) : Decidable (Agree s t) := inferInstanceAs (Decidable (_ ∨ _))

theorem agree_cons {x y : UInt8} {s t : Bytes} : Agree (x :: s) (y :: t) ↔ x = y ∧ Agree s t := by
  unfold Agree
  rw [List.cons_prefix_cons, List.cons_prefix_cons, eq_comm (a := y), ← and_or_left]

/-- Over the shorter of two strings the loop finds out whether they agree. -/
theorem sameFrom_spec {a b : Bytes} (s t : Bytes) {i : Nat} {resta restb : Bytes}
    (ha : a.drop i = s ++ resta) (hb : b.drop i = t ++ restb) :
    sameFrom a b (min s.length t.length) i = some (decide (Agree s t)) := by
  induction s generalizing t i with
  | nil =>
    rw [List.length_nil, Nat.zero_min, decide_eq_true (.inl List.nil_prefix)]
    rfl
  | cons x s ih =>
    cases t with
    | nil =>
      rw [decide_eq_true (.inr List.nil_prefix)]
      rfl
    | cons y t =>
      have ea : a[i]? = some x := by rw [← List.head?_drop, ha]; rfl
      have eb : b[i]? = some y := by rw [← List.head?_drop, hb]; rfl
      have ha' : a.drop (i + 1) = s ++ resta := by rw [← List.tail_drop, ha]; rfl
      have hb' : b.drop (i + 1) = t ++ restb := by rw [← List.tail_drop, hb]; rfl
      rw [List.length_cons, List.length_cons, Nat.succ_min_succ, sameFrom, ea, eb]
      simp only [Option.bind_eq_bind, Option.bind_some]
      by_cases hxy : x = y
      · rw [if_neg fun h => h hxy, ih t ha' hb']
        simp [agree_cons, hxy]
      · rw [if_pos hxy]
        simp [agree_cons, hxy]

/-- What follows two strings that do not agree makes no difference to their order. -/
theorem order_append {s t : Bytes} (h : ¬Agree s t) (x y : Bytes) :
    StringComparator.order (s ++ x) (t ++ y) = StringComparator.order s t := by
  induction s generalizing t with
  | nil => exact absurd (.inl List.nil_prefix) h
  | cons a s ih =>
    cases t with
    | nil => exact absurd (.inr List.nil_prefix) h
    | cons b t =>
      rw [List.cons_append, List.cons_append, StringComparator.order, StringComparator.order]
      by_cases hab : a = b
      · rw [if_pos hab, if_pos hab]
        exact ih fun hst => h (agree_cons.2 ⟨hab, hst⟩)
      · rw [if_neg hab, if_neg hab]

/-- **Strings.** Whatever follows them in their blocks, `fullstrcmp` says whether two
    strings are equal, which they are when `string_comparator` finds no difference, and
    `partstrcmp` whether one is the beginning of the other; and if it says no, the sign of
    their difference stays what it is whatever is put behind them. -/
theorem strings_compare (a b : StringComparator.CString) (resta restb : Bytes) :
    fullstrcmp (a.str ++ 0 :: resta) (b.str ++ 0 :: restb) =
        some (if StringComparator.order a.str b.str = 0 then 1 else 0) ∧
      partstrcmp (a.str ++ 0 :: resta) (b.str ++ 0 :: restb) =
        some (if Agree a.str b.str then 1 else 0) ∧
      (partstrcmp (a.str ++ 0 :: resta) (b.str ++ 0 :: restb) = some 0 → ∀ x y,
        StringComparator.order (a.str ++ x) (b.str ++ y) = StringComparator.order a.str b.str) := by
  have hlen : ∀ c : StringComparator.CString, (Int32.ofNat c.str.length).toInt = c.str.length :=
    fun c => Int32.toInt_ofNat_of_lt c.short
  have hda : (a.str ++ 0 :: resta).drop 0 = a.str ++ 0 :: resta := List.drop_zero
  have hdb : (b.str ++ 0 :: restb).drop 0 = b.str ++ 0 :: restb := List.drop_zero
  have hsame := sameFrom_spec a.str b.str hda hdb
  have hpart : partstrcmp (a.str ++ 0 :: resta) (b.str ++ 0 :: restb) =
      some (if Agree a.str b.str then 1 else 0) := by
    have hmin : (if Int32.ofNat a.str.length > Int32.ofNat b.str.length
        then Int32.ofNat b.str.length else Int32.ofNat a.str.length).toNatClampNeg =
        min a.str.length b.str.length := by
      split
      · next hlt =>
        rw [gt_iff_lt, Int32.lt_iff_toInt_lt, hlen, hlen] at hlt
        rw [Int32.toNatClampNeg, hlen]
        omega
      · next hle =>
        rw [gt_iff_lt, Int32.lt_iff_toInt_lt, hlen, hlen] at hle
        rw [Int32.toNatClampNeg, hlen]
        omega
    rw [partstrcmp, strlen_append a.noNul, strlen_append b.noNul]
    simp only [Option.bind_eq_bind, Option.bind_some, hmin, hsame]
    by_cases hagree : Agree a.str b.str
    · rw [decide_eq_true hagree, if_pos hagree]
      rfl
    · rw [decide_eq_false hagree, if_neg hagree]
      rfl
  refine ⟨?_, hpart, fun h x y => ?_⟩
  · rw [fullstrcmp, strlen_append a.noNul, strlen_append b.noNul]
    simp only [Option.bind_eq_bind, Option.bind_some, StringComparator.order_eq_zero]
    by_cases hlens : a.str.length = b.str.length
    · have hagree : Agree a.str b.str ↔ a.str = b.str := by
        refine ⟨fun h => ?_, fun h => .inl (h ▸ List.prefix_rfl)⟩
        rcases h with h | h
        · exact h.eq_of_length hlens
        · exact (h.eq_of_length hlens.symm).symm
      have hturns : (Int32.ofNat b.str.length).toNatClampNeg = min a.str.length b.str.length := by
        rw [Int32.toNatClampNeg, hlen]
        omega
      rw [hlens, if_neg fun h => h rfl, hturns, hsame]
      by_cases heq : a.str = b.str
      · rw [decide_eq_true (hagree.2 heq), if_pos heq]
        rfl
      · rw [decide_eq_false fun h => heq (hagree.1 h), if_neg heq]
        rfl
    · have hne : Int32.ofNat a.str.length ≠ Int32.ofNat b.str.length := by
        intro h
        have hint := congrArg Int32.toInt h
        rw [hlen, hlen] at hint
        omega
      rw [if_pos hne, if_neg fun h => hlens (congrArg List.length h)]
      rfl
  · apply order_append
    intro hagree
    rw [hpart, if_pos hagree] at h
    exact absurd h (by decide)

end Zhwkrfsp.Utils
