import Zhwkrfsp.Codec

/- Programs over one lock, one shared variable and one byte channel. A program
   is the tree of its effects (`Prog`): between two effects it is a pure
   function of what it has seen so far. A transfer loop in progress is a node of
   its own, `write buf` with `buf` still to be sent and `read acc n` with `acc`
   already received and `n` bytes to go, and every single `write(2)` or
   `read(2)` is one labelled step of it (`Step`), so fragmentation, errors and
   interleavings with other programs are all visible in a run (`Run`).
   `emit` runs a program up to its first transmission, and `Returns` says that it
   comes to its end on a given input. The library names no protocol; a client
   supplies programs and a world that constrains the labels. -/
namespace Chan
open Wire

/-- How a program ends without returning. -/
inductive Halt where
  | abort
  | fault
  deriving DecidableEq, Repr

inductive Prog (σ α : Type) where
  | ret (a : α)
  | stop (h : Halt)
  | lock (k : Prog σ α)
  | unlock (k : Prog σ α)
  | get (k : σ → Prog σ α)
  | set (s : σ) (k : Prog σ α)
  | write (buf : Bytes) (k : Bool → Prog σ α)
  | read (acc : Bytes) (n : Nat) (k : Option Bytes → Prog σ α)

namespace Prog
variable {σ α β : Type}

def bind : Prog σ α → (α → Prog σ β) → Prog σ β
  | .ret a, f => f a
  | .stop h, _ => .stop h
  | .lock k, f => .lock (k.bind f)
  | .unlock k, f => .unlock (k.bind f)
  | .get k, f => .get fun s => (k s).bind f
  | .set s k, f => .set s (k.bind f)
  | .write buf k, f => .write buf fun b => (k b).bind f
  | .read acc n k, f => .read acc n fun r => (k r).bind f

instance : Monad (Prog σ) where
  pure := .ret
  bind := Prog.bind

/-! What binding a primitive or a value gives, so that handlers unfold by `simp`. -/

@[simp] theorem pure_eq (a : α) : (pure a : Prog σ α) = .ret a := rfl
@[simp] theorem ret_bind (a : α) (f : α → Prog σ β) : (Prog.ret a >>= f) = f a := rfl
@[simp] theorem stop_bind (h : Halt) (f : α → Prog σ β) : (Prog.stop h >>= f) = .stop h := rfl
@[simp] theorem lock_bind (k : Prog σ α) (f : α → Prog σ β) :
    (Prog.lock k >>= f) = .lock (k >>= f) := rfl
@[simp] theorem unlock_bind (k : Prog σ α) (f : α → Prog σ β) :
    (Prog.unlock k >>= f) = .unlock (k >>= f) := rfl
@[simp] theorem get_bind (k : σ → Prog σ α) (f : α → Prog σ β) :
    (Prog.get k >>= f) = .get fun s => k s >>= f := rfl
@[simp] theorem set_bind (s : σ) (k : Prog σ α) (f : α → Prog σ β) :
    (Prog.set s k >>= f) = .set s (k >>= f) := rfl
@[simp] theorem write_bind (buf : Bytes) (k : Bool → Prog σ α) (f : α → Prog σ β) :
    (Prog.write buf k >>= f) = .write buf fun b => k b >>= f := rfl
@[simp] theorem read_bind (acc : Bytes) (n : Nat) (k : Option Bytes → Prog σ α)
    (f : α → Prog σ β) : (Prog.read acc n k >>= f) = .read acc n fun r => k r >>= f := rfl

theorem bind_assoc {γ : Type} (p : Prog σ α) (f : α → Prog σ β) (g : β → Prog σ γ) :
    ((p >>= f) >>= g) = p >>= fun a => f a >>= g := by
  induction p with
  | ret a => rfl
  | stop h => rfl
  | lock k ih => simpa using ih
  | unlock k ih => simpa using ih
  | get k ih => simpa using funext ih
  | set s k ih => simpa using ih
  | write buf k ih => simpa using funext ih
  | read acc n k ih => simpa using funext ih

/-! The primitives as programs. -/

def halt (h : Halt) : Prog σ α := .stop h
def acquire : Prog σ Unit := .lock (.ret ())
def release : Prog σ Unit := .unlock (.ret ())
def load : Prog σ σ := .get .ret
def store (s : σ) : Prog σ Unit := .set s (.ret ())
def send (buf : Bytes) : Prog σ Bool := .write buf .ret
def recv (n : Nat) : Prog σ (Option Bytes) := .read [] n .ret

/-- The message a program hands to its first transmission, started with the
    shared variable at `s`, and the variable's value then or at its end. -/
def emit : Prog σ α → σ → Option Bytes × σ
  | .ret _, s => (none, s)
  | .stop _, s => (none, s)
  | .lock k, s => k.emit s
  | .unlock k, s => k.emit s
  | .get k, s => (k s).emit s
  | .set s' k, _ => k.emit s'
  | .write buf _, s => (some buf, s)
  | .read _ _ _, s => (none, s)

/-- Run a program that only receives on a complete input stream; `none` when it
    halts, waits for bytes the stream does not have, or does anything else. -/
def feed : Prog σ α → Bytes → Option (α × Bytes)
  | .ret a, inp => some (a, inp)
  | .read acc n k, inp =>
    if n ≤ inp.length then (k (some (acc ++ inp.take n))).feed (inp.drop n) else none
  | _, _ => none

theorem feed_bind (p : Prog σ α) (f : α → Prog σ β) :
    ∀ inp, (p >>= f).feed inp = (p.feed inp).bind fun r => (f r.1).feed r.2 := by
  induction p with
  | ret a => intro inp; rfl
  | read acc n k ih =>
    intro inp
    simp only [read_bind, feed]
    split
    · exact ih _ _
    · rfl
  | _ => intro inp; rfl

/-- What is left of a program once its first reception is done, `hd` being what it
    received; `none` when it ends before that. Every write before it succeeds, and
    the shared variable starts at the given value. -/
def answered : Prog σ α → σ → Bytes → Option (Prog σ α)
  | .ret _, _, _ => none
  | .stop _, _, _ => none
  | .lock k, s, hd => k.answered s hd
  | .unlock k, s, hd => k.answered s hd
  | .get k, s, hd => (k s).answered s hd
  | .set s' k, _, hd => k.answered s' hd
  | .write _ k, s, hd => (k true).answered s hd
  | .read acc _ k, _, hd => some (k (some (acc ++ hd)))

theorem answered_map (f : α → β) (p : Prog σ α) (hd : Bytes) :
    ∀ s, (f <$> p).answered s hd = (p.answered s hd).map (f <$> ·) := by
  induction p with
  | ret a => intro s; rfl
  | stop h => intro s; rfl
  | lock k ih => exact ih
  | unlock k ih => exact ih
  | get k ih => exact fun s => ih s s
  | set s' k ih => exact fun _ => ih s'
  | write buf k ih => exact ih true
  | read acc n k ih => intro s; rfl

/-- The program returns, with a result and a rest of the input that satisfy `R`, on
    a connection that takes all it sends and delivers `inp`, whatever the shared
    variable holds when it is read. -/
def Returns (R : α → Bytes → Prop) : Prog σ α → Bytes → Prop
  | .ret a, inp => R a inp
  | .stop _, _ => False
  | .lock k, inp => k.Returns R inp
  | .unlock k, inp => k.Returns R inp
  | .get k, inp => ∀ s, (k s).Returns R inp
  | .set _ k, inp => k.Returns R inp
  | .write _ k, inp => (k true).Returns R inp
  | .read acc n k, inp => n ≤ inp.length ∧ (k (some (acc ++ inp.take n))).Returns R (inp.drop n)

theorem Returns.map {R : α → Bytes → Prop} {R' : β → Bytes → Prop} {f : α → β} {p : Prog σ α}
    (hR : ∀ a rest, R a rest → R' (f a) rest) :
    ∀ {inp}, p.Returns R inp → (f <$> p).Returns R' inp := by
  induction p with
  | ret a => exact hR a _
  | stop h => exact id
  | lock k ih => exact ih
  | unlock k ih => exact ih
  | get k ih => exact fun h s => ih s (h s)
  | set s k ih => exact ih
  | write buf k ih => exact ih true
  | read acc n k ih => exact fun h => ⟨h.1, ih _ h.2⟩

/-- Wherever the program returns, no transfer having failed, its result and all it has
    received, `g` and what follows, satisfy `R`. -/
def Ends (R : α → Bytes → Prop) : Prog σ α → Bytes → Prop
  | .ret a, g => R a g
  | .stop _, _ => True
  | .lock k, g => k.Ends R g
  | .unlock k, g => k.Ends R g
  | .get k, g => ∀ s, (k s).Ends R g
  | .set _ k, g => k.Ends R g
  | .write _ k, g => (k true).Ends R g
  | .read acc n k, g => ∀ bs, bs.length = n → (k (some (acc ++ bs))).Ends R (g ++ bs)

/-- The rule of sequence. -/
theorem ends_bind {R : β → Bytes → Prop} {p : Prog σ α} {f : α → Prog σ β} :
    ∀ {g}, p.Ends (fun a g => (f a).Ends R g) g → (p >>= f).Ends R g := by
  induction p with
  | ret a => exact id
  | stop h => exact id
  | lock k ih => exact ih
  | unlock k ih => exact ih
  | get k ih => exact fun h s => ih s (h s)
  | set s k ih => exact ih
  | write buf k ih => exact ih true
  | read acc n k ih => exact fun h bs hbs => ih _ (h bs hbs)

/-- The rule of consequence. -/
theorem Ends.mono {R R' : α → Bytes → Prop} {p : Prog σ α} (hR : ∀ a g, R a g → R' a g) :
    ∀ {g}, p.Ends R g → p.Ends R' g := by
  induction p with
  | ret a => exact hR a _
  | stop h => exact id
  | lock k ih => exact ih
  | unlock k ih => exact ih
  | get k ih => exact fun h s => ih s (h s)
  | set s k ih => exact ih
  | write buf k ih => exact ih true
  | read acc n k ih => exact fun h bs hbs => ih _ (h bs hbs)

theorem Ends.map {R : β → Bytes → Prop} {p : Prog σ α} {g : Bytes} (f : α → β)
    (h : p.Ends (fun a g => R (f a) g) g) : (f <$> p).Ends R g := ends_bind h

end Prog

/-! Single steps. -/

inductive Ev (σ : Type) where
  | tau
  | lock
  | unlock
  | get (s : σ)
  | set (s : σ)
  | wrote (bs : Bytes)
  | writeErr
  | got (bs : Bytes)
  | readErr

namespace Ev
variable {σ : Type}

def sent : Ev σ → Bytes
  | .wrote bs => bs
  | _ => []

def received : Ev σ → Bytes
  | .got bs => bs
  | _ => []

/-- An I/O call that returned -1. -/
def isErr : Ev σ → Bool
  | .writeErr => true
  | .readErr => true
  | _ => false

end Ev

/-- One effect of a program. A `write(2)` accepts at least one byte of what is
    offered; a `read(2)` delivers at most what was asked for. -/
inductive Step {σ α : Type} : Prog σ α → Ev σ → Prog σ α → Prop where
  | lock (k) : Step (.lock k) .lock k
  | unlock (k) : Step (.unlock k) .unlock k
  | get (k s) : Step (.get k) (.get s) (k s)
  | set (s k) : Step (.set s k) (.set s) k
  | wrote (bs rest k) (h : bs ≠ []) : Step (.write (bs ++ rest) k) (.wrote bs) (.write rest k)
  | writeErr (buf k) (h : buf ≠ []) : Step (.write buf k) .writeErr (k false)
  | writeEnd (k) : Step (.write [] k) .tau (k true)
  | got (acc n k bs) (hn : n ≠ 0) (h : bs.length ≤ n) :
      Step (.read acc n k) (.got bs) (.read (acc ++ bs) (n - bs.length) k)
  | readErr (acc n k) (hn : n ≠ 0) : Step (.read acc n k) .readErr (k none)
  | readEnd (acc k) : Step (.read acc 0 k) .tau (k (some acc))

theorem Step.map {σ α β : Type} (f : α → β) {p q : Prog σ α} {e : Ev σ} (st : Step p e q) :
    Step (f <$> p) e (f <$> q) := by
  cases st with
  | lock k => exact .lock _
  | unlock k => exact .unlock _
  | get k s => exact .get _ s
  | set s k => exact .set s _
  | wrote bs rest k hne => exact .wrote bs rest _ hne
  | writeErr buf k hne => exact .writeErr buf _ hne
  | writeEnd k => exact .writeEnd _
  | got acc n k bs hn hle => exact .got acc n _ bs hn hle
  | readErr acc n k hn => exact .readErr acc n _ hn
  | readEnd acc k => exact .readEnd acc _

/-- What a step that is no I/O error leaves of `Ends`. -/
theorem Step.ends {σ α : Type} {R : α → Bytes → Prop} {p q : Prog σ α} {e : Ev σ} {g : Bytes}
    (st : Step p e q) (h : p.Ends R g) (he : e.isErr = false) : q.Ends R (g ++ e.received) := by
  cases st with
  | got acc n k bs hn hle =>
    intro cs hcs
    have hk := h (bs ++ cs) (by rw [List.length_append]; omega)
    simpa only [Ev.received, List.append_assoc] using hk
  | readEnd acc k => simpa [Ev.received] using h [] rfl
  | get k s => simpa [Ev.received] using h s
  | writeErr buf k hne => cases he
  | readErr acc n k hn => cases he
  | _ => exact (congrArg (Prog.Ends R _) (List.append_nil g)).mpr h

/-- A finite run with its trace. -/
inductive Run {σ α : Type} : Prog σ α → List (Ev σ) → Prog σ α → Prop where
  | refl (p) : Run p [] p
  | step {p q r e tr} (h : Step p e q) (t : Run q tr r) : Run p (e :: tr) r

namespace Run
variable {σ α : Type} {p q r : Prog σ α}

theorem single {e : Ev σ} (h : Step p e q) : Run p [e] q := .step h (.refl q)

theorem trans {t₁ t₂ : List (Ev σ)} (h₁ : Run p t₁ q) (h₂ : Run q t₂ r) :
    Run p (t₁ ++ t₂) r := by
  induction h₁ with
  | refl p => exact h₂
  | step h _ ih => exact .step h (ih h₂)

theorem map {β : Type} (f : α → β) {tr : List (Ev σ)} (t : Run p tr q) :
    Run (f <$> p) tr (f <$> q) := by
  induction t with
  | refl p => exact .refl _
  | step st _ ih => exact .step (st.map f) ih

/-- The induction rule of runs: what one step preserves, a run preserves. The
    invariant sees the bytes moved so far. -/
theorem induct {I : Prog σ α → Bytes → Bytes → Prop} {s g : Bytes} {tr : List (Ev σ)}
    (hstep : ∀ p e q s g, e ∈ tr → I p s g → Step p e q → I q (s ++ e.sent) (g ++ e.received))
    (h : Run p tr q) (h₀ : I p s g) :
    I q (s ++ (tr.map Ev.sent).flatten) (g ++ (tr.map Ev.received).flatten) := by
  induction h generalizing s g with
  | refl p => simpa using h₀
  | @step p q r e tr hs _ ih =>
    have hq := hstep p e q s g List.mem_cons_self h₀ hs
    simpa using ih (fun p e q s g he => hstep p e q s g (List.mem_cons_of_mem _ he)) hq

/-- **What `Ends` says of runs.** -/
theorem ends {R : α → Bytes → Prop} {tr : List (Ev σ)} {g : Bytes} (t : Run p tr q)
    (h : p.Ends R g) (he : ∀ e ∈ tr, e.isErr = false) :
    q.Ends R (g ++ (tr.map Ev.received).flatten) :=
  t.induct (I := fun p _ g => p.Ends R g) (s := [])
    (fun _ _ _ _ _ hmem hp st => st.ends hp (he _ hmem)) h

/-- A loop that sends its whole buffer in one write. -/
theorem write_all {buf : Bytes} (k : Bool → Prog σ α) (h : buf ≠ []) :
    Run (.write buf k) [.wrote buf, .tau] (k true) := by
  have hw := Step.wrote buf [] k h
  rw [List.append_nil] at hw
  exact .step hw (.single (.writeEnd k))

/-- A loop that receives everything it asks for in one read. -/
theorem read_all {bs : Bytes} (k : Option Bytes → Prog σ α) (h : bs ≠ []) :
    Run (.read [] bs.length k) [.got bs, .tau] (k (some bs)) := by
  have hlen : bs.length ≠ 0 := fun e => h (List.eq_nil_of_length_eq_zero e)
  have hr := Step.got [] bs.length k bs hlen (Nat.le_refl _)
  rw [Nat.sub_self, List.nil_append] at hr
  exact .step hr (.single (.readEnd bs k))

/-- A program that emits a message can run up to the transmission, moving no
    byte on the way. -/
theorem to_emit : ∀ {p : Prog σ α} {s s' : σ} {buf : Bytes}, p.emit s = (some buf, s') →
    ∃ tr k, Run p tr (.write buf k) ∧ (∀ e ∈ tr, e.isErr = false) ∧
      (tr.map Ev.received).flatten = []
  | .ret _, _, _, _, h => by cases h
  | .stop _, _, _, _, h => by cases h
  | .lock q, s, _, _, h => by
    obtain ⟨tr, k, t, he, hr⟩ := to_emit (p := q) (s := s) h
    exact ⟨.lock :: tr, k, .step (.lock q) t, by simpa [Ev.isErr] using he, hr⟩
  | .unlock q, s, _, _, h => by
    obtain ⟨tr, k, t, he, hr⟩ := to_emit (p := q) (s := s) h
    exact ⟨.unlock :: tr, k, .step (.unlock q) t, by simpa [Ev.isErr] using he, hr⟩
  | .get q, s, _, _, h => by
    obtain ⟨tr, k, t, he, hr⟩ := to_emit (p := q s) (s := s) h
    exact ⟨.get s :: tr, k, .step (.get q s) t, by simpa [Ev.isErr] using he, hr⟩
  | .set u q, _, _, _, h => by
    obtain ⟨tr, k, t, he, hr⟩ := to_emit (p := q) (s := u) h
    exact ⟨.set u :: tr, k, .step (.set u q) t, by simpa [Ev.isErr] using he, hr⟩
  | .write buf k, _, _, _, h => by
    cases h
    exact ⟨[], k, .refl _, nofun, rfl⟩
  | .read _ _ _, _, _, _, h => by cases h

/-- **What `Returns` says of runs.** An error-free run that has received a part of
    the input has not halted, and if it has returned, its result is as said. -/
theorem returns {R : α → Bytes → Prop} {tr : List (Ev σ)} {inp rest : Bytes} (t : Run p tr q)
    (h : p.Returns R inp) (he : ∀ e ∈ tr, e.isErr = false)
    (hr : (tr.map Ev.received).flatten ++ rest = inp) : q.Returns R rest := by
  induction t generalizing inp with
  | refl p =>
    subst hr
    exact h
  | @step p q r e tr hs _ ih =>
    have hq : q.Returns R ((tr.map Ev.received).flatten ++ rest) := by
      have herr := he e List.mem_cons_self
      cases hs with
      | lock k => exact hr ▸ h
      | unlock k => exact hr ▸ h
      | get k s => exact hr ▸ h s
      | set s k => exact hr ▸ h
      | wrote bs rest k _ => exact hr ▸ h
      | writeErr buf k _ => cases herr
      | writeEnd k => exact hr ▸ h
      | got acc n k bs _ hle =>
        obtain ⟨hn, hk⟩ := h
        subst hr
        simp only [List.map_cons, List.flatten_cons, Ev.received, List.append_assoc] at hn hk
        rw [List.take_append, List.drop_append, List.drop_of_length_le hle,
          List.take_of_length_le hle, List.nil_append, ← List.append_assoc] at hk
        refine ⟨?_, hk⟩
        rw [List.length_append] at hn
        omega
      | readErr acc n k _ => cases herr
      | readEnd acc k =>
        subst hr
        simpa [Prog.Returns, Ev.received] using h
    exact ih hq (fun e' h' => he e' (List.mem_cons_of_mem _ h')) rfl

/-- A program that returns on an input has a run that does. -/
theorem of_returns [Nonempty σ] {R : α → Bytes → Prop} :
    ∀ {p : Prog σ α} {inp : Bytes}, p.Returns R inp →
      ∃ tr a rest, Run p tr (.ret a) ∧ (∀ e ∈ tr, e.isErr = false) ∧
        (tr.map Ev.received).flatten ++ rest = inp ∧ R a rest
  | .ret a, inp, h => ⟨[], a, inp, .refl _, nofun, rfl, h⟩
  | .stop _, _, h => h.elim
  | .lock q, inp, h => by
    obtain ⟨tr, a, rest, t, he, hr, hR⟩ := of_returns (p := q) h
    exact ⟨.lock :: tr, a, rest, .step (.lock q) t, by simpa [Ev.isErr] using he, hr, hR⟩
  | .unlock q, inp, h => by
    obtain ⟨tr, a, rest, t, he, hr, hR⟩ := of_returns (p := q) h
    exact ⟨.unlock :: tr, a, rest, .step (.unlock q) t, by simpa [Ev.isErr] using he, hr, hR⟩
  | .get q, inp, h => by
    obtain ⟨s⟩ := ‹Nonempty σ›
    obtain ⟨tr, a, rest, t, he, hr, hR⟩ := of_returns (p := q s) (h s)
    exact ⟨.get s :: tr, a, rest, .step (.get q s) t, by simpa [Ev.isErr] using he, hr, hR⟩
  | .set s q, inp, h => by
    obtain ⟨tr, a, rest, t, he, hr, hR⟩ := of_returns (p := q) h
    exact ⟨.set s :: tr, a, rest, .step (.set s q) t, by simpa [Ev.isErr] using he, hr, hR⟩
  | .write buf k, inp, h => by
    obtain ⟨tr, a, rest, t, he, hr, hR⟩ := of_returns (p := k true) h
    by_cases hb : buf = []
    · subst hb
      exact ⟨.tau :: tr, a, rest, .step (.writeEnd k) t, by simpa [Ev.isErr] using he, hr, hR⟩
    · exact ⟨_, a, rest, (write_all k hb).trans t, by simpa [Ev.isErr] using he, hr, hR⟩
  | .read acc n k, inp, ⟨hn, hk⟩ => by
    obtain ⟨tr, a, rest, t, he, hr, hR⟩ := of_returns (p := k _) hk
    by_cases h0 : n = 0
    · subst h0
      rw [List.take_zero, List.append_nil] at t
      exact ⟨.tau :: tr, a, rest, .step (.readEnd acc k) t, by simpa [Ev.isErr] using he, hr, hR⟩
    · have hlen : (inp.take n).length = n := List.length_take_of_le hn
      have hgot := Step.got acc n k (inp.take n) h0 (Nat.le_of_eq hlen)
      rw [hlen, Nat.sub_self] at hgot
      refine ⟨.got (inp.take n) :: .tau :: tr, a, rest, .step hgot (.step (.readEnd _ k) t),
        by simpa [Ev.isErr] using he, ?_, hR⟩
      simp only [List.map_cons, List.flatten_cons, Ev.received, List.nil_append, List.append_assoc,
        hr]
      exact List.take_append_drop n inp

end Run

end Chan
