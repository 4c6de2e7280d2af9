import Zhwkrfsp.Locking
import Zhwkrfsp.Alignment
import Zhwkrfsp.Content

/- Calls made one after another by one thread. `Serial` is a run of such calls: each
   starts from the `opuid` the one before it left, and does whatever the socket, the
   peer and its arguments make it do. `Disciplined` says how such a run should use
   `mu`: fifteen handlers keep to it on every path, the four of `Call.skipsLock`
   break it with their first effect. -/
namespace Zhwkrfsp
open Wire Chan

/-- One call of a run: the `opuid` it finds, what it does, and the value it
    returns, if it has. -/
structure Entry where
  job : Job
  opuid : UInt32
  trace : List (Ev UInt32)
  result : Option Int32

/-- `opuid` after a trace whose reads of it see what was stored last. -/
def opuidAfter : UInt32 → List (Ev UInt32) → Option UInt32
  | u, [] => some u
  | u, .get v :: tr => if v = u then opuidAfter u tr else none
  | _, .set v :: tr => opuidAfter v tr
  | u, _ :: tr => opuidAfter u tr

/-- A run of calls; only the last may not have returned. -/
inductive Serial : UInt32 → List Entry → Prop
  | nil (u) : Serial u []
  | last {j u tr q w} (run : Run (j.call.prog j.locals) tr q) (hu : opuidAfter u tr = some w) :
    Serial u [⟨j, u, tr, none⟩]
  | returned {j u tr v w es} (run : Run (j.call.prog j.locals) tr (.ret v))
    (hu : opuidAfter u tr = some w) (rest : Serial w es) : Serial u (⟨j, u, tr, some v⟩ :: es)

/-! The mutex along a run. -/

/-- `mu` after a trace. `none`: it was locked by its own holder, or unlocked, or
    `opuid` or the socket were used, while it was not held. -/
def muAfter : Bool → List (Ev UInt32) → Option Bool
  | held, [] => some held
  | held, .tau :: tr => muAfter held tr
  | false, .lock :: tr => muAfter true tr
  | false, _ :: _ => none
  | true, .lock :: _ => none
  | true, .unlock :: tr => muAfter false tr
  | true, _ :: tr => muAfter true tr

def isUnlock : Ev UInt32 → Bool
  | .unlock => true
  | _ => false

/-- How often a trace unlocks. -/
def unlocks (tr : List (Ev UInt32)) : Nat := tr.countP isUnlock

/-- What a run did up to now. -/
def effects (es : List Entry) : List (Ev UInt32) := es.flatMap Entry.trace

structure Disciplined (es : List Entry) : Prop where
  /-- `mu` is unlocked when a handler is entered. -/
  entered : ∀ pre e post, es = pre ++ e :: post → muAfter false (effects pre) = some false
  /-- `opuid` and the socket are used, and `mu` is unlocked, by its holder only. -/
  guarded : (muAfter false (effects es)).isSome
  /-- A handler that has returned unlocked `mu` once and left it unlocked. -/
  released : ∀ pre e post, es = pre ++ e :: post → e.result.isSome →
    unlocks e.trace = 1 ∧ muAfter false (effects (pre ++ [e])) = some false

theorem muAfter_append (held : Bool) (tr tr' : List (Ev UInt32)) :
    muAfter held (tr ++ tr') = (muAfter held tr).bind fun b => muAfter b tr' := by
  induction tr generalizing held with
  | nil => rfl
  | cons e tr ih => cases held <;> cases e <;> simp [muAfter, ih]

theorem unlocks_cons (e : Ev UInt32) (tr : List (Ev UInt32)) :
    unlocks (e :: tr) = unlocks tr + if isUnlock e then 1 else 0 := List.countP_cons

theorem effects_append (es es' : List Entry) : effects (es ++ es') = effects es ++ effects es' :=
  List.flatMap_append

theorem effects_cons (e : Entry) (es : List Entry) : effects (e :: es) = e.trace ++ effects es :=
  List.flatMap_cons

/-- Between the lock and the return a handler holds `mu`; it returns with one unlock. -/
theorem Inside.run {α : Type} {p q : Io α} {tr : List (Ev UInt32)} (h : Inside p)
    (t : Run p tr q) :
    (Inside q ∧ muAfter true tr = some true ∧ unlocks tr = 0) ∨
      (∃ a, q = .ret a) ∧ muAfter true tr = some false ∧ unlocks tr = 1 := by
  induction t with
  | refl p => exact .inl ⟨h, rfl, rfl⟩
  | @step p q r e tr hs t ih =>
    rcases h.step hs with ⟨hq, hl, hu⟩ | ⟨⟨a, rfl⟩, rfl⟩
    · have hmu : ∀ tr, muAfter true (e :: tr) = muAfter true tr := by
        intro tr
        cases e <;> first | rfl | contradiction
      have hun : unlocks (e :: tr) = unlocks tr := by
        rw [unlocks_cons]
        cases e <;> first | rfl | contradiction
      rw [hmu, hun]
      exact ih hq
    · -- after the unlock there is only the return
      cases t with
      | refl => exact .inr ⟨⟨a, rfl⟩, rfl, rfl⟩
      | step hs' _ => cases hs'

/-- A handler that takes the mutex: not entered yet, inside, or returned. -/
theorem Call.run_locks (m : Locals) {c : Call} (h : c.skipsLock = false) {q : Io Int32}
    {tr : List (Ev UInt32)} (t : Run (c.prog m) tr q) :
    (tr = [] ∧ ∃ k, q = .lock k) ∨ (muAfter false tr = some true ∧ ¬∃ v, q = .ret v) ∨
      muAfter false tr = some false ∧ unlocks tr = 1 := by
  obtain ⟨k, hp, hk⟩ := c.locks m h
  rw [hp] at t
  cases t with
  | refl => exact .inl ⟨rfl, k, rfl⟩
  | step hs t =>
    cases hs
    rcases hk.run t with ⟨hq, hmu, -⟩ | ⟨-, hmu, hun⟩
    · refine .inr (.inl ⟨hmu, ?_⟩)
      rintro ⟨v, rfl⟩
      cases hq
    · exact .inr (.inr ⟨hmu, hun⟩)

/-- The first thing the other four do is to read `opuid`. -/
theorem Call.skipsLock_get (m : Locals) {c : Call} (h : c.skipsLock = true) :
    ∃ k, c.prog m = .get k := by
  cases c with
  | fuseChmod fn mode => exact ⟨_, rfl⟩
  | fuseAccess fn amode => exact ⟨_, rfl⟩
  | fuseUnlink fn => exact ⟨_, rfl⟩
  | fuseUtimens fn atime mtime => exact ⟨_, rfl⟩
  | _ => cases h

namespace Serial

theorem run_of_mem {u : UInt32} {es : List Entry} (h : Serial u es) {e : Entry} (he : e ∈ es) :
    ∃ q, Run (e.job.call.prog e.job.locals) e.trace q := by
  induction h with
  | nil u => cases he
  | last run hu =>
    cases List.mem_singleton.1 he
    exact ⟨_, run⟩
  | returned run hu rest ih =>
    rcases List.mem_cons.1 he with rfl | he
    · exact ⟨_, run⟩
    · exact ih he

end Serial

theorem disciplined_nil : Disciplined [] where
  entered := by
    intro pre e post h
    exact absurd h.symm (by simp)
  guarded := rfl
  released := by
    intro pre e post h
    exact absurd h.symm (by simp)

/-- A call that has returned in order goes before an orderly run. -/
theorem Disciplined.cons {e : Entry} {es : List Entry} (hmu : muAfter false e.trace = some false)
    (hun : unlocks e.trace = 1) (h : Disciplined es) : Disciplined (e :: es) where
  entered := by
    intro pre e' post heq
    cases pre with
    | nil => rfl
    | cons f pre =>
      rw [List.cons_append, List.cons.injEq] at heq
      obtain ⟨rfl, heq⟩ := heq
      rw [effects_cons, muAfter_append, hmu]
      exact h.entered pre e' post heq
  guarded := by
    rw [effects_cons, muAfter_append, hmu]
    exact h.guarded
  released := by
    intro pre e' post heq hres
    cases pre with
    | nil =>
      rw [List.nil_append, List.cons.injEq] at heq
      obtain ⟨rfl, -⟩ := heq
      exact ⟨hun, by rw [List.nil_append, effects_cons, muAfter_append, hmu]; rfl⟩
    | cons f pre =>
      rw [List.cons_append, List.cons.injEq] at heq
      obtain ⟨rfl, heq⟩ := heq
      rw [List.cons_append, effects_cons, muAfter_append, hmu]
      exact h.released pre e' post heq hres

/-- A call that has not returned, `mu` being free before it. -/
theorem Disciplined.single {e : Entry} (hmu : (muAfter false e.trace).isSome)
    (hres : e.result = none) : Disciplined [e] := by
  have hsplit : ∀ pre (e' : Entry) post, [e] = pre ++ e' :: post → pre = [] ∧ e' = e := by
    intro pre e' post heq
    cases pre with
    | nil =>
      rw [List.nil_append, List.cons.injEq] at heq
      exact ⟨rfl, heq.1.symm⟩
    | cons f pre => simp at heq
  constructor
  · intro pre e' post heq
    rw [(hsplit pre e' post heq).1]
    rfl
  · rwa [effects_cons, effects, List.flatMap_nil, List.append_nil]
  · intro pre e' post heq h
    rw [(hsplit pre e' post heq).2, hres] at h
    cases h

theorem Serial.disciplined {u : UInt32} {es : List Entry} (h : Serial u es)
    (hlock : ∀ e ∈ es, e.trace ≠ [] → e.job.call.skipsLock = false) : Disciplined es := by
  induction h with
  | nil u => exact disciplined_nil
  | @last j u tr q w run hu =>
    refine Disciplined.single ?_ rfl
    by_cases hne : tr = []
    · rw [hne]
      rfl
    · rcases Call.run_locks j.locals (hlock _ List.mem_cons_self hne) run with ⟨rfl, -⟩ | ⟨h, -⟩ | ⟨h, -⟩
      · exact absurd rfl hne
      · exact h ▸ rfl
      · exact h ▸ rfl
  | @returned j u tr v w es run hu rest ih =>
    have ih := ih fun e he => hlock e (List.mem_cons_of_mem _ he)
    by_cases hskip : j.call.skipsLock = true
    · -- such a call cannot have returned without a step
      obtain ⟨k, hk⟩ := j.call.skipsLock_get j.locals hskip
      have hne : tr ≠ [] := by
        rintro rfl
        rw [hk] at run
        cases run
      rw [hlock _ List.mem_cons_self hne] at hskip
      cases hskip
    · rw [Bool.not_eq_true] at hskip
      rcases Call.run_locks j.locals hskip run with ⟨-, k, hq⟩ | ⟨-, hq⟩ | ⟨hmu, hun⟩
      · cases hq
      · exact absurd ⟨v, rfl⟩ hq
      · exact Disciplined.cons hmu hun ih

/-- **Lock discipline.** A run of handlers, with any outcomes, keeps the discipline
    of `mu` exactly when no call that has begun is `fuse_chmod`, `fuse_access`,
    `fuse_unlink` or `fuse_utimens`. -/
theorem lock_discipline (u : UInt32) (es : List Entry) (h : Serial u es) :
    Disciplined es ↔ ∀ e ∈ es, e.trace ≠ [] → e.job.call.skipsLock = false := by
  refine ⟨fun hd e he hne => ?_, h.disciplined⟩
  by_contra hskip
  rw [Bool.not_eq_false] at hskip
  obtain ⟨pre, post, rfl⟩ := List.append_of_mem he
  obtain ⟨q, run⟩ := h.run_of_mem he
  obtain ⟨k, hk⟩ := e.job.call.skipsLock_get e.job.locals hskip
  have hg := hd.guarded
  rw [effects_append, muAfter_append, hd.entered pre e post rfl, effects_cons] at hg
  rw [hk] at run
  generalize htr : e.trace = tr at run hne hg
  cases run with
  | refl => exact hne rfl
  | step hs _ =>
    cases hs
    cases hg

/-- A `fuse_rmdir` whose first write fails. -/
theorem rmdir_failed (u : UInt32) : Run ((Call.fuseRmdir pathA).prog default)
    [.lock, .get u, .set (u + 1), .get (u + 1), .writeErr, .unlock] (.ret (-EBUSY)) := by
  rw [rmdir_eq]
  exact .step (.lock _) (.step (.get _ u) (.step (.set _ _) (.step (.get _ (u + 1))
    (converse_failed (rmdir_emission (u + 1)) _ _))))

/-- An open that the checks reject, two calls of `fuse_rmdir`, one of which the peer
    refuses and the other cannot write, and one that has just begun. -/
def fourCalls : List Entry :=
  [⟨Job.fresh (.fuseOpen pathA ⟨0, true, false, 0⟩), 0,
      [.lock, .get 0, .set 1, .get 1, .unlock], some (-22)⟩,
    ⟨Job.fresh (.fuseRmdir pathA), 1, refusedTrace 1, some (-2)⟩,
    ⟨Job.fresh (.fuseRmdir pathA), 2,
      [.lock, .get 2, .set 3, .get 3, .writeErr, .unlock], some (-EBUSY)⟩,
    ⟨Job.fresh (.fuseRmdir pathA), 3, [.lock, .get 3], none⟩]

theorem fourCalls_serial : Serial 0 fourCalls :=
  .returned (w := 1) (.step (.lock _) (.step (.get _ 0) (.step (.set 1 _) (.step (.get _ 1)
    (.single (.unlock _)))))) rfl
    (.returned (w := 2) (rmdir_refused 1) rfl
      (.returned (w := 3) (rmdir_failed 2) rfl
        (.last (w := 3) (.step (.lock _) (.single (.get _ 3))) rfl)))

theorem lock_discipline_rejected : Disciplined fourCalls := by
  apply (lock_discipline 0 _ fourCalls_serial).2
  intro e he _
  simp only [fourCalls, List.mem_cons, List.not_mem_nil, or_false] at he
  rcases he with rfl | rfl | rfl | rfl <;> rfl

/-- `fuse_unlink` reads `opuid` without `mu`. -/
theorem lock_discipline_fails :
    Serial 0 [⟨Job.fresh (.fuseUnlink pathA), 0, [.get 0], none⟩] ∧
      ¬Disciplined [⟨Job.fresh (.fuseUnlink pathA), 0, [.get 0], none⟩] := by
  refine ⟨.last (w := 0) (.single (.get _ 0)) rfl, fun h => ?_⟩
  cases h.guarded

end Zhwkrfsp
