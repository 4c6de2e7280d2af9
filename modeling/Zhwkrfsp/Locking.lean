import Zhwkrfsp.Exchange

/- The handlers as brackets of the mutex. Fifteen of them have the form `.lock q`
   where `q` does nothing but its exchange until it unlocks and returns
   (`Inside`); `fuse_chmod`, `fuse_access`, `fuse_unlink` and `fuse_utimens`
   (`Call.skipsLock`) are such a `q` without the lock in front. -/
namespace Zhwkrfsp
open Wire Chan

/-- What runs between the lock and the return: it ends with an unlock. -/
inductive Inside {α : Type} : Io α → Prop
  | stop (h) : Inside (.stop h)
  | get (k) (hk : ∀ u, Inside (k u)) : Inside (.get k)
  | set (u k) (hk : Inside k) : Inside (.set u k)
  | write (buf k) (hk : ∀ b, Inside (k b)) : Inside (.write buf k)
  | read (acc n k) (hk : ∀ r, Inside (k r)) : Inside (.read acc n k)
  | leave (a) : Inside (.unlock (.ret a))

namespace Inside

theorem fst {β : Type} {p : Io (Int32 × β)} (h : Inside p) : Inside (Prod.fst <$> p) := by
  induction h with
  | stop h => exact .stop h
  | get k _ ih => exact .get _ ih
  | set u k _ ih => exact .set u _ ih
  | write buf k _ ih => exact .write buf _ ih
  | read acc n k _ ih => exact .read acc n _ ih
  | leave a => exact .leave a.1

/-- A step inside stays inside or is the unlock before the return. -/
theorem step {α : Type} {p q : Io α} {e : Ev UInt32} (h : Inside p) (st : Step p e q) :
    (Inside q ∧ e ≠ .lock ∧ e ≠ .unlock) ∨ (∃ a, q = .ret a) ∧ e = .unlock := by
  cases h with
  | stop h => cases st
  | get k hk => cases st with | get _ u => exact .inl ⟨hk u, nofun, nofun⟩
  | set u k hk => cases st with | set _ _ => exact .inl ⟨hk, nofun, nofun⟩
  | write buf k hk =>
    cases st with
    | wrote bs rest _ _ => exact .inl ⟨.write rest k hk, nofun, nofun⟩
    | writeErr _ _ _ => exact .inl ⟨hk false, nofun, nofun⟩
    | writeEnd _ => exact .inl ⟨hk true, nofun, nofun⟩
  | read acc n k hk =>
    cases st with
    | got _ _ _ bs _ _ => exact .inl ⟨.read _ _ k hk, nofun, nofun⟩
    | readErr _ _ _ _ => exact .inl ⟨hk none, nofun, nofun⟩
    | readEnd _ _ => exact .inl ⟨hk (some acc), nofun, nofun⟩
  | leave a => cases st with | unlock _ => exact .inr ⟨⟨a, rfl⟩, rfl⟩

end Inside

section
variable {β : Type}

theorem warn_inside (rtvl : Int32) (old : β) : Inside (warn rtvl old) := .leave _

theorem converse_inside (req : Request) (old : β) {onReply : RpHdr → Io (Int32 × β)}
    (h : ∀ rp, Inside (onReply rp)) : Inside (converse req old onReply) := by
  cases e : req.emission with
  | none =>
    rw [converse, Option.map_eq_none_iff.1 e]
    exact .stop _
  | some msg =>
    rw [converse_emission e]
    refine .write _ _ fun ok => ?_
    split
    · refine .read _ _ _ fun r => ?_
      unfold replied
      split
      · exact warn_inside _ old
      · split
        · exact warn_inside _ old
        · exact h _
    · exact warn_inside _ old

theorem reRead_inside (remain : UInt64) {f : Option Bytes → Io (Int32 × β)}
    (h : ∀ r, Inside (f r)) : Inside (reRead remain >>= f) := by
  unfold reRead sockread
  split
  · exact .stop _
  · exact .read _ _ _ h

theorem headerOnly_inside (rtvl : RpHdr → Int32) (rp : RpHdr) : Inside (headerOnly rtvl rp) := by
  unfold headerOnly
  split
  · exact .stop _
  · exact .leave _

theorem structBody_inside {γ : Type} (c : Codec γ) (old : β) (use : γ → β) (rp : RpHdr) :
    Inside (structBody c old use rp) := by
  unfold structBody
  split
  · exact .stop _
  · apply reRead_inside _
    intro r
    split
    · exact warn_inside _ old
    · exact .leave _

theorem openChecks_inside {fi : FileInfo} {unsupported : UInt32} {k : Io (Int32 × FileInfo)}
    (h : Inside k) : Inside (openChecks fi unsupported k) := by
  unfold openChecks
  split
  · exact warn_inside _ fi
  split
  · exact warn_inside _ fi
  · exact h

end

/-- The handlers that do not take the mutex. -/
def Call.skipsLock : Call → Bool
  | .fuseChmod .. | .fuseAccess .. | .fuseUnlink .. | .fuseUtimens .. => true
  | _ => false

section
variable (m : Locals) {β : Type} {p : UInt32 → Io (Int32 × β)}

theorem enter_bracket (h : ∀ ouid, Inside (p ouid)) :
    ∃ q, Prod.fst <$> (enter >>= p) = .lock q ∧ Inside q :=
  ⟨_, rfl, .get _ fun _ => .set _ _ (.get _ fun ouid => (h ouid).fst)⟩

theorem Call.locks {c : Call} (h : c.skipsLock = false) :
    ∃ q, c.prog m = .lock q ∧ Inside q := by
  cases c with
  | fuseGetattr fn st =>
    exact enter_bracket fun _ => converse_inside _ _ (structBody_inside _ _ _)
  | fuseReadlink fn dest =>
    refine enter_bracket fun _ => converse_inside _ _ fun rp => ?_
    split
    · exact .stop _
    · apply reRead_inside _
      intro r
      split
      · exact warn_inside _ _
      · exact .leave _
  | fuseMkdir dn mode =>
    exact enter_bracket fun _ => converse_inside _ _ (headerOnly_inside _)
  | fuseRmdir dn => exact enter_bracket fun _ => converse_inside _ _ (headerOnly_inside _)
  | fuseSymlink fn srcfn => exact enter_bracket fun _ => converse_inside _ _ (headerOnly_inside _)
  | fuseTruncate fn pos =>
    exact enter_bracket fun _ => .set _ _ (converse_inside _ _ (headerOnly_inside _))
  | fuseOpen fn fi =>
    exact enter_bracket fun _ => openChecks_inside (converse_inside _ _ (structBody_inside _ _ _))
  | fuseRead fn buf pos fi =>
    refine enter_bracket fun _ => converse_inside _ _ fun rp => ?_
    split
    · exact .stop _
    split
    · exact .stop _
    · apply reRead_inside _
      intro r
      split
      · exact warn_inside _ _
      · exact .leave _
  | fuseWrite fn buf pos fi =>
    exact enter_bracket fun _ => converse_inside _ _ (headerOnly_inside _)
  | fuseStatfs fn fstat =>
    exact enter_bracket fun _ => converse_inside _ _ (structBody_inside _ _ _)
  | fuseRelease fi => exact enter_bracket fun _ => converse_inside _ _ (headerOnly_inside _)
  | fuseOpendir dn fi =>
    exact enter_bracket fun _ => openChecks_inside (converse_inside _ _ (structBody_inside _ _ _))
  | fuseReaddir dn fill offset fi =>
    refine enter_bracket fun _ => converse_inside _ _ fun rp => ?_
    split
    · exact .stop _
    · apply reRead_inside _
      intro r
      split
      · exact warn_inside _ _
      · exact .leave _
  | fuseReleasedir fi => exact enter_bracket fun _ => converse_inside _ _ (headerOnly_inside _)
  | fuseCreat fn mode fi =>
    exact enter_bracket fun _ => openChecks_inside (converse_inside _ _ (structBody_inside _ _ _))
  | _ => cases h

theorem Call.unlocked {c : Call} (h : c.skipsLock = true) : Inside (c.prog m) := by
  cases c with
  | fuseChmod fn mode =>
    exact (Inside.get _ fun _ => converse_inside _ _ (headerOnly_inside _)).fst
  | fuseAccess fn amode =>
    exact (Inside.get _ fun _ => converse_inside _ _ (headerOnly_inside _)).fst
  | fuseUnlink fn =>
    exact (Inside.get _ fun _ => converse_inside _ _ (headerOnly_inside _)).fst
  | fuseUtimens fn atime mtime =>
    exact (Inside.get _ fun _ => converse_inside _ _ (headerOnly_inside _)).fst
  | _ => cases h

end

end Zhwkrfsp
