import Zhwkrfsp.Linear

/- No orderly run gets stuck. Whatever the replies of the peer are, from every state
   of an orderly run the calls in progress can all be brought to their return, or one
   of them aborts: no call waits for a mutex that no one will release, or for bytes
   that no one will send (`never_stuck`). A call that is inside has all it waits for
   on the way, or its whole request is with the peer; and the mutex is taken only
   while a call is inside. -/
namespace Zhwkrfsp
open Wire Chan

/-- The mutex is taken only while a call is inside. -/
def Traffic.Guarded (t : Traffic) : Prop :=
  t.world.locked = true → ∃ (i : Nat) (a : Caller), t.calls[i]? = some a ∧ a.inside = true

theorem Traffic.Guarded.act {t : Traffic} (h : t.Guarded) {i : Nat} {a : Caller} {e : Ev UInt32}
    {q : Io Int32} {w : World} (ha : t.calls[i]? = some a) (hf : t.world.Effect i e w)
    (hl : e = .lock → (a.next e q).inside = true) :
    Traffic.Guarded { world := w, calls := t.calls.set i (a.next e q) } := by
  have hself : (t.calls.set i (a.next e q))[i]? = some (a.next e q) := by
    rw [lookup_set ha, if_pos rfl]
  intro hlocked
  have hlocked : w.locked = true := hlocked
  by_cases he : e = .lock
  · exact ⟨i, _, hself, hl he⟩
  by_cases hu : e = .unlock
  · subst hu
    cases hf with
    | unlock => cases hlocked
  · rw [hf.locked_eq ⟨he, hu⟩] at hlocked
    obtain ⟨k, b, hb, hin⟩ := h hlocked
    by_cases hk : k = i
    · subst hk
      rw [ha] at hb
      cases hb
      refine ⟨k, _, hself, ?_⟩
      rw [Caller.next_inside _ hu, hin]
      rfl
    · exact ⟨k, b, by rw [lookup_set ha, if_neg hk]; exact hb, hin⟩

theorem Traffic.Reach.guarded {opuid : UInt32} {t : Traffic}
    (h : Traffic.Reach Traffic.Orderly opuid t) : t.Guarded := by
  induction h with
  | init => exact fun hl => nomatch hl
  | step h hc st ih =>
    obtain ⟨o, ho⟩ := h.order
    cases st with
    | spawn j =>
      intro hl
      obtain ⟨i, a, ha, hin⟩ := ih hl
      obtain ⟨hi, -⟩ := List.getElem?_eq_some_iff.1 ha
      exact ⟨i, a, by rw [List.getElem?_append_left hi]; exact ha, hin⟩
    | act i a e q w ha st hf he =>
      refine ih.act ha hf fun hlock => ?_
      rw [Caller.next_inside _ (by rw [hlock]; exact nofun), hlock]
      exact Bool.or_true _
    | answer r w ha =>
      intro hl
      cases ha with
      | mk req rest _ _ _ _ => exact ih hl

/-! Runs that start no call, the peer answering with `f`. -/

section
variable (f : Bytes → Reply)

/-- The steps of such a run. -/
def Traffic.Draining (t : Traffic) : Label → Prop
  | .spawn _ => False
  | .act i e => t.Orderly (.act i e)
  | .answer r => ∃ req rest, t.world.pending = req ++ rest ∧ IsRequest (req.map Prod.snd) ∧
      r = f (req.map Prod.snd)

/-- The replies that `f` gives are answers, and have no body when they report an error. -/
def Replies : Prop := ∀ req, IsRequest req → (f req).Answers req ∧ (f req).Plain

abbrev Traffic.Drains (t t' : Traffic) : Prop :=
  Relation.ReflTransGen (Traffic.Next (Traffic.Draining f)) t t'

variable {f}

theorem Traffic.Reach.drains {opuid : UInt32} {t t' : Traffic} (hf : Replies f)
    (h : Traffic.Reach Traffic.Orderly opuid t) (hd : Traffic.Drains f t t') :
    Traffic.Reach Traffic.Orderly opuid t' := by
  induction hd with
  | refl => exact h
  | tail _ hn ih =>
    obtain ⟨l, hc, st⟩ := hn
    cases st with
    | spawn j => exact hc.elim
    | act i a e q w ha st hf he => exact ih.step (l := .act i e) hc (.act _ i a e q w ha st hf he)
    | answer r w ha =>
      obtain ⟨req, rest, -, hreq, rfl⟩ := hc
      exact ih.step (l := .answer _) (hf _ hreq).2 (.answer _ _ w ha)

/-- A step of a call that is inside. -/
theorem Traffic.Next.inside {t : Traffic} {i : Nat} {a : Caller} {e : Ev UInt32} {q : Io Int32}
    {w : World} (ha : t.calls[i]? = some a) (hin : a.inside = true) (st : Chan.Step a.prog e q)
    (hf : t.world.Effect i e w) (he : e.isErr = false) :
    Traffic.Next (Traffic.Draining f) t ⟨w, t.calls.set i (a.next e q)⟩ := by
  refine ⟨.act i e, ?_, .act t i a e q w ha st hf he⟩
  intro c k b hc hout
  rw [ha] at hc
  cases hc
  rw [hin] at hout
  cases hout

/-- A step of a call, no call being inside. -/
theorem Traffic.Next.outside {t : Traffic} {i : Nat} {a : Caller} {e : Ev UInt32} {q : Io Int32}
    {w : World} (ha : t.calls[i]? = some a) (hout : ∀ b ∈ t.calls, b.inside = false)
    (st : Chan.Step a.prog e q) (hf : t.world.Effect i e w) (he : e.isErr = false) :
    Traffic.Next (Traffic.Draining f) t ⟨w, t.calls.set i (a.next e q)⟩ := by
  refine ⟨.act i e, ?_, .act t i a e q w ha st hf he⟩
  intro c k b _ _ _ hb hin
  rw [hout b (List.mem_of_getElem? hb)] at hin
  cases hin

end

/-! What a call that is inside waits for. -/

/-- At a read the bytes have come, or the peer has the whole request. -/
theorem Link.at_read {α : Type} {rej : Prop} {φ : Bytes → Prop} {val : α → Int32} {i n : Nat}
    {s g acc : Bytes} {w : World} {k : Option Bytes → Io α}
    (hx : Exchange rej φ val s g (.read acc n k)) (hφ : ∀ b, φ b → IsRequest b)
    (h : Link i s g w) : n ≤ w.inn.length ∨ (w.pending = tag i s ∧ IsRequest s) := by
  cases h with
  | sending hp _ _ _ => exact .inr ⟨hp, hφ s hx.read_inv⟩
  | answered hp hs r hl hr hpl hg =>
    have hlen := congrArg List.length hg
    rw [List.length_append, Reply.bytes, List.length_append, Codec.enc_length] at hlen
    cases hx with
    | header _ _ _ _ _ hn _ _ _ => exact .inl (by omega)
    | body _ hd _ _ _ _ hh _ hn _ _ =>
      have hpre : hd <+: r.bytes ++ [] := by
        rw [← hg, List.append_nil, List.append_assoc]
        exact List.prefix_append _ _
      have hhdr : replyHdr hd = r.head :=
        Exchange.replyHdr_of_isPrefix (Nat.le_of_eq hh.symm) hpre
      have hframed := hr.framed
      rw [hhdr, hframed] at hn
      rw [List.length_append] at hlen
      exact .inl (by omega)

namespace Traffic

/-- A call has aborted. -/
def Halted (t : Traffic) : Prop := ∃ a ∈ t.calls, ∃ h, a.prog = .stop h

/-- Call `i` has returned. -/
def Finished (t : Traffic) (i : Nat) : Prop :=
  ∃ (a : Caller) (v : Int32), t.calls[i]? = some a ∧ a.prog = .ret v

def AllOutside (t : Traffic) : Prop := ∀ a ∈ t.calls, a.inside = false

section
variable (f : Bytes → Reply)

/-- Call `i` can come to its end, with no call inside then, or one aborts. -/
def CanEnd (t : Traffic) (i : Nat) : Prop :=
  ∃ t', Drains f t t' ∧ t'.calls.length = t.calls.length ∧
    (t'.Halted ∨ (t'.Finished i ∧ t'.AllOutside))

variable {f}

theorem CanEnd.step {t t' : Traffic} {i : Nat} (hn : Next (Draining f) t t')
    (hlen : t'.calls.length = t.calls.length) (h : CanEnd f t' i) : CanEnd f t i := by
  obtain ⟨t'', hd, hlen', hend⟩ := h
  exact ⟨t'', .head hn hd, hlen'.trans hlen, hend⟩

theorem CanEnd.halted {t : Traffic} {i : Nat} {a : Caller} {h : Halt} (ha : t.calls[i]? = some a)
    (hp : a.prog = .stop h) : CanEnd f t i :=
  ⟨t, .refl, rfl, .inl ⟨a, List.mem_of_getElem? ha, h, hp⟩⟩

section
variable {opuid : UInt32} (hf : Replies f)
include hf

/-- A call that is inside goes on: what its step leaves can come to its end. -/
theorem CanEnd.act {t : Traffic} {i : Nat} {a : Caller} {e : Ev UInt32} {q : Io Int32}
    {w : World} (h : Reach Orderly opuid t) (ha : t.calls[i]? = some a) (hin : a.inside = true)
    (st : Chan.Step a.prog e q) (heff : t.world.Effect i e w) (he : e.isErr = false)
    (hu : e ≠ .unlock)
    (hq : ∀ {t' : Traffic} {b : Caller}, Reach Orderly opuid t' → t'.calls[i]? = some b →
      b.inside = true → b.prog = q → CanEnd f t' i) : CanEnd f t i := by
  have hn : Next (Draining f) t ⟨w, t.calls.set i (a.next e q)⟩ := .inside ha hin st heff he
  refine .step hn List.length_set (hq (b := a.next e q) (h.drains hf (.single hn)) ?_ ?_ rfl)
  · rw [lookup_set ha, if_pos rfl]
  · rw [Caller.next_inside _ hu, hin]
    rfl

/-- A read whose bytes have come. -/
theorem CanEnd.read {t : Traffic} {i n : Nat} {a : Caller} {acc : Bytes}
    {k : Option Bytes → Io Int32} (h : Reach Orderly opuid t) (ha : t.calls[i]? = some a)
    (hin : a.inside = true) (hp : a.prog = .read acc n k) (hlen : n ≤ t.world.inn.length)
    (hk : ∀ (bs : Bytes) {t' : Traffic} {b : Caller}, Reach Orderly opuid t' →
      t'.calls[i]? = some b → b.inside = true → b.prog = k (some bs) → CanEnd f t' i) :
    CanEnd f t i := by
  have hlast : ∀ {t' : Traffic} {b : Caller} {bs : Bytes}, Reach Orderly opuid t' →
      t'.calls[i]? = some b → b.inside = true → b.prog = .read bs 0 k → CanEnd f t' i := by
    intro t' b bs h' hb hbin hbp
    have st : Chan.Step b.prog .tau (k (some bs)) := hbp ▸ .readEnd bs k
    exact .act hf h' hb hbin st (.tau _) rfl nofun fun h₂ hc hcin hcp => hk bs h₂ hc hcin hcp
  by_cases hn : n = 0
  · rw [hn] at hp
    exact hlast h ha hin hp
  · have htake : (t.world.inn.take n).length = n := List.length_take_of_le hlen
    have st := Chan.Step.got acc n k (t.world.inn.take n) hn (Nat.le_of_eq htake)
    rw [htake, Nat.sub_self, ← hp] at st
    have heff := World.Effect.got (i := i) t.world (t.world.inn.take n) (t.world.inn.drop n)
      (List.take_append_drop n _).symm
    exact .act hf h ha hin st heff rfl nofun fun h' hb hbin hbp => hlast h' hb hbin hbp

/-- A call that is inside comes to its end. -/
theorem finish_inside (p : Io Int32) : ∀ {t : Traffic} {i : Nat} {a : Caller},
    Reach Orderly opuid t → t.calls[i]? = some a → a.inside = true → a.prog = p →
      CanEnd f t i := by
  have hform : ∀ {t : Traffic} {i : Nat} {a : Caller}, Reach Orderly opuid t →
      t.calls[i]? = some a → a.inside = true → ∃ o, Order t o ∧ o = some i ∧ Inside a.prog := by
    intro t i a h ha hin
    obtain ⟨o, ho⟩ := h.order
    refine ⟨o, ho, (ho.holder i a ha).1 hin, ?_⟩
    cases ho.phase i a ha with
    | waiting _ _ _ _ hout _ => exact absurd (hin.symm.trans hout) (by decide)
    | coming _ _ hout _ => exact absurd (hin.symm.trans hout) (by decide)
    | within hp _ => exact hp
    | returned _ _ hout => exact absurd (hin.symm.trans hout) (by decide)
  induction p with
  | ret v =>
    intro t i a h ha hin hp
    obtain ⟨_, _, _, hinside⟩ := hform h ha hin
    exact absurd (hp ▸ hinside) Inside.not_ret
  | stop r => exact fun _ ha _ hp => .halted ha hp
  | lock q _ =>
    intro t i a h ha hin hp
    obtain ⟨_, _, _, hinside⟩ := hform h ha hin
    rw [hp] at hinside
    cases hinside
  | unlock q _ =>
    intro t i a h ha hin hp
    obtain ⟨o, ho, hoi, hinside⟩ := hform h ha hin
    rw [hp] at hinside
    cases hinside with
    | leave v =>
      have st : Chan.Step a.prog .unlock (.ret v) := hp ▸ .unlock _
      refine ⟨_, .single (.inside ha hin st (.unlock _) rfl), List.length_set, .inr ⟨?_, ?_⟩⟩
      · exact ⟨a.next .unlock (.ret v), v, by rw [lookup_set ha, if_pos rfl], rfl⟩
      · intro b hb
        obtain ⟨k, hk⟩ := List.getElem?_of_mem hb
        rw [lookup_set ha] at hk
        split at hk
        · cases hk
          rfl
        · next hki =>
          by_contra hbin
          have hko := (ho.holder k b hk).1 (by simpa using hbin)
          rw [hoi] at hko
          exact hki (Option.some.inj hko).symm
  | get q ih =>
    intro t i a h ha hin hp
    have st : Chan.Step a.prog (.get t.world.opuid) (q t.world.opuid) := hp ▸ .get q _
    exact .act hf h ha hin st (.get _) rfl nofun fun h' hb hbin hbp => ih _ h' hb hbin hbp
  | set u q ih =>
    intro t i a h ha hin hp
    have st : Chan.Step a.prog (.set u) q := hp ▸ .set u q
    exact .act hf h ha hin st (.set _ u) rfl nofun fun h' hb hbin hbp => ih h' hb hbin hbp
  | write buf q ih =>
    have hlast : ∀ {t : Traffic} {i : Nat} {a : Caller}, Reach Orderly opuid t →
        t.calls[i]? = some a → a.inside = true → a.prog = .write [] q → CanEnd f t i := by
      intro t i a h ha hin hp
      have st : Chan.Step a.prog .tau (q true) := hp ▸ .writeEnd q
      exact .act hf h ha hin st (.tau _) rfl nofun fun h' hb hbin hbp => ih true h' hb hbin hbp
    intro t i a h ha hin hp
    by_cases hbuf : buf = []
    · rw [hbuf] at hp
      exact hlast h ha hin hp
    · have st := Chan.Step.wrote buf [] q hbuf
      rw [List.append_nil, ← hp] at st
      exact .act hf h ha hin st (.wrote _ buf) rfl nofun fun h' hb hbin hbp =>
        hlast h' hb hbin hbp
  | read acc n q ih =>
    intro t i a h ha hin hp
    have hk := fun (bs : Bytes) {t' : Traffic} {b : Caller} (h' : Reach Orderly opuid t')
      (hb : t'.calls[i]? = some b) => ih (some bs) (t := t') h' hb
    obtain ⟨o, ho, hoi, -⟩ := hform h ha hin
    have hx := ho.form i a ha
    unfold Caller.Form at hx
    rw [hp] at hx
    have hlink := ho.link i a hoi ha
    rcases hlink.at_read hx sends_isRequest with hlen | ⟨hpend, hreq⟩
    · exact .read hf h ha hin hp hlen hk
    · -- the peer answers first
      have hreq' : IsRequest ((tag i a.sent).map Prod.snd) := by rwa [tag_snd]
      have hans := hf _ hreq'
      have hpend' := hpend.trans (List.append_nil _).symm
      have hn : Next (Draining f) t ⟨_, t.calls⟩ := ⟨.answer _, ⟨_, _, hpend', hreq', rfl⟩,
        .answer _ _ _ (.mk _ _ _ _ hreq' hpend' hans.1)⟩
      refine .step hn rfl ?_
      have h' := h.drains hf (.single hn)
      have hlink' := hlink.answer (.mk _ _ _ _ hreq' hpend' hans.1) hans.2
      rcases hlink'.at_read hx sends_isRequest with hlen | ⟨hnil, -⟩
      · exact .read hf h' ha hin hp hlen hk
      · exact absurd (hnil.symm : tag i a.sent = []) (tag_ne_nil hreq.ne_nil)

/-- A call that skips the lock, and has sent nothing, comes to its end. -/
theorem finish_coming (p : Io Int32) : ∀ {t : Traffic} {i : Nat} {a : Caller},
    Reach Orderly opuid t → t.AllOutside → t.calls[i]? = some a →
      a.job.call.skipsLock = true → a.sent = [] → Inside p → a.prog = p → CanEnd f t i := by
  have hnil : ∀ {j : Job}, ¬j.call.Sends j.locals [] := fun hb => (sends_isRequest _ hb).ne_nil rfl
  -- the first effects move no byte
  have hquiet : ∀ {t : Traffic} {i : Nat} {a : Caller} {e : Ev UInt32} {q : Io Int32} {w : World},
      Reach Orderly opuid t → t.AllOutside → t.calls[i]? = some a → a.sent = [] →
        Chan.Step a.prog e q → t.world.Effect i e w → e.isErr = false → e ≠ .unlock →
        e.sent = [] → Caller.enters e = false →
        (∀ {t' : Traffic} {b : Caller}, Reach Orderly opuid t' → t'.AllOutside →
          t'.calls[i]? = some b → b.job = a.job → b.sent = [] → b.prog = q → CanEnd f t' i) →
        CanEnd f t i := by
    intro t i a e q w h hout ha hs st heff he hu hes hent hq
    have hn : Next (Draining f) t ⟨w, t.calls.set i (a.next e q)⟩ := .outside ha hout st heff he
    have hnext : (a.next e q).inside = false := by
      rw [Caller.next_inside _ hu, hout a (List.mem_of_getElem? ha), hent]
      rfl
    refine .step hn List.length_set
      (hq (b := a.next e q) (h.drains hf (.single hn)) ?_ ?_ rfl ?_ rfl)
    · intro b hb
      rcases List.mem_or_eq_of_mem_set hb with hb | rfl
      · exact hout b hb
      · exact hnext
    · rw [lookup_set ha, if_pos rfl]
    · show a.sent ++ e.sent = []
      rw [hs, hes]
      rfl
  induction p with
  | stop r => exact fun _ _ ha _ _ _ hp => .halted ha hp
  | get q ih =>
    intro t i a h hout ha hskip hs hin hp
    cases hin with
    | get _ hk =>
      have st : Chan.Step a.prog (.get t.world.opuid) (q t.world.opuid) := hp ▸ .get q _
      exact hquiet h hout ha hs st (.get _) rfl nofun rfl rfl fun h' hout' hb hj hbs hbp =>
        ih _ h' hout' hb (hj ▸ hskip) hbs (hk _) hbp
  | set u q ih =>
    intro t i a h hout ha hskip hs hin hp
    cases hin with
    | set _ _ hk =>
      have st : Chan.Step a.prog (.set u) q := hp ▸ .set u q
      exact hquiet h hout ha hs st (.set _ u) rfl nofun rfl rfl fun h' hout' hb hj hbs hbp =>
        ih h' hout' hb (hj ▸ hskip) hbs hk hbp
  | write buf q _ =>
    intro t i a h hout ha hskip hs hin hp
    obtain ⟨o, ho⟩ := h.order
    have hx := ho.form i a ha
    unfold Caller.Form at hx
    rw [hp, hs] at hx
    have hbuf : buf ≠ [] := by
      intro hbuf
      have hsend := hx.write_inv.1
      rw [hbuf] at hsend
      exact hnil hsend
    -- the first byte brings it inside
    have st := Chan.Step.wrote buf [] q hbuf
    rw [List.append_nil, ← hp] at st
    have hn : Next (Draining f) t ⟨_, t.calls.set i (a.next (.wrote buf) (.write [] q))⟩ :=
      .outside ha hout st (.wrote _ buf) rfl
    refine .step hn List.length_set ?_
    refine finish_inside hf _ (h.drains hf (.single hn)) (a := a.next (.wrote buf) (.write [] q))
      ?_ ?_ rfl
    · rw [lookup_set ha, if_pos rfl]
    · exact Bool.or_true _
  | read acc n q _ =>
    intro t i a h hout ha hskip hs hin hp
    obtain ⟨o, ho⟩ := h.order
    have hx := ho.form i a ha
    unfold Caller.Form at hx
    rw [hp, hs] at hx
    exact absurd hx.read_inv hnil
  | unlock q _ =>
    intro t i a h hout ha hskip hs hin hp
    obtain ⟨o, ho⟩ := h.order
    have st : Chan.Step a.prog .unlock q := hp ▸ .unlock q
    rcases (ho.form i a ha).outside hs (Call.skipsLock_accepted hskip) st rfl (hp ▸ hin) with
      ⟨bs, hbs, -⟩ | ⟨-, -, -, hu, -⟩
    · cases hbs
    · exact absurd rfl hu
  | ret v => exact fun _ _ _ _ _ hin _ => absurd hin Inside.not_ret
  | lock q _ =>
    intro t i a h hout ha hskip hs hin hp
    cases hin

/-- Any call comes to its end, when no call is inside. -/
theorem finish {t : Traffic} {i : Nat} {a : Caller} (h : Reach Orderly opuid t)
    (hout : t.AllOutside) (ha : t.calls[i]? = some a) : CanEnd f t i := by
  obtain ⟨o, ho⟩ := h.order
  cases ho.phase i a ha with
  | waiting q hskip hp hq _ _ =>
    -- the mutex is free
    have hfree : t.world.locked = false := by
      by_contra hl
      obtain ⟨k, b, hb, hin⟩ := h.guarded (by simpa using hl)
      rw [hout b (List.mem_of_getElem? hb)] at hin
      cases hin
    have st : Chan.Step a.prog .lock q := hp ▸ .lock q
    have hn : Next (Draining f) t ⟨_, t.calls.set i (a.next .lock q)⟩ :=
      .outside ha hout st (.lock _ hfree) rfl
    refine .step hn List.length_set ?_
    refine finish_inside hf _ (h.drains hf (.single hn)) (a := a.next .lock q) ?_ ?_ rfl
    · rw [lookup_set ha, if_pos rfl]
    · exact Bool.or_true _
  | coming hskip hp _ hn => exact finish_coming hf _ h hout ha hskip hn.1 hp rfl
  | within _ hin =>
    rw [hout a (List.mem_of_getElem? ha)] at hin
    cases hin
  | returned v hp _ => exact ⟨t, .refl, rfl, .inr ⟨⟨a, v, ha, hp⟩, hout⟩⟩

/-- The first `n` calls come to their end, one after the other. -/
theorem finish_first {t : Traffic} (h : Reach Orderly opuid t) (n : Nat)
    (hn : n ≤ t.calls.length) :
    ∃ t', Drains f t t' ∧ t'.calls.length = t.calls.length ∧
      (t'.Halted ∨ (t'.AllOutside ∧ ∀ i < n, t'.Finished i)) := by
  induction n with
  | zero =>
    by_cases hin : t.AllOutside
    · exact ⟨t, .refl, rfl, .inr ⟨hin, nofun⟩⟩
    · obtain ⟨a, hmem, ha⟩ : ∃ a ∈ t.calls, a.inside ≠ false := by
        simpa [AllOutside] using hin
      obtain ⟨i, hi⟩ := List.getElem?_of_mem hmem
      obtain ⟨t', hd, hlen, hend⟩ := finish_inside hf _ h hi (by simpa using ha) rfl
      exact ⟨t', hd, hlen, hend.imp id fun hend => ⟨hend.2, nofun⟩⟩
  | succ n ih =>
    obtain ⟨t₁, hd₁, hlen₁, hhalt | ⟨hout, hfin⟩⟩ := ih (by omega)
    · exact ⟨t₁, hd₁, hlen₁, .inl hhalt⟩
    · have hlt : n < t₁.calls.length := by omega
      obtain ⟨t₂, hd₂, hlen₂, hend⟩ :=
        finish hf (h.drains hf hd₁) hout (List.getElem?_eq_getElem hlt)
      refine ⟨t₂, hd₁.trans hd₂, hlen₂.trans hlen₁, hend.imp id fun hend => ⟨hend.2, ?_⟩⟩
      intro i hi
      rcases Nat.lt_succ_iff_lt_or_eq.1 hi with hi | rfl
      · obtain ⟨a, v, ha, hv⟩ := hfin i hi
        exact ⟨a, v, returned_stays hd₂ ha hv, hv⟩
      · exact hend.1

end

end

end Traffic

theorem Traffic.Finished.all {t : Traffic} (h : ∀ i < t.calls.length, t.Finished i) :
    ∀ a ∈ t.calls, ∃ v, a.prog = .ret v := by
  intro a ha
  obtain ⟨i, hi⟩ := List.getElem?_of_mem ha
  obtain ⟨hlt, -⟩ := List.getElem?_eq_some_iff.1 hi
  obtain ⟨b, v, hb, hv⟩ := h i hlt
  rw [hi] at hb
  cases hb
  exact ⟨v, hv⟩

/-- **No orderly run gets stuck.** From every state of an orderly run, the peer answering
    as `f` does, the calls in progress can all be brought to their return, unless one of
    them aborts. -/
theorem never_stuck (f : Bytes → Reply) (hf : Replies f) {opuid : UInt32} {t : Traffic}
    (h : Traffic.Reach Traffic.Orderly opuid t) :
    ∃ t', Traffic.Drains f t t' ∧ t'.calls.length = t.calls.length ∧
      (t'.Halted ∨ ∀ a ∈ t'.calls, ∃ v, a.prog = .ret v) := by
  obtain ⟨t', hd, hlen, hend⟩ := Traffic.finish_first hf h t.calls.length (Nat.le_refl _)
  refine ⟨t', hd, hlen, hend.imp id fun hend => ?_⟩
  exact Traffic.Finished.all (hlen ▸ hend.2)

/-! Replies that the calls accept. -/

/-- The calls can send their requests. -/
def Traffic.Sending (t : Traffic) : Label → Prop
  | .spawn j => j.call.Sendable ∧ ∀ n, j.call.room = some n → n < 2 ^ 63
  | l => t.Orderly l

/-- The calls can send their requests, the peer's replies have no body when they report
    an error, and the call whose request is on the way accepts the reply. -/
def Traffic.Agreeable (t : Traffic) : Label → Prop
  | .spawn j => j.call.Sendable ∧ ∀ n, j.call.room = some n → n < 2 ^ 63
  | .act i e => t.Orderly (.act i e)
  | .answer r => r.Plain ∧ ∀ (i : Nat) (a : Caller), t.calls[i]? = some a →
      t.world.pending = tag i a.sent → ¬r.head.rtvl < 0 → a.job.call.Accepts r

theorem Traffic.Reach.of_agreeable {opuid : UInt32} {t : Traffic} (h : Reach Agreeable opuid t) :
    Reach Sending opuid t := by
  induction h with
  | init => exact .init
  | @step t l t' _ hc st ih =>
    refine ih.step ?_ st
    cases l with
    | spawn j => exact hc
    | act i e => exact hc
    | answer r => exact hc.1

theorem Traffic.Reach.of_sending {opuid : UInt32} {t : Traffic} (h : Reach Sending opuid t) :
    Reach Orderly opuid t := by
  induction h with
  | init => exact .init
  | @step t l t' _ hc st ih =>
    refine ih.step ?_ st
    cases l with
    | spawn j => trivial
    | act i e => exact hc
    | answer r => exact hc

theorem Traffic.Reach.orderly {opuid : UInt32} {t : Traffic} (h : Reach Agreeable opuid t) :
    Reach Orderly opuid t := h.of_agreeable.of_sending

/-- A reply that a call can be brought to its return with. -/
structure Call.Takes (c : Call) (r : Reply) : Prop where
  framed : r.WellFramed
  plain : r.Plain
  accepts : ¬r.head.rtvl < 0 → c.Accepts r

/-- Every call returns on what is left of a reply it takes. -/
def Traffic.Willing (t : Traffic) : Prop :=
  ∀ (i : Nat) (a : Caller), t.calls[i]? = some a → ∀ (r : Reply) (rest : Bytes),
    a.job.call.Takes r → a.got ++ rest = r.bytes → a.prog.Returns (fun _ _ => True) rest

/-- Every request answered has been answered with a reply that its call takes. -/
def Traffic.Taken (t : Traffic) : Prop :=
  ∀ x ∈ t.world.log, ∀ (i : Nat) (a : Caller), t.calls[i]? = some a →
    x.1 = tag i a.sent → a.job.call.Takes x.2

theorem Call.start_returns {j : Job} (hs : j.call.Sendable)
    (hroom : ∀ n, j.call.room = some n → n < 2 ^ 63) {r : Reply} (h : j.call.Takes r) :
    (Caller.start j).prog.Returns (fun _ _ => True) r.bytes := by
  show (j.call.prog j.locals).Returns _ _
  rw [Call.prog_eq]
  have ht := (Call.handler_takes j.locals hs hroom h.framed h.plain h.accepts).returns
  exact ht.map fun _ _ _ => trivial

namespace Traffic
variable {t : Traffic}

theorem Willing.spawn (h : t.Willing) {j : Job} (hs : j.call.Sendable)
    (hroom : ∀ n, j.call.room = some n → n < 2 ^ 63) :
    Willing { t with calls := t.calls ++ [Caller.start j] } := by
  intro i a ha r rest hr hrest
  rcases Order.lookup_append ha with ha | ⟨-, rfl⟩
  · exact h i a ha r rest hr hrest
  · have hall : rest = r.bytes := hrest
    rw [hall]
    exact Call.start_returns hs hroom hr

theorem Willing.act (h : t.Willing) {i : Nat} {a : Caller} {e : Ev UInt32} {q : Io Int32}
    {w : World} (ha : t.calls[i]? = some a) (st : Chan.Step a.prog e q) (he : e.isErr = false) :
    Willing { world := w, calls := t.calls.set i (a.next e q) } := by
  refine forall_set ha (fun r rest hr hrest => ?_) fun k c _ hc => h k c hc
  have hgot : a.got ++ (e.received ++ rest) = r.bytes := by
    rw [← List.append_assoc]
    exact hrest
  have hp := h i a ha r _ hr hgot
  exact (Run.single st).returns hp (fun d hd => List.mem_singleton.1 hd ▸ he) (by simp)

theorem Taken.spawn (h : t.Taken) (hist : History t) (j : Job) :
    Taken { t with calls := t.calls ++ [Caller.start j] } := by
  intro x hx i a ha hreq
  rcases Order.lookup_append ha with ha | ⟨-, rfl⟩
  · exact h x hx i a ha hreq
  · -- it has sent nothing
    obtain ⟨k, b, -, hxk, hsends⟩ := hist.entry x hx
    exact absurd (hxk.symm.trans hreq) (tag_ne_nil (sends_isRequest _ hsends).ne_nil)

theorem Taken.act (h : t.Taken) (hist : History t) {i : Nat} {a : Caller} {e : Ev UInt32}
    {q : Io Int32} {w : World} (ha : t.calls[i]? = some a) (hf : t.world.Effect i e w) :
    Taken { world := w, calls := t.calls.set i (a.next e q) } := by
  show ∀ x ∈ w.log, _
  rw [hf.log_eq]
  intro x hx
  refine forall_set ha (fun hreq => ?_) fun k c _ hc => h x hx k c hc
  -- the call whose request was answered has sent no more
  obtain ⟨k, c, hc, hxk, hsends⟩ := hist.entry x hx
  obtain ⟨rfl, hsent⟩ := tag_inj (hxk.symm.trans hreq) (sends_isRequest _ hsends).ne_nil
  rw [ha] at hc
  cases hc
  exact h x hx k a ha hxk

theorem Taken.answer (h : t.Taken) (hist : History t) {o : Option Nat} (ho : Order t o) {r : Reply}
    {w : World} (ha : t.world.Answer r w) (hc : t.Agreeable (.answer r)) :
    Taken { t with world := w } := by
  cases ha with
  | mk req rest _ hreq hpend hr =>
    intro x hx i a hi hxi
    rcases List.mem_append.1 hx with hold | hnew
    · exact h x hold i a hi hxi
    · obtain ⟨_, _, -, -, rfl, -, -⟩ := hist.takes_whole ho hreq hpend
      cases List.mem_singleton.1 hnew
      have hreqi : req = tag i a.sent := hxi
      rw [List.append_nil, hreqi] at hpend
      exact ⟨hr.framed, hc.1, hc.2 i a hi hpend⟩

theorem Reach.willing {opuid : UInt32} (h : Reach Sending opuid t) : t.Willing := by
  induction h with
  | init => exact fun _ _ h => nomatch h
  | step _ hc st ih =>
    cases st with
    | spawn j => exact ih.spawn hc.1 hc.2
    | act i a e q w ha st _ he => exact ih.act ha st he
    | answer r w _ => exact ih

theorem Reach.taken {opuid : UInt32} (h : Reach Agreeable opuid t) : t.Taken := by
  induction h with
  | init => exact fun _ h => nomatch h
  | step h hc st ih =>
    have hist := h.orderly.history
    obtain ⟨o, ho⟩ := h.orderly.order
    cases st with
    | spawn j => exact ih.spawn hist j
    | act i a e q w ha _ hf _ => exact ih.act hist ha hf
    | answer r w ha => exact ih.answer hist ho ha hc

end Traffic

/-- What any call takes: a refusal. -/
theorem Call.takes_refusal (c : Call) (ouid : UInt32) : c.Takes (Traffic.refusal ouid) where
  framed := rfl
  plain := .inr rfl
  accepts hpos := absurd (show (-2 : Int32) < 0 by decide) hpos

/-- Where every reply is one that its call takes, no call aborts. -/
theorem Traffic.Reach.no_halt {opuid : UInt32} {t : Traffic} (h : Reach Sending opuid t)
    (htaken : t.Taken) : ¬t.Halted := by
  rintro ⟨a, hmem, halt, hp⟩
  obtain ⟨i, ha⟩ := List.getElem?_of_mem hmem
  obtain ⟨o, ho⟩ := h.of_sending.order
  have hnone : ∀ (r : Reply) (rest : Bytes), a.job.call.Takes r → a.got ++ rest ≠ r.bytes := by
    intro r rest hr hrest
    have hret := h.willing i a ha r rest hr hrest
    rw [hp] at hret
    exact hret
  have hfresh : a.got ≠ [] := by
    intro hg
    apply hnone (refusal 0) (refusal 0).bytes (Call.takes_refusal _ 0)
    rw [hg]
    rfl
  cases ho.phase i a ha with
  | waiting q _ hlock _ _ _ =>
    rw [hp] at hlock
    cases hlock
  | coming _ _ _ hn => exact hfresh hn.2
  | within _ hin =>
    cases ho.link i a ((ho.holder i a ha).1 hin) ha with
    | sending _ _ hg _ => exact hfresh hg
    | answered _ _ r hl _ _ hrest => exact hnone r _ (htaken _ hl i a ha rfl) hrest
  | returned v hret _ =>
    rw [hp] at hret
    cases hret

/-- The replies that `f` gives are answers that their calls take. -/
def Welcome (f : Bytes → Reply) : Prop :=
  ∀ m (c : Call) req, c.Sends m req → (f req).Answers req ∧ c.Takes (f req)

theorem Welcome.replies {f : Bytes → Reply} (h : Welcome f) : Replies f := by
  rintro req ⟨m, c, hs⟩
  exact ⟨(h m c req hs).1, (h m c req hs).2.plain⟩

theorem Traffic.Reach.drains_agreeable {opuid : UInt32} {t t' : Traffic} {f : Bytes → Reply}
    (hf : Welcome f) (h : Reach Agreeable opuid t) (hd : Drains f t t') :
    Reach Agreeable opuid t' := by
  induction hd with
  | refl => exact h
  | tail _ hn ih =>
    obtain ⟨l, hc, st⟩ := hn
    cases st with
    | spawn j => exact hc.elim
    | act i a e q w ha st hf he => exact ih.step (l := .act i e) hc (.act _ i a e q w ha st hf he)
    | answer r w ha =>
      obtain ⟨req, rest, hpend, hreq, rfl⟩ := hc
      obtain ⟨o, ho⟩ := ih.orderly.order
      obtain ⟨i, a, -, hcall, rfl, rfl, hs⟩ := ih.orderly.history.takes_whole ho hreq hpend
      rw [tag_snd] at ha
      rw [List.append_nil] at hpend
      refine ih.step (l := .answer _) ⟨(hf _ _ _ hs).2.plain, fun k b hk hkp => ?_⟩ (.answer _ _ w ha)
      obtain ⟨rfl, -⟩ := tag_inj (hpend.symm.trans hkp) (sends_isRequest _ hs).ne_nil
      rw [hk] at hcall
      cases hcall
      exact (hf _ _ _ hs).2.accepts

/-- The peer that refuses every request. -/
def refuse (req : Bytes) : Reply := Traffic.refusal (OpHdr.codec.dec req).ouid

theorem refuse_welcome : Welcome refuse := fun _ c _ _ => ⟨⟨rfl, rfl⟩, c.takes_refusal _⟩

/-- Two calls that have just started. -/
def twoUnlinks : Traffic := ⟨World.init 0, [Caller.start unlinkJob, Caller.start unlinkJob]⟩

theorem twoUnlinks_reach : Traffic.Reach Traffic.Agreeable 0 twoUnlinks := by
  have hsend : unlinkJob.call.Sendable ∧ ∀ n, unlinkJob.call.room = some n → n < 2 ^ 63 := by
    refine ⟨rfl, fun n hn => ?_⟩
    cases hn
  have h₀ : Traffic.Reach Traffic.Agreeable 0 (Traffic.init 0) := .init
  have h₁ := h₀.step (l := .spawn unlinkJob) hsend (.spawn _ _)
  exact h₁.step (l := .spawn unlinkJob) hsend (.spawn _ _)

theorem never_stuck_unlink : ∃ t', Traffic.Drains refuse twoUnlinks t' ∧ t'.calls.length = 2 ∧
    (t'.Halted ∨ ∀ a ∈ t'.calls, ∃ v, a.prog = .ret v) :=
  never_stuck refuse refuse_welcome.replies twoUnlinks_reach.orderly

end Zhwkrfsp
