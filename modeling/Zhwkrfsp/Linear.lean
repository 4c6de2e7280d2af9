import Zhwkrfsp.Atomicity
import Zhwkrfsp.Machine
import Zhwkrfsp.Outcome
import Mathlib.Data.List.Nodup

/- Linearizability. The peer is a machine `serve`: a state, and for each request a
   reply and the next state. Handlers run concurrently over one connection to it,
   as in `Traffic`. In an orderly run every call that comes back has taken effect
   at one place of the peer's own sequence of operations: its value is what the
   reply of `serve` at that place makes it (`Call.outcome`), no operation belongs
   to two calls or to none, a call that is refused takes no effect, and a call
   that has returned comes before every call that starts later (`linearizable`). -/
namespace Zhwkrfsp
open Wire Chan

/-! The bytes of the outgoing stream. -/

/-- The bytes that bear the number of a call. -/
def bearing (i : Nat) (out : Tagged) : Tagged := out.filter fun x => x.1 = i

theorem bearing_append (i : Nat) (a b : Tagged) :
    bearing i (a ++ b) = bearing i a ++ bearing i b := List.filter_append ..

theorem bearing_tag_self (i : Nat) (s : Bytes) : bearing i (tag i s) = tag i s := by
  apply List.filter_eq_self.2
  intro x hx
  simpa using tag_fst i s x.1 (List.mem_map_of_mem hx)

theorem bearing_tag_other {i k : Nat} (h : k ≠ i) (s : Bytes) : bearing i (tag k s) = [] := by
  apply List.filter_eq_nil_iff.2
  intro x hx
  have hk := tag_fst k s x.1 (List.mem_map_of_mem hx)
  simpa [hk] using h

theorem tag_length (i : Nat) (s : Bytes) : (tag i s).length = s.length := List.length_map ..

theorem tag_ne_nil {i : Nat} {s : Bytes} (h : s ≠ []) : tag i s ≠ [] := by
  intro hn
  have hlen := tag_length i s
  rw [hn] at hlen
  exact h (List.eq_nil_of_length_eq_zero hlen.symm)

/-- The number and the bytes of a call can be read off its bytes in the stream. -/
theorem tag_inj {i k : Nat} {s s' : Bytes} (h : tag i s = tag k s') (hs : s ≠ []) :
    i = k ∧ s = s' := by
  refine ⟨?_, ?_⟩
  · by_contra hne
    have hb := bearing_tag_self i s
    rw [h, bearing_tag_other (Ne.symm hne)] at hb
    exact tag_ne_nil hs (h.trans hb.symm)
  · have hsnd := congrArg (List.map Prod.snd) h
    rwa [tag_snd, tag_snd] at hsnd

theorem World.Effect.pending_eq {i : Nat} {w w' : World} {e : Ev UInt32} (h : w.Effect i e w') :
    w'.pending = w.pending ++ tag i e.sent := by
  cases h <;> simp [Ev.sent]

/-- What call `i` has sent. -/
def Traffic.sentBy (t : Traffic) (i : Nat) : Bytes := (t.calls[i]?.map Caller.sent).getD []

theorem Traffic.sentBy_of {t : Traffic} {i : Nat} {a : Caller} (h : t.calls[i]? = some a) :
    t.sentBy i = a.sent := by
  rw [sentBy, h]
  rfl

/-! The invariant. -/

/-- The outgoing stream is what has been answered, then what has not; the bytes that
    bear a call's number are those it has sent, which are a part of one request; and
    what has been answered are whole requests of calls, each of them once. -/
structure History (t : Traffic) : Prop where
  whole : t.world.out = (t.world.log.map Prod.fst).flatten ++ t.world.pending
  own : ∀ i, bearing i t.world.out = tag i (t.sentBy i)
  part : ∀ (i : Nat) (a : Caller), t.calls[i]? = some a →
    a.sent = [] ∨ ∃ msg, a.job.call.Sends a.job.locals msg ∧ a.sent <+: msg
  entry : ∀ x ∈ t.world.log, ∃ (i : Nat) (a : Caller), t.calls[i]? = some a ∧
    x.1 = tag i a.sent ∧ a.job.call.Sends a.job.locals a.sent
  once : (t.world.log.map Prod.fst).Nodup
  value : ∀ (i : Nat) (a : Caller), t.calls[i]? = some a →
    a.prog.Ends (fun v g => ∃ y, Makes a.job.call.param a.job.call.made (v, y) g) a.got

namespace History
variable {t : Traffic}

theorem init (opuid : UInt32) : History (Traffic.init opuid) where
  whole := rfl
  own _ := rfl
  part _ _ h := nomatch h
  entry _ h := nomatch h
  once := .nil
  value _ _ h := nomatch h

theorem start_value (j : Job) : (Caller.start j).prog.Ends
    (fun v g => ∃ y, Makes j.call.param j.call.made (v, y) g) [] := by
  show (j.call.prog j.locals).Ends _ []
  rw [Call.prog_eq]
  apply Prog.Ends.map
  exact (Call.handler_yields j.locals j.call).ends.mono fun out g h => ⟨out.2, h⟩

theorem spawn (h : History t) (j : Job) :
    History { t with calls := t.calls ++ [Caller.start j] } where
  whole := h.whole
  own i := by
    have hsame : Traffic.sentBy { t with calls := t.calls ++ [Caller.start j] } i = t.sentBy i := by
      unfold Traffic.sentBy
      rcases Nat.lt_trichotomy i t.calls.length with hi | rfl | hi
      · rw [List.getElem?_append_left hi]
      · rw [List.getElem?_append_right (Nat.le_refl _), Nat.sub_self,
          List.getElem?_eq_none (Nat.le_refl _)]
        rfl
      · rw [List.getElem?_eq_none (by rw [List.length_append]; exact hi),
          List.getElem?_eq_none (Nat.le_of_lt hi)]
    rw [hsame]
    exact h.own i
  part i a ha := by
    rcases Order.lookup_append ha with ha | ⟨-, rfl⟩
    · exact h.part i a ha
    · exact .inl rfl
  entry x hx := by
    obtain ⟨i, a, ha, hreq, hs⟩ := h.entry x hx
    obtain ⟨hi, -⟩ := List.getElem?_eq_some_iff.1 ha
    exact ⟨i, a, by rw [List.getElem?_append_left hi]; exact ha, hreq, hs⟩
  once := h.once
  value i a ha := by
    rcases Order.lookup_append ha with ha | ⟨-, rfl⟩
    · exact h.value i a ha
    · exact start_value j

theorem act (h : History t) {i : Nat} {a : Caller} {e : Ev UInt32} {q : Io Int32} {w : World}
    (ha : t.calls[i]? = some a) (hform : a.Form) (st : Step a.prog e q)
    (hf : t.world.Effect i e w) (he : e.isErr = false) :
    History { world := w, calls := t.calls.set i (a.next e q) } where
  whole := by
    show w.out = _
    rw [hf.out_eq, hf.pending_eq, hf.log_eq, h.whole, List.append_assoc]
  own k := by
    show bearing k w.out = _
    rw [hf.out_eq, bearing_append, h.own]
    by_cases hk : k = i
    · subst hk
      have hnext : (t.calls.set k (a.next e q))[k]? = some (a.next e q) := by
        rw [lookup_set ha, if_pos rfl]
      rw [t.sentBy_of ha, Traffic.sentBy_of hnext, bearing_tag_self, ← tag_append]
      rfl
    · rw [bearing_tag_other (Ne.symm hk), List.append_nil]
      unfold Traffic.sentBy
      rw [lookup_set ha, if_neg hk]
  part := by
    refine forall_set ha ?_ fun k c _ hc => h.part k c hc
    by_cases hs : e.sent = []
    · have hsame : (a.next e q).sent = a.sent := by
        show a.sent ++ e.sent = a.sent
        rw [hs, List.append_nil]
      rw [hsame]
      exact h.part i a ha
    · exact .inr (Exchange.sends_more hform sends_isRequest st hs).1
  entry := by
    show ∀ x ∈ w.log, _
    rw [hf.log_eq]
    intro x hx
    obtain ⟨k, c, hc, hreq, hs⟩ := h.entry x hx
    by_cases hk : k = i
    · -- the call whose request it is sends no more
      subst hk
      rw [ha] at hc
      cases hc
      have hnil : e.sent = [] := by
        by_contra hne
        exact (Exchange.sends_more hform sends_isRequest st hne).2 hs
      have hsame : (a.next e q).sent = a.sent := by
        show a.sent ++ e.sent = a.sent
        rw [hnil, List.append_nil]
      exact ⟨k, a.next e q, by rw [lookup_set ha, if_pos rfl], by rw [hsame, hreq],
        by rw [hsame]; exact hs⟩
    · exact ⟨k, c, by rw [lookup_set ha, if_neg hk]; exact hc, hreq, hs⟩
  once := by
    show (w.log.map Prod.fst).Nodup
    rw [hf.log_eq]
    exact h.once
  value := forall_set ha (st.ends (h.value i a ha) he) fun k c _ hc => h.value k c hc

/-- What the peer takes from the stream is all that is in it, the request of the one call
    that is inside. -/
theorem takes_whole (h : History t) {o : Option Nat} (ho : Order t o) {req rest : Tagged}
    (hreq : IsRequest (req.map Prod.snd)) (hpend : t.world.pending = req ++ rest) :
    ∃ (i : Nat) (a : Caller), o = some i ∧ t.calls[i]? = some a ∧ rest = [] ∧
      req = tag i a.sent ∧ a.job.call.Sends a.job.locals a.sent := by
  have hne : req ≠ [] := by
    rintro rfl
    exact hreq.ne_nil rfl
  have hsome : t.world.pending ≠ [] := by
    rw [hpend]
    exact fun hnil => hne (List.append_eq_nil_iff.1 hnil).1
  cases o with
  | none => exact absurd (ho.idle rfl).1 hsome
  | some i =>
    obtain ⟨a, hcall⟩ := ho.here i rfl
    have hall : tag i a.sent = req ++ rest := by
      cases ho.link i a rfl hcall with
      | sending hp _ _ _ => rw [← hpend, hp]
      | answered hnil _ _ _ _ _ _ => exact absurd hnil hsome
    have hpre : req.map Prod.snd <+: a.sent := by
      refine ⟨rest.map Prod.snd, ?_⟩
      rw [← List.map_append, ← hall, tag_snd]
    rcases h.part i a hcall with hnil | ⟨msg, hmsg, hsm⟩
    · rw [hnil] at hpre
      exact absurd (List.prefix_nil.1 hpre) hreq.ne_nil
    · have hwhole := hreq.eq_of_prefix (sends_isRequest msg hmsg) (hpre.trans hsm)
      have hs : a.sent = msg := hsm.eq_of_length_le (hwhole ▸ hpre.length_le)
      have hrest : rest = [] := by
        have hlen := congrArg List.length hall
        rw [tag_length, List.length_append, hs, ← hwhole, List.length_map] at hlen
        exact List.eq_nil_of_length_eq_zero (by omega)
      rw [hrest, List.append_nil] at hall
      exact ⟨i, a, rfl, hcall, hrest, hall.symm, hs ▸ hmsg⟩

/-- The request that the peer takes has not been taken before. -/
theorem answer (h : History t) {o : Option Nat} (ho : Order t o) {r : Reply} {w : World}
    (ha : t.world.Answer r w) : History { t with world := w } := by
  cases ha with
  | mk req rest _ hreq hpend hr =>
    obtain ⟨i, a, -, hcall, rfl, hall, hs⟩ := h.takes_whole ho hreq hpend
    rw [List.append_nil] at hpend
    refine ⟨?_, h.own, h.part, ?_, ?_, h.value⟩
    · show t.world.out = ((t.world.log ++ [(req, r)]).map Prod.fst).flatten ++ []
      rw [h.whole, hpend]
      simp
    · intro x hx
      rcases List.mem_append.1 hx with hx | hx
      · exact h.entry x hx
      · rw [List.mem_singleton.1 hx]
        exact ⟨i, a, hcall, hall, hs⟩
    · show ((t.world.log ++ [(req, r)]).map Prod.fst).Nodup
      rw [List.map_append, List.nodup_append]
      refine ⟨h.once, List.nodup_singleton _, fun x hx y hy => ?_⟩
      rw [List.mem_singleton.1 hy]
      intro hxreq
      rw [hxreq] at hx
      -- its bytes would be in the stream twice
      have hown := h.own i
      rw [t.sentBy_of hcall, h.whole, bearing_append, hpend, hall, bearing_tag_self] at hown
      have hnil := List.append_left_eq_self.1 hown
      have hsub : (bearing i req).Sublist (bearing i (t.world.log.map Prod.fst).flatten) :=
        (List.sublist_flatten_of_mem hx).filter _
      rw [hnil, hall, bearing_tag_self] at hsub
      exact tag_ne_nil (sends_isRequest _ hs).ne_nil (List.sublist_nil.1 hsub)

end History

/-- Every state of an orderly run. -/
theorem Traffic.Reach.history {opuid : UInt32} {t : Traffic}
    (h : Traffic.Reach Traffic.Orderly opuid t) : History t := by
  induction h with
  | init => exact History.init opuid
  | step h hc st ih =>
    obtain ⟨o, ho⟩ := h.order
    cases st with
    | spawn j => exact ih.spawn j
    | act i a e q w ha st hf he => exact ih.act ha (ho.form i a ha) st hf he
    | answer r w ha => exact ih.answer ho ha

/-! What stays along a run. -/

namespace Traffic

/-- A call that has returned does nothing more. -/
theorem returned_stays {C : Traffic → Label → Prop} {t t' : Traffic}
    (hl : Relation.ReflTransGen (Next C) t t') {i : Nat} {a : Caller} {v : Int32}
    (ha : t.calls[i]? = some a) (hv : a.prog = .ret v) : t'.calls[i]? = some a := by
  induction hl with
  | refl => exact ha
  | tail _ hn ih =>
    obtain ⟨l, -, st⟩ := hn
    cases st with
    | spawn j =>
      obtain ⟨hi, -⟩ := List.getElem?_eq_some_iff.1 ih
      show (_ ++ _)[i]? = some a
      rw [List.getElem?_append_left hi]
      exact ih
    | act k b e q w hb st _ _ =>
      show (List.set _ k _)[i]? = some a
      rw [lookup_set hb]
      split
      · next hik =>
        rw [← hik, ih] at hb
        cases hb
        rw [hv] at st
        cases st
      · exact ih
    | answer r w _ => exact ih

/-- The peer's operations are not taken back. -/
theorem Later.log {t t' : Traffic} (hl : Later t t') : t.world.log <+: t'.world.log := by
  induction hl with
  | refl => exact List.prefix_rfl
  | tail _ hn ih =>
    obtain ⟨l, -, st⟩ := hn
    cases st with
    | spawn j => exact ih
    | act k b e q w _ _ hf _ =>
      show _ <+: w.log
      rwa [hf.log_eq]
    | answer r w ha =>
      obtain ⟨req, hlog⟩ := ha.log_eq
      show _ <+: w.log
      rw [hlog]
      exact ih.trans (List.prefix_append _ _)

end Traffic

/-! The peer as a machine. -/

section
variable {σ : Type} (serve : σ → Bytes → Reply × σ) (s₀ : σ)

/-- The requests the peer has answered, in order. -/
def World.requests (w : World) : List Bytes := w.log.map fun x => x.1.map Prod.snd

/-- The peer's replies are those of `serve`. -/
def World.ServedBy (w : World) : Prop :=
  w.log.map Prod.snd = (Machine.runs serve w.requests s₀).1

/-- The peer's state before its operation number `p`. -/
def World.peerState (w : World) (p : Nat) : σ := (Machine.runs serve (w.requests.take p) s₀).2

/-- A call takes effect as operation number `p`: its request is the one served there, and
    if it has returned, its value is what the reply of `serve` is made into. -/
structure TookEffect (w : World) (i : Nat) (a : Caller) (p : Nat) : Prop where
  request : (w.log[p]?).map Prod.fst = some (tag i a.sent)
  sends : a.job.call.Sends a.job.locals a.sent
  value : ∀ v, a.prog = .ret v →
    v = (a.job.call.outcome (serve (w.peerState serve s₀ p) a.sent).1).1

variable {serve s₀}

theorem World.ServedBy.reply {w : World} (h : w.ServedBy serve s₀) {p : Nat} {req : Tagged}
    {r : Reply} (hp : w.log[p]? = some (req, r)) :
    r = (serve (w.peerState serve s₀ p) (req.map Prod.snd)).1 := by
  have hreq : w.requests[p]? = some (req.map Prod.snd) := by
    rw [World.requests, List.getElem?_map, hp]
    rfl
  have hr : (w.log.map Prod.snd)[p]? = some r := by
    rw [List.getElem?_map, hp]
    rfl
  rw [h, Machine.runs_getElem?, hreq] at hr
  exact (Option.some.inj hr).symm

namespace History
variable {t : Traffic}

/-- A request served at one place is served at no other. -/
theorem place_unique (h : History t) {x : Tagged} {p q : Nat}
    (hp : (t.world.log[p]?).map Prod.fst = some x)
    (hq : (t.world.log[q]?).map Prod.fst = some x) : p = q := by
  rw [← List.getElem?_map] at hp hq
  obtain ⟨hlt, -⟩ := List.getElem?_eq_some_iff.1 hp
  exact (List.getElem?_inj hlt h.once).1 (hp.trans hq.symm)

/-- A call whose request has been answered has taken effect, if the peer is `serve`. -/
theorem tookEffect (h : History t) (hpeer : t.world.ServedBy serve s₀) {o : Option Nat}
    (ho : Order t o) {i : Nat} {a : Caller} (ha : t.calls[i]? = some a) {p : Nat}
    (hp : (t.world.log[p]?).map Prod.fst = some (tag i a.sent))
    (hs : a.job.call.Sends a.job.locals a.sent) : TookEffect serve s₀ t.world i a p := by
  refine ⟨hp, hs, fun v hv => ?_⟩
  rcases ho.served i a ha v hv with hrej | ⟨r, hlog, -, hgot⟩
  · rw [hs.1] at hrej
    cases hrej
  · obtain ⟨q, hq⟩ := List.getElem?_of_mem hlog
    have hqp : q = p := h.place_unique (by rw [hq]; rfl) hp
    subst hqp
    have hr := hpeer.reply hq
    rw [tag_snd] at hr
    obtain ⟨y, -, hy⟩ := hv ▸ h.value i a ha
    have hout := hy r hgot
    rw [← hr]
    exact congrArg Prod.fst hout

/-- The request of a call that has returned, and was not refused, has been answered. -/
theorem place (h : History t) {o : Option Nat} (ho : Order t o) {i : Nat} {a : Caller} {v : Int32}
    (ha : t.calls[i]? = some a) (hv : a.prog = .ret v) (hacc : a.job.call.rejected = false) :
    ∃ p : Nat, (t.world.log[p]?).map Prod.fst = some (tag i a.sent) ∧
      a.job.call.Sends a.job.locals a.sent := by
  rcases ho.served i a ha v hv with hrej | ⟨r, hmem, -⟩
  · exact absurd (hrej.symm.trans hacc) (by decide)
  · obtain ⟨p, hp⟩ := List.getElem?_of_mem hmem
    obtain ⟨k, c, hc, htag, hs⟩ := h.entry _ hmem
    obtain ⟨rfl, -⟩ := tag_inj htag.symm (sends_isRequest c.sent hs).ne_nil
    rw [hc] at ha
    cases ha
    exact ⟨p, by rw [hp]; rfl, hs⟩

/-- Every operation of the peer belongs to a call. -/
theorem caller (h : History t) {p : Nat} (hp : p < t.world.log.length) :
    ∃ i a, t.calls[i]? = some a ∧ (t.world.log[p]?).map Prod.fst = some (tag i a.sent) ∧
      a.job.call.Sends a.job.locals a.sent := by
  obtain ⟨i, a, ha, hreq, hs⟩ := h.entry _ (List.getElem_mem hp)
  exact ⟨i, a, ha, by rw [List.getElem?_eq_getElem hp, Option.map_some, hreq], hs⟩

/-- A call that was refused has sent nothing and returns `-EINVAL`. -/
theorem refused (h : History t) {o : Option Nat} (ho : Order t o) {i : Nat} {a : Caller}
    {v : Int32} (ha : t.calls[i]? = some a) (hv : a.prog = .ret v)
    (hrej : a.job.call.rejected = true) : v = -EINVAL := by
  have hform := ho.form i a ha
  unfold Caller.Form at hform
  rw [hv] at hform
  have hgot : a.got = [] := by
    rcases hform.ret_cases with ⟨-, -, hg⟩ | ⟨hs, -⟩ | ⟨hs, -⟩
    · exact hg
    · exact absurd (hrej.symm.trans hs.1) (by decide)
    · exact absurd (hrej.symm.trans hs.1) (by decide)
  obtain ⟨y, hy, -⟩ := hv ▸ h.value i a ha
  exact congrArg Prod.fst (hy hgot)

end History

/-- A call that returned has been served before every call that had not started then. -/
theorem served_before {t t' : Traffic} (h : History t) (h' : History t') {o : Option Nat}
    (ho : Order t o) (hl : Traffic.Later t t') {i k p q : Nat} {a b : Caller} {v : Int32}
    (ha : t.calls[i]? = some a) (hv : a.prog = .ret v) (hk : t.calls.length ≤ k)
    (hp : TookEffect serve s₀ t'.world i a p) (hq : TookEffect serve s₀ t'.world k b q) :
    p < q := by
  obtain ⟨rest, hlog⟩ := hl.log
  have hkeep : ∀ {n}, n < t.world.log.length → t'.world.log[n]? = t.world.log[n]? := by
    intro n hn
    rw [← hlog, List.getElem?_append_left hn]
  have hplt : p < t.world.log.length := by
    rcases ho.served i a ha v hv with hrej | ⟨r, hmem, -⟩
    · exact absurd (hrej.symm.trans hp.sends.1) (by decide)
    · obtain ⟨n, hn⟩ := List.getElem?_of_mem hmem
      obtain ⟨hlt, -⟩ := List.getElem?_eq_some_iff.1 hn
      rwa [h'.place_unique hp.request (by rw [hkeep hlt, hn]; rfl)]
  by_contra hpq
  have hqlt : q < t.world.log.length := by omega
  obtain ⟨j, c, hc, hreq, -⟩ := h.caller hqlt
  have htag := hq.request
  rw [hkeep hqlt, hreq, Option.some.injEq] at htag
  have hne := (sends_isRequest b.sent hq.sends).ne_nil
  obtain ⟨rfl, -⟩ := tag_inj htag.symm hne
  obtain ⟨hj, -⟩ := List.getElem?_eq_some_iff.1 hc
  omega

end

/-- **Linearizability.** Let the peer answer as the machine `serve` does, in the state
    `t'` of an orderly run that passed through `t`. Every call that has returned and was
    not refused has taken effect as exactly one operation of the peer, and its value is
    the outcome of that operation; a call that was refused returns `-EINVAL` and has taken
    no effect; every operation of the peer is that of exactly one call; and a call that
    had returned in `t` takes effect before every call that started after `t`. -/
theorem linearizable {σ : Type} (serve : σ → Bytes → Reply × σ) (s₀ : σ) {opuid : UInt32}
    {t t' : Traffic} (h : Traffic.Reach Traffic.Orderly opuid t) (hl : Traffic.Later t t')
    (hpeer : t'.world.ServedBy serve s₀) :
    (∀ (i : Nat) (a : Caller) (v : Int32), t'.calls[i]? = some a → a.prog = .ret v →
      a.job.call.rejected = false → ∃! p, TookEffect serve s₀ t'.world i a p) ∧
    (∀ (i : Nat) (a : Caller) (v : Int32), t'.calls[i]? = some a → a.prog = .ret v →
      a.job.call.rejected = true → v = -EINVAL ∧ ∀ p, ¬TookEffect serve s₀ t'.world i a p) ∧
    (∀ p < t'.world.log.length, ∃! i, ∃ a, t'.calls[i]? = some a ∧
      TookEffect serve s₀ t'.world i a p) ∧
    ∀ (i k p q : Nat) (a b : Caller) (v : Int32), t.calls[i]? = some a → a.prog = .ret v →
      t'.calls[k]? = some b → t.calls.length ≤ k → TookEffect serve s₀ t'.world i a p →
      TookEffect serve s₀ t'.world k b q → p < q := by
  obtain ⟨o, ho⟩ := h.order
  have h' := h.later hl
  obtain ⟨o', ho'⟩ := h'.order
  have hist := h'.history
  refine ⟨fun i a v ha hv hacc => ?_, fun i a v ha hv hrej => ?_, fun p hp => ?_, ?_⟩
  · obtain ⟨p, hreq, hs⟩ := hist.place ho' ha hv hacc
    exact ⟨p, hist.tookEffect hpeer ho' ha hreq hs, fun q hq => hist.place_unique hq.request hreq⟩
  · refine ⟨hist.refused ho' ha hv hrej, fun p hp => ?_⟩
    exact absurd (hrej.symm.trans hp.sends.1) (by decide)
  · obtain ⟨i, a, ha, hreq, hs⟩ := hist.caller hp
    refine ⟨i, ⟨a, ha, hist.tookEffect hpeer ho' ha hreq hs⟩, ?_⟩
    rintro k ⟨b, -, hb⟩
    have htag := hb.request.symm.trans hreq
    exact (tag_inj (Option.some.inj htag) (sends_isRequest b.sent hb.sends).ne_nil).1
  · intro i k p q a b v ha hv _ hk hp hq
    exact served_before h.history hist ho hl ha hv hk hp hq

/-! Two calls of `fuse_unlink`, one after the other. -/

namespace Traffic

/-- A call of `fuse_unlink` from start to end, the peer refusing it. -/
theorem Later.unlink (opuid : UInt32) (out : Tagged) (log : List (Tagged × Reply))
    (cs : List Caller) (hout : ∀ b ∈ cs, b.inside = false) :
    Later ⟨⟨false, opuid, out, [], [], log⟩, cs⟩
      ⟨⟨false, opuid, out ++ tag cs.length (unlinkMsg opuid), [], [],
          log ++ [(tag cs.length (unlinkMsg opuid), refusal opuid)]⟩,
        cs ++ [⟨unlinkJob, .ret (-2), unlinkMsg opuid, RpHdr.codec.enc ⟨12, opuid, -2⟩, false⟩]⟩ := by
  have hset : ∀ a, (cs ++ [Caller.start unlinkJob]).set cs.length a = cs ++ [a] := by simp
  have hlen : cs.length < (cs ++ [Caller.start unlinkJob]).length := by simp
  have hother : ∀ k c, k ≠ cs.length → (cs ++ [Caller.start unlinkJob])[k]? = some c →
      c.inside = false := by
    intro k c hk hc
    rcases List.mem_append.1 (List.mem_of_getElem? hc) with hmem | hmem
    · exact hout c hmem
    · rw [List.mem_singleton.1 hmem]
      rfl
  have h₀ : Next Orderly ⟨⟨false, opuid, out, [], [], log⟩, cs⟩
      ⟨⟨false, opuid, out, [], [], log⟩, cs ++ [Caller.start unlinkJob]⟩ :=
    ⟨.spawn unlinkJob, trivial, .spawn _ unlinkJob⟩
  have h₁ := Next.alone _ hlen hother (.get _ opuid) (.get ⟨false, opuid, out, [], [], log⟩) rfl rfl
    (a := ⟨unlinkJob, .get fun ouid => .write (unlinkMsg ouid) unlinkRest, [], [], false⟩)
  have h₂ := Later.unlinkEnd _ hlen hother false opuid opuid out log (List.nil_append _)
    (Request.bytes_ne_nil _) false
  rw [hset, hset] at h₁ h₂
  rw [← start_unlink] at h₁
  exact (Relation.ReflTransGen.single h₀).trans (h₂.head h₁)

end Traffic

/-- A peer that refuses everything, and counts. -/
def refuseAll (n : Nat) (_ : Bytes) : Reply × Nat := (Traffic.refusal 0, n + 1)

theorem linearizable_unlink :
    ∃ (t : Traffic) (a b : Caller), Traffic.Reach Traffic.Orderly 0 t ∧ t.calls = [a, b] ∧
      ∃ p q, TookEffect refuseAll 0 t.world 0 a p ∧ TookEffect refuseAll 0 t.world 1 b q ∧ p < q := by
  have h₀ : Traffic.Reach Traffic.Orderly 0 (Traffic.init 0) := .init
  have hl₁ := Traffic.Later.unlink 0 [] [] [] nofun
  have h₁ := h₀.later hl₁
  have hl₂ := Traffic.Later.unlink 0 ([] ++ tag 0 (unlinkMsg 0))
    [(tag 0 (unlinkMsg 0), Traffic.refusal 0)]
    [⟨unlinkJob, .ret (-2), unlinkMsg 0, RpHdr.codec.enc ⟨12, 0, -2⟩, false⟩]
    fun b hb => by rw [List.mem_singleton.1 hb]
  obtain ⟨heffect, -, -, hbefore⟩ := linearizable refuseAll 0 h₁ hl₂ rfl
  obtain ⟨p, hp, -⟩ := heffect 0 _ _ rfl rfl rfl
  obtain ⟨q, hq, -⟩ := heffect 1 _ _ rfl rfl rfl
  exact ⟨_, _, _, h₁.later hl₂, rfl, p, q, hp, hq,
    hbefore 0 1 p q _ _ _ rfl rfl rfl (Nat.le_refl 1) hp hq⟩

end Zhwkrfsp
