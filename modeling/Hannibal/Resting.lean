/-
Where the runtime comes to rest.

As long as the actor has work, or an operation or a join has something to go on with,
some step of the runtime is enabled.  So where none is, nobody waits any more
(`AtRest`), and such a state is reached under every schedule:

* **`requests_settle`** — every operation in progress returns;
* **`dropped_settles`** — an actor that nobody holds any more comes to its end, and
  loses nothing of what it had accepted;
* **`stream_settles`** — so does an actor on a stream that ends.
-/
import Hannibal.Restart
import Hannibal.Settling

namespace Hannibal

variable {A : Actor}

namespace Sys

/-- Nobody waits, and there is nothing left to do. -/
structure AtRest (s : Sys A) : Prop where
  /-- Every operation has returned or was dropped. -/
  returned : ∀ o ∈ s.ops, o.state.live = false
  /-- A join future waits for nothing but the end of the loop. -/
  joined : ∀ st ∈ s.joins, st ≠ .created ∧ (st = .holding → s.phase.isEnded = false)
  /-- The loop has ended, or waits on an empty mailbox that somebody still can send to. -/
  loop : (∃ o, s.phase = .ended o) ∨ s.phase = .receiving ∧ s.chan.queue = [] ∧
    ∃ hd ∈ s.handles, hd.alive = true ∧ hd.kind.strong = true
  /-- As long as it has not ended, it has handled everything that was accepted. -/
  handled : s.phase.isEnded = false →
    concluded s.trace = (accepted s.trace).filterMap Envelope.work?

end Sys

namespace Environment.Reachable

variable {E : Environment A} {a : A.State} {c : A.Ctx} {s : Sys A}

/-! ### Where nothing can go on -/

section Quiet

variable (hq : E.system.Quiet Sys.worksSilent s)

include hq

theorem quiet_begun {i : ℕ} {o : Op A} (ho : s.ops[i]? = some o) : o.state ≠ .begun := by
  intro hst
  have hnone : E.step s (.op (.push i)) = none := hq (.op (.push i)) rfl
  simp [step, Sys.opStep, ho, hst] at hnone

theorem quiet_contextBusy (h : E.Reachable a c s) : s.contextBusy = false := by
  rw [Sys.contextBusy, List.any_eq_false]
  intro o ho hb
  simp only [Bool.and_eq_true, decide_eq_true_eq] at hb
  obtain ⟨i, hi⟩ := List.mem_iff_getElem?.mp ho
  have hk := h.counted.kept o ho hb.2
  simp only [hb.1] at hk
  -- `Context::stop` and `restart` are no futures, they have nothing to wait for
  have hfut : o.method.awaited = false ∧ o.method.responds = false := by
    simpa [Method.isFuture] using hk.1
  have hsh := h.shaped i o hi
  cases hst : o.state with
  | begun => exact quiet_begun hq hi hst
  | flushing => simp [hsh.room hst] at hfut
  | awaiting => simp [hsh.waits hst] at hfut
  | returned r => simp [hst, OpState.live] at hb
  | dropped => simp [hst, OpState.live] at hb

theorem quiet_phase [Nonempty A.World] (h : E.Reachable a c s) : (∃ o, s.phase = .ended o) ∨
    s.phase = .receiving ∧ s.chan.queue = [] ∧ s.chan.senders ≠ 0 := by
  obtain ⟨w⟩ := ‹Nonempty A.World›
  have hb := quiet_contextBusy hq h
  have hnone : ∀ l : LoopLabel A, s.worksSilent (.loop l) = true → s.loopStep E l = none :=
    fun l hl => hq (.loop l) hl
  cases hp : s.phase with
  | ended o => exact .inl ⟨o, rfl⟩
  | receiving =>
    refine .inr ⟨rfl, ?_⟩
    -- otherwise the loop could take a payload or see the end of the mailbox
    by_contra hmail
    have hready : s.receive E ≠ none := by
      intro hno
      unfold Sys.receive at hno
      split at hno
      · cases hno
      · cases hno
      · next hpoll =>
        refine hmail ?_
        unfold Mpsc.pollNext at hpoll
        split at hpoll
        · cases hpoll
        · next hnil =>
          split at hpoll
          · cases hpoll
          · next hsend => exact ⟨hnil, hsend⟩
    rcases hs : E.stream with _ | items
    · have := hnone .recv rfl
      simp only [Sys.loopStep, hb, hp, hs, Bool.false_eq_true, if_false] at this
      exact hready this
    · have := hnone (.select ⟨false, false⟩) (by
        simp only [Sys.worksSilent, Sys.works, Label.draws, Bool.false_or, Bool.not_false,
          Bool.and_true, Bool.or_eq_true, Bool.not_eq_true', List.isEmpty_eq_false_iff,
          decide_eq_true_eq]
        by_contra hno
        rw [not_or, not_not] at hno
        exact hmail hno)
      simp [Sys.loopStep, hb, hp, hs] at this
  -- in every other phase the loop has a step of its own
  | starting | refreshStarting i | finishing | stopping =>
    have := hnone (.hook w) rfl
    simp [Sys.loopStep, hb, Sys.hook, hp] at this
  | refreshStopping i =>
    have := hnone (.hook w) rfl
    simp only [Sys.loopStep, hb, Sys.hook, hp, Bool.false_eq_true, if_false] at this
    split at this <;> cases this
  | task i fut =>
    have := hnone (.pollTask w ⟨false, false⟩) rfl
    simp [Sys.loopStep, hb, hp] at this
  | item x fut =>
    have := hnone (.pollItem w) rfl
    simp [Sys.loopStep, hb, hp] at this
  | leaving o =>
    have hdrop := hnone .dropContext rfl
    have := hnone .notify rfl
    cases hd : s.dropsContext <;> simp [Sys.loopStep, hb, hp, hd] at hdrop this
  | releasing o =>
    have hdrop := hnone .dropContext rfl
    have := hnone .release rfl
    cases hd : s.dropsContext <;> simp [Sys.loopStep, hb, hp, hd] at hdrop this

/-- Everything that was pushed is with the loop or answered. -/
theorem quiet_settled [Nonempty A.World] (h : E.Reachable a c s) {o : Op A} (ho : o ∈ s.ops) :
    o.state.live = false := by
  obtain ⟨i, hi⟩ := List.mem_iff_getElem?.mp ho
  have hphase := quiet_phase hq h
  have hqueue : s.chan.queue = [] := by
    rcases hphase with ⟨e, hp⟩ | ⟨-, hnil, -⟩
    · exact h.logged.dropped (by rw [h.receiverHeld, hp]; rfl)
    · exact hnil
  have hparked : s.chan.parked = [] := by
    rw [h.fitted.parked, Mpsc.excess, hqueue]
    split <;> simp
  have hnone : ∀ l : OpLabel A, l.inner = true → s.opStep l = none :=
    fun l hl => hq (.op l) (by simp [Sys.worksSilent, Sys.works, hl, Label.draws])
  cases hst : o.state with
  | begun => exact absurd hst (quiet_begun hq hi)
  | flushing =>
    -- nothing is parked on an empty queue
    have := hnone (.flush i) rfl
    simp [Sys.opStep, hi, hst, hparked] at this
  | awaiting =>
    -- its response channel is settled: the payload is neither queued nor in progress
    obtain ⟨e, he, hid⟩ := h.pushed.waiting hi (.inr hst)
    obtain ⟨o', ho', hpay, -⟩ := h.enqueued.op e he
    rw [hid, hi, Option.some_inj] at ho'
    subst ho'
    have hresp : e.payload.responds = true := by
      have := (h.shaped i o hi).waits hst
      rw [hpay]
      cases hm : o.method <;> simp [hm, Method.responds, Method.payload, Payload.responds] at this ⊢
    have hne : s.answers i ≠ .pending := by
      rcases h.answered.waiting e he hresp with hne | hmem | ⟨fut, hp⟩
      · rwa [hid] at hne
      · rw [hqueue] at hmem
        cases hmem
      · rcases hphase with ⟨x, hp'⟩ | ⟨hp', -⟩ <;> rw [hp] at hp' <;> cases hp'
    have := hnone (.respond i) rfl
    cases hans : s.answers i with
    | pending => exact absurd hans hne
    | sent r => simp [Sys.opStep, hi, hst, hans, Oneshot.poll] at this
    | canceled => simp [Sys.opStep, hi, hst, hans, Oneshot.poll] at this
  | returned r => rfl
  | dropped => rfl

theorem quiet_joins {st : JoinState A} (hst : st ∈ s.joins) :
    st ≠ .created ∧ (st = .holding → s.phase.isEnded = false) := by
  obtain ⟨j, hj⟩ := List.mem_iff_getElem?.mp hst
  have hnone : s.pollJoin j = none := hq (.watch (.pollJoin j)) rfl
  constructor
  · rintro rfl
    simp only [Sys.pollJoin, hj] at hnone
    split at hnone
    · split at hnone <;> cases hnone
    · cases hnone
  · rintro rfl
    simp only [Sys.pollJoin, hj, Option.map_eq_none_iff] at hnone
    cases hp : s.phase with
    | ended o => cases o <;> simp [hp, Phase.output] at hnone
    | _ => rfl

/-- Where no step of the runtime is enabled, nobody waits. -/
theorem atRest [Nonempty A.World] (h : E.Reachable a c s) : s.AtRest where
  returned := fun o ho => quiet_settled hq h ho
  joined := fun st hst => quiet_joins hq hst
  loop := by
    rcases quiet_phase hq h with hp | ⟨hp, hnil, hsend⟩
    · exact .inl hp
    · refine .inr ⟨hp, hnil, ?_⟩
      have hno : ∀ o ∈ s.ops, o.pendingFuture = false := fun o ho => by
        simp [Op.pendingFuture, quiet_settled hq h ho]
      -- a sender is left, and it is no unfinished `send` that keeps it
      have hstrong : s.StrongHandle := by
        by_contra hn
        exact hsend ((h.counted.senders_eq_zero (quiet_contextBusy hq h)).mpr ⟨hn, hno⟩)
      rcases hstrong with hhd | ⟨o, ho, hl, -⟩
      · exact hhd
      · rw [quiet_settled hq h ho] at hl
        cases hl
  handled := by
    intro hend
    obtain ⟨hp, hnil, -⟩ : s.phase = .receiving ∧ s.chan.queue = [] ∧ s.chan.senders ≠ 0 := by
      rcases quiet_phase hq h with ⟨o, hp⟩ | hp
      · rw [hp] at hend
        cases hend
      · exact hp
    -- what was accepted was taken, and what was taken is handled
    have hexact := h.worked.exact (by rw [hp]; rfl)
    rw [hp] at hexact
    rw [h.queued hend, hnil, List.append_nil, hexact]
    exact (List.append_nil _).symm

end Quiet

end Environment.Reachable

/-! ### What the runtime does to an operation -/

theorem Sys.opStep_inner {s t : Sys A} {l : OpLabel A} (hl : l.inner = true)
    (h : s.opStep l = some t) : ∃ i o st, s.ops[i]? = some o ∧ st ≠ .dropped ∧
      t.ops = s.ops.set i { o with state := st } := by
  cases l with
  | push i =>
    simp only [opStep] at h
    split at h
    · next o ho =>
      split at h
      · cases h
        obtain ⟨st, hops, rfl | rfl⟩ := s.pushOp_ops i o
        · refine ⟨i, o, _, ho, ?_, hops⟩
          cases o.method <;> simp [Method.afterPush]
        · exact ⟨i, o, _, ho, by simp, hops⟩
      · cases h
    · cases h
  | flush i =>
    simp only [opStep] at h
    split at h
    · next o ho =>
      split at h
      · split at h
        · cases h
        · cases h
          refine ⟨i, o, _, ho, ?_, rfl⟩
          unfold Method.afterFlush
          split <;> simp
      · cases h
    · cases h
  | respond i =>
    simp only [opStep] at h
    split at h
    · next o ho =>
      split at h
      · cases h
        exact ⟨i, o, _, ho, by simp, rfl⟩
      · cases h
        exact ⟨i, o, _, ho, by simp, rfl⟩
      · cases h
    · cases h
  | begin m i | beginContext m | drop i => cases hl

namespace Environment

variable {E : Environment A} {a : A.State} {c : A.Ctx} {s t : Sys A}

/-- Only the one who awaits a future drops it. -/
theorem step_not_dropped {l : Label A} (h : E.step s l = some t) {i : ℕ}
    (hl : l ≠ .op (.drop i)) (hi : ∃ o, s.ops[i]? = some o ∧ o.state ≠ .dropped) :
    ∃ o, t.ops[i]? = some o ∧ o.state ≠ .dropped := by
  obtain ⟨o, ho, hd⟩ := hi
  have hset : ∀ {j o' st}, s.ops[j]? = some o' → (j = i → st ≠ OpState.dropped) →
      t.ops = s.ops.set j { o' with state := st } →
      ∃ o, t.ops[i]? = some o ∧ o.state ≠ .dropped := by
    intro j o' st hj hst hops
    by_cases hij : j = i
    · subst hij
      refine ⟨{ o' with state := st }, ?_, hst rfl⟩
      rw [hops, List.getElem?_set_self (List.getElem?_eq_some_iff.mp hj).1]
    · exact ⟨o, by rw [hops, List.getElem?_set_ne hij, ho], hd⟩
  cases l with
  | op l =>
    have hop : s.opStep l = some t := h
    have hold : ∀ o', t.ops = s.ops ++ [o'] → ∃ o, t.ops[i]? = some o ∧ o.state ≠ .dropped := by
      intro o' hops
      rw [hops, List.getElem?_append_left (List.getElem?_eq_some_iff.mp ho).1]
      exact ⟨o, ho, hd⟩
    cases l with
    | begin m j =>
      cases Sys.opStep_labels hop with
      | begin | upgraded | refused => exact hold _ rfl
      | move l k o' st hl => simp at hl
    | beginContext m =>
      cases Sys.opStep_labels hop with
      | context | contextRefused => exact hold _ rfl
      | move l k o' st hl => simp at hl
    | push j | flush j | respond j =>
      obtain ⟨k, o', st, hk, hst, hops⟩ := Sys.opStep_inner rfl hop
      exact hset hk (fun _ => hst) hops
    | drop j =>
      cases Sys.opStep_labels hop with
      | move l k o' st hk ho' hm =>
        obtain rfl : j = k := by simpa using hk
        exact hset ho' (fun hij => absurd (hij ▸ rfl) hl) rfl
  | handle l | loop l | watch l => exact ⟨o, by rw [step_ops h (by simp), ho], hd⟩

/-- The runtime makes no handles and drops none. -/
theorem works_handles {l : Label A} (hw : s.works l = true) (h : E.step s l = some t) :
    t.handles = s.handles := by
  cases l with
  | handle l => cases hw
  | op l =>
    obtain ⟨es, hst⟩ := Sys.opStep_cases h
    cases hst <;> rfl
  | loop l =>
    obtain ⟨-, es, hst⟩ := Sys.loopStep_cases h
    exact hst.untouched.handles
  | watch l =>
    cases l with
    | pollJoin j =>
      simp only [step, Sys.watchStep, Sys.pollJoin] at h
      split at h
      · split at h
        · split at h <;> cases h <;> rfl
        · cases h
          rfl
      · obtain ⟨out, -, rfl⟩ := Option.map_eq_some_iff.mp h
        rfl
      · cases h
    | await i | join i | dropJoin j => cases hw

/-- Whatever the schedule, the runtime comes to rest. -/
theorem Reachable.settles [Nonempty A.World] {rank : A.Fut → ℕ} (hf : A.Finishing rank)
    (h : E.Reachable a c s) :
    E.system.Inevitably Sys.worksSilent (fun t => E.Reachable a c t ∧ t.AtRest) s := by
  refine (Machine.inevitably_quiet Nat.lt_wfRel.wf (Sys.cost rank E 0)
    (fun s l t hs _ hst => hs.trans (.single hst))
    (fun s l t _ hl hst => silent_cost hf hl hst) h).mono ?_
  exact fun t ht => ⟨ht.1, Reachable.atRest ht.2 ht.1⟩

end Environment

/-- **Every operation in progress returns.**  Whoever schedules the loop, the operations
and the joins, they come to rest, and then no operation is in progress any more, no join
waits for anything but the end of the loop, and the loop has handled everything that was
accepted, has ended, or both. -/
theorem requests_settle {E : Environment A} [Nonempty A.World] {rank : A.Fut → ℕ}
    (hf : A.Finishing rank) {a : A.State} {c : A.Ctx} {s : Sys A} (h : E.Reachable a c s) :
    E.system.Inevitably Sys.worksSilent
      (fun t => t.AtRest ∧ ∀ i o, s.ops[i]? = some o → o.state.live = true →
        ∃ r, .returned i r ∈ t.trace) s := by
  have hkeep : ∀ t, (∀ (i : ℕ) (o : Op A), s.ops[i]? = some o → o.state.live = true →
      ∃ o', t.ops[i]? = some o' ∧ o'.state ≠ .dropped) → E.Reachable a c t ∧ t.AtRest →
      t.AtRest ∧ ∀ i o, s.ops[i]? = some o → o.state.live = true →
        ∃ r, .returned i r ∈ t.trace := by
    rintro t hd ⟨ht, hrest⟩
    refine ⟨hrest, fun i o hi hl => ?_⟩
    obtain ⟨o', ho', hne⟩ := hd i o hi hl
    have hlive := hrest.returned o' (List.mem_of_getElem? ho')
    cases hst : o'.state with
    | returned r => exact ⟨r, ht.recorded i o' r ho' hst⟩
    | dropped => exact absurd hst hne
    | _ => simp [hst, OpState.live] at hlive
  -- the runtime drops no future, so at rest each of them has returned
  refine ((h.settles hf).strengthen (I := fun t => ∀ (i : ℕ) (o : Op A), s.ops[i]? = some o →
    o.state.live = true → ∃ o', t.ops[i]? = some o' ∧ o'.state ≠ .dropped) ?_ ?_).mono
      fun t ht => hkeep t ht.1 ht.2
  · rintro i o hi hl
    refine ⟨o, hi, fun hst => ?_⟩
    rw [hst] at hl
    cases hl
  · intro t l u ht hl hst i o hi ho
    simp only [Sys.worksSilent, Bool.and_eq_true] at hl
    refine Environment.step_not_dropped hst ?_ (ht i o hi ho)
    rintro rfl
    cases hl.1

/-- A call and a `send` that waits for room are in progress. -/
theorem requests_settle_of_call : ∃ s, Patient.plain.system.run (Patient.spawn Patient.plain)
      [.op (.begin (.call (1 : ℕ)) 0), .op (.push 0), .op (.begin (.send (2 : ℕ)) 0),
        .op (.push 1)] = some s ∧ s.chan.parked = [1] ∧
      Patient.plain.system.Inevitably Sys.worksSilent
        (fun t => t.AtRest ∧ ∀ i o, s.ops[i]? = some o → o.state.live = true →
          ∃ r, .returned i r ∈ t.trace) s :=
  ⟨_, rfl, rfl, requests_settle Patient.finishing (a := (0 : ℕ)) (c := ())
    ⟨[.op (.begin (.call (1 : ℕ)) 0), .op (.push 0), .op (.begin (.send (2 : ℕ)) 0),
      .op (.push 1)], rfl⟩⟩

theorem work?_eq_id {l : List (Envelope A)} (h : ∀ e ∈ l, e.payload ≠ .stop) :
    l.filterMap Envelope.work? = l.map Envelope.id := by
  rw [← List.filterMap_eq_map]
  refine List.filterMap_congr fun e he => ?_
  cases hp : e.payload <;> simp [Envelope.work?, hp]
  exact h e he hp

namespace Environment.Reachable

variable {E : Environment A} {a : A.State} {c : A.Ctx} {s : Sys A}

/-- A loop that went well to its end handled what it took up to a `Stop`, or up to the end of
its mailbox or of its stream. -/
theorem ended_taken (h : E.Reachable a c s) {b : A.State} (hp : s.phase = .ended (.ok b)) :
    ∃ l, (∀ e ∈ l, e.payload ≠ .stop) ∧ concluded s.trace = l.map Envelope.id ∧
      ((∃ e, e.payload = .stop ∧ taken s.trace = l ++ [e]) ∨
        taken s.trace = l ∧ (.mailboxEnd ∈ s.trace ∨ .streamEnd ∈ s.trace)) := by
  obtain ⟨l, x, ht, hx, hl⟩ := h.turned.closed (by rw [hp]; rfl)
  have htaken : taken s.trace = l.filterMap id ++ x.toList := by
    have hturns : (turns s.trace).filterMap id = taken s.trace := by
      rw [turns, List.filterMap_filterMap, taken]
      exact List.filterMap_congr fun ev _ => by cases ev <;> rfl
    rw [← hturns, ht, List.filterMap_append]
    cases x <;> rfl
  have hno : ∀ e ∈ l.filterMap id, e.payload ≠ .stop := by
    intro e he hst
    obtain ⟨y, hy, hye⟩ := List.mem_filterMap.mp he
    have hgo := hl y hy
    rw [show y = some e from hye] at hgo
    simp [endsTurns, hst] at hgo
  refine ⟨l.filterMap id, hno, ?_, ?_⟩
  · -- the last turn, a `Stop` or an end, leaves nothing to be done with
    have hexact := h.worked.exact (by rw [hp]; rfl)
    rw [hp, htaken, List.filterMap_append, work?_eq_id hno] at hexact
    have hlast : x.toList.filterMap Envelope.work? = [] := by
      cases x with
      | none => rfl
      | some e => cases hpay : e.payload <;> simp [endsTurns, hpay, Envelope.work?] at hx ⊢
    rw [hlast, List.append_nil] at hexact
    exact (hexact.trans (List.append_nil _)).symm
  · cases x with
    | some e =>
      refine .inl ⟨e, ?_, htaken⟩
      cases hpay : e.payload <;> simp [endsTurns, hpay] at hx ⊢
    | none =>
      refine .inr ⟨htaken.trans (List.append_nil _), ?_⟩
      obtain ⟨ev, hev, hturn⟩ := List.mem_filterMap.mp (show none ∈ turns s.trace by simp [ht])
      cases ev with
      | mailboxEnd => exact .inl hev
      | streamEnd => exact .inr hev
      | _ => cases hturn

theorem concluded_at_end (h : E.Reachable a c s) (hs : E.stream = none) {b : A.State}
    (hp : s.phase = .ended (.ok b)) (hn : ∀ e ∈ accepted s.trace, e.payload ≠ .stop) :
    concluded s.trace = (accepted s.trace).filterMap Envelope.work? := by
  obtain ⟨l, -, hl, ⟨e, he, ht⟩ | ⟨ht, hm | hm⟩⟩ := h.ended_taken hp
  · exact absurd he (hn e (h.logged.ordered.subset (by simp [ht])))
  · rw [work?_eq_id hn, (h.drained hm).2, ht, hl]
  · exact absurd hm (h.no_streamEnd hs)

end Environment.Reachable

/-- **An actor that nobody holds comes to its end.**  Where all handles that are left are
weak, the loop ends under every schedule; if it ends well and no `Stop` was sent, it has
handled everything that was accepted. -/
theorem dropped_settles {E : Environment A} [Nonempty A.World] {rank : A.Fut → ℕ}
    (hf : A.Finishing rank) (hs : E.stream = none) {a : A.State} {c : A.Ctx} {s : Sys A}
    (h : E.Reachable a c s) (hn : ∀ hd ∈ s.handles, hd.alive = true → hd.kind.strong = false) :
    E.system.Inevitably Sys.worksSilent
      (fun t => t.AtRest ∧ (∃ o, t.phase = .ended o) ∧
        ∀ b, t.phase = .ended (.ok b) → (∀ e ∈ accepted t.trace, e.payload ≠ .stop) →
          concluded t.trace = (accepted t.trace).filterMap Envelope.work?) s := by
  refine ((h.settles hf).strengthen (I := fun t => t.handles = s.handles) rfl ?_).mono ?_
  · intro t l u ht hl hst
    simp only [Sys.worksSilent, Bool.and_eq_true] at hl
    exact (Environment.works_handles hl.1 hst).trans ht
  · rintro t ⟨hh, ht, hrest⟩
    refine ⟨hrest, hrest.loop.resolve_right ?_, fun b hp => ht.concluded_at_end hs hp⟩
    rintro ⟨-, -, hd, hmem, hal, hst⟩
    rw [hn hd (hh ▸ hmem) hal] at hst
    cases hst

/-- A message is queued when the last strong handle is dropped. -/
theorem dropped_settles_of_send : ∃ s, Patient.plain.system.run (Patient.spawn Patient.plain)
      [.op (.begin (.forceSend (1 : ℕ)) 0), .op (.push 0), .handle (.drop 0)] = some s ∧
      s.chan.queue.length = 1 ∧ Patient.plain.system.Inevitably Sys.worksSilent
        (fun t => t.AtRest ∧ (∃ o, t.phase = .ended o) ∧
          ∀ b, t.phase = .ended (.ok b) → (∀ e ∈ accepted t.trace, e.payload ≠ .stop) →
            concluded t.trace = (accepted t.trace).filterMap Envelope.work?) s := by
  refine ⟨_, rfl, rfl, dropped_settles Patient.finishing rfl (a := (0 : ℕ)) (c := ())
    ⟨[.op (.begin (.forceSend (1 : ℕ)) 0), .op (.push 0), .handle (.drop 0)], rfl⟩ ?_⟩
  intro hd hmem hal
  rw [List.mem_singleton.mp hmem] at hal
  cases hal

/-- **An actor on a stream that ends comes to its end.**  If it ends well without a `Stop`,
and not because nobody can send to it any more, it has handled every item. -/
theorem stream_settles {E : Environment A} [Nonempty A.World] {rank : A.Fut → ℕ}
    (hf : A.Finishing rank) {items : ℕ → Option A.Item} (hs : E.stream = some items) {n : ℕ}
    (hn : items n = none) {a : A.State} {c : A.Ctx} {s : Sys A} (h : E.Reachable a c s) :
    E.system.Inevitably Sys.works
      (fun t => t.AtRest ∧ (∃ o, t.phase = .ended o) ∧
        ∀ b, t.phase = .ended (.ok b) → (∀ e ∈ taken t.trace, e.payload ≠ .stop) →
          .mailboxEnd ∉ t.trace → items (itemsHandled t.trace).length = none) s := by
  have hcost : ∀ s l t, E.Reachable a c s → s.works l = true → E.step s l = some t →
      t.cost rank E n < s.cost rank E n := by
    intro s l t hr hl hst
    have := E.step_cost (n := n) hf
      (fun _ items' hi x hx => hr.cursor_lt hi (by rw [← hn]; simp_all) hx) hst
    rw [Sys.works_grant rank hl, hl] at this
    simp only [if_true] at this
    omega
  refine (Machine.inevitably_quiet Nat.lt_wfRel.wf (Sys.cost rank E n)
    (fun s l t hs _ hst => hs.trans (.single hst)) hcost h).mono ?_
  rintro t ⟨ht, hquiet⟩
  have hsilent : E.system.Quiet Sys.worksSilent t := by
    intro l hl
    simp only [Sys.worksSilent, Bool.and_eq_true] at hl
    exact hquiet l hl.1
  have hrest : t.AtRest := Environment.Reachable.atRest hsilent ht
  have hend : ∃ o, t.phase = .ended o := by
    -- a loop that waits could draw from its stream
    refine hrest.loop.resolve_right fun hp => ?_
    have hb := Environment.Reachable.quiet_contextBusy hsilent ht
    have := hquiet (.loop (.select ⟨true, true⟩)) rfl
    simp [Environment.system, Environment.step, Sys.loopStep, hb, hp.1, hs] at this
  refine ⟨hrest, hend, fun b hp hstop hmail => ht.items_at_end hs (by rw [hp]; rfl) ?_⟩
  obtain ⟨l, -, -, ⟨e, he, htk⟩ | ⟨-, hm | hm⟩⟩ := ht.ended_taken hp
  · exact absurd he (hstop e (by simp [htk]))
  · exact absurd hm hmail
  · exact hm

/-- The actor has just been spawned on a stream of two items. -/
theorem stream_settles_of_spawn : Patient.streaming.system.Inevitably Sys.works
    (fun t => t.AtRest ∧ (∃ o, t.phase = .ended o) ∧
      ∀ b, t.phase = .ended (.ok b) → (∀ e ∈ taken t.trace, e.payload ≠ .stop) →
        .mailboxEnd ∉ t.trace → Patient.items (itemsHandled t.trace).length = none)
    (Patient.spawn Patient.streaming) :=
  stream_settles (E := Patient.streaming) (a := (0 : ℕ)) (c := ()) Patient.finishing rfl
    (n := 2) rfl (.refl _ _)

end Hannibal
