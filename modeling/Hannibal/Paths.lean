/-
Two ways to send the same payload.

An operation is begun once on an `Addr` and once on a handle derived from it, with
the same payload.  Two states are `Paired` when they differ in how that one operation
is carried out: what it holds, and whether it still waits for room.  A step of one is
answered in the other, by the same step or, where the operation is flushed on one
side only, by none; so whole runs are answered (`Paired.runs`).

* `Environment.Reachable.unparked` — the wait for room is over when the response is
  there;
* `LoopStep.graft` — what the loop does depends on the mailbox and not on who holds
  its transmitters;
* `derived_handles_faithful` — what is sent through a derived handle is sent as
  through the `Addr`.
-/
import Hannibal.Conversions
import Hannibal.Backpressure
import Hannibal.Requests

/-- A clone that is parked waits for an item of the queue. -/
theorem Mpsc.Fitted.mem_queue {ι π : Type*} {key : π → ι} {c : Mpsc ι π} (h : c.Fitted key)
    {i : ι} (hi : i ∈ c.parked) : ∃ p ∈ c.queue, key p = i := by
  rw [h] at hi
  obtain ⟨p, hp, hk⟩ := List.mem_map.mp hi
  refine ⟨p, ?_, hk⟩
  unfold excess at hp
  split at hp
  · cases hp
  · exact List.mem_of_mem_drop hp

namespace Hannibal

variable {A : Actor}

/-- **The wait for room never outlasts the wait for the response.** -/
theorem Environment.Reachable.unparked {E : Environment A} {a : A.State} {c : A.Ctx} {s : Sys A}
    (h : E.Reachable a c s) {i : ℕ} (ha : s.answers i ≠ .pending) : i ∉ s.chan.parked := by
  intro hi
  obtain ⟨e, he, rfl⟩ := h.fitted.parked.mem_queue hi
  have hrec : s.chan.receiver = true := by
    by_contra hrec
    rw [h.logged.dropped (by simpa using hrec)] at he
    cases he
  rcases h.answered.settled e.id ha with hend | ⟨⟨d, hd, hid⟩, -⟩
  · rw [h.receiverHeld, hend] at hrec
    cases hrec
  · -- what was taken does not wait in the mailbox any more
    have hnd := h.enqueued.nodup
    rw [h.logged.queued hrec, List.map_append, List.nodup_append] at hnd
    exact hnd.2.2 _ (List.mem_map_of_mem hd) _ (List.mem_map_of_mem he) hid

namespace Sys

/-- The state with other references, operations and sender clones, and another history. -/
def graft (s : Sys A) (a : Arcs) (o : List (Op A)) (n : ℕ) (tr : List (Event A)) : Sys A :=
  { s with chan := { s.chan with senders := n }, arcs := a, ops := o, trace := tr }

section Graft

variable (s : Sys A) (a : Arcs) (o : List (Op A)) (n : ℕ) (tr : List (Event A))

@[simp] theorem graft_phase : (s.graft a o n tr).phase = s.phase := rfl

@[simp] theorem graft_dropsContext : (s.graft a o n tr).dropsContext = s.dropsContext := rfl

theorem crash_graft (e : Exit A) : (s.graft a o n tr).crash e = (s.crash e).graft a o n tr := by
  obtain ⟨_, _, _, _, _, phase, _⟩ := s
  cases phase <;> rfl

theorem suspended_graft : (s.graft a o n tr).suspended = s.suspended := by
  obtain ⟨_, _, _, _, _, phase, _⟩ := s
  cases phase <;> rfl

end Graft

variable {E : Environment A} {s t : Sys A} {es : List (Event A)}

theorem Receives.graft (h : s.Receives E es) (a : Arcs) (o : List (Op A)) (n : ℕ)
    (tr : List (Event A)) : (s.graft a o n tr).Receives E es := by
  cases h with
  | plain hp => exact .plain hp
  | second hp hs => exact .second hp hs

/-- A round that finds its mailbox ready is one the loop can take. -/
theorem Receives.label (h : s.Receives E es) (hb : s.contextBusy = false)
    (ht : (s.record es).receive E = some t) : ∃ l, s.loopStep E l = some t := by
  cases h with
  | plain hp =>
    have ht : s.receive E = some t := by simpa [record] using ht
    rcases hs : E.stream with _ | items
    · exact ⟨.recv, by simp [loopStep, hb, hp, hs, ht]⟩
    · exact ⟨.select ⟨false, false⟩, by simp [loopStep, hb, hp, hs, select, ht]⟩
  | second hp hs =>
    rcases hs' : E.stream with _ | items
    · exact absurd hs' hs
    · exact ⟨.select ⟨true, false⟩, by simp [loopStep, hb, hp, hs', select, ht]⟩

/-- The loop does the same in both, as long as senders are left. -/
theorem LoopStep.graft (h : s.LoopStep E t es) (hn : 0 < s.chan.senders)
    (hpend : es = [.streamPending] → s.chan.queue = []) {a : Arcs} {o : List (Op A)} {n : ℕ}
    (hn' : 0 < n) (tr : List (Event A)) (hb : (s.graft a o n tr).contextBusy = false) :
    ∃ l, (s.graft a o n tr).loopStep E l = some (t.graft a o n (tr ++ es)) := by
  cases h with
  | startOk w es a' c u hp h | startErr w es e a' c hp h =>
    refine ⟨.hook w, ?_⟩
    cases hp with
    | first hp | refresh i hp =>
      simp only [loopStep, hb]
      simp [hook, Sys.graft, hp, startedHook, h, record]
  | refreshStop w i hp hR =>
    refine ⟨.hook w, ?_⟩
    simp only [loopStep, hb]
    rcases hr : E.strategy with _ | _ | _ <;>
      simp [hook, Sys.graft, hp, hr, stoppedHook, record] at hR ⊢
  | recreate w i hp hR =>
    refine ⟨.hook w, ?_⟩
    simp only [loopStep, hb]
    simp [hook, Sys.graft, hp, hR, stoppedHook, Sys.recreate, record]
  | finishing w hp =>
    refine ⟨.hook w, ?_⟩
    simp only [loopStep, hb]
    simp [hook, Sys.graft, hp, finishedHook, record]
  | stopping w hp =>
    refine ⟨.hook w, ?_⟩
    simp only [loopStep, hb]
    simp [hook, Sys.graft, hp, stoppedHook, record]
  | takeTask es e q f hr hq hg =>
    refine (hr.graft a o n tr).label hb ?_
    rcases hs : E.stream with _ | items <;>
      simp [Sys.graft, receive, Mpsc.pollNext, hq, onPayload, hs, createLoopMatch,
        createLoopOnStreamMatch, hg, beginTask, record, Mpsc.advance]
  | takeStop es e q hr hq hg =>
    refine (hr.graft a o n tr).label hb ?_
    rcases hs : E.stream with _ | items <;>
      simp [Sys.graft, receive, Mpsc.pollNext, hq, onPayload, hs, createLoopMatch,
        createLoopOnStreamMatch, hg, record, Mpsc.advance, Environment.afterLoop]
  | takeRestart e q hp hs hq hg hR =>
    refine (Receives.plain (E := E) hp |>.graft a o n tr).label hb ?_
    rcases hr : E.strategy with _ | _ | _ <;>
      simp [Sys.graft, receive, Mpsc.pollNext, hq, onPayload, hs, createLoopMatch, hg, refresh,
        hr, record, Mpsc.advance] at hR ⊢
  | ignoreRestart e q hp hs hq hg hR =>
    refine (Receives.plain (E := E) hp |>.graft a o n tr).label hb ?_
    simp [Sys.graft, receive, Mpsc.pollNext, hq, onPayload, hs, createLoopMatch, hg, refresh,
      hR, record, Mpsc.advance]
  | restartPanic es e q hr hs hq hg =>
    refine (hr.graft a o n tr).label hb ?_
    rcases hs' : E.stream with _ | items
    · exact absurd hs' hs
    · simp [Sys.graft, receive, Mpsc.pollNext, hq, onPayload, hs', createLoopOnStreamMatch, hg,
        record, Mpsc.advance]
  | mailboxEnd es hr hq hc => omega -- a sender is left
  | takeItem items x hp hs hx | streamEnd items hp hs hx =>
    refine ⟨.select ⟨true, true⟩, ?_⟩
    simp only [loopStep, hb, graft_phase, hp]
    simp [Sys.graft, hp, hs, select, receiveItem, hx, record]
  | streamPending hp hs =>
    -- the other one finds its mailbox empty too, so it polls and waits
    refine ⟨.select ⟨true, false⟩, ?_⟩
    simp only [loopStep, hb, graft_phase, hp]
    rcases hs' : E.stream with _ | items
    · exact absurd hs' hs
    · simp [Sys.graft, hp, select, receive, Mpsc.pollNext, hpend rfl, hn'.ne', record]
  | taskPending i w sel fut fut' a' c hp h =>
    refine ⟨.pollTask w sel, ?_⟩
    simp only [loopStep, hb, graft_phase, hp]
    simp [Sys.graft, hp, pollTask, h, record]
  | taskDone i w sel fut reply a' c hp h =>
    refine ⟨.pollTask w sel, ?_⟩
    simp only [loopStep, hb, graft_phase, hp]
    simp [Sys.graft, hp, pollTask, h, complete, record]
  | taskOverran i w sel fut a' c hp h =>
    refine ⟨.pollTask w sel, ?_⟩
    simp only [loopStep, hb, graft_phase, hp]
    simp [Sys.graft, hp, pollTask, h, overrun, dropAnswer, record]
  | itemPending x w fut fut' a' c hp h | itemDone x w fut r a' c hp h =>
    refine ⟨.pollItem w, ?_⟩
    simp only [loopStep, hb, graft_phase, hp]
    simp [Sys.graft, hp, pollItem, h, record]
  | crash e hor hp =>
    rw [List.append_nil, ← crash_graft]
    rcases hor with ⟨rfl, hc⟩ | rfl
    · refine ⟨.panic, ?_⟩
      simp only [loopStep, hb, graft_phase]
      exact if_pos hc
    · refine ⟨.drop, ?_⟩
      simp only [loopStep, hb]
      exact if_pos ((s.suspended_graft a o n tr).trans hp)
  | notify e hp hd =>
    refine ⟨.notify, ?_⟩
    simp only [loopStep, hb, graft_phase, graft_dropsContext, hp, hd]
    simp [Sys.graft, hp, Sys.notify, record]
  | dropContext hd =>
    refine ⟨.dropContext, ?_⟩
    simp only [loopStep, hb, graft_dropsContext, hd]
    simp [Sys.graft, Sys.dropContext]
  | release e hp hd =>
    refine ⟨.release, ?_⟩
    simp only [loopStep, hb, graft_phase, graft_dropsContext, hp, hd]
    simp [Sys.graft, hp, Sys.release, record, Mpsc.close]

/-- A round that finds the stream not ready and records nothing else found the mailbox
empty. -/
theorem queue_of_streamPending {l : LoopLabel A} (h : s.loopStep E l = some t)
    (hl : s.LoopStep E t [.streamPending]) : s.chan.queue = [] := by
  have hp : s.phase = .receiving ∧ E.stream ≠ none ∧ t = s.record [.streamPending] := by
    generalize hes : ([.streamPending] : List (Event A)) = es at hl
    cases hl with
    | streamPending hp hs => exact ⟨hp, hs, rfl⟩
    | takeTask es e q f hr | takeStop es e q hr | restartPanic es e q hr | mailboxEnd es hr =>
      obtain ⟨-, rfl | rfl⟩ := hr.events <;> simp at hes
    | _ => simp at hes
  obtain ⟨hp, hs, rfl⟩ := hp
  rcases hq : s.chan.queue with _ | ⟨e, q⟩
  · rfl
  -- with a payload at hand the round would have taken it
  · exfalso
    rcases hs' : E.stream with _ | items
    · exact hs hs'
    unfold loopStep at h
    split at h
    · cases h
    · cases l with
      | select sel =>
        simp only [hp, hs', Option.some.injEq] at h
        have hitem : s.receiveItem items ≠ s.record [.streamPending] := by
          intro he
          have hphase := congrArg Sys.phase he
          rw [record_phase, hp] at hphase
          unfold receiveItem at hphase
          split at hphase <;> cases hphase
        have htake : ∀ x : Sys A, x.chan.queue = e :: q →
            ∃ y, x.receive E = some y ∧ y.chan.queue = q := by
          intro x hx
          simp only [receive, Mpsc.pollNext, hx, onPayload, hs', createLoopOnStreamMatch]
          split <;> exact ⟨_, rfl, by simp [beginTask, hx]⟩
        have hlater : ∀ x y : Sys A, x.chan.queue = e :: q →
            (x.receive E).getD y ≠ s.record [.streamPending] := by
          intro x y hx he
          obtain ⟨z, hz, hzq⟩ := htake x hx
          rw [hz, Option.getD_some] at he
          rw [he, record_chan, hq] at hzq
          simp at hzq
        unfold select at h
        split at h
        · split at h
          · exact hitem h
          · exact hlater (s.record [.streamPending]) _ hq h
        · exact hlater _ _ hq h
      | hook w => simp [hook, hp] at h
      | drop =>
        simp only [suspended, hp, if_true, Option.some.injEq] at h
        have := congrArg Sys.phase h
        simp [crash, hp] at this
      | dropContext => simp [dropsContext, hp] at h
      | _ => simp [hp, hs', Phase.hasContext] at h

end Sys

/-! ### States that differ in one operation -/

/-- The payload is in the mailbox and what follows is the operation's own business: it may
still wait for room, or for its response if it gets one. -/
def OpState.accepted (responds : Bool) : OpState A → Bool
  | .flushing => true
  | .awaiting => responds
  | .returned (.ok none) => !responds
  | _ => false

/-- How far two operations that send the same payload may be apart. -/
inductive Apart (responds : Bool) : OpState A → OpState A → Prop where
  | begun : Apart responds .begun .begun
  | accepted (st st' : OpState A) (h : st.accepted responds = true)
      (h' : st'.accepted responds = true) : Apart responds st st'
  | returned (r : Except ActorError (Option (Reply A))) : Apart responds (.returned r) (.returned r)

theorem Apart.symm {b : Bool} {st st' : OpState A} (h : Apart b st st') : Apart b st' st := by
  cases h with
  | begun => exact .begun
  | accepted st st' h h' => exact .accepted _ _ h' h
  | returned r => exact .returned r

/-- A payload that is not pushed on one side is not pushed on the other. -/
theorem Apart.begun_left {b : Bool} {st' : OpState A} (h : Apart b .begun st') : st' = .begun := by
  cases h with
  | begun => rfl
  | accepted _ _ h => cases h

theorem Method.accepted_afterPush (m : Method A) : m.afterPush.accepted m.responds = true := by
  cases m <;> rfl

theorem Method.accepted_afterFlush (m : Method A) : m.afterFlush.accepted m.responds = true := by
  cases m <;> rfl

/-- What is recorded of everything but the return of the operation `i`. -/
def besides (i : ℕ) (t : List (Event A)) : List (Event A) :=
  t.filter fun ev =>
    match ev with
    | .returned j _ => j ≠ i
    | _ => true

theorem besides_append (i : ℕ) (t u : List (Event A)) :
    besides i (t ++ u) = besides i t ++ besides i u := List.filter_append ..

/-- The operation runs on one of two handles, or on none of the table. -/
def Op.On (h h' : ℕ) (o : Op A) : Prop :=
  o.access ≠ .context ∧ ∀ k, o.access = .borrowed k → k = h ∨ k = h'

/-- `t` is `s`, but for how the operation `i` is carried out: it sends the same payload on
the handle `h'` instead of `h`. -/
structure Paired (i h h' : ℕ) (s t : Sys A) : Prop where
  same : t = s.graft t.arcs t.ops t.chan.senders t.trace
  trace : besides i t.trace = besides i s.trace
  length : t.ops.length = s.ops.length
  others : ∀ j, j ≠ i → t.ops[j]? = s.ops[j]?
  own : ∃ o o', s.ops[i]? = some o ∧ t.ops[i]? = some o' ∧
    o'.method.payload = o.method.payload ∧ Apart o.method.responds o.state o'.state ∧
    o.On h h' ∧ o'.On h h'

theorem Method.responds_of_payload {m m' : Method A} (h : m'.payload = m.payload) :
    m'.responds = m.responds := by
  cases m <;> cases m' <;> simp [Method.payload] at h <;> rfl

/-- Nothing of the rest of the operation happens outside these labels. -/
def Label.keeps (i h h' : ℕ) : Label A → Bool
  | .op (.drop j) => j ≠ i
  | .handle (.drop k) => k ≠ h && k ≠ h'
  | _ => true

namespace Paired

variable {E : Environment A} {i h h' : ℕ} {s t s' t' : Sys A} {a : A.State} {c : A.Ctx}

theorem symm (hA : Paired i h h' s t) : Paired i h h' t s := by
  obtain ⟨o, o', ho, ho', hpay, hst, hon, hon'⟩ := hA.own
  refine ⟨?_, hA.trace.symm, hA.length.symm, fun j hj => (hA.others j hj).symm, o', o, ho', ho,
    hpay.symm, ?_, hon', hon⟩
  · have hsame := hA.same
    rw [hsame]
    rfl
  · rw [Method.responds_of_payload hpay]
    exact hst.symm

theorem graft (hA : Paired i h h' s t) : ∃ x o n tr, t = s.graft x o n tr := ⟨_, _, _, _, hA.same⟩

/-- A step that leaves the operations alone and records the same in both. -/
theorem frame (hA : Paired i h h' s t)
    (hsame : t' = s'.graft t'.arcs t'.ops t'.chan.senders t'.trace) {es : List (Event A)}
    (htr : s'.trace = s.trace ++ es) (htr' : t'.trace = t.trace ++ es) (ho : s'.ops = s.ops)
    (ho' : t'.ops = t.ops) : Paired i h h' s' t' where
  same := hsame
  trace := by rw [htr, htr', besides_append, besides_append, hA.trace]
  length := by rw [ho, ho', hA.length]
  others := by
    rw [ho, ho']
    exact hA.others
  own := by
    rw [ho, ho']
    exact hA.own

/-- A step that starts the same operation in both. -/
theorem append (hA : Paired i h h' s t)
    (hsame : t' = s'.graft t'.arcs t'.ops t'.chan.senders t'.trace) {es : List (Event A)}
    (htr : s'.trace = s.trace ++ es) (htr' : t'.trace = t.trace ++ es) {x : Op A}
    (ho : s'.ops = s.ops ++ [x]) (ho' : t'.ops = t.ops ++ [x]) : Paired i h h' s' t' where
  same := hsame
  trace := by rw [htr, htr', besides_append, besides_append, hA.trace]
  length := by rw [ho, ho', List.length_append, List.length_append, hA.length]
  others j hj := by
    rw [ho, ho', List.getElem?_append, List.getElem?_append, hA.length, hA.others j hj]
  own := by
    obtain ⟨o, o', hi, hi', hrest⟩ := hA.own
    refine ⟨o, o', ?_, ?_, hrest⟩
    · rw [ho, List.getElem?_append_left (List.getElem?_eq_some_iff.mp hi).1]
      exact hi
    · rw [ho', List.getElem?_append_left (List.getElem?_eq_some_iff.mp hi').1]
      exact hi'

/-- A step that moves the same other operation in both. -/
theorem set (hA : Paired i h h' s t)
    (hsame : t' = s'.graft t'.arcs t'.ops t'.chan.senders t'.trace) {es : List (Event A)}
    (htr : s'.trace = s.trace ++ es) (htr' : t'.trace = t.trace ++ es) {j : ℕ} (hj : j ≠ i)
    {x : Op A} (ho : s'.ops = s.ops.set j x) (ho' : t'.ops = t.ops.set j x) :
    Paired i h h' s' t' where
  same := hsame
  trace := by rw [htr, htr', besides_append, besides_append, hA.trace]
  length := by rw [ho, ho', List.length_set, List.length_set, hA.length]
  others k hk := by
    rw [ho, ho', List.getElem?_set, List.getElem?_set, hA.length, hA.others k hk]
  own := by
    obtain ⟨o, o', hi, hi', hrest⟩ := hA.own
    refine ⟨o, o', ?_, ?_, hrest⟩
    · rw [ho, List.getElem?_set_ne hj]
      exact hi
    · rw [ho', List.getElem?_set_ne hj]
      exact hi'

/-- What does not depend on the operation `i` is asked of the same operations in both. -/
theorem any (hA : Paired i h h' s t) {p : Op A → Bool} (hp : ∀ o, Op.On h h' o → p o = false) :
    t.ops.any p = s.ops.any p := by
  suffices hle : ∀ {s t : Sys A}, Paired i h h' s t → s.ops.any p = true → t.ops.any p = true by
    rw [Bool.eq_iff_iff]
    exact ⟨hle hA.symm, hle hA⟩
  intro s t hA hs
  obtain ⟨o, hmem, ho⟩ := List.any_eq_true.mp hs
  obtain ⟨j, hj⟩ := List.getElem?_of_mem hmem
  by_cases hji : j = i
  · obtain ⟨o₁, o₂, hi, -, -, -, hon, -⟩ := hA.own
    rw [hji, hi, Option.some_inj] at hj
    rw [← hj, hp o₁ hon] at ho
    cases ho
  · rw [← hA.others j hji] at hj
    exact List.any_eq_true.mpr ⟨o, List.mem_of_getElem? hj, ho⟩

theorem contextBusy (hA : Paired i h h' s t) : t.contextBusy = s.contextBusy :=
  hA.any fun o hon => by simp [hon.1]

theorem borrowed (hA : Paired i h h' s t) {k : ℕ} (hk : k ≠ h) (hk' : k ≠ h') :
    t.borrowed k = s.borrowed k := by
  refine hA.any fun o hon => ?_
  have hne : o.access ≠ .borrowed k := fun ha => (hon.2 k ha).elim hk hk'
  simp [hne]

end Paired

/-! ### Answering a step -/

theorem Arcs.upgrade_congr {x y : Arcs} (hx : 0 < x.tx ∧ 0 < x.force)
    (hy : 0 < y.tx ∧ 0 < y.force) (w : HandleKind) : x.upgrade w = y.upgrade w := by
  cases w <;> simp [Arcs.upgrade, hx.1, hx.2, hy.1, hy.2]

/-- Both transmitters and a sender are left. -/
structure Sys.Reached (s : Sys A) : Prop where
  arcs : 0 < s.arcs.tx ∧ 0 < s.arcs.force
  senders : 0 < s.chan.senders

/-- An `Addr` keeps them. -/
theorem Sys.Counted.reached {s : Sys A} (hs : s.Counted) {h : ℕ} {hd : Handle}
    (hh : s.handle? h = some hd) (hk : hd.kind = .addr) : s.Reached := by
  obtain ⟨htx, hforce⟩ := hs.handle_le hh
  rw [hk] at htx hforce
  have htx : 0 < s.arcs.tx := htx
  have hforce : 0 < s.arcs.force := hforce
  refine ⟨⟨htx, hforce⟩, ?_⟩
  rw [hs.senders, Arcs.closures, if_pos htx, if_pos hforce]
  omega

namespace Paired

variable {E : Environment A} {i h h' : ℕ} {s t s' t' : Sys A} {a : A.State} {c : A.Ctx}

theorem handleStep (hA : Paired i h h' s t) (hs : s.Reached) (ht : t.Reached) {l : HandleLabel}
    (hl : (Label.handle (A := A) l).keeps i h h' = true) (hst : s.handleStep l = some s') :
    ∃ t', t.handleStep l = some t' ∧ Paired i h h' s' t' := by
  have hbor : ∀ k, k ≠ h → k ≠ h' → t.borrowed k = s.borrowed k := fun k => hA.borrowed
  obtain ⟨x, o, n, tr, rfl⟩ := hA.graft
  have hnil : ∀ u : List (Event A), u = u ++ [] := fun u => (List.append_nil u).symm
  have hadd : ∀ k b, Paired i h h' (s.addHandle k b) ((s.graft x o n tr).addHandle k b) :=
    fun k b => hA.frame rfl (hnil _) (hnil _) rfl rfl
  cases l with
  | derive k j =>
    simp only [Sys.handleStep] at hst
    split at hst
    · next hd hhd =>
      split at hst
      · next hj =>
        cases hst
        refine ⟨_, ?_, hadd j hd.spent⟩
        simp only [Sys.handleStep, show (s.graft x o n tr).handle? k = some hd from hhd, hj,
          if_true]
      · cases hst
    · cases hst
  | upgrade k =>
    simp only [Sys.handleStep] at hst
    split at hst
    · next hd hhd =>
      split at hst
      · next j hj =>
        cases hst
        rw [Arcs.upgrade_congr hs.arcs ht.arcs] at hj
        refine ⟨_, ?_, hadd j hd.spent⟩
        simp only [Sys.handleStep, show (s.graft x o n tr).handle? k = some hd from hhd, hj]
      · cases hst
    · cases hst
  | contextHandle k =>
    simp only [Sys.handleStep] at hst ⊢
    split at hst
    · next hp =>
      rw [if_pos (show (s.graft x o n tr).phase.hasContext = true from hp)]
      cases k with
      | addr =>
        simp only [Sys.contextHandle] at hst ⊢
        rw [← Arcs.upgrade_congr hs.arcs ht.arcs]
        obtain ⟨j, hj, rfl⟩ := Option.map_eq_some_iff.mp hst
        exact ⟨_, Option.map_eq_some_iff.mpr ⟨j, hj, rfl⟩, hadd j false⟩
      | weakSender | weakCaller =>
        cases hst
        exact ⟨_, rfl, hadd _ false⟩
      | _ => cases hst
    · cases hst
  | drop k =>
    simp only [Label.keeps, Bool.and_eq_true, ne_eq] at hl
    simp only [Sys.handleStep] at hst
    split at hst
    · next hd hhd =>
      split at hst
      · cases hst
      · next hb =>
        -- `k` is neither of the two handles that are compared
        cases hst
        refine ⟨(s.graft x o n tr).dropHandle k hd, ?_, hA.frame rfl (hnil _) (hnil _) rfl rfl⟩
        simp only [Sys.handleStep, show (s.graft x o n tr).handle? k = some hd from hhd,
          hbor k (by simpa using hl.1) (by simpa using hl.2), hb]
        rfl
    · cases hst

theorem watchStep (hA : Paired i h h' s t) {l : WatchLabel} (hst : s.watchStep l = some s') :
    ∃ t', t.watchStep l = some t' ∧ Paired i h h' s' t' := by
  obtain ⟨x, o, n, tr, rfl⟩ := hA.graft
  have hnil : ∀ u : List (Event A), u = u ++ [] := fun u => (List.append_nil u).symm
  cases l with
  | await k =>
    simp only [Sys.watchStep] at hst ⊢
    rw [show (s.graft x o n tr).handle? k = s.handle? k from rfl]
    split at hst
    · next hd hhd =>
      rw [show (s.graft x o n tr).running = s.running from rfl]
      split at hst
      · next hk =>
        simp only [hk, if_true]
        split at hst
        · next r hr =>
          cases hst
          exact ⟨_, rfl, hA.frame rfl rfl rfl rfl rfl⟩
        · cases hst
      · cases hst
    · cases hst
  | join k =>
    simp only [Sys.watchStep] at hst ⊢
    rw [show (s.graft x o n tr).handle? k = s.handle? k from rfl]
    split at hst
    · next hd hhd =>
      split at hst
      · next hk =>
        cases hst
        simp only [hk, if_true]
        exact ⟨_, rfl, hA.frame rfl (hnil _) (hnil _) rfl rfl⟩
      · cases hst
    · cases hst
  | pollJoin j =>
    simp only [Sys.watchStep, Sys.pollJoin] at hst ⊢
    rw [show (s.graft x o n tr).joins = s.joins from rfl,
      show (s.graft x o n tr).joinSlot = s.joinSlot from rfl,
      show (s.graft x o n tr).phase = s.phase from rfl]
    split at hst
    · next hj =>
      split at hst
      · next hs =>
        split at hst <;> cases hst <;>
        · next ho =>
          simp only [hs, if_true]
          exact ⟨_, rfl, hA.frame rfl rfl rfl rfl rfl⟩
      · next hs =>
        cases hst
        simp only [if_neg hs]
        exact ⟨_, rfl, hA.frame rfl rfl rfl rfl rfl⟩
    · next hj =>
      obtain ⟨out, ho, rfl⟩ := Option.map_eq_some_iff.mp hst
      exact ⟨_, Option.map_eq_some_iff.mpr ⟨out, ho, rfl⟩, hA.frame rfl rfl rfl rfl rfl⟩
    · cases hst
  | dropJoin j =>
    simp only [Sys.watchStep] at hst ⊢
    rw [show (s.graft x o n tr).joins = s.joins from rfl]
    split at hst
    · cases hst
    · next st hd hj =>
      cases hst
      exact ⟨_, rfl, hA.frame rfl (hnil _) (hnil _) rfl rfl⟩
    · cases hst

theorem loopStep (hA : Paired i h h' s t) (hs : s.Reached) (ht : t.Reached) {l : LoopLabel A}
    (hst : s.loopStep E l = some s') :
    ∃ l' t', t.loopStep E l' = some t' ∧ Paired i h h' s' t' := by
  have hbusy := hA.contextBusy
  obtain ⟨x, o, n, tr, rfl⟩ := hA.graft
  obtain ⟨hb, es, hl⟩ := Sys.loopStep_cases hst
  have hpend : es = [.streamPending] → s.chan.queue = [] := by
    rintro rfl
    exact Sys.queue_of_streamPending hst hl
  obtain ⟨l', hl'⟩ := hl.graft hs.senders hpend ht.senders tr (hbusy.trans hb)
  exact ⟨l', _, hl', hA.frame rfl hl.trace rfl hl.untouched.ops rfl⟩

/-- A step that moves the operation `i` in both. -/
theorem both (hA : Paired i h h' s t)
    (hsame : t' = s'.graft t'.arcs t'.ops t'.chan.senders t'.trace) {es es' : List (Event A)}
    (htr : s'.trace = s.trace ++ es) (htr' : t'.trace = t.trace ++ es')
    (hes : besides i es' = besides i es) {o o' : Op A} (ho : s.ops[i]? = some o)
    (ho' : t.ops[i]? = some o') {st st' : OpState A} (hst : Apart o.method.responds st st')
    (hops : s'.ops = s.ops.set i { o with state := st })
    (hops' : t'.ops = t.ops.set i { o' with state := st' }) : Paired i h h' s' t' where
  same := hsame
  trace := by rw [htr, htr', besides_append, besides_append, hA.trace, hes]
  length := by rw [hops, hops', List.length_set, List.length_set, hA.length]
  others j hj := by
    rw [hops, hops', List.getElem?_set_ne hj.symm, List.getElem?_set_ne hj.symm, hA.others j hj]
  own := by
    obtain ⟨x, x', hx, hx', hpay, -, hon, hon'⟩ := hA.own
    rw [ho, Option.some_inj] at hx
    rw [ho', Option.some_inj] at hx'
    subst hx hx'
    refine ⟨{ o with state := st }, { o' with state := st' }, ?_, ?_, hpay, hst, hon, hon'⟩
    · rw [hops, List.getElem?_set_self (List.getElem?_eq_some_iff.mp ho).1]
    · rw [hops', List.getElem?_set_self (List.getElem?_eq_some_iff.mp ho').1]

theorem besides_returnEvents (i : ℕ) (st : OpState A) : besides i (Sys.returnEvents i st) = [] := by
  cases st with
  | returned r => simp [Sys.returnEvents, besides]
  | _ => rfl

/-- A step that moves it in one of them only. -/
theorem left (hA : Paired i h h' s t) {o o' : Op A} (ho : s.ops[i]? = some o)
    (ho' : t.ops[i]? = some o') {st : OpState A} (hst : Apart o.method.responds st o'.state) :
    Paired i h h' ((s.setOp i o st).record (Sys.returnEvents i st)) t := by
  refine hA.both hA.same rfl (List.append_nil _).symm ?_ ho ho' hst rfl ?_
  · rw [besides_returnEvents]
    rfl
  · obtain ⟨hlt, hget⟩ := List.getElem?_eq_some_iff.mp ho'
    show t.ops = t.ops.set i o'
    rw [← hget, List.set_getElem_self]

/-- A push is refused or accepted in both. -/
theorem push (hA : Paired i h h' s t) {j : ℕ} (hst : s.opStep (.push j) = some s') :
    ∃ t', t.opStep (.push j) = some t' ∧ Paired i h h' s' t' := by
  have hothers := hA.others
  obtain ⟨q, q', hq, hq', hpay, hap, -⟩ := hA.own
  obtain ⟨x, p, n, tr, rfl⟩ := hA.graft
  simp only [Sys.opStep] at hst
  split at hst
  · next o ho =>
    split at hst
    · next hbegun =>
      cases hst
      by_cases hj : j = i
      · subst hj
        rw [ho, Option.some_inj] at hq
        subst hq
        have hbegun' : q'.state = .begun := Apart.begun_left (hbegun ▸ hap)
        have henv : Sys.envelope j q' = Sys.envelope j o := by rw [Sys.envelope, hpay]; rfl
        refine ⟨(s.graft x p n tr).pushOp j q', ?_, ?_⟩
        · simp only [Sys.opStep, hq', hbegun']
        by_cases hrec : s.chan.receiver = true
        · -- both wait in the mailbox at the same place
          rw [Sys.pushOp, Sys.pushOp, henv]
          simp only [Mpsc.push, show (s.graft x p n tr).chan.receiver = true from hrec, hrec,
            if_true]
          refine hA.both rfl rfl rfl ?_ ho hq' (.accepted _ _ ?_ ?_) rfl rfl
          · rw [← List.singleton_append, besides_append, besides_returnEvents,
              ← List.singleton_append (l := Sys.returnEvents j o.method.afterPush),
              besides_append, besides_returnEvents]
          · exact o.method.accepted_afterPush
          · rw [← Method.responds_of_payload hpay]
            exact q'.method.accepted_afterPush
        · rw [Sys.pushOp, Sys.pushOp]
          simp only [Mpsc.push, show ¬(s.graft x p n tr).chan.receiver = true from hrec,
            hrec]
          exact hA.both rfl rfl rfl rfl ho hq' (.returned _) rfl rfl
      · have ho' : (s.graft x p n tr).ops[j]? = some o := (hothers j hj).trans ho
        refine ⟨(s.graft x p n tr).pushOp j o, ?_, ?_⟩
        · simp only [Sys.opStep, ho', hbegun]
        by_cases hrec : s.chan.receiver = true
        · rw [Sys.pushOp, Sys.pushOp]
          simp only [Mpsc.push, show (s.graft x p n tr).chan.receiver = true from hrec, hrec,
            if_true]
          exact hA.set rfl rfl rfl hj rfl rfl
        · rw [Sys.pushOp, Sys.pushOp]
          simp only [Mpsc.push, show ¬(s.graft x p n tr).chan.receiver = true from hrec,
            hrec]
          exact hA.set rfl rfl rfl hj rfl rfl
    · cases hst
  · cases hst

/-- Once the response is there, the other operation can be brought to wait for it. -/
theorem awaits (hA : Paired i h h' s t) (ht : E.Reachable a c t) {o : Op A}
    (ho : s.ops[i]? = some o) (hw : o.state = .awaiting) (ha : s.answers i ≠ .pending) :
    ∃ t', (E.system.only (Label.keeps i h h')).Reaches t t' ∧ Paired i h h' s t' ∧
      ∃ o', t'.ops[i]? = some o' ∧ o'.state = .awaiting := by
  obtain ⟨o₁, o', ho₁, ho', hpay, hap, -⟩ := hA.own
  rw [ho, Option.some_inj] at ho₁
  subst ho₁
  have hresp := Method.responds_of_payload hpay
  have hor : o'.state = .awaiting ∨ o'.state = .flushing ∧ o'.method.responds = true := by
    rw [hw] at hap
    generalize o'.state = st' at hap ⊢
    cases hap with
    | accepted _ _ hb hb' =>
      have hb : o.method.responds = true := hb
      cases st' with
      | awaiting => exact .inl rfl
      | flushing => exact .inr ⟨rfl, hresp.trans hb⟩
      | returned r =>
        rcases r with _ | _ | _ <;> simp [OpState.accepted, hb] at hb'
      | _ => cases hb'
  rcases hor with hw' | ⟨hfl, hr⟩
  · exact ⟨t, .refl _ t, hA, o', ho', hw'⟩
  · -- its clone is not parked any more
    have hpark : i ∉ t.chan.parked := ht.unparked (by rw [hA.same]; exact ha)
    have haf : o'.method.afterFlush = .awaiting := if_pos hr
    have hst : t.opStep (.flush i) =
        some ((t.setOp i o' .awaiting).record (Sys.returnEvents i .awaiting)) := by
      simp only [Sys.opStep, ho', hfl, if_neg hpark, haf]
    refine ⟨_, .single (l := .op (.flush i)) (Machine.only_step.mpr ⟨rfl, hst⟩), ?_, _,
      List.getElem?_set_self (List.getElem?_eq_some_iff.mp ho').1, rfl⟩
    refine (hA.symm.left ho' ho ?_).symm
    rw [hw]
    exact .accepted _ _ hr hr

/-- The operation `i` goes on, and the other one goes along. -/
theorem moveOwn (hA : Paired i h h' s t) (ht : E.Reachable a c t) {l : OpLabel A}
    (hl : l = .flush i ∨ l = .respond i) (hst : s.opStep l = some s') :
    ∃ t', (E.system.only (Label.keeps i h h')).Reaches t t' ∧ Paired i h h' s' t' := by
  obtain ⟨o, o', ho, ho', hpay, hap, -⟩ := hA.own
  rcases hl with rfl | rfl
  · -- the force path has nothing to wait for
    simp only [Sys.opStep, ho] at hst
    split at hst
    · next hfl =>
      split at hst
      · cases hst
      · cases hst
        refine ⟨t, .refl _ t, hA.left ho ho' ?_⟩
        rw [hfl] at hap
        generalize o'.state = st' at hap ⊢
        cases hap with
        | accepted _ _ _ h' => exact .accepted _ _ o.method.accepted_afterFlush h'
    · cases hst
  · simp only [Sys.opStep, ho] at hst
    have hgo : o.state = .awaiting → s.answers i ≠ .pending →
        (∀ t' o'', Paired i h h' s t' → t'.ops[i]? = some o'' → o''.state = .awaiting →
          ∃ u, t'.opStep (.respond i) = some u ∧ Paired i h h' s' u) →
        ∃ t', (E.system.only (Label.keeps i h h')).Reaches t t' ∧ Paired i h h' s' t' := by
      intro hw ha hlast
      obtain ⟨t', ht', hA', o'', ho'', hw''⟩ := hA.awaits ht ho hw ha
      obtain ⟨u, hu, hAu⟩ := hlast t' o'' hA' ho'' hw''
      exact ⟨u, ht'.trans (.single (l := .op (.respond i)) (Machine.only_step.mpr ⟨rfl, hu⟩)), hAu⟩
    split at hst
    · next r hw hpoll =>
      cases hst
      refine hgo hw (fun hp => by simp [hp, Oneshot.poll] at hpoll) fun t' o'' hA' ho'' hw'' => ?_
      obtain ⟨x, p, n, tr, rfl⟩ := hA'.graft
      refine ⟨((s.graft x p n tr).setOp i o'' (.returned (.ok (some r)))).record
        [.returned i (.ok (some r))], ?_, hA'.both rfl rfl rfl rfl ho ho'' (.returned _) rfl rfl⟩
      simp only [Sys.opStep, ho'', hw'', show (s.graft x p n tr).answers = s.answers from rfl,
        hpoll]
    · next e hw hpoll =>
      cases hst
      refine hgo hw (fun hp => by simp [hp, Oneshot.poll] at hpoll) fun t' o'' hA' ho'' hw'' => ?_
      obtain ⟨x, p, n, tr, rfl⟩ := hA'.graft
      refine ⟨((s.graft x p n tr).setOp i o'' (.returned (.error .canceled))).record
        [.returned i (.error .canceled)], ?_,
        hA'.both rfl rfl rfl rfl ho ho'' (.returned _) rfl rfl⟩
      simp only [Sys.opStep, ho'', hw'', show (s.graft x p n tr).answers = s.answers from rfl,
        hpoll]
    · cases hst

/-- The same other operation goes on in both. -/
theorem moveOther (hA : Paired i h h' s t) {j : ℕ} (hj : j ≠ i) {l : OpLabel A}
    (hl : l = .flush j ∨ l = .respond j ∨ l = .drop j) (hst : s.opStep l = some s') :
    ∃ t', t.opStep l = some t' ∧ Paired i h h' s' t' := by
  have ho' := hA.others j hj
  obtain ⟨x, p, n, tr, rfl⟩ := hA.graft
  rcases hl with rfl | rfl | rfl
  · simp only [Sys.opStep, ho',
      show (s.graft x p n tr).chan.parked = s.chan.parked from rfl] at hst ⊢
    split at hst
    · next o ho =>
      split at hst
      · split at hst
        · cases hst
        · next hp =>
          cases hst
          exact ⟨_, if_neg hp, hA.set rfl rfl rfl hj rfl rfl⟩
      · cases hst
    · cases hst
  · simp only [Sys.opStep, ho', show (s.graft x p n tr).answers = s.answers from rfl] at hst ⊢
    split at hst
    · next o ho =>
      split at hst
      · next r hw hpoll =>
        cases hst
        exact ⟨((s.graft x p n tr).setOp j o (.returned (.ok (some r)))).record
          [.returned j (.ok (some r))], rfl, hA.set rfl rfl rfl hj rfl rfl⟩
      · next e hw hpoll =>
        cases hst
        exact ⟨((s.graft x p n tr).setOp j o (.returned (.error .canceled))).record
          [.returned j (.error .canceled)], rfl, hA.set rfl rfl rfl hj rfl rfl⟩
      · cases hst
    · cases hst
  · simp only [Sys.opStep, ho'] at hst ⊢
    split at hst
    · next o ho =>
      split at hst
      · next hf =>
        cases hst
        refine ⟨_, if_pos hf, ?_⟩
        exact hA.set rfl (List.append_nil _).symm (List.append_nil _).symm hj rfl rfl
      · cases hst
    · cases hst

/-- The same other operation begins in both, or is refused. -/
theorem begins (hA : Paired i h h' s t) (hs : s.Reached) (ht : t.Reached) {l : OpLabel A}
    (hl : (∃ m k, l = .begin m k) ∨ ∃ m, l = .beginContext m) (hst : s.opStep l = some s') :
    ∃ t', t.opStep l = some t' ∧ Paired i h h' s' t' := by
  have hbusy := hA.contextBusy
  have hlen := hA.length
  obtain ⟨x, p, n, tr, rfl⟩ := hA.graft
  have hlen : p.length = s.ops.length := hlen
  have hbegin : ∀ m b, Paired i h h' (s.beginOp m b) ((s.graft x p n tr).beginOp m b) := by
    intro m b
    refine hA.append rfl rfl ?_ rfl rfl
    show tr ++ [.began p.length] = _
    rw [hlen]
    rfl
  have hrefuse : ∀ m, Paired i h h' (s.refuseOp m) ((s.graft x p n tr).refuseOp m) := by
    intro m
    refine hA.append rfl rfl ?_ rfl rfl
    show tr ++ [.began p.length, .returned p.length _] = _
    rw [hlen]
    rfl
  rcases hl with ⟨m, k, rfl⟩ | ⟨m, rfl⟩
  · simp only [Sys.opStep] at hst ⊢
    rw [show (s.graft x p n tr).handle? k = s.handle? k from rfl,
      show (s.graft x p n tr).arcs = x from rfl]
    split at hst
    · next hd hhd =>
      split at hst
      · next ho =>
        simp only [ho, if_true]
        split at hst
        · next hstrong =>
          cases hst
          exact ⟨_, if_pos hstrong, hbegin m _⟩
        · next hweak =>
          have hup : x.upgrade hd.kind = s.arcs.upgrade hd.kind :=
            (Arcs.upgrade_congr hs.arcs ht.arcs _).symm
          rw [if_neg hweak, hup]
          split at hst
          · cases hst
            exact ⟨_, rfl, hbegin m _⟩
          · cases hst
            exact ⟨_, rfl, hrefuse m⟩
      · cases hst
    · cases hst
  · simp only [Sys.opStep] at hst ⊢
    rw [hbusy, show (s.graft x p n tr).phase = s.phase from rfl]
    have hup : (s.graft x p n tr).contextUpgrades = s.contextUpgrades := by
      have hsf := hs.arcs.2
      have htf : 0 < x.force := ht.arcs.2
      simp [Sys.contextUpgrades, Sys.graft, hsf, htf]
    rw [hup]
    split at hst
    · next hc =>
      rw [if_pos hc]
      split at hst
      · next hf =>
        cases hst
        exact ⟨_, if_pos hf, hbegin m _⟩
      · next hf =>
        cases hst
        exact ⟨_, if_neg hf, hrefuse m⟩
    · cases hst

/-- Every step of an operation is answered. -/
theorem opStep (hA : Paired i h h' s t) (hs : s.Reached) (ht : t.Reached) (hrt : E.Reachable a c t)
    {l : OpLabel A} (hl : (Label.op l).keeps i h h' = true) (hst : s.opStep l = some s') :
    ∃ t', (E.system.only (Label.keeps i h h')).Reaches t t' ∧ Paired i h h' s' t' := by
  have hone : (∃ t', t.opStep l = some t' ∧ Paired i h h' s' t') →
      ∃ t', (E.system.only (Label.keeps i h h')).Reaches t t' ∧ Paired i h h' s' t' := by
    rintro ⟨t', ht', hA'⟩
    exact ⟨t', .single (l := .op l) (Machine.only_step.mpr ⟨hl, ht'⟩), hA'⟩
  cases l with
  | push j => exact hone (hA.push hst)
  | flush j =>
    by_cases hj : j = i
    · exact hA.moveOwn hrt (.inl (hj ▸ rfl)) hst
    · exact hone (hA.moveOther hj (.inl rfl) hst)
  | respond j =>
    by_cases hj : j = i
    · exact hA.moveOwn hrt (.inr (hj ▸ rfl)) hst
    · exact hone (hA.moveOther hj (.inr (.inl rfl)) hst)
  | drop j =>
    have hj : j ≠ i := by simpa [Label.keeps] using hl
    exact hone (hA.moveOther hj (.inr (.inr rfl)) hst)
  | begin m k => exact hone (hA.begins hs ht (.inl ⟨m, k, rfl⟩) hst)
  | beginContext m => exact hone (hA.begins hs ht (.inr ⟨m, rfl⟩) hst)

end Paired

/-- Only these labels, and awaiting the handle, change what the table says of `h`. -/
theorem Environment.addr_kept {E : Environment A} {s t : Sys A} {l : Label A} {i h h' : ℕ}
    (hst : E.step s l = some t) (hl : l.keeps i h h' = true) {hd : Handle}
    (hh : s.handle? h = some hd) (hk : hd.kind = .addr) :
    ∃ hd', t.handle? h = some hd' ∧ hd'.kind = .addr := by
  by_cases hawait : l = .watch (.await h)
  · subst hawait
    simp only [step, Sys.watchStep, hh] at hst
    split at hst
    · split at hst
      · cases hst
        obtain ⟨hget, halive⟩ := Sys.handle?_eq_some.mp hh
        refine ⟨{ hd with spent := true }, Sys.handle?_eq_some.mpr ⟨?_, halive⟩, hk⟩
        exact List.getElem?_set_self (List.getElem?_eq_some_iff.mp hget).1
      · cases hst
    · cases hst
  · refine ⟨hd, step_handle hst hh ?_ hawait, hk⟩
    rintro rfl
    simp [Label.keeps] at hl

/-! ### Whole runs -/

/-- As long as both handles are kept and the operation is awaited, every run of one of the
two is answered by a run of the other that leads to the same mailbox, the same answers and
the same history. -/
structure Matched (E : Environment A) (i h h' : ℕ) (t t' : Sys A) : Prop where
  there : ∀ u, (E.system.only (Label.keeps i h h')).Reaches t u →
    ∃ u', (E.system.only (Label.keeps i h h')).Reaches t' u' ∧ Paired i h h' u u'
  back : ∀ u', (E.system.only (Label.keeps i h h')).Reaches t' u' →
    ∃ u, (E.system.only (Label.keeps i h h')).Reaches t u ∧ Paired i h h' u u'

section Runs

variable {E : Environment A} {i h h' : ℕ} {s t s' t' : Sys A} {a : A.State} {c : A.Ctx}

theorem Paired.handle? (hA : Paired i h h' s t) (k : ℕ) : t.handle? k = s.handle? k := by
  rw [hA.same]
  rfl

theorem Paired.step (hA : Paired i h h' s t) (hs : E.Reachable a c s) (ht : E.Reachable a c t)
    {hd : Handle} (hh : s.handle? h = some hd) (hk : hd.kind = .addr) {l : Label A}
    (hl : l.keeps i h h' = true) (hst : E.step s l = some s') :
    ∃ t', (E.system.only (Label.keeps i h h')).Reaches t t' ∧ Paired i h h' s' t' := by
  have hsr := hs.counted.reached hh hk
  have htr := ht.counted.reached ((hA.handle? h).trans hh) hk
  cases l with
  | handle l =>
    obtain ⟨t', ht', hA'⟩ := hA.handleStep hsr htr hl hst
    exact ⟨t', .single (l := .handle l) (Machine.only_step.mpr ⟨hl, ht'⟩), hA'⟩
  | op l => exact hA.opStep hsr htr ht hl hst
  | loop l =>
    obtain ⟨l', t', ht', hA'⟩ := hA.loopStep hsr htr hst
    exact ⟨t', .single (l := .loop l') (Machine.only_step.mpr ⟨rfl, ht'⟩), hA'⟩
  | watch l =>
    obtain ⟨t', ht', hA'⟩ := hA.watchStep hst
    exact ⟨t', .single (l := .watch l) (Machine.only_step.mpr ⟨rfl, ht'⟩), hA'⟩

/-- Paired states stay alike along whole runs. -/
theorem Paired.runs (hA : Paired i h h' s t) (hs : E.Reachable a c s) (ht : E.Reachable a c t)
    {hd : Handle} (hh : s.handle? h = some hd) (hk : hd.kind = .addr)
    (hr : (E.system.only (Label.keeps i h h')).Reaches s s') :
    ∃ t', (E.system.only (Label.keeps i h h')).Reaches t t' ∧ Paired i h h' s' t' := by
  have hsim := Machine.simulation (M := E.system.only (Label.keeps i h h'))
    (N := E.system.only (Label.keeps i h h'))
    (R := fun u v => Paired i h h' u v ∧ E.Reachable a c u ∧ E.Reachable a c v ∧
      ∃ hd, u.handle? h = some hd ∧ hd.kind = .addr) ?_ ⟨hA, hs, ht, hd, hh, hk⟩ hr
  · obtain ⟨t', ht', hA', -⟩ := hsim
    exact ⟨t', ht', hA'⟩
  · rintro u l u' v ⟨hA, hu, hv, hd, hh, hk⟩ hst
    obtain ⟨hl, hst⟩ := Machine.only_step.mp hst
    obtain ⟨v', hv', hA'⟩ := hA.step hu hv hh hk hl hst
    exact ⟨v', hv', hA', hu.next hst, hv.trans hv'.of_only, Environment.addr_kept hst hl hh hk⟩

theorem Paired.matched (hA : Paired i h h' s t) (hs : E.Reachable a c s) (ht : E.Reachable a c t)
    {hd : Handle} (hh : s.handle? h = some hd) (hk : hd.kind = .addr) : Matched E i h h' s t where
  there u hu := hA.runs hs ht hh hk hu
  back u hu := by
    obtain ⟨u', hu', hA'⟩ := hA.symm.runs ht hs ((hA.handle? h).trans hh) hk hu
    exact ⟨u', hu', hA'.symm⟩

/-- Where the transmitters are left, an operation begins on every handle that offers it. -/
theorem Sys.Reached.begin (hs : s.Reached) {hd : Handle} (hh : s.handle? h = some hd) {m : Method A}
    (ho : hd.kind.offers m = true) : ∃ b, s.opStep (.begin m h) = some (s.beginOp m b) ∧
      b ≠ .context ∧ ∀ k, b = .borrowed k → k = h := by
  simp only [opStep, hh, ho, if_true]
  by_cases hstrong : hd.kind.strong = true
  · rw [if_pos hstrong]
    refine ⟨_, rfl, ?_⟩
    cases hd.kind <;> cases m <;> simp [HandleKind.access]
  · rw [if_neg hstrong]
    have hup : ∃ k, s.arcs.upgrade hd.kind = some k := by
      cases hk : hd.kind <;> rw [hk] at ho hstrong <;>
        simp [Arcs.upgrade, hs.arcs.1, hs.arcs.2, HandleKind.strong] at hstrong ⊢
    obtain ⟨k, hk⟩ := hup
    rw [hk]
    exact ⟨_, rfl, by simp, by simp⟩

/-- Two operations that send the same payload begin alike. -/
theorem Sys.Reached.begin_alike (hs : s.Reached) {hd hd' : Handle} (hh : s.handle? h = some hd)
    (hh' : s.handle? h' = some hd') {m m' : Method A} (ho : hd.kind.offers m = true)
    (ho' : hd'.kind.offers m' = true) (hpay : m'.payload = m.payload) :
    ∃ t t', s.opStep (.begin m h) = some t ∧ s.opStep (.begin m' h') = some t' ∧
      Paired s.ops.length h h' t t' := by
  obtain ⟨b, hb, hc, hbor⟩ := hs.begin hh ho
  obtain ⟨b', hb', hc', hbor'⟩ := hs.begin hh' ho'
  refine ⟨_, _, hb, hb', rfl, rfl, ?_, fun j hj => ?_, ?_⟩
  · show (s.ops ++ [_]).length = (s.ops ++ [_]).length
    rw [List.length_append, List.length_append]
    rfl
  · show (s.ops ++ [_])[j]? = (s.ops ++ [_])[j]?
    by_cases hlt : j < s.ops.length
    · rw [List.getElem?_append_left hlt, List.getElem?_append_left hlt]
    · rw [List.getElem?_eq_none, List.getElem?_eq_none] <;>
        rw [List.length_append, List.length_singleton] <;> omega
  · refine ⟨⟨m, b, .begun⟩, ⟨m', b', .begun⟩, ?_, ?_, hpay, .begun,
      ⟨hc, fun k hk => .inl (hbor k hk)⟩, ⟨hc', fun k hk => .inr (hbor' k hk)⟩⟩
    · exact List.getElem?_concat_length
    · exact List.getElem?_concat_length

/-- Once the response is there, a call that waits for room returns it. -/
theorem Environment.Reachable.call_returns (hs : E.Reachable a c s) {o : Op A}
    (ho : s.ops[i]? = some o) (hfl : o.state = .flushing) (hr : o.method.responds = true)
    (ha : s.answers i ≠ .pending) :
    ∃ t r, E.system.run s [.op (.flush i), .op (.respond i)] = some t ∧
      t.ops[i]? = some { o with state := .returned r } := by
  have hflush : E.step s (.op (.flush i)) =
      some ((s.setOp i o .awaiting).record (Sys.returnEvents i .awaiting)) := by
    have haf : o.method.afterFlush = .awaiting := if_pos hr
    simp only [step, Sys.opStep, ho, hfl, if_neg (hs.unparked ha), haf]
  obtain ⟨hlt, -⟩ := List.getElem?_eq_some_iff.mp ho
  obtain ⟨u, hu, hui, hans⟩ : ∃ u, E.step s (.op (.flush i)) = some u ∧
      u.ops[i]? = some { o with state := .awaiting } ∧ u.answers = s.answers :=
    ⟨_, hflush, List.getElem?_set_self hlt, rfl⟩
  obtain ⟨t, r, ht, hti⟩ : ∃ t r, E.step u (.op (.respond i)) = some t ∧
      t.ops[i]? = some { o with state := .returned r } := by
    have hlt' : i < u.ops.length := (List.getElem?_eq_some_iff.mp hui).1
    simp only [step, Sys.opStep, hui, hans]
    rcases hans' : s.answers i with _ | r | _
    · exact absurd hans' ha
    · exact ⟨_, _, rfl, List.getElem?_set_self hlt'⟩
    · exact ⟨_, _, rfl, List.getElem?_set_self hlt'⟩
  exact ⟨t, r, Machine.run_cons.mpr ⟨u, hu, Machine.run_cons.mpr ⟨t, ht, rfl⟩⟩, hti⟩

end Runs

/-- What a handle `y` derived from the `Addr` `x` is good for. -/
structure FaithfulHandle (E : Environment A) (x : Addr) (y : AnyHandle) : Prop where
  id : y.id = x.contextId
  /-- What is sent through it goes through the transmitters of the `Addr`. -/
  route : ∀ (r : Strong) (m : Method A) τ, y.route r m = some τ → τ = x.route m
  offered : ∀ (r : Strong) (m : Method A), y.kind.offers m = true → r.tx x.payloadTx = true →
    r.force x.payloadForceTx = true → y.route r m = some (x.route m)
  /-- In the handle table a conversion adds the handle it yields. -/
  converted : ∀ a c s, E.Reachable a c s → ∀ h' hd', s.handle? h' = some hd' → hd'.kind = y.kind →
    ∀ r v z, r.Of x s → y.convert r v = some z →
      s.handleStep (v.label h' y.kind) = some (s.addHandle z.kind hd'.spent)
  /-- An operation on it and one on an `Addr` that send the same payload are matched. -/
  matched : ∀ a c s, E.Reachable a c s → ∀ h hd h' hd', s.handle? h = some hd → hd.kind = .addr →
    s.handle? h' = some hd' → hd'.kind = y.kind → ∀ m m' : Method A,
      HandleKind.addr.offers m = true → y.kind.offers m' = true → m'.payload = m.payload →
        ∃ t t', E.step s (.op (.begin m h)) = some t ∧ E.step s (.op (.begin m' h')) = some t' ∧
          Matched E s.ops.length h h' t t'
  /-- A call that waits for room returns as soon as its response is there. -/
  returns : ∀ a c s, E.Reachable a c s → ∀ i o, s.ops[i]? = some o → o.state = .flushing →
    o.method.responds = true → s.answers i ≠ .pending →
      ∃ t r, E.system.run s [.op (.flush i), .op (.respond i)] = some t ∧
        t.ops[i]? = some { o with state := .returned r }

/-- **Derived handles are faithful and the two send paths agree.** -/
theorem derived_handles_faithful (E : Environment A) {x : Addr} {l : List (Strong × Conversion)}
    {y : AnyHandle} (hy : (AnyHandle.addr x).convertAll l = some y) : FaithfulHandle E x y where
  id := AnyHandle.convertAll_id hy
  route r m τ := AnyHandle.convertAll_route hy
  offered r m := AnyHandle.convertAll_offers hy
  converted a c s hs h' hd' hh' hk' r v z hr hz := by
    rw [← hk']
    exact AnyHandle.convert_step hr hh' hk'.symm (AnyHandle.convertAll_eq hy) hz
  matched a c s hs h hd h' hd' hh hk hh' hk' m m' ho ho' hpay := by
    obtain ⟨t, t', ht, ht', hA⟩ :=
      (hs.counted.reached hh hk).begin_alike hh hh' (hk ▸ ho) (hk' ▸ ho') hpay
    have ht : E.step s (.op (.begin m h)) = some t := ht
    have ht' : E.step s (.op (.begin m' h')) = some t' := ht'
    have hkeep : (Label.op (.begin m h)).keeps 0 h h' = true := rfl
    obtain ⟨hd₁, hh₁, hk₁⟩ := Environment.addr_kept ht hkeep hh hk
    exact ⟨t, t', ht, ht', hA.matched (hs.next ht) (hs.next ht') hh₁ hk₁⟩
  returns a c s hs i o ho hfl hr ha := hs.call_returns ho hfl hr ha

/-- A `Caller` of a mailbox without room calls as the `Addr` does. -/
theorem derived_handles_faithful_of_caller :
    ∃ s t t', Tally.narrow.system.run (Tally.spawn Tally.narrow)
        [.handle (.derive 0 .addr), .handle (.derive 1 .caller)] = some s ∧
      Tally.narrow.step s (.op (.begin (.call (5 : ℕ)) 1)) = some t ∧
      Tally.narrow.step s (.op (.begin (.callerCall (5 : ℕ)) 2)) = some t' ∧
      Matched Tally.narrow 0 1 2 t t' := by
  have hy : (AnyHandle.addr ⟨7, 1, 2, 3⟩).convertAll [(⟨fun _ => true, fun _ => true⟩, .caller)] =
    some (.caller ⟨1, (⟨1, 7⟩, 7), 7⟩) := rfl
  have hr := Tally.reachable (E := Tally.narrow)
    [.handle (.derive 0 .addr), .handle (.derive 1 .caller)] rfl
  obtain ⟨t, t', ht, ht', hm⟩ := (derived_handles_faithful Tally.narrow hy).matched _ _ _ hr
    1 _ 2 _ rfl rfl rfl rfl (.call (5 : ℕ)) (.callerCall (5 : ℕ)) rfl rfl rfl
  exact ⟨_, t, t', rfl, ht, ht', hm⟩

end Hannibal
