/-
The backlog of the timers.

`interval_with` awaits its sends, so it goes back to sleep only when its message is within
the buffer; `interval` forces them and waits for nothing.  What exceeds the buffer is
counted by the parked clones (`Mpsc.Fitted.countP_le`):

* `Sys.Blocked` — an awaited send whose clone is parked has not returned;
* `Timed.Paced` — a timer has one message that exceeds the buffer or is about to;
* **`timer_backlog_bounded`** — at most `n + k` messages of `k` timers wait in a mailbox
  with a buffer of `n`, as long as no `interval` wakes while its last message exceeds the
  buffer;
* `not_timer_backlog_bounded` — an `interval` alone exceeds any bound.
-/
import Hannibal.Backpressure
import Hannibal.Timers

open scoped List

/-- Of the items in the queue at most `n` have clones that are not parked. -/
theorem Mpsc.Fitted.countP_le {ι π : Type*} {key : π → ι} {c : Mpsc ι π} (h : c.Fitted key)
    {n : ℕ} (hn : c.buffer = some n) (p : ι → Bool) :
    c.queue.countP (fun a => p (key a)) ≤ n + c.parked.countP p := by
  have hexcess : c.parked = (c.queue.drop n).map key := by
    rw [h, excess, hn]
  have hfront : (c.queue.take n).countP (fun a => p (key a)) ≤ n :=
    List.countP_le_length.trans (List.length_take_le n _)
  have hback : (c.queue.drop n).countP (fun a => p (key a)) = c.parked.countP p := by
    rw [hexcess, List.countP_map]
    rfl
  have hall : c.queue.countP (fun a => p (key a)) = (c.queue.take n).countP (fun a => p (key a)) +
      (c.queue.drop n).countP fun a => p (key a) := by
    rw [← List.countP_append, List.take_append_drop]
  omega

namespace Hannibal

section Actor

variable {A : Actor}

namespace Sys

/-- A step parks at most the clone of the payload that it pushes. -/
theorem step_parked {E : Environment A} {s t : Sys A} {es : List (Event A)} (h : E.Step s t es) :
    t.chan.parked <+ s.chan.parked ∨ ∃ k o, s.ops[k]? = some o ∧ o.state = .begun ∧
      t.ops = s.ops.set k { o with state := o.method.afterPush } ∧
      t.chan.parked = s.chan.parked ++ [k] := by
  cases h with
  | handle l h =>
    obtain ⟨hl, ar, n, rfl⟩ := handleStep_frame h
    exact .inl (.refl _)
  | op es h =>
    cases h with
    | push i o d ho hst hc =>
      unfold Mpsc.push at hc
      split at hc
      · cases hc
        by_cases hfull : s.chan.full = true
        · exact .inr ⟨i, o, ho, hst, rfl, if_pos hfull⟩
        · refine .inl ?_
          show (if s.chan.full then _ else s.chan.parked) <+ _
          rw [if_neg hfull]
      · cases hc
    | _ => exact .inl (.refl _)
  | loop es hb h =>
    refine .inl ?_
    cases h with
    | takeTask | takeStop | takeRestart | ignoreRestart | restartPanic =>
      exact List.tail_sublist _
    | release => exact List.nil_sublist _
    | crash o ho hs =>
      unfold Sys.crash
      split <;> exact .refl _
    | _ => exact .refl _
  | watch es h => cases h <;> exact .inl (.refl _)

/-- An awaited operation whose clone is parked waits for room or was dropped there. -/
def Blocked (s : Sys A) : Prop := ∀ j ∈ s.chan.parked, ∃ o, s.ops[j]? = some o ∧
  (o.method.awaited = true → o.state = .flushing ∨ o.state = .dropped)

theorem Blocked.step {E : Environment A} {s t : Sys A} {es : List (Event A)} (hs : s.Blocked)
    (h : E.Step s t es) : t.Blocked := by
  have hpark := step_parked h
  -- what was parked before still waits
  have hold : ∀ j ∈ s.chan.parked, ∃ o, t.ops[j]? = some o ∧
      (o.method.awaited = true → o.state = .flushing ∨ o.state = .dropped) := by
    intro j hj
    obtain ⟨o, ho, hw⟩ := hs j hj
    have hset : ∀ (k : ℕ) (o' : Op A) (st : OpState A), s.ops[k]? = some o' →
        t.ops = s.ops.set k { o' with state := st } →
        (j = k → o.method.awaited = true → st = .dropped) → ∃ o, t.ops[j]? = some o ∧
          (o.method.awaited = true → o.state = .flushing ∨ o.state = .dropped) := by
      intro k o' st hk hops hnew
      by_cases hjk : j = k
      · subst hjk
        rw [ho, Option.some_inj] at hk
        subst hk
        refine ⟨{ o with state := st }, ?_, fun ha => .inr (hnew rfl ha)⟩
        rw [hops, List.getElem?_set_self (List.getElem?_eq_some_iff.mp ho).1]
      · refine ⟨o, ?_, hw⟩
        rw [hops, List.getElem?_set_ne (Ne.symm hjk), ho]
    rcases h.outside with ⟨-, he⟩ | ⟨-, hl⟩
    · cases he with
      | idle es he hops => exact ⟨o, hops ▸ ho, hw⟩
      | add o' hst hops =>
        refine ⟨o, ?_, hw⟩
        rw [hops, List.getElem?_append_left (List.getElem?_eq_some_iff.mp ho).1, ho]
      | accept k o' hk hst hr hops =>
        refine hset k o' _ hk hops fun hjk ha => ?_
        rw [hjk, hk, Option.some_inj] at ho
        rw [← ho, hst] at hw
        rcases hw (ho ▸ ha) with hw | hw <;> cases hw
      | move k o' st hk hm hops =>
        refine hset k o' st hk hops fun hjk ha => ?_
        rw [hjk, hk, Option.some_inj] at ho
        subst ho
        have hwait := hw ha
        cases hm with
        | flushed hst hp => exact absurd (hjk ▸ hj) hp
        | dropped => rfl
        | refused hst | answered r hst | canceled hst =>
          rw [hst] at hwait
          rcases hwait with hwait | hwait <;> cases hwait
    · exact ⟨o, hl.untouched.ops ▸ ho, hw⟩
  intro j hj
  rcases hpark with hsub | ⟨k, o, hk, hst, hops, happ⟩
  · exact hold j (hsub.subset hj)
  · rw [happ, List.mem_append, List.mem_singleton] at hj
    rcases hj with hj | rfl
    · exact hold j hj
    · refine ⟨{ o with state := o.method.afterPush }, ?_, fun ha => .inl ?_⟩
      · rw [hops, List.getElem?_set_self (List.getElem?_eq_some_iff.mp hk).1]
      · show o.method.afterPush = _
        revert ha
        cases o.method <;> simp [Method.awaited, Method.afterPush]

/-- What returned stays as it is. -/
theorem returned_step {E : Environment A} {s t : Sys A} {es : List (Event A)} (h : E.Step s t es)
    {j : ℕ} {o : Op A} (ho : s.ops[j]? = some o) {r : Except ActorError (Option (Reply A))}
    (hr : o.state = .returned r) : t.ops[j]? = some o := by
  have hset : ∀ (k : ℕ) (o' : Op A) (st : OpState A), s.ops[k]? = some o' →
      o'.state.live = true → t.ops = s.ops.set k { o' with state := st } →
      t.ops[j]? = some o := by
    intro k o' st hk hlive hops
    have hkj : k ≠ j := by
      rintro rfl
      rw [ho, Option.some_inj] at hk
      rw [← hk, hr] at hlive
      cases hlive
    rw [hops, List.getElem?_set_ne hkj, ho]
  rcases h.outside with ⟨-, he⟩ | ⟨-, hl⟩
  · cases he with
    | idle es he hops => exact hops ▸ ho
    | add o' hst hops =>
      rw [hops, List.getElem?_append_left (List.getElem?_eq_some_iff.mp ho).1, ho]
    | accept k o' hk hst hrec hops => exact hset k o' _ hk (by rw [hst]; rfl) hops
    | move k o' st hk hm hops => exact hset k o' st hk hm.live hops
  · exact hl.untouched.ops ▸ ho

end Sys

end Actor

variable {B : Behaviour}

namespace Timed

variable {E : Environment B.actor} {x y : Timed B}

/-- The operation `j` is a send of the timer `i`. -/
def sentBy (x : Timed B) (i j : ℕ) : Bool := x.sends.contains (i, j)

theorem sentBy_iff {x : Timed B} {i j : ℕ} : x.sentBy i j = true ↔ (i, j) ∈ x.sends :=
  List.contains_iff_mem

/-- How many messages of the timer exceed the buffer. -/
def beyond (x : Timed B) (i : ℕ) : ℕ := x.sys.chan.parked.countP fun j => x.sentBy i j

/-- How many messages of the timers `T` wait in the mailbox. -/
def waiting (x : Timed B) (T : List ℕ) : ℕ :=
  x.sys.chan.queue.countP fun e => T.any fun i => x.sentBy i e.id

/-- An `interval` wakes only when its last message is within the buffer. -/
def Unhurried (x : Timed B) (l : TimedLabel B) (_ : Timed B) : Prop :=
  ∀ (i : ℕ) (task : TimerTask B.Message), l = .wake i → x.sys.context.tasks[i]? = some task →
    task.kind = .interval → x.beyond i = 0

/-- Whose sends the operations are, and how far they have got. -/
structure Sent (x : Timed B) : Prop where
  method : ∀ p ∈ x.sends, ∃ o task, x.sys.ops[p.2]? = some o ∧
    (Context.tasks x.sys.ctx)[p.1]? = some task ∧
    (task.kind ≠ .interval → o.method.awaited = true)
  unfinished : ∀ p ∈ x.sends, ∀ o, x.sys.ops[p.2]? = some o → (∀ r, o.state ≠ .returned r) →
    x.phases p.1 = .sending p.2 ∨ x.phases p.1 = .aborted

/-- A timer has at most one message that exceeds the buffer or is about to be pushed. -/
structure Paced (x : Timed B) : Prop where
  owned : x.Owned
  sent : x.Sent
  waits : x.sys.Blocked
  count : ∀ i, x.beyond i + x.pending i ≤ 1

/-- A timer keeps its kind when it is aborted. -/
theorem task_kind {s : Sys B.actor} {i : ℕ} {task : TimerTask B.Message}
    (h : s.context.tasks[i]? = some task) :
    ∃ task', (Context.tasks s.ctx)[i]? = some task' ∧ task'.kind = task.kind := by
  unfold Sys.context at h
  split at h
  · rw [Context.drop, List.getElem?_map] at h
    obtain ⟨task', ht, rfl⟩ := Option.map_eq_some_iff.mp h
    exact ⟨task', ht, rfl⟩
  · exact ⟨task, h, rfl⟩

namespace Sent

theorem sys (h : x.Sent) {t : Sys B.actor} {es : List (Event B.actor)} (hst : E.Step x.sys t es) :
    Sent { x with sys := t } := by
  refine ⟨fun p hp => ?_, fun p hp o' ho' hn => ?_⟩
  · obtain ⟨o, task, ho, ht, hm⟩ := h.method p hp
    have hop : ∃ o', t.ops[p.2]? = some o' ∧ o'.method = o.method := by
      rcases hst.outside with ⟨-, he⟩ | ⟨-, hl⟩
      · exact he.op ho
      · exact ⟨o, hl.untouched.ops ▸ ho, rfl⟩
    obtain ⟨o', ho', hmethod⟩ := hop
    refine ⟨o', task, ho', ?_, fun hk => by rw [hmethod]; exact hm hk⟩
    obtain ⟨calls, hcalls⟩ := hst.ctx_eq
    show (Context.tasks t.ctx)[p.1]? = _
    rw [hcalls, Context.performAll_tasks,
      List.getElem?_append_left (List.getElem?_eq_some_iff.mp ht).1, ht]
  · obtain ⟨o, -, ho, -, -⟩ := h.method p hp
    refine h.unfinished p hp o ho fun r hr => ?_
    have hsame : t.ops[p.2]? = some o := Sys.returned_step hst ho hr
    have ho' : t.ops[p.2]? = some o' := ho'
    rw [hsame, Option.some_inj] at ho'
    exact hn r (ho' ▸ hr)

theorem wake (h : x.Sent) {i : ℕ} (hi : x.phases i = .sleeping)
    {task : TimerTask B.Message}
    (ht : x.sys.context.tasks[i]? = some task) (n : ℕ) :
    (x.woken i (x.sys.trySend (task.method n))).Sent := by
  obtain ⟨⟨o, hm, hops⟩, hctx, -⟩ := x.sys.trySend_adds (task.method n)
  refine ⟨fun p hp => ?_, fun p hp o' ho' hn => ?_⟩
  · rcases List.mem_append.mp hp with hp | hp
    · obtain ⟨o', task', ho', ht', hm'⟩ := h.method p hp
      refine ⟨o', task', ?_, hctx ▸ ht', hm'⟩
      show (x.sys.trySend (task.method n)).ops[p.2]? = _
      rw [hops, List.getElem?_append_left (List.getElem?_eq_some_iff.mp ho').1, ho']
    · obtain rfl := List.mem_singleton.mp hp
      obtain ⟨task', ht', hkind⟩ := task_kind ht
      refine ⟨o, task', ?_, hctx ▸ ht', fun hk => ?_⟩
      · show (x.sys.trySend (task.method n)).ops[x.sys.ops.length]? = _
        rw [hops, List.getElem?_concat_length]
      · rw [hkind] at hk
        rw [hm, TimerTask.method]
        revert hk
        cases task.kind <;> simp [Method.awaited]
  · show Function.update x.phases i _ p.1 = _ ∨ Function.update x.phases i _ p.1 = _
    rcases List.mem_append.mp hp with hp | hp
    · -- an earlier send of a timer that sleeps has returned
      obtain ⟨o'', -, ho'', -, -⟩ := h.method p hp
      have hsame : (x.sys.trySend (task.method n)).ops[p.2]? = some o' := ho'
      rw [hops, List.getElem?_append_left (List.getElem?_eq_some_iff.mp ho'').1] at hsame
      have hphase := h.unfinished p hp o' hsame hn
      have hpi : p.1 ≠ i := by
        rintro rfl
        rcases hphase with hs | hs <;> rw [hi] at hs <;> cases hs
      rw [Function.update_of_ne hpi]
      exact hphase
    · rw [List.mem_singleton.mp hp, Function.update_self]
      exact .inl rfl

theorem setPhase (h : x.Sent) {i : ℕ} {p : TimerPhase} (hp : p = .aborted ∨ ∀ q ∈ x.sends,
    q.1 = i → ∃ o r, x.sys.ops[q.2]? = some o ∧ o.state = .returned r) : (x.setPhase i p).Sent := by
  refine ⟨h.method, fun q hq o ho hn => ?_⟩
  show Function.update x.phases i p q.1 = _ ∨ Function.update x.phases i p q.1 = _
  by_cases hqi : q.1 = i
  · rw [hqi, Function.update_self]
    rcases hp with rfl | hret
    · exact .inr rfl
    · obtain ⟨o', r, ho', hr⟩ := hret q hq hqi
      have ho : x.sys.ops[q.2]? = some o := ho
      rw [ho, Option.some_inj] at ho'
      exact absurd (ho' ▸ hr) (hn r)
  · rw [Function.update_of_ne hqi]
    exact h.unfinished q hq o ho hn

/-- Where a timer has returned from its send, all its sends have returned. -/
theorem returned (h : x.Sent) {i j : ℕ} (hi : x.phases i = .sending j) {o : Op B.actor}
    (ho : x.sys.ops[j]? = some o) {r : Except ActorError (Option (Reply B.actor))}
    (hr : o.state = .returned r) : ∀ q ∈ x.sends, q.1 = i →
      ∃ o r, x.sys.ops[q.2]? = some o ∧ o.state = .returned r := by
  intro q hq hqi
  obtain ⟨o', -, ho', -, -⟩ := h.method q hq
  by_cases hn : ∃ r, o'.state = .returned r
  · obtain ⟨r', hr'⟩ := hn
    exact ⟨o', r', ho', hr'⟩
  · rcases h.unfinished q hq o' ho' (not_exists.mp hn) with hs | hs
    · rw [hqi, hi] at hs
      obtain rfl := TimerPhase.sending.inj hs
      exact ⟨o, r, ho, hr⟩
    · rw [hqi, hi] at hs
      cases hs

/-- A timer that awaits its sends sleeps only when they are all within the buffer. -/
theorem beyond_eq_zero (h : x.Sent) (hw : x.sys.Blocked) {i : ℕ} (hi : x.phases i = .sleeping)
    {task : TimerTask B.Message} (ht : (Context.tasks x.sys.ctx)[i]? = some task)
    (hk : task.kind ≠ .interval) : x.beyond i = 0 := by
  rw [beyond, List.countP_eq_zero]
  intro j hj hby
  have hmem := sentBy_iff.mp hby
  obtain ⟨o, task', ho, ht', hm⟩ := h.method _ hmem
  rw [ht, Option.some_inj] at ht'
  subst ht'
  obtain ⟨o', ho', hstate⟩ := hw j hj
  rw [ho, Option.some_inj] at ho'
  subst ho'
  have hn : ∀ r, o.state ≠ .returned r := by
    intro r hr
    rcases hstate (hm hk) with hs | hs <;> rw [hr] at hs <;> cases hs
  rcases h.unfinished _ hmem o ho hn with hs | hs <;> rw [hi] at hs <;> cases hs

end Sent

/-- The clone of a message that is pushed is parked instead of pending. -/
theorem Owned.count_sys_le (h : x.Owned) {t : Sys B.actor} {es : List (Event B.actor)}
    (hst : E.Step x.sys t es) (i : ℕ) :
    beyond { x with sys := t } i + pending { x with sys := t } i ≤ x.beyond i + x.pending i := by
  obtain ⟨-, hpush⟩ := hst.pushes
  have hpending := h.pending_sys_le hpush.unsent i
  rcases Sys.step_parked hst with hsub | ⟨k, o, ho, hbegun, hops, happ⟩
  · have hbeyond : beyond { x with sys := t } i ≤ x.beyond i := hsub.countP_le
    omega
  · have hk : x.sys.unsent k = true := by
      rw [Sys.unsent_of_state ho, hbegun]
      rfl
    have hbeyond : beyond { x with sys := t } i =
        x.beyond i + [k].countP fun j => x.sentBy i j := by
      show t.chan.parked.countP _ = _
      rw [happ, List.countP_append]
      rfl
    by_cases hik : x.sentBy i k = true
    · have hphase := h.unsent _ (sentBy_iff.mp hik) hk
      have hbefore : x.pending i = 1 := by simp [pending, hphase, hk]
      have hafter : pending { x with sys := t } i = 0 := by
        refine pending_eq_zero fun j hj => ?_
        rw [show x.phases i = .sending j from hj] at hphase
        cases hphase
        exact (Sys.unsent_set ho hops (Sys.afterPush_isBegun o.method)).1
      have hone : [k].countP (fun j => x.sentBy i j) ≤ 1 := List.countP_le_length
      omega
    · have hzero : [k].countP (fun j => x.sentBy i j) = 0 := by simp [hik]
      omega

namespace Paced

theorem sys (h : x.Paced) {t : Sys B.actor} {es : List (Event B.actor)}
    (hst : E.Step x.sys t es) : Paced { x with sys := t } :=
  ⟨h.owned.sys hst, h.sent.sys hst, h.waits.step hst,
    fun i => (h.owned.count_sys_le hst i).trans (h.count i)⟩

theorem setPolled (h : x.Paced) (i : ℕ) (b : Bool) : (x.setPolled i b).Paced :=
  ⟨h.owned.setPolled i b, ⟨h.sent.method, h.sent.unfinished⟩, h.waits, h.count⟩

theorem setPhase (h : x.Paced) {i : ℕ} {p : TimerPhase} (hp : ∀ j, p ≠ .sending j)
    (hn : x.pending i = 0) (hs : (x.setPhase i p).Sent) : (x.setPhase i p).Paced := by
  refine ⟨h.owned.setPhase hp hn, hs, h.waits, fun k => ?_⟩
  have hpending := x.pending_setPhase_le i k hp
  have hcount := h.count k
  show x.beyond k + _ ≤ 1
  omega

/-- A timer that wakes has no message beyond the buffer. -/
theorem wake (E : Environment B.actor) (h : x.Paced) {i : ℕ} (hi : x.phases i = .sleeping)
    {task : TimerTask B.Message} (ht : x.sys.context.tasks[i]? = some task) (n : ℕ)
    (hc : task.kind = .interval → x.beyond i = 0) :
    (x.woken i (x.sys.trySend (task.method n))).Paced := by
  obtain ⟨es, hst⟩ := Sys.trySend_step E x.sys (task.offers n)
  obtain ⟨⟨o, -, hops⟩, -, hpark⟩ := x.sys.trySend_adds (task.method n)
  have hzero : x.beyond i = 0 := by
    by_cases hk : task.kind = .interval
    · exact hc hk
    · obtain ⟨task', ht', hkind⟩ := task_kind ht
      exact h.sent.beyond_eq_zero h.waits hi ht' (hkind ▸ hk)
  refine ⟨h.owned.wake i hi hst (Sys.trySend_length _ _), h.sent.wake hi ht n, h.waits.step hst,
    fun k => ?_⟩
  have hbeyond : (x.woken i (x.sys.trySend (task.method n))).beyond k = x.beyond k := by
    show (x.sys.trySend (task.method n)).chan.parked.countP _ = _
    rw [hpark]
    refine List.countP_congr fun j hj => ?_
    -- what is parked is older than the new send
    obtain ⟨o', ho', -⟩ := h.waits j hj
    have hlt := (List.getElem?_eq_some_iff.mp ho').1
    have hne : ¬ (k = i ∧ j = x.sys.ops.length) := by omega
    rw [sentBy_iff, sentBy_iff]
    simp [woken, hne]
  rw [hbeyond]
  by_cases hki : k = i
  · subst hki
    rw [hzero, Nat.zero_add]
    exact pending_le_one _ _
  · rw [h.owned.pending_woken hops hki]
    exact h.count k

theorem step (h : x.Paced) {l : TimedLabel B} (hst : Step E x l y) (hc : Unhurried x l y) :
    y.Paced := by
  cases hst with
  | sys l t ht =>
    obtain ⟨es, ht⟩ := Environment.step_cases ht
    exact h.sys ht
  | poll | pend => exact h.setPolled _ _
  | wake i task n hp ht => exact h.wake E hp ht n (hc i task rfl ht)
  | resume i j o r p hp ho hr hn =>
    refine h.setPhase hn (pending_eq_zero fun k hk => ?_)
      (h.sent.setPhase (.inr (h.sent.returned hp ho hr)))
    rw [hp] at hk
    cases hk
    rw [Sys.unsent_of_state ho, hr]
    rfl
  | abortSleep i hp =>
    refine h.setPhase (by simp) (pending_eq_zero fun k hk => ?_) (h.sent.setPhase (.inl rfl))
    rw [hp] at hk
    cases hk
  | abortSend i j t hp ht =>
    have hgone := Sys.unsent_of_drop ht
    obtain ⟨es, ht⟩ := Environment.step_cases ht
    have hsys := h.sys ht
    refine hsys.setPhase (by simp) (pending_eq_zero fun k hk => ?_) (hsys.sent.setPhase (.inl rfl))
    rw [show x.phases i = .sending k from hk] at hp
    cases hp
    exact hgone

end Paced

end Timed

/-- **Timer backlog.**  At most `n + k` messages of `k` timers wait in a mailbox with a buffer
of `n`, in the runs in which no `interval` wakes while its last message exceeds the buffer. -/
theorem timer_backlog_bounded {E : Environment B.actor} {n : ℕ} (hn : E.buffer = some n)
    {a : B.State} {x : Timed B} {ls : List (TimedLabel B)}
    (hrun : (Timed.system E).run (Timed.init E a) ls = some x)
    (hc : (Timed.system E).Along Timed.Unhurried (Timed.init E a) ls) (T : List ℕ) :
    x.waiting T ≤ n + T.length := by
  have hpaced : x.Paced := by
    refine Machine.invariant_along (M := Timed.system E) (P := Timed.Paced)
      (fun x l y hx hC hst => hx.step (Timed.step_cases hst) hC) ?_ hc hrun
    refine ⟨Timed.owned_init E a, ⟨fun p hp => ?_, fun p hp => ?_⟩, fun j hj => ?_,
      fun i => Nat.zero_le 1⟩
    · cases hp
    · cases hp
    · cases hj
  have hfitted : x.sys.Fitted E := by
    refine Timed.sys_invariant (fun _ _ _ hs hst => hs.step hst) ⟨ls, hrun⟩ ⟨rfl, ?_⟩
    exact Mpsc.fitted_channel E.buffer
  have hqueue := hfitted.parked.countP_le (hfitted.buffer.trans hn)
    fun j => T.any fun i => x.sentBy i j
  have hparked : (x.sys.chan.parked.countP fun j => T.any fun i => x.sentBy i j) ≤ T.length := by
    refine Table.countP_any_le fun i _ => ?_
    have hcount := hpaced.count i
    exact (Nat.le_add_right _ _).trans hcount
  exact hqueue.trans (Nat.add_le_add_left hparked n)

namespace Chime

/-- A mailbox with room for one message. -/
def narrow : Environment chime.actor := ⟨some 1, ⟨none, false⟩, .restartOnly, none⟩

/-- The interval ticks once; its message is taken and it ticks again. -/
def unhurried : List (TimedLabel chime) :=
  [.sys (.loop (.hook ())), .poll 0, .wake 0, .sys (.op (.push 0)), .resume 0, .pend 0,
    .sys (.loop .recv), .poll 0, .wake 0, .sys (.op (.push 1))]

/-- The interval ticks three times while the loop takes nothing. -/
def hurried : List (TimedLabel chime) :=
  [.sys (.loop (.hook ())), .poll 0, .wake 0, .sys (.op (.push 0)), .resume 0, .pend 0, .poll 0,
    .wake 0, .sys (.op (.push 1)), .resume 0, .pend 0, .poll 0, .wake 0, .sys (.op (.push 2)),
    .resume 0, .pend 0]

end Chime

/-- An interval whose messages are taken keeps to the bound. -/
theorem timer_backlog_bounded_of_unhurried : ∃ x : Timed chime,
    (Timed.system Chime.narrow).run (Timed.init Chime.narrow (0 : ℕ)) Chime.unhurried = some x ∧
    x.waiting [0] ≤ 1 + 1 := by
  refine ⟨_, rfl, timer_backlog_bounded (E := Chime.narrow) (a := (0 : ℕ)) rfl
    (show (Timed.system Chime.narrow).run _ Chime.unhurried = some _ from rfl) ?_ [0]⟩
  have hquiet : ∀ (x y : Timed chime) (l : TimedLabel chime), l.isWake = false →
      Timed.Unhurried x l y := by
    intro x y l hl i task hi
    rw [hi] at hl
    cases hl
  refine ⟨hquiet _ _ _ rfl, hquiet _ _ _ rfl, ?_, hquiet _ _ _ rfl, hquiet _ _ _ rfl,
    hquiet _ _ _ rfl, hquiet _ _ _ rfl, hquiet _ _ _ rfl, ?_, hquiet _ _ _ rfl, trivial⟩
  · rintro i task ⟨⟩ - -
    rfl
  · rintro i task ⟨⟩ - -
    rfl

/-- An interval that ticks three times has three messages in a mailbox with room for one. -/
theorem not_timer_backlog_bounded : ¬ ∀ x : Timed chime,
    Timed.Reachable Chime.narrow (0 : ℕ) x → x.waiting [0] ≤ 1 + 1 := by
  intro h
  exact absurd (h _ ⟨Chime.hurried, rfl⟩) (by decide)

end Hannibal
