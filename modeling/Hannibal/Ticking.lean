/-
The messages of a timer.

A timer sends what its `message_fn` yields, one message a tick, and ticks again only when
its last send went well.  So its messages neither overtake one another nor get lost:

* `Timed.Ticked` — the sends of a timer are accepted in their order, all but the last;
* **`ticks_in_order`** — what the mailbox accepted from a timer, and what the loop took of
  it, are its first messages in order, without a gap and at most one behind its ticks; a
  `delayed_send` ticks once.
-/
import Hannibal.Aborting
import Hannibal.Backlog
import Hannibal.Resting

namespace Hannibal

/-! ### A send on its way -/

section Actor

variable {A : Actor}

/-- The operation has not pushed its payload, or has failed. -/
def Sys.Failing (s : Sys A) (j : ℕ) : Prop :=
  ∃ o, s.ops[j]? = some o ∧ (o.state = .begun ∨ ∃ e, o.state = .returned (.error e))

/-- Its future was not dropped. -/
def Sys.Kept (s : Sys A) (j : ℕ) : Prop := ∃ o, s.ops[j]? = some o ∧ o.state ≠ .dropped

theorem Sys.Failing.kept {s : Sys A} {j : ℕ} (h : s.Failing j) : s.Kept j := by
  obtain ⟨o, ho, hb | ⟨e, he⟩⟩ := h
  · exact ⟨o, ho, by simp [hb]⟩
  · exact ⟨o, ho, by simp [he]⟩

/-- Unless it is dropped, its payload is accepted before it can succeed. -/
theorem Sys.Failing.step {E : Environment A} {s t : Sys A} {es : List (Event A)} {j : ℕ}
    (h : s.Failing j) (hst : E.Step s t es) (hd : t.Kept j) :
    t.Failing j ∨ ∃ o, accepted es = [envelope j o] := by
  obtain ⟨o, ho, hb | ⟨e, he⟩⟩ := h
  · have hlt := (List.getElem?_eq_some_iff.mp ho).1
    rcases hst.outside with ⟨-, hef⟩ | ⟨-, hl⟩
    · cases hef with
      | idle es he hops => exact .inl ⟨o, hops ▸ ho, .inl hb⟩
      | add o' hst hops =>
        exact .inl ⟨o, by rw [hops, List.getElem?_append_left hlt, ho], .inl hb⟩
      | accept k o' hk hst hr hops =>
        by_cases hkj : k = j
        · subst hkj
          exact .inr ⟨o', congrArg (_ :: ·) (accepted_returnEvents _ _)⟩
        · exact .inl ⟨o, by rw [hops, List.getElem?_set_ne hkj, ho], .inl hb⟩
      | move k o' st hk hm hops =>
        have hops : t.ops = s.ops.set k { o' with state := st } := hops
        by_cases hkj : k = j
        · subst hkj
          have hk' : t.ops[k]? = some { o' with state := st } := by
            rw [hops, List.getElem?_set_self hlt]
          rw [ho, Option.some_inj] at hk
          subst hk
          refine .inl ⟨_, hk', .inr ?_⟩
          cases hm with
          | refused => exact ⟨_, rfl⟩
          | dropped =>
            obtain ⟨o', ho', hne⟩ := hd
            rw [hk', Option.some_inj] at ho'
            exact absurd (ho' ▸ rfl) hne
          | flushed hw | answered r hw | canceled hw =>
            rw [hb] at hw
            cases hw
        · exact .inl ⟨o, by rw [hops, List.getElem?_set_ne hkj, ho], .inl hb⟩
    · exact .inl ⟨o, hl.untouched.ops ▸ ho, .inl hb⟩
  · exact .inl ⟨o, Sys.returned_step hst ho he, .inr ⟨e, he⟩⟩

/-- A weak sender that is tried has pushed nothing yet. -/
theorem Sys.trySend_failing (s : Sys A) (m : Method A) :
    (s.trySend m).Failing s.ops.length ∧ accepted (s.trySend m).trace = accepted s.trace := by
  unfold Sys.trySend
  split
  · refine ⟨⟨_, List.getElem?_concat_length, .inl rfl⟩, ?_⟩
    exact (accepted_append _ _).trans (List.append_nil _)
  · refine ⟨⟨_, List.getElem?_concat_length, .inr ⟨_, rfl⟩⟩, ?_⟩
    exact (accepted_append _ _).trans (List.append_nil _)

theorem Sys.drop_accepted {s t : Sys A} {j : ℕ} (h : s.opStep (.drop j) = some t) :
    accepted t.trace = accepted s.trace := by
  simp only [opStep] at h
  split at h
  · split at h
    · cases h
      rfl
    · cases h
  · cases h

end Actor

variable {B : Behaviour}

namespace Timed

variable {E : Environment B.actor} {x y : Timed B} {i : ℕ}

/-- The sends of the timer `i`, one a tick. -/
def sendsOf (x : Timed B) (i : ℕ) : List ℕ := (x.sends.filter fun p => p.1 = i).map Prod.snd

/-- Those of the payloads that the timer `i` has sent. -/
def ofTimer (x : Timed B) (i : ℕ) (l : List (Envelope B.actor)) : List (Envelope B.actor) :=
  l.filter fun e => x.sentBy i e.id

/-- The sends of the timer `i` carry its messages one after the other, and they were
accepted in this order, all of them or all but the last; a timer that sleeps has none that
is not. -/
structure Ticked (x : Timed B) (i : ℕ) : Prop where
  sent : ∀ n j, (x.sendsOf i)[n]? = some j → ∃ o task, x.sys.ops[j]? = some o ∧
    (Context.tasks x.sys.ctx)[i]? = some task ∧ o.method = task.method n
  last : ∀ j, x.phases i = .sending j → (x.sendsOf i).getLast? = some j
  inOrder : (x.ofTimer i (accepted x.sys.trace)).map Envelope.id = x.sendsOf i ∨
    ∃ j, x.sendsOf i = (x.ofTimer i (accepted x.sys.trace)).map Envelope.id ++ [j] ∧
      x.phases i ≠ .sleeping ∧ (x.phases i = .sending j → x.sys.Failing j)
  once : ∀ task, (Context.tasks x.sys.ctx)[i]? = some task → task.kind = .delayedSend →
    (x.phases i = .sleeping → x.sendsOf i = []) ∧ (x.sendsOf i).length ≤ 1

theorem mem_sendsOf {j : ℕ} : j ∈ x.sendsOf i ↔ (i, j) ∈ x.sends := by
  simp [sendsOf]

/-! ### Steps of the timers -/

theorem wake_cases {k : ℕ} (h : x.wake k = some y) : ∃ task,
    x.sys.context.tasks[k]? = some task ∧ x.phases k = .sleeping ∧
      y = x.woken k (x.sys.trySend (task.method (x.sendsOf k).length)) := by
  unfold wake at h
  split at h
  · next task ht hp =>
    split at h
    · cases h
      exact ⟨task, ht, hp, by rw [sendsOf, List.length_map]⟩
    · cases h
  · cases h

theorem resume_cases {k : ℕ} (h : x.resume k = some y) : ∃ task j o r p,
    x.sys.context.tasks[k]? = some task ∧ x.phases k = .sending j ∧ x.sys.ops[j]? = some o ∧
      o.state = .returned r ∧ y = x.setPhase k p ∧ (∀ j', p ≠ .sending j') ∧
      (p = .sleeping → (∃ v, r = .ok v) ∧ task.kind ≠ .delayedSend) := by
  unfold resume at h
  split at h
  · next task j ht hp =>
    split at h
    · next v _ hr =>
      obtain ⟨o, ho, hst⟩ := Option.map_eq_some_iff.mp hr
      split at h <;> cases h
      · next hk => exact ⟨task, j, o, _, _, ht, hp, ho, hst, rfl, by simp, by simp [hk]⟩
      · next hk => exact ⟨task, j, o, _, _, ht, hp, ho, hst, rfl, by simp, by simp [hk]⟩
      · exact ⟨task, j, o, _, _, ht, hp, ho, hst, rfl, by simp, by simp⟩
    · next e _ hr =>
      obtain ⟨o, ho, hst⟩ := Option.map_eq_some_iff.mp hr
      cases h
      exact ⟨task, j, o, _, _, ht, hp, ho, hst, rfl, by simp, by simp⟩
    · cases h
  · cases h

/-- A timer keeps what it sends when it is aborted. -/
theorem task_method {s : Sys B.actor} {task : TimerTask B.Message}
    (h : s.context.tasks[i]? = some task) : ∃ task', (Context.tasks s.ctx)[i]? = some task' ∧
      task'.kind = task.kind ∧ ∀ n, task'.method n = task.method n := by
  unfold Sys.context at h
  split at h
  · rw [Context.drop, List.getElem?_map] at h
    obtain ⟨task', ht, rfl⟩ := Option.map_eq_some_iff.mp h
    exact ⟨task', ht, rfl, fun n => rfl⟩
  · exact ⟨task, h, rfl, fun n => rfl⟩

namespace Ticked

/-- The actor's own steps accept nothing from the timer but what it is sending. -/
theorem inOrder_sys (h : x.Ticked i) (hq : x.sys.Enqueued) {t : Sys B.actor}
    {es : List (Event B.actor)} (hst : E.Step x.sys t es)
    (ho : ∀ k o, accepted es = [Sys.envelope k o] → (i, k) ∈ x.sends → x.sys.unsent k = true →
      x.phases i = .sending k)
    (hd : ∀ j, x.phases i = .sending j → x.sys.Kept j → t.Kept j) :
    (x.ofTimer i (accepted t.trace)).map Envelope.id = x.sendsOf i ∨ ∃ j,
      x.sendsOf i = (x.ofTimer i (accepted t.trace)).map Envelope.id ++ [j] ∧
        x.phases i ≠ .sleeping ∧ (x.phases i = .sending j → t.Failing j) := by
  have htr : x.ofTimer i (accepted t.trace) =
      x.ofTimer i (accepted x.sys.trace) ++ x.ofTimer i (accepted es) := by
    rw [hst.trace, accepted_append, ofTimer, List.filter_append]
    rfl
  rw [htr, List.map_append]
  -- either the step accepts a send of the timer, or what it accepts is not the timer's
  by_cases hmine : ∃ k o, accepted es = [Sys.envelope k o] ∧ (i, k) ∈ x.sends ∧
      x.sys.unsent k = true
  · obtain ⟨k, o, hacc, hmem, hk⟩ := hmine
    have hphase := ho k o hacc hmem hk
    have hone : x.ofTimer i (accepted es) = [Sys.envelope k o] := by
      rw [hacc, ofTimer, List.filter_eq_self.mpr]
      intro e he
      rw [List.mem_singleton.mp he]
      exact sentBy_iff.mpr hmem
    -- its last send is the one that was still to be accepted
    rcases h.inOrder with hall | ⟨j, hjs, -⟩
    · -- what is accepted has been pushed
      have hacc' : k ∈ (x.ofTimer i (accepted x.sys.trace)).map Envelope.id :=
        hall ▸ mem_sendsOf.mpr hmem
      obtain ⟨e, he, rfl⟩ := List.mem_map.mp hacc'
      obtain ⟨o', ho', -, hne⟩ := hq.op e (List.mem_of_mem_filter he)
      rw [Sys.unsent_of_state ho'] at hk
      cases hst' : o'.state <;> simp [hst', OpState.isBegun] at hk hne
    · have hlast := h.last k hphase
      rw [hjs, List.getLast?_concat, Option.some_inj] at hlast
      subst hlast
      exact .inl (by rw [hone, hjs]; rfl)
  · have hnone : x.ofTimer i (accepted es) = [] := by
      obtain ⟨-, hpush⟩ := hst.pushes
      cases hpush with
      | none he hu =>
        rw [he]
        rfl
      | one k o he hk hk' hu =>
        rw [he, ofTimer, List.filter_eq_nil_iff]
        intro e hmem hby
        rw [List.mem_singleton.mp hmem] at hby
        exact hmine ⟨k, o, he, sentBy_iff.mp hby, hk⟩
    rw [hnone, List.map_nil, List.append_nil]
    refine h.inOrder.imp id ?_
    rintro ⟨j, hjs, hne, hfail⟩
    refine ⟨j, hjs, hne, fun hphase => ?_⟩
    rcases (hfail hphase).step hst (hd j hphase (hfail hphase).kept) with hf | ⟨o, he⟩
    · exact hf
    · have hmem := mem_sendsOf.mp (List.mem_of_getLast? (h.last j hphase))
      rw [he, ofTimer, List.filter_eq_nil_iff] at hnone
      exact absurd (sentBy_iff.mpr hmem) (hnone _ List.mem_cons_self)

theorem sys (h : x.Ticked i) (hq : x.sys.Enqueued) {t : Sys B.actor}
    {es : List (Event B.actor)} (hst : E.Step x.sys t es)
    (ho : ∀ k o, accepted es = [Sys.envelope k o] → (i, k) ∈ x.sends → x.sys.unsent k = true →
      x.phases i = .sending k)
    (hd : ∀ j, x.phases i = .sending j → x.sys.Kept j → t.Kept j) :
    Ticked { x with sys := t } i := by
  obtain ⟨calls, hcalls⟩ := hst.ctx_eq
  have htasks : Context.tasks t.ctx =
      Context.tasks x.sys.ctx ++ (Context.performAll (Context.new) calls).tasks := by
    rw [hcalls, Context.performAll_tasks, Context.performAll_tasks]
    rfl
  refine ⟨fun n j hj => ?_, h.last, h.inOrder_sys hq hst ho hd, fun task ht hk => ?_⟩
  · obtain ⟨o, task, hop, ht, hm⟩ := h.sent n j hj
    obtain ⟨o', ho', hm'⟩ : ∃ o', t.ops[j]? = some o' ∧ o'.method = o.method := by
      rcases hst.outside with ⟨-, he⟩ | ⟨-, hl⟩
      · exact he.op hop
      · exact ⟨o, hl.untouched.ops ▸ hop, rfl⟩
    refine ⟨o', task, ho', ?_, hm'.trans hm⟩
    show (Context.tasks t.ctx)[i]? = _
    rw [htasks, List.getElem?_append_left (List.getElem?_eq_some_iff.mp ht).1, ht]
  · have ht : (Context.tasks t.ctx)[i]? = some task := ht
    by_cases hold : i < (Context.tasks x.sys.ctx).length
    · rw [htasks, List.getElem?_append_left hold] at ht
      exact h.once task ht hk
    · -- a timer that is registered now has not ticked
      have hnil : x.sendsOf i = [] := by
        cases hs : x.sendsOf i with
        | nil => rfl
        | cons j js =>
          obtain ⟨-, task', -, ht', -⟩ := h.sent 0 j (by rw [hs]; rfl)
          exact absurd (List.getElem?_eq_some_iff.mp ht').1 hold
      exact ⟨fun _ => hnil, by show (x.sendsOf i).length ≤ 1; rw [hnil]; exact Nat.zero_le 1⟩

/-- A phase in which nothing is sent, and which is not to sleep again unless all is sent. -/
theorem setPhase (h : x.Ticked i) (k : ℕ) {p : TimerPhase} (hp : ∀ j, p ≠ .sending j)
    (hs : p = .sleeping → k = i → (x.ofTimer i (accepted x.sys.trace)).map Envelope.id =
      x.sendsOf i ∧ ∀ task, (Context.tasks x.sys.ctx)[i]? = some task →
        task.kind ≠ .delayedSend) : (x.setPhase k p).Ticked i := by
  by_cases hki : k = i
  · subst hki
    have hphase : (x.setPhase k p).phases k = p := Function.update_self ..
    refine ⟨h.sent, fun j hj => absurd (hphase.symm.trans hj) (hp j), ?_, fun task ht hk => ?_⟩
    · rcases h.inOrder with hall | ⟨j, hjs, -⟩
      · exact .inl hall
      · by_cases hsl : p = .sleeping
        · exact .inl (hs hsl rfl).1
        · exact .inr ⟨j, hjs, fun hy => hsl (hphase.symm.trans hy),
            fun hj => absurd (hphase.symm.trans hj) (hp j)⟩
    · refine ⟨fun hsl => ?_, (h.once task ht hk).2⟩
      exact absurd hk ((hs (hphase.symm.trans hsl) rfl).2 task ht)
  · have hphase : (x.setPhase k p).phases i = x.phases i := Function.update_of_ne (Ne.symm hki) ..
    refine ⟨h.sent, fun j hj => h.last j (hphase ▸ hj), ?_, fun task ht hk => ?_⟩
    · rw [hphase]
      exact h.inOrder
    · rw [hphase]
      exact h.once task ht hk

/-- A timer that wakes has nothing left to be accepted. -/
theorem wake (h : x.Ticked i) (hq : x.sys.Enqueued) {k : ℕ} (hp : x.phases k = .sleeping)
    {task : TimerTask B.Message} (ht : x.sys.context.tasks[k]? = some task) :
    (x.woken k (x.sys.trySend (task.method (x.sendsOf k).length))).Ticked i := by
  obtain ⟨⟨o, hm, hops⟩, hctx, -⟩ := x.sys.trySend_adds (task.method (x.sendsOf k).length)
  obtain ⟨hfail, hacc⟩ := x.sys.trySend_failing (task.method (x.sendsOf k).length)
  generalize x.sys.trySend (task.method (x.sendsOf k).length) = t at hops hctx hfail hacc
  have hsame : (x.woken k t).ofTimer i (accepted (x.woken k t).sys.trace) =
      x.ofTimer i (accepted x.sys.trace) := by
    show (x.woken k t).ofTimer i (accepted t.trace) = _
    rw [hacc]
    refine List.filter_congr fun e he => ?_
    -- what was accepted is older than the new send
    obtain ⟨o', ho', -⟩ := hq.op e he
    have hlt := (List.getElem?_eq_some_iff.mp ho').1
    have hne : ¬ (i = k ∧ e.id = x.sys.ops.length) := by omega
    rw [Bool.eq_iff_iff, sentBy_iff, sentBy_iff]
    simp [woken, hne]
  have hold : ∀ n j, (x.sendsOf i)[n]? = some j → ∃ o task, t.ops[j]? = some o ∧
      (Context.tasks t.ctx)[i]? = some task ∧ o.method = task.method n := by
    intro n j hj
    obtain ⟨o', task', ho', ht', hm'⟩ := h.sent n j hj
    refine ⟨o', task', ?_, hctx ▸ ht', hm'⟩
    rw [hops, List.getElem?_append_left (List.getElem?_eq_some_iff.mp ho').1, ho']
  by_cases hki : k = i
  · -- the timer itself has one send more, which is its last
    subst hki
    have hsends : (x.woken k t).sendsOf k = x.sendsOf k ++ [x.sys.ops.length] := by
      simp [sendsOf, woken]
    have hphase : (x.woken k t).phases k = .sending x.sys.ops.length := Function.update_self ..
    have hall : (x.ofTimer k (accepted x.sys.trace)).map Envelope.id = x.sendsOf k := by
      rcases h.inOrder with hall | ⟨j, -, hne, -⟩
      · exact hall
      · exact absurd hp hne
    obtain ⟨task', ht', hkind, hmethod⟩ := task_method ht
    refine ⟨fun n j hj => ?_, fun j hj => ?_, .inr ⟨x.sys.ops.length, ?_, ?_, fun _ => hfail⟩,
      fun task'' ht'' hk => ?_⟩
    · rw [hsends, List.getElem?_append] at hj
      split at hj
      · exact hold n j hj
      · next hn =>
        have hzero : n - (x.sendsOf k).length = 0 := by
          have := (List.getElem?_eq_some_iff.mp hj).1
          simpa using this
        rw [hzero] at hj
        obtain rfl : x.sys.ops.length = j := by simpa using hj
        refine ⟨o, task', ?_, hctx ▸ ht', ?_⟩
        · show t.ops[_]? = _
          rw [hops, List.getElem?_concat_length]
        · rw [hm, hmethod, show n = (x.sendsOf k).length by omega]
    · rw [hphase] at hj
      cases hj
      rw [hsends, List.getLast?_concat]
    · rw [hsends, hsame, hall]
    · simp [hphase]
    · have ht'' : (Context.tasks t.ctx)[k]? = some task'' := ht''
      rw [hctx] at ht''
      refine ⟨fun hs => ?_, ?_⟩
      · rw [hphase] at hs
        cases hs
      · rw [hsends, (h.once task'' ht'' hk).1 hp]
        rfl
  · -- another timer ticks
    have hsends : (x.woken k t).sendsOf i = x.sendsOf i := by
      simp [sendsOf, woken, hki]
    have hphase : (x.woken k t).phases i = x.phases i := Function.update_of_ne (Ne.symm hki) ..
    refine ⟨fun n j hj => hold n j (hsends ▸ hj), fun j hj => ?_, ?_, fun task' ht' hk => ?_⟩
    · rw [hsends]
      exact h.last j (hphase ▸ hj)
    · rw [hsame, hsends, hphase]
      refine h.inOrder.imp id ?_
      rintro ⟨j, hjs, hne, hf⟩
      refine ⟨j, hjs, hne, fun hs => ?_⟩
      obtain ⟨o', ho', hst⟩ := hf hs
      refine ⟨o', ?_, hst⟩
      show t.ops[j]? = _
      rw [hops, List.getElem?_append_left (List.getElem?_eq_some_iff.mp ho').1, ho']
    · rw [hsends, hphase]
      exact h.once task' (hctx ▸ ht') hk

theorem step (h : x.Ticked i) (ho : x.Owned) (hq : x.sys.Enqueued) {l : TimedLabel B}
    (hst : (system E).step x l = some y) : y.Ticked i := by
  cases l with
  | sys l =>
    simp only [system, Timed.step] at hst
    split at hst
    · cases hst
    · next hdrop =>
      obtain ⟨t, ht, rfl⟩ := Option.map_eq_some_iff.mp hst
      obtain ⟨es, hes⟩ := Environment.step_cases ht
      -- nobody but the timer drops the future it awaits
      refine h.sys hq hes (fun k o _ hmem hk => ho.unsent _ hmem hk) fun j hphase hkept => ?_
      refine Environment.step_not_dropped ht ?_ hkept
      rintro rfl
      refine hdrop (List.any_eq_true.mpr ⟨_, ho.sending i j hphase, ?_⟩)
      simp
  | poll k | pend k =>
    obtain ⟨b, rfl⟩ : ∃ b, y = x.setPolled k b := by
      cases step_cases hst
      exact ⟨_, rfl⟩
    exact ⟨h.sent, h.last, h.inOrder, h.once⟩
  | wake k =>
    obtain ⟨task, ht, hp, rfl⟩ := wake_cases hst
    exact h.wake hq hp ht
  | resume k =>
    obtain ⟨task, j, o, r, p, ht, hp, hj, hr, rfl, hn, hs⟩ := resume_cases hst
    refine h.setPhase k hn fun hsl hki => ?_
    subst hki
    obtain ⟨⟨v, rfl⟩, hkind⟩ := hs hsl
    constructor
    · rcases h.inOrder with hall | ⟨j', hjs, -, hf⟩
      · exact hall
      · -- the send that returned is the last one, and it went well
        have hlast := h.last j hp
        rw [hjs, List.getLast?_concat, Option.some_inj] at hlast
        subst hlast
        obtain ⟨o', ho', hb | ⟨e, he⟩⟩ := hf hp <;> rw [hj, Option.some_inj] at ho' <;>
          subst ho' <;> simp_all
    · intro task' ht'
      obtain ⟨task'', ht'', hkind'', -⟩ := task_method ht
      rw [ht'', Option.some_inj] at ht'
      rwa [← ht', hkind'']
  | abort k =>
    simp only [system, Timed.step, abort] at hst
    split at hst
    · split at hst
      · cases hst
        exact h.setPhase k (by simp) (by simp)
      · cases hst
    · next task j ht hp =>
      split at hst
      · obtain ⟨t, hop, rfl⟩ := Option.map_eq_some_iff.mp hst
        obtain ⟨es, hes⟩ := Environment.step_cases (E := E) (l := .op (.drop j)) hop
        -- the send goes with the timer, and nothing is accepted of it
        have hacc : accepted es = [] := by
          have hsame := Sys.drop_accepted hop
          rw [hes.trace, accepted_append] at hsame
          exact List.append_right_eq_self.mp hsame
        refine (h.setPhase k (p := .aborted) (by simp) (by simp)).sys hq hes ?_ ?_
        · intro k o he
          rw [hacc] at he
          cases he
        · intro j' hphase hkept
          refine Environment.step_not_dropped (E := E) (l := .op (.drop j)) hop ?_ hkept
          rintro ⟨⟩
          have hphase : Function.update x.phases k .aborted i = .sending j := hphase
          by_cases hki : i = k
          · subst hki
            rw [Function.update_self] at hphase
            cases hphase
          · -- the send belongs to the other timer
            rw [Function.update_of_ne hki] at hphase
            exact hki (ho.unique _ (ho.sending i j hphase) _ (ho.sending k j hp) rfl)
      · cases hst
    · cases hst

end Ticked

theorem Reachable.enqueued {a : B.State} (h : Reachable E a x) : x.sys.Enqueued :=
  sys_invariant (fun _ _ _ hs hst => hs.step hst) h
    (Environment.Reachable.enqueued (E := E) (.refl _ _))

theorem Reachable.ticked {a : B.State} (h : Reachable E a x) (i : ℕ) : x.Ticked i := by
  have hall : x.Owned ∧ x.sys.Enqueued ∧ x.Ticked i := by
    refine Machine.invariant (M := system E)
      (P := fun x => x.Owned ∧ x.sys.Enqueued ∧ x.Ticked i) ?_ ⟨owned_init E a, ?_, ?_⟩ h
    · rintro x l y ⟨ho, hq, ht⟩ hst
      refine ⟨ho.step (step_cases hst), ?_, ht.step ho hq hst⟩
      rcases (step_cases hst).sys_step with hy | ⟨es, hes⟩
      · exact hy ▸ hq
      · exact hq.step hes
    · exact Reachable.enqueued (.refl _ _)
    · exact ⟨by simp [sendsOf, init], by simp [init], .inl rfl,
        fun _ _ _ => ⟨fun _ => rfl, Nat.zero_le 1⟩⟩
  exact hall.2.2

end Timed

/-- What the mailbox accepted from the timer `i` are its first messages. -/
theorem Timed.Ticked.payloads {x : Timed B} {i : ℕ} (h : x.Ticked i) (hq : x.sys.Enqueued)
    {task : TimerTask B.Message} (ht : (Context.tasks x.sys.ctx)[i]? = some task) :
    (x.ofTimer i (accepted x.sys.trace)).map Envelope.payload =
      (List.range (x.ofTimer i (accepted x.sys.trace)).length).map
        fun n => (task.method n).payload := by
  refine List.ext_getElem (by simp) fun n hn hn' => ?_
  have hn : n < (x.ofTimer i (accepted x.sys.trace)).length := by simpa using hn
  rw [List.getElem_map, List.getElem_map, List.getElem_range]
  -- the `n`-th of them is the `n`-th send
  have hsend : (x.sendsOf i)[n]? = some ((x.ofTimer i (accepted x.sys.trace))[n]).id := by
    have hid : ((x.ofTimer i (accepted x.sys.trace)).map Envelope.id)[n]? =
        some ((x.ofTimer i (accepted x.sys.trace))[n]).id := by simp [hn]
    rcases h.inOrder with hall | ⟨j, hjs, -⟩
    · rw [← hall, hid]
    · rw [hjs, List.getElem?_append_left (by simpa using hn), hid]
  obtain ⟨o, task', ho, ht', hm⟩ := h.sent n _ hsend
  obtain ⟨o', ho', hpay, -⟩ := hq.op _ (List.mem_of_mem_filter (List.getElem_mem hn))
  rw [ho, Option.some_inj] at ho'
  rw [ht, Option.some_inj] at ht'
  rw [hpay, ← ho', hm, ht']

/-- **The messages of a timer come in order.**  What the mailbox accepted from a timer are
its first messages, one for each tick but perhaps the last, and what the loop took of them
are the first of these.  A timer that sleeps has sent one message for each tick, and a
`delayed_send` ticks once. -/
theorem ticks_in_order {E : Environment B.actor} {a : B.State} {x : Timed B}
    (h : Timed.Reachable E a x) {i : ℕ} {task : TimerTask B.Message}
    (ht : (Context.tasks x.sys.ctx)[i]? = some task) :
    ∃ m, m ≤ (x.sendsOf i).length ∧ (x.sendsOf i).length ≤ m + 1 ∧
      (x.phases i = .sleeping → m = (x.sendsOf i).length) ∧
      (x.ofTimer i (accepted x.sys.trace)).map Envelope.payload =
        (List.range m).map (fun n => (task.method n).payload) ∧
      (∃ n ≤ m, (x.ofTimer i (taken x.sys.trace)).map Envelope.payload =
        (List.range n).map fun n => (task.method n).payload) ∧
      (task.kind = .delayedSend → (x.sendsOf i).length ≤ 1) := by
  have hticked := h.ticked i
  have hlogged := h.logged
  have hpay := hticked.payloads h.enqueued ht
  have hlen : (x.ofTimer i (accepted x.sys.trace)).length ≤ (x.sendsOf i).length ∧
      (x.sendsOf i).length ≤ (x.ofTimer i (accepted x.sys.trace)).length + 1 ∧
      (x.phases i = .sleeping →
        (x.ofTimer i (accepted x.sys.trace)).length = (x.sendsOf i).length) := by
    rcases hticked.inOrder with hall | ⟨j, hjs, hne, -⟩
    · have := congrArg List.length hall
      rw [List.length_map] at this
      omega
    · have := congrArg List.length hjs
      rw [List.length_append, List.length_map, List.length_singleton] at this
      exact ⟨by omega, by omega, fun hs => absurd hs hne⟩
  refine ⟨_, hlen.1, hlen.2.1, hlen.2.2, hpay,
    ⟨(x.ofTimer i (taken x.sys.trace)).length, ?_, ?_⟩,
    fun hk => (hticked.once task ht hk).2⟩
  · exact (hlogged.ordered.filter _).length_le
  · have hpre : (x.ofTimer i (taken x.sys.trace)).map Envelope.payload <+:
        (x.ofTimer i (accepted x.sys.trace)).map Envelope.payload :=
      (hlogged.ordered.filter _).map _
    have hle := hpre.length_le
    rw [List.length_map, List.length_map] at hle
    rw [hpay, List.prefix_iff_eq_take, List.length_map, ← List.map_take, List.take_range,
      Nat.min_eq_left hle] at hpre
    exact hpre

/-- The interval ticks twice, and its first message is taken in between. -/
theorem ticks_in_order_of_unhurried : ∃ (x : Timed chime) (task : TimerTask Unit),
    (Timed.system Chime.narrow).run (Timed.init Chime.narrow (0 : ℕ)) Chime.unhurried = some x ∧
    (x.sendsOf 0).length = 2 ∧
    ∃ m, m ≤ (x.sendsOf 0).length ∧ (x.sendsOf 0).length ≤ m + 1 ∧
      (x.phases 0 = .sleeping → m = (x.sendsOf 0).length) ∧
      (x.ofTimer 0 (accepted x.sys.trace)).map Envelope.payload =
        (List.range m).map (fun n => (TimerTask.method (B := chime) task n).payload) ∧
      (∃ n ≤ m, (x.ofTimer 0 (taken x.sys.trace)).map Envelope.payload =
        (List.range n).map fun n => (TimerTask.method (B := chime) task n).payload) ∧
      (task.kind = .delayedSend → (x.sendsOf 0).length ≤ 1) :=
  ⟨_, _, rfl, rfl, ticks_in_order (E := Chime.narrow) (a := (0 : ℕ)) ⟨Chime.unhurried, rfl⟩ rfl⟩

end Hannibal
