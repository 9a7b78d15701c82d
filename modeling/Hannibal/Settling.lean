/-
What comes of what was begun.

The runtime goes on with the loop, with the operations and with the joins that were
begun, in any order.  `Sys.cost` is a potential that pays for it: each payload brings
along what its handler costs, and a handler is polled as often as its `rank` allows.

* **`work_bounded`** — in every run the runtime does at most the work that was asked for.

In `Resting` the same potential shows what every schedule comes to.
-/
import Hannibal.Potential
import Hannibal.Backpressure
import Hannibal.Requests
import Hannibal.StreamLoop

namespace Hannibal

variable {A : Actor}

/-- Every poll that leaves a handler waiting brings it closer to its end. -/
def Actor.Finishing (A : Actor) (rank : A.Fut → ℕ) : Prop :=
  ∀ w fut a c fut' a' c', A.poll w fut a c = (.inl fut', a', c') → rank fut' < rank fut

/-! ### What the runtime does by itself -/

def OpLabel.inner : OpLabel A → Bool
  | .begin _ _ => false
  | .beginContext _ => false
  | .push _ => true
  | .flush _ => true
  | .respond _ => true
  | .drop _ => false

def LoopLabel.inner : LoopLabel A → Bool
  | .panic => false
  | .drop => false
  | _ => true

def WatchLabel.inner : WatchLabel → Bool
  | .pollJoin _ => true
  | _ => false

/-- The stream is ready. -/
def Label.draws : Label A → Bool
  | .loop (.select sel) => sel.otherReady
  | _ => false

/-- The step goes on with something that was begun.  A round of the stream loop in which
nothing is ready goes on with nothing. -/
def Sys.works (s : Sys A) : Label A → Bool
  | .handle _ => false
  | .op l => l.inner
  | .loop (.select sel) => sel.otherReady || !s.chan.queue.isEmpty || s.chan.senders = 0
  | .loop l => l.inner
  | .watch l => l.inner

/-- The same while the stream is silent. -/
def Sys.worksSilent (s : Sys A) (l : Label A) : Bool := s.works l && !l.draws

/-! ### What it costs -/

section Cost

/- How many more polls a handler takes at most. -/
variable (v : A.Fut → ℕ)

/-- The polls that complete the task. -/
def TaskFuture.cost : TaskFuture A → ℕ
  | .handling fut _ => v fut + 1
  | .ping => 1

def Payload.cost : Payload A → ℕ
  | .task f => f.future.cost v + 1
  | .stop => 1
  | .restart => 3

/-- From `receiving` it takes `finished`, `stopped` and two steps of every exit to the end, the
drop of the context apart. -/
def Phase.cost : Phase A → ℕ
  | .starting => 6
  | .receiving => 5
  | .task _ fut => fut.cost v + 5
  | .refreshStopping _ => 7
  | .refreshStarting _ => 6
  | .item _ fut => v fut + 6
  | .finishing => 4
  | .stopping => 3
  | .leaving _ => 2
  | .releasing _ => 1
  | .ended _ => 0

def Op.cost (o : Op A) : ℕ :=
  match o.state with
  | .begun => o.method.payload.cost v + 3
  | .flushing => 2
  | .awaiting => 1
  | .returned _ => 0
  | .dropped => 0

def JoinState.cost : JoinState A → ℕ
  | .created => 2
  | .holding => 1
  | .done _ => 0
  | .dropped => 0

def itemCost : Option A.Item → ℕ
  | some x => v (A.handleItem x) + 2
  | none => 0

/-- The drop of the context, unless it is done. -/
def contextCost : Bool → ℕ
  | true => 0
  | false => 1

/-- The items of the stream from the position `k` on and in front of `n`. -/
def Environment.itemsCost (E : Environment A) (n k : ℕ) : ℕ :=
  match E.stream with
  | none => 0
  | some items => ((List.range (n - k)).map fun j => itemCost v (items (k + j))).sum

def Sys.cost (E : Environment A) (n : ℕ) (s : Sys A) : ℕ :=
  s.phase.cost v + (s.chan.queue.map fun e => e.payload.cost v).sum +
    (s.ops.map (Op.cost v)).sum + (s.joins.map JoinState.cost).sum + E.itemsCost v n s.cursor +
    contextCost s.ctxDropped

/-- What a step asks for. -/
def Label.grant : Label A → ℕ
  | .op (.begin m _) => m.payload.cost v + 3
  | .op (.beginContext m) => m.payload.cost v + 3
  | .watch (.join _) => 2
  | _ => 0

/-- The runtime asks for nothing. -/
theorem Sys.works_grant {s : Sys A} {l : Label A} (h : s.works l = true) : l.grant v = 0 := by
  cases l with
  | op l => cases l <;> first | rfl | cases h
  | watch l => cases l <;> first | rfl | cases h
  | handle l | loop l => rfl

/-! ### What a step pays -/

variable {v} {E : Environment A} {n : ℕ} {s t : Sys A}

theorem afterPush_cost (o : Op A) : Op.cost v { o with state := o.method.afterPush } ≤ 2 := by
  rcases o with ⟨m, x, st⟩
  cases m <;> simp [Op.cost, Method.afterPush]

theorem afterFlush_cost (o : Op A) : Op.cost v { o with state := o.method.afterFlush } ≤ 1 := by
  unfold Method.afterFlush
  split <;> simp [Op.cost]

theorem TaskFuture.poll_cost (hf : A.Finishing v) {w : A.World} {f f' : TaskFuture A}
    {a a' : A.State} {c c' : A.Ctx} (h : f.poll w a c = (.inl f', a', c')) :
    f'.cost v + 1 ≤ f.cost v := by
  cases f with
  | ping => cases h
  | handling fut b =>
    rcases hp : A.poll w fut a c with ⟨g | r, a₁, c₁⟩ <;> simp only [TaskFuture.poll, hp] at h
    · cases h
      have := hf w fut a c g _ _ hp
      simp only [TaskFuture.cost]
      omega
    · cases h

theorem Sys.Moves.cost {i : ℕ} {o : Op A} {st : OpState A} (h : s.Moves i o st) :
    Op.cost v { o with state := st } + 1 ≤ o.cost v := by
  cases h with
  | refused hst => simp [Op.cost, hst]
  | flushed hst =>
    have := afterFlush_cost (v := v) o
    simp only [Op.cost, hst] at this ⊢
    omega
  | answered r hst | canceled hst => simp [Op.cost, hst]
  | dropped hf =>
    rw [Op.pendingFuture, Bool.and_eq_true] at hf
    cases hst : o.state <;> simp [Op.cost, hst, OpState.live] at hf ⊢

namespace Sys

theorem cost_congr (hp : t.phase = s.phase) (hq : t.chan.queue = s.chan.queue)
    (ho : t.ops = s.ops) (hj : t.joins = s.joins) (hc : t.cursor = s.cursor)
    (hd : t.ctxDropped = s.ctxDropped) : t.cost v E n = s.cost v E n := by
  simp only [cost, hp, hq, ho, hj, hc, hd]

theorem handleStep_cost {l : HandleLabel} (h : s.handleStep l = some t) :
    t.cost v E n = s.cost v E n := by
  obtain ⟨hl, ar, k, rfl⟩ := handleStep_frame h
  exact cost_congr rfl rfl rfl rfl rfl rfl

theorem setOp_cost {i : ℕ} {o : Op A} (ho : s.ops[i]? = some o) (st : OpState A)
    (es : List (Event A)) :
    ((s.setOp i o st).record es).cost v E n + o.cost v =
      s.cost v E n + Op.cost v { o with state := st } := by
  have hsum := Table.sum_map_set (f := Op.cost v) (b := { o with state := st }) ho
  simp only [cost, setOp, releaseArcs, Mpsc.dropSenders, record] at hsum ⊢
  omega

theorem addOp_cost (o : Op A) (es : List (Event A)) :
    ((s.addOp o).record es).cost v E n = s.cost v E n + o.cost v := by
  simp only [cost, addOp, Mpsc.cloneSenders, record, List.map_append, List.sum_append,
    List.map_singleton, List.sum_singleton]
  omega

theorem pushOp_cost {i : ℕ} {o : Op A} (ho : s.ops[i]? = some o) (hst : o.state = .begun) :
    (s.pushOp i o).cost v E n + 1 ≤ s.cost v E n := by
  have hbegun : o.cost v = o.method.payload.cost v + 3 := by rw [Op.cost, hst]
  unfold pushOp
  split
  · next d hc =>
    obtain ⟨-, hq, -, -⟩ := Mpsc.push_eq_some hc
    -- the payload takes what its handler costs along into the queue
    have hset := setOp_cost (s := { s with chan := d }) (v := v) (E := E) (n := n) ho
      o.method.afterPush (.accepted (envelope i o) :: returnEvents i o.method.afterPush)
    have hle := afterPush_cost (v := v) o
    have hin : cost v E n { s with chan := d } =
        s.cost v E n + o.method.payload.cost v := by
      simp only [cost, hq, envelope, List.map_append, List.sum_append,
        List.map_singleton, List.sum_singleton]
      omega
    omega
  · have hset := setOp_cost (v := v) (E := E) (n := n) ho
      (.returned (.error .asyncSendError)) [.returned i (.error .asyncSendError)]
    have hzero : Op.cost v { o with state := .returned (.error .asyncSendError) } = 0 := rfl
    omega

theorem opStep_cost {l : OpLabel A} (h : s.opStep l = some t) :
    (if l.inner then 1 else 0) + t.cost v E n ≤ s.cost v E n + (Label.op l).grant v := by
  cases opStep_labels h with
  | begin m i | upgraded m i | context m =>
    rw [beginOp, addOp_cost]
    simp [OpLabel.inner, Label.grant, Op.cost]
  | refused m i | contextRefused m =>
    rw [refuseOp, addOp_cost]
    simp [OpLabel.inner, Op.cost]
  | push i o ho hst =>
    have := pushOp_cost (v := v) (E := E) (n := n) ho hst
    simp only [OpLabel.inner, if_true]
    omega
  | move l i o st hl ho hm =>
    have hset := setOp_cost (v := v) (E := E) (n := n) ho st (returnEvents i st)
    have hless := hm.cost (v := v)
    have hone : (if l.inner then 1 else 0) ≤ 1 := by split <;> omega
    omega

theorem setJoin_cost {j : ℕ} {x y : JoinState A} (hj : s.joins[j]? = some x) (b : Bool)
    (es : List (Event A)) :
    (({ s with joinSlot := b, joins := s.joins.set j y }).record es).cost v E n + x.cost =
      s.cost v E n + y.cost := by
  have hsum := Table.sum_map_set (f := JoinState.cost) (b := y) hj
  simp only [cost, record] at hsum ⊢
  omega

theorem watchStep_cost {l : WatchLabel} (h : s.watchStep l = some t) :
    (if l.inner then 1 else 0) + t.cost v E n ≤
      s.cost v E n + (Label.watch l : Label A).grant v := by
  cases l with
  | await i =>
    simp only [watchStep] at h
    split at h
    · split at h
      · split at h
        · cases h
          simp [WatchLabel.inner, cost, record]
        · cases h
      · cases h
    · cases h
  | join i =>
    simp only [watchStep] at h
    split at h
    · split at h
      · cases h
        simp only [WatchLabel.inner, Label.grant, cost, List.map_append, List.sum_append,
          List.map_singleton, List.sum_singleton, JoinState.cost, Bool.false_eq_true, if_false]
        omega
      · cases h
    · cases h
  | pollJoin j =>
    simp only [watchStep, pollJoin] at h
    simp only [WatchLabel.inner, if_true]
    split at h
    · next hj =>
      -- the first one takes the handle, and returns at once where the task has
      split at h
      · split at h
        · next out ho =>
          cases h
          have := setJoin_cost (v := v) (E := E) (n := n) (y := .done out) hj false
            [.joinPolled j, .joined j out]
          simp only [JoinState.cost] at this
          omega
        · next ho =>
          cases h
          have := setJoin_cost (v := v) (E := E) (n := n) (y := .holding) hj false
            [.joinPolled j]
          simp only [JoinState.cost] at this
          omega
      · cases h
        have := setJoin_cost (v := v) (E := E) (n := n) (y := .done none) hj s.joinSlot
          [.joinPolled j, .joined j none]
        simp only [JoinState.cost] at this
        omega
    · next hj =>
      obtain ⟨out, ho, rfl⟩ := Option.map_eq_some_iff.mp h
      have := setJoin_cost (v := v) (E := E) (n := n) (y := .done out) hj s.joinSlot
        [.joined j out]
      simp only [JoinState.cost] at this
      omega
    · cases h
  | dropJoin j =>
    simp only [watchStep] at h
    split at h
    · cases h
    · next st hd hj =>
      cases h
      have := setJoin_cost (v := v) (E := E) (n := n) (y := .dropped) hj s.joinSlot []
      simp only [WatchLabel.inner, JoinState.cost, record, List.append_nil, Bool.false_eq_true,
        if_false] at this ⊢
      omega
    · cases h

/-! ### What the loop pays -/

theorem afterLoop_cost (E : Environment A) : E.afterLoop.cost v ≤ 4 := by
  unfold Environment.afterLoop
  split <;> simp [Phase.cost]

/-- A step that changes the phase and what the loop works on, and nothing that is counted
besides. -/
theorem cost_phase (p : Phase A) (a : A.State) (c : A.Ctx) (k : ℕ) (es : List (Event A)) :
    (({ s with phase := p, actor := a, ctx := c, incarnation := k }).record es).cost v E n +
      s.phase.cost v = s.cost v E n + p.cost v := by
  simp only [cost, record]
  omega

theorem startedHook_cost (w : A.World) (es : List (Event A)) (hp : 6 ≤ s.phase.cost v) :
    (s.startedHook w es).cost v E n + 1 ≤ s.cost v E n := by
  unfold startedHook
  split
  · next u a c h =>
    have := cost_phase (s := s) (v := v) (E := E) (n := n) .receiving a c s.incarnation
      (.started w s.incarnation true :: es)
    have hrec : (Phase.receiving : Phase A).cost v = 5 := rfl
    omega
  · next e a c h =>
    have := cost_phase (s := s) (v := v) (E := E) (n := n) (.leaving (.err (.hook e))) a c
      s.incarnation [.started w s.incarnation false]
    have hleave : (Phase.leaving (.err (.hook e)) : Phase A).cost v = 2 := rfl
    omega

theorem hook_cost {w : A.World} (h : s.hook E w = some t) :
    t.cost v E n + 1 ≤ s.cost v E n := by
  have hstop : ∀ (p q : Phase A), s.phase = q → p.cost v + 1 ≤ q.cost v →
      ({ s.stoppedHook w with phase := p } : Sys A).cost v E n + 1 ≤ s.cost v E n := by
    intro p q hq hpq
    simp only [cost, stoppedHook, record, hq]
    omega
  unfold hook at h
  split at h
  · next hp =>
    cases h
    exact startedHook_cost w [] (by rw [hp]; exact Nat.le_refl _)
  · next i hp =>
    split at h
    · cases h
      simp only [cost, recreate, stoppedHook, record, hp, Phase.cost]
      omega
    · cases h
      exact hstop _ _ hp (by simp [Phase.cost])
  · next i hp =>
    cases h
    exact startedHook_cost w _ (by rw [hp]; exact Nat.le_refl _)
  · next hp =>
    cases h
    simp only [cost, finishedHook, record, hp, Phase.cost]
    omega
  · next hp =>
    cases h
    exact hstop _ _ hp (by simp [Phase.cost])
  · cases h

theorem receive_cost (hp : s.phase = .receiving) (h : s.receive E = some t) :
    t.cost v E n + 1 ≤ s.cost v E n := by
  have hafter := afterLoop_cost (v := v) E
  have hrec : s.phase.cost v = 5 := by rw [hp]; rfl
  simp only [receive] at h
  split at h
  · next e hpoll =>
    obtain ⟨q, hq⟩ := Mpsc.pollNext_eq_some.mp hpoll
    cases h
    -- the head of the queue pays for where the loop goes
    have hpay : ∀ u : Sys A, u.chan.queue = q → u.ops = s.ops → u.joins = s.joins →
        u.cursor = s.cursor → u.ctxDropped = s.ctxDropped →
        u.phase.cost v + 1 ≤ e.payload.cost v + 5 → u.cost v E n + 1 ≤ s.cost v E n := by
      intro u huq huo huj huc hud hup
      simp only [cost, huq, huo, huj, huc, hud, hq, List.map_cons, List.sum_cons]
      omega
    have hqueue : s.chan.advance.queue = q := by rw [Mpsc.advance_queue, hq, List.tail_cons]
    unfold onPayload
    split
    · unfold createLoopMatch
      split
      · next hf =>
        unfold refresh
        split <;> refine hpay _ hqueue rfl rfl rfl rfl ?_ <;> simp [hf, Payload.cost, Phase.cost]
      · next f hf =>
        refine hpay _ hqueue rfl rfl rfl rfl ?_
        simp [record, beginTask, hf, Payload.cost, Phase.cost]
      · next hf =>
        refine hpay _ hqueue rfl rfl rfl rfl ?_
        simp [hf, Payload.cost, Phase.cost]
    · unfold createLoopOnStreamMatch
      split
      · next f hf =>
        refine hpay _ hqueue rfl rfl rfl rfl ?_
        simp [record, beginTask, hf, Payload.cost, Phase.cost]
      · next hf =>
        refine hpay _ hqueue rfl rfl rfl rfl ?_
        simp [hf, Payload.cost, Phase.cost]
      · next hf =>
        refine hpay _ hqueue rfl rfl rfl rfl ?_
        simp [hf, Payload.cost, Phase.cost]
  · cases h
    simp only [cost, record]
    omega
  · cases h

theorem itemsCost_succ {items : ℕ → Option A.Item} (hs : E.stream = some items) {k : ℕ}
    (hk : k < n) : E.itemsCost v n k = itemCost v (items k) + E.itemsCost v n (k + 1) := by
  obtain ⟨m, hm⟩ : ∃ m, n - k = m + 1 := ⟨n - k - 1, by omega⟩
  have hm' : n - (k + 1) = m := by omega
  simp only [Environment.itemsCost, hs, hm, hm', List.range_succ_eq_map, List.map_cons,
    List.map_map, List.sum_cons, Nat.add_zero]
  congr 2
  refine List.map_congr_left fun j _ => ?_
  show itemCost v (items (k + (j + 1))) = itemCost v (items (k + 1 + j))
  rw [Nat.add_right_comm, Nat.add_assoc]

theorem receiveItem_cost {items : ℕ → Option A.Item} (hs : E.stream = some items)
    (hp : s.phase = .receiving) (hn : ∀ x, items s.cursor = some x → s.cursor < n) :
    (s.receiveItem items).cost v E n + 1 ≤ s.cost v E n := by
  have hrec : s.phase.cost v = 5 := by rw [hp]; rfl
  unfold receiveItem
  split
  · next x hx =>
    have hnext := itemsCost_succ (v := v) hs (hn x hx)
    have hitem : (Phase.item x (A.handleItem x)).cost v + 1 = itemCost v (items s.cursor) + 5 := by
      rw [hx]
      rfl
    simp only [cost, record]
    omega
  · next hx =>
    have hfin : (Phase.finishing : Phase A).cost v = 4 := rfl
    simp only [cost, record]
    omega

theorem pollTask_cost (hf : A.Finishing v) {i : ℕ} {fut : TaskFuture A} (w : A.World)
    (sel : Select) (hp : s.phase = .task i fut) :
    (s.pollTask E i fut w sel).cost v E n + 1 ≤ s.cost v E n := by
  have htask : s.phase.cost v = fut.cost v + 5 := by rw [hp]; rfl
  have hpos : 0 < fut.cost v := by cases fut <;> simp [TaskFuture.cost]
  unfold pollTask
  rcases h : timeoutFut E.taskTimeout sel w fut s.actor s.ctx with ⟨fut' | reply | _, a, c⟩
  · -- the handler waits, but not as long as before
    have hless := TaskFuture.poll_cost hf (timeoutFut_pending h)
    have hnext : (Phase.task i fut').cost v = fut'.cost v + 5 := rfl
    simp only [cost, record]
    omega
  · have hrec : (Phase.receiving : Phase A).cost v = 5 := rfl
    simp only [cost, complete, record]
    omega
  · have hover : (if E.config.failOnTimeout then Phase.leaving (.err .timeout)
        else (.receiving : Phase A)).cost v ≤ 5 := by split <;> simp [Phase.cost]
    simp only [cost, overrun, dropAnswer, record]
    omega

theorem pollItem_cost (hf : A.Finishing v) {x : A.Item} {fut : A.Fut} (w : A.World)
    (hp : s.phase = .item x fut) : (s.pollItem x fut w).cost v E n + 1 ≤ s.cost v E n := by
  have hitem : s.phase.cost v = v fut + 6 := by rw [hp]; rfl
  unfold pollItem
  rcases h : A.poll w fut s.actor s.ctx with ⟨fut' | r, a, c⟩
  · have hless := hf w fut _ _ fut' _ _ h
    have hnext : (Phase.item x fut').cost v = v fut' + 6 := rfl
    simp only [cost, record]
    omega
  · have hrec : (Phase.receiving : Phase A).cost v = 5 := rfl
    simp only [cost, record]
    omega

theorem crash_cost (o : Exit A) (hs : s.suspended = true) :
    (s.crash o).cost v E n ≤ s.cost v E n := by
  -- the two steps of the exit were to come anyway
  have hleave : (Phase.leaving o : Phase A).cost v = 2 := rfl
  have hle : 2 ≤ s.phase.cost v := by
    cases hp : s.phase <;> simp [hp, suspended, Phase.cost] at hs ⊢
  unfold crash
  split <;> simp only [cost, dropAnswer] <;> omega

theorem notify_cost {o : Exit A} (hp : s.phase = .leaving o) :
    (s.notify o).cost v E n + 1 ≤ s.cost v E n := by
  have hleave : s.phase.cost v = 2 := by rw [hp]; rfl
  have hrel : (Phase.releasing o : Phase A).cost v = 1 := rfl
  simp only [cost, notify, record]
  omega

theorem dropContext_cost (hd : s.dropsContext = true) :
    s.dropContext.cost v E n + 1 ≤ s.cost v E n := by
  have hheld : s.ctxDropped = false := by
    rw [dropsContext, Bool.and_eq_true, Bool.not_eq_true'] at hd
    exact hd.1
  have hone : contextCost s.ctxDropped = 1 := by rw [hheld]; rfl
  have hzero : contextCost true = 0 := rfl
  simp only [cost, dropContext, hzero, hone]
  omega

theorem release_cost {o : Exit A} (hp : s.phase = .releasing o) :
    (s.release o).cost v E n + 1 ≤ s.cost v E n := by
  have hrel : s.phase.cost v = 1 := by rw [hp]; rfl
  have hend : (Phase.ended o : Phase A).cost v = 0 := rfl
  simp only [cost, release, record, Mpsc.close_queue, List.map_nil, List.sum_nil]
  omega

theorem select_cost {items : ℕ → Option A.Item} {sel : Select} (hs : E.stream = some items)
    (hp : s.phase = .receiving)
    (hn : sel.otherReady = true → ∀ x, items s.cursor = some x → s.cursor < n)
    (hw : s.works (.loop (.select sel)) = true) :
    (s.select E items sel).cost v E n + 1 ≤ s.cost v E n := by
  -- where the stream is not ready, the mailbox is
  have hmail : ∀ u : Sys A, u.chan = s.chan → sel.otherReady = false → u.receive E ≠ none := by
    intro u hu hr hnone
    simp only [works, hr, Bool.false_or, Bool.or_eq_true, Bool.not_eq_true',
      decide_eq_true_eq] at hw
    rw [receive, hu] at hnone
    cases hq : s.chan.queue with
    | nil => simp_all [Mpsc.pollNext]
    | cons e q => simp [Mpsc.pollNext, hq] at hnone
  unfold select
  split
  · split
    · next hr => exact receiveItem_cost hs hp (hn hr)
    · next hr =>
      cases h : (s.record [.streamPending]).receive E with
      | none => exact absurd h (hmail _ rfl (by simpa using hr))
      | some t => exact receive_cost (s := s.record [.streamPending]) hp h
  · cases h : s.receive E with
    | none =>
      rw [Option.getD_none]
      split
      · next hr => exact receiveItem_cost hs hp (hn hr)
      · next hr => exact absurd h (hmail s rfl (by simpa using hr))
    | some t => exact receive_cost hp h

/-- A round of the stream loop that goes on with nothing leaves everything as it is. -/
theorem select_idle {items : ℕ → Option A.Item} {sel : Select}
    (hw : s.works (.loop (.select sel)) = false) :
    s.select E items sel = s.record [.streamPending] := by
  simp only [works, Bool.or_eq_false_iff, Bool.not_eq_false', decide_eq_false_iff_not,
    List.isEmpty_iff] at hw
  obtain ⟨⟨hr, hq⟩, hsend⟩ := hw
  have hnone : ∀ u : Sys A, u.chan = s.chan → u.receive E = none := by
    intro u hu
    rw [receive, hu, Mpsc.pollNext, hq]
    simp [hsend]
  simp [select, hr, hnone s rfl, hnone (s.record _) rfl]

theorem loopStep_cost (hf : A.Finishing v) {l : LoopLabel A}
    (hn : (Label.loop l).draws = true → ∀ items, E.stream = some items →
      ∀ x, items s.cursor = some x → s.cursor < n)
    (h : s.loopStep E l = some t) :
    (if s.works (.loop l) then 1 else 0) + t.cost v E n ≤ s.cost v E n := by
  unfold loopStep at h
  split at h
  · cases h
  · -- one case for each label that the phase allows
    split at h
    · have := hook_cost (v := v) (n := n) h
      simp only [works, LoopLabel.inner, if_true]
      omega
    · next hp =>
      split at h
      · have := receive_cost (v := v) (n := n) hp h
        simp only [works, LoopLabel.inner, if_true]
        omega
      · cases h
    · next sel hp =>
      split at h
      · cases h
      · next items hs =>
        cases h
        cases hw : s.works (.loop (.select sel)) with
        | true =>
          have := select_cost (v := v) (n := n) hs hp (fun hr => hn hr items hs) hw
          simp only [if_true]
          omega
        | false =>
          rw [select_idle hw]
          simp [cost_congr (s := s) (t := s.record [.streamPending]) rfl rfl rfl rfl rfl rfl]
    · next w sel i fut hp =>
      cases h
      have := pollTask_cost (E := E) (n := n) hf w sel hp
      simp only [works, LoopLabel.inner, if_true]
      omega
    · next w x fut hp =>
      cases h
      have := pollItem_cost (E := E) (n := n) hf w hp
      simp only [works, LoopLabel.inner, if_true]
      omega
    · split at h
      · next hc =>
        cases h
        have := crash_cost (v := v) (E := E) (n := n) .panicked (suspended_of_hasContext hc)
        simpa [works, LoopLabel.inner] using this
      · cases h
    · split at h
      · next hc =>
        cases h
        have := crash_cost (v := v) (E := E) (n := n) .dropped hc
        simpa [works, LoopLabel.inner] using this
      · cases h
    · next o hp =>
      split at h
      · cases h
      · cases h
        have := notify_cost (v := v) (E := E) (n := n) hp
        simp only [works, LoopLabel.inner, if_true]
        omega
    · split at h
      · next hd =>
        cases h
        have := dropContext_cost (v := v) (E := E) (n := n) hd
        simp only [works, LoopLabel.inner, if_true]
        omega
      · cases h
    · next o hp =>
      split at h
      · cases h
      · cases h
        have := release_cost (v := v) (E := E) (n := n) hp
        simp only [works, LoopLabel.inner, if_true]
        omega
    · cases h

end Sys

namespace Environment

theorem step_cost (hf : A.Finishing v) {l : Label A}
    (hn : l.draws = true → ∀ items, E.stream = some items →
      ∀ x, items s.cursor = some x → s.cursor < n)
    (h : E.step s l = some t) :
    (if s.works l then 1 else 0) + t.cost v E n ≤ s.cost v E n + l.grant v := by
  cases l with
  | handle l =>
    rw [Sys.handleStep_cost h]
    simp [Sys.works]
  | op l => exact Sys.opStep_cost h
  | loop l => exact Sys.loopStep_cost hf hn h
  | watch l => exact Sys.watchStep_cost h

/-- While the stream is silent its items need not be paid for. -/
theorem silent_cost (hf : A.Finishing v) {l : Label A} (hl : s.worksSilent l = true)
    (h : E.step s l = some t) : t.cost v E 0 < s.cost v E 0 := by
  simp only [Sys.worksSilent, Bool.and_eq_true, Bool.not_eq_true'] at hl
  have hcost := E.step_cost (n := 0) hf (by simp [hl.2]) h
  rw [Sys.works_grant v hl.1, hl.1] at hcost
  simp only [if_true] at hcost
  omega

variable {a : A.State} {c : A.Ctx}

/-- The loop does not get past the end of the stream. -/
theorem Reachable.cursor_lt (h : E.Reachable a c s) {items : ℕ → Option A.Item}
    (hs : E.stream = some items) (hn : items n = none) {x : A.Item}
    (hx : items s.cursor = some x) : s.cursor < n := by
  by_contra hlt
  rcases Nat.lt_or_eq_of_le (Nat.le_of_not_lt hlt) with hlt | rfl
  · -- the end at `n` would have been drawn as an item
    have hmem : none ∈ (List.range s.cursor).map items :=
      List.mem_map.mpr ⟨n, List.mem_range.mpr hlt, hn⟩
    rw [← (h.drawn hs).drawn, List.mem_map] at hmem
    obtain ⟨y, -, hy⟩ := hmem
    cases hy
  · rw [hn] at hx
    cases hx

theorem init_cost (E : Environment A) (n : ℕ) (a : A.State) (c : A.Ctx) :
    (E.init a c).cost v E n = 7 + E.itemsCost v n 0 := by
  show 6 + E.itemsCost v n 0 + 1 = _
  omega

end Environment

end Cost

/-- **The runtime does no more than what was asked for.**  In every run, with whatever
happens in between, it goes on with the loop, the operations and the joins at most as often
as the operations that were begun, the items of the stream and the hooks at both ends of
the actor's life call for. -/
theorem work_bounded {E : Environment A} {rank : A.Fut → ℕ} (hf : A.Finishing rank) {n : ℕ}
    (hn : ∀ items, E.stream = some items → items n = none) {a : A.State} {c : A.Ctx} {s : Sys A}
    {ls : List (Label A)} (h : E.system.run (E.init a c) ls = some s) :
    E.system.count Sys.works (E.init a c) ls ≤
      7 + E.itemsCost rank n 0 + (ls.map (Label.grant rank)).sum := by
  have := Machine.count_le (M := E.system) (p := Sys.works) (I := E.Reachable a c)
    (μ := Sys.cost rank E n) (g := Label.grant rank)
    (fun s l t hs hst => hs.trans (.single hst))
    (fun s l t hs hst =>
      E.step_cost hf (fun _ items hi x hx => hs.cursor_lt hi (hn items hi) hx) hst)
    (.refl _ _) h
  rw [Environment.init_cost] at this
  omega

/-! ### An actor whose handlers wait -/

/-- Adds up the numbers it is sent; for the number `m` it is polled `m + 1` times. -/
def patient : Actor where
  State := ℕ
  Ctx := Unit
  Error := Unit
  Message := ℕ
  Response := ℕ
  Item := ℕ
  Fut := ℕ × ℕ
  World := Unit
  default := 0
  started _ a c := (.ok (), a, c)
  stopped _ a c := (a, c)
  finished _ a c := (a, c)
  handle m := (m, m)
  handleItem x := (x, x)
  poll _ f a c :=
    match f with
    | (0, m) => (.inr (a + m), a + m, c)
    | (k + 1, m) => (.inl (k, m), a, c)

instance : Nonempty patient.World := ⟨()⟩

namespace Patient

/-- What is left of the polls. -/
def rank (f : patient.Fut) : ℕ := Prod.fst (show ℕ × ℕ from f)

theorem finishing : patient.Finishing rank := by
  rintro w ⟨_ | k, m⟩ a c ⟨k', m'⟩ a' c' h
  · cases h
  · cases h
    exact Nat.lt_succ_self k

def plain : Environment patient := ⟨some 1, ⟨none, false⟩, .restartOnly, none⟩

/-- A stream of two items. -/
def items (n : ℕ) : Option patient.Item := if n < 2 then some n else none

def streaming : Environment patient := ⟨none, ⟨none, false⟩, .nonRestartable, some items⟩

def spawn (E : Environment patient) : Sys patient := E.init (0 : ℕ) ()

/-- One call is made and answered. -/
def call : List (Label patient) :=
  [.op (.begin (.call (1 : ℕ)) 0), .op (.push 0), .loop (.hook ()), .loop .recv,
    .loop (.pollTask () ⟨false, false⟩), .loop (.pollTask () ⟨false, false⟩), .op (.respond 0)]

end Patient

/-- A call that is polled twice takes six steps of the runtime. -/
theorem work_bounded_of_call : ∃ s,
    Patient.plain.system.run (Patient.spawn Patient.plain) Patient.call = some s ∧
      Patient.plain.system.count Sys.works (Patient.spawn Patient.plain) Patient.call = 6 ∧
      Patient.plain.system.count Sys.works (Patient.spawn Patient.plain) Patient.call ≤
        7 + Patient.plain.itemsCost Patient.rank 0 0 +
          (Patient.call.map (Label.grant Patient.rank)).sum :=
  ⟨_, rfl, rfl, work_bounded Patient.finishing (n := 0) (fun _ h => by cases h) rfl⟩

end Hannibal
