/-
Actors are linearizable.

For an actor whose handlers compute a function of the message and of the actor, however
often they are polled and whatever they see meanwhile, `sequential` is a single thread
that does one job after the other.  The server takes the jobs from the head of its inbox
and from its stream, so its replies are those of that thread; and as `Shows` relates every
actor to a server, so are the actor's.

* `Server.InOrder` — the invariant of the server;
* **`linearizable`** — the replies are the sequential ones, in an order that respects
  real time;
* **`retrieved`** — the actor that a join comes back with is what the single thread makes
  of everything before the first `Stop`.
-/
import Hannibal.Consuming
import Hannibal.Resting
import Hannibal.Server

open scoped List

namespace Hannibal

variable {A : Actor}

/-- However the handlers are driven, they compute `answer` and `absorb`. -/
structure Actor.Computes (A : Actor)
    (answer : A.Message → A.State × A.Ctx → A.Response × A.State × A.Ctx)
    (absorb : A.Item → A.State × A.Ctx → A.State × A.Ctx) : Prop where
  handle : ∀ ws m p r q, A.drive ws (A.handle m) p = (.inr r, q) → (r, q) = answer m p
  item : ∀ ws x p r q, A.drive ws (A.handleItem x) p = (.inr r, q) → q = absorb x p

/-! ### One thread -/

/-- A payload, with what the hooks of a restart see, or an item of the stream. -/
inductive Job (A : Actor) where
  | take (e : Envelope A) (w w' : A.World)
  | item (x : A.Item)

def Job.envelope? : Job A → Option (Envelope A)
  | .take e _ _ => some e
  | .item _ => none

def Job.item? : Job A → Option A.Item
  | .take _ _ _ => none
  | .item x => some x

/-- What a restart makes of the actor, unless it ends it. -/
def Environment.refreshed (E : Environment A) (w w' : A.World) (p : A.State × A.Ctx) :
    Option (A.State × A.Ctx) :=
  match E.stream, E.strategy with
  | some _, _ => none
  | none, .nonRestartable => some p
  | none, _ =>
    match A.started w' (E.renewed w p).1 (E.renewed w p).2 with
    | (.ok _, q) => some q
    | (.error _, _) => none

/-- What a task sends on its response channel, and what it makes of the actor. -/
def TaskFn.outcome (answer : A.Message → A.State × A.Ctx → A.Response × A.State × A.Ctx)
    (f : TaskFn A) (p : A.State × A.Ctx) : Option (Reply A) × A.State × A.Ctx :=
  match f with
  | .call m => (some (.response (answer m p).1), (answer m p).2)
  | .send m => (none, (answer m p).2)
  | .ping => (some .pong, p)

/-- One job after the other, with the replies so far; a `Stop` is no job. -/
def sequential (E : Environment A)
    (answer : A.Message → A.State × A.Ctx → A.Response × A.State × A.Ctx)
    (absorb : A.Item → A.State × A.Ctx → A.State × A.Ctx) :
    Machine (List (ℕ × Option (Reply A)) × A.State × A.Ctx) (Job A) where
  step
    | (rs, p), .take ⟨i, .task f⟩ _ _ =>
      some (rs ++ [(i, (f.outcome answer p).1)], (f.outcome answer p).2)
    | (rs, p), .take ⟨_, .restart⟩ w w' => (E.refreshed w w' p).map fun q => (rs, q)
    | _, .take ⟨_, .stop⟩ _ _ => none
    | (rs, p), .item x => some (rs, absorb x p)

/-! ### The server does its jobs in order -/

theorem TaskFuture.drive_handling (ws : List A.World) (fut : A.Fut) (b : Bool)
    (p : A.State × A.Ctx) : (TaskFuture.handling fut b).drive ws p =
      match A.drive ws fut p with
      | (.inl fut, q) => (.inl (.handling fut b), q)
      | (.inr r, q) => (.inr (if b then some (.response r) else none), q) := by
  induction ws generalizing fut p with
  | nil => rfl
  | cons w ws ih =>
    unfold TaskFuture.drive Actor.drive at ih ⊢
    rcases h : A.poll w fut p.1 p.2 with ⟨fut' | r, a, c⟩
    · rw [Future.drive_cons_pending (g := fut') (u := (a, c)) h,
        Future.drive_cons_pending (g := TaskFuture.handling fut' b) (u := (a, c)), ih]
      simp only [TaskFuture.poll, h]
    · rw [Future.drive_cons_ready (r := r) (u := (a, c)) h,
        Future.drive_cons_ready (r := if b then some (Reply.response r) else none) (u := (a, c))]
      simp only [TaskFuture.poll, h]

theorem TaskFuture.drive_ping (w : A.World) (ws : List A.World) (p : A.State × A.Ctx) :
    (TaskFuture.ping : TaskFuture A).drive (w :: ws) p = (.inr (some .pong), p) := rfl

theorem Actor.Computes.task
    {answer : A.Message → A.State × A.Ctx → A.Response × A.State × A.Ctx}
    {absorb : A.Item → A.State × A.Ctx → A.State × A.Ctx} (hA : A.Computes answer absorb)
    {f : TaskFn A} {ws : List A.World} {p q : A.State × A.Ctx} {reply : Option (Reply A)}
    (h : f.future.drive ws p = (.inr reply, q)) : (reply, q) = f.outcome answer p := by
  have hhandle : ∀ m b, (TaskFuture.handling (A.handle m) b).drive ws p = (.inr reply, q) →
      (reply, q) =
        (if b then some (.response (answer m p).1) else none, (answer m p).2) := by
    intro m b hd
    rw [TaskFuture.drive_handling] at hd
    split at hd
    · cases hd
    · next r q' hr =>
      cases hd
      rw [← hA.handle ws m p r q hr]
  cases f with
  | call m => exact hhandle m true h
  | send m => exact hhandle m false h
  | ping =>
    cases ws with
    | nil => cases h
    | cons w ws =>
      rw [TaskFn.future, TaskFuture.drive_ping] at h
      cases h
      rfl

def Deed.accepted? : Deed A → Option (Envelope A)
  | .accepted e => some e
  | _ => none

def Deed.served? : Deed A → Option (ℕ × Option (Reply A))
  | .served i reply => some (i, reply)
  | _ => none

def Deed.handled? : Deed A → Option A.Item
  | .handled x => some x
  | _ => none

/-- The payload that the server is done with. -/
def Deed.settled? : Deed A → Option ℕ
  | .served i _ => some i
  | .gaveUp i => some i
  | .refreshed i => some i
  | _ => none

def Event.reply? : Event A → Option (ℕ × Option (Reply A))
  | .completed i reply => some (i, reply)
  | _ => none

/-- The replies in the order in which the tasks completed. -/
def repliesOf (t : List (Event A)) : List (ℕ × Option (Reply A)) := t.filterMap Event.reply?

theorem deedsOf_filterMap {β : Type*} {f : Deed A → Option β} {g : Event A → Option β}
    (h : ∀ ev, ev.deed?.bind f = g ev) (t : List (Event A)) :
    (deedsOf t).filterMap f = t.filterMap g := by
  rw [deedsOf, List.filterMap_filterMap]
  exact List.filterMap_congr fun ev _ => h ev

theorem deedsOf_accepted (t : List (Event A)) :
    (deedsOf t).filterMap Deed.accepted? = accepted t :=
  deedsOf_filterMap (by intro ev; cases ev <;> rfl) t

theorem deedsOf_served (t : List (Event A)) :
    (deedsOf t).filterMap Deed.served? = repliesOf t :=
  deedsOf_filterMap (by intro ev; cases ev <;> rfl) t

theorem deedsOf_handled (t : List (Event A)) :
    (deedsOf t).filterMap Deed.handled? = itemsHandled t :=
  deedsOf_filterMap (by intro ev; cases ev <;> rfl) t

theorem deedsOf_settled (t : List (Event A)) :
    (deedsOf t).filterMap Deed.settled? = concluded t :=
  deedsOf_filterMap (by intro ev; cases ev <;> rfl) t

namespace Server

section InOrder

variable (E : Environment A)
  (answer : A.Message → A.State × A.Ctx → A.Response × A.State × A.Ctx)
  (absorb : A.Item → A.State × A.Ctx → A.State × A.Ctx) (a : A.State) (c : A.Ctx)

/-- The deeds are those of a single thread that does the jobs `js` and comes to `q`; `w` is
what `started` saw at first. -/
structure Did (w : A.World) (ds : List (Deed A)) (js : List (Job A)) (q : A.State × A.Ctx) :
    Prop where
  run : (sequential E answer absorb).run ([], (A.started w a c).2) js =
    some (ds.filterMap Deed.served?, q)
  settled : ds.filterMap Deed.settled? = (js.filterMap Job.envelope?).map Envelope.id
  items : ds.filterMap Deed.handled? = js.filterMap Job.item?
  taken : js.filterMap Job.envelope? <+: ds.filterMap Deed.accepted?

/-- What the server did is what a single thread makes of what it took. -/
def InOrder (v : Server A) : Prop :=
  match v.stage with
  | .starting => (∀ w, Did E answer absorb a c w v.deeds [] (A.started w a c).2) ∧
      v.deeds.filterMap Deed.accepted? = v.inbox ∧ (v.actor, v.ctx) = (a, c)
  | .serving => ∃ w js, Did E answer absorb a c w v.deeds js (v.actor, v.ctx) ∧
      v.deeds.filterMap Deed.accepted? = js.filterMap Job.envelope? ++ v.inbox
  | .done o | .gone o => ∃ w js q, Did E answer absorb a c w v.deeds js q ∧
      ∀ b, o = .ok b → ∃ w₁ w₂, b = (E.closing w₁ w₂ q).1

variable {E answer absorb a c} {v u : Server A} {w : A.World} {ds l : List (Deed A)}
  {js : List (Job A)} {q : A.State × A.Ctx}

namespace Did

/-- The single thread does one more job. -/
theorem snoc (h : Did E answer absorb a c w ds js q) {x : Job A} {r : A.State × A.Ctx}
    (hx : (sequential E answer absorb).step (ds.filterMap Deed.served?, q) x =
      some ((ds ++ l).filterMap Deed.served?, r))
    (hs : l.filterMap Deed.settled? = x.envelope?.toList.map Envelope.id)
    (hi : l.filterMap Deed.handled? = x.item?.toList)
    (ht : js.filterMap Job.envelope? ++ x.envelope?.toList <+: ds.filterMap Deed.accepted?) :
    Did E answer absorb a c w (ds ++ l) (js ++ [x]) r := by
  have henv : (js ++ [x]).filterMap Job.envelope? =
      js.filterMap Job.envelope? ++ x.envelope?.toList := by
    rw [List.filterMap_append]
    cases x <;> rfl
  have hitem : (js ++ [x]).filterMap Job.item? = js.filterMap Job.item? ++ x.item?.toList := by
    rw [List.filterMap_append]
    cases x <;> rfl
  refine ⟨Machine.run_append.mpr ⟨_, h.run, ?_⟩, ?_, ?_, ?_⟩
  · exact Machine.run_cons.mpr ⟨_, hx, rfl⟩
  · rw [List.filterMap_append, h.settled, hs, henv, List.map_append]
  · rw [List.filterMap_append, h.items, hi, hitem]
  · rw [henv, List.filterMap_append]
    exact ht.trans (List.prefix_append _ _)

/-- What is accepted or released is no job yet. -/
theorem append (h : Did E answer absorb a c w ds js q) (hd : l.filterMap Deed.served? = [])
    (hs : l.filterMap Deed.settled? = []) (hi : l.filterMap Deed.handled? = []) :
    Did E answer absorb a c w (ds ++ l) js q := by
  refine ⟨?_, ?_, ?_, ?_⟩
  · rw [List.filterMap_append, hd, List.append_nil, h.run]
  · rw [List.filterMap_append, hs, List.append_nil, h.settled]
  · rw [List.filterMap_append, hi, List.append_nil, h.items]
  · rw [List.filterMap_append]
    exact h.taken.trans (List.prefix_append _ _)

end Did

theorem head_eq_some {e : Envelope A} (h : v.head = some (e, u)) :
    v.stage = .serving ∧ ∃ q, v.inbox = e :: q ∧ u = { v with inbox := q } := by
  unfold head at h
  split at h
  · next e' q hv hi =>
    cases h
    exact ⟨hv, q, hi, rfl⟩
  · cases h

theorem next_eq_some {x : Option A.Item} (h : v.next E = some x) : v.stage = .serving := by
  unfold next at h
  split at h
  · next hv _ => exact hv
  · cases h

namespace InOrder

theorem serving (h : v.InOrder E answer absorb a c) (hv : v.stage = .serving) :
    ∃ w js, Did E answer absorb a c w v.deeds js (v.actor, v.ctx) ∧
      v.deeds.filterMap Deed.accepted? = js.filterMap Job.envelope? ++ v.inbox := by
  rwa [InOrder, hv] at h

/-- Wherever the server is, it did what a single thread does. -/
theorem did [Nonempty A.World] (h : v.InOrder E answer absorb a c) :
    ∃ w js q, Did E answer absorb a c w v.deeds js q ∧
      (v.stage = .serving → q = (v.actor, v.ctx)) := by
  unfold InOrder at h
  split at h
  · next hv =>
    obtain ⟨w⟩ := ‹Nonempty A.World›
    exact ⟨w, [], _, h.1 w, fun h' => by rw [hv] at h'; cases h'⟩
  · obtain ⟨w, js, hd, -⟩ := h
    exact ⟨w, js, _, hd, fun _ => rfl⟩
  · next hv =>
    obtain ⟨w, js, q, hd, -⟩ := h
    exact ⟨w, js, q, hd, fun h' => by rw [hv] at h'; cases h'⟩
  · next hv =>
    obtain ⟨w, js, q, hd, -⟩ := h
    exact ⟨w, js, q, hd, fun h' => by rw [hv] at h'; cases h'⟩

theorem of_done {o : Exit A} (hu : u.stage = .done o) (h : Did E answer absorb a c w u.deeds js q)
    (ho : ∀ b, o = .ok b → ∃ w₁ w₂, b = (E.closing w₁ w₂ q).1) : u.InOrder E answer absorb a c := by
  rw [InOrder, hu]
  exact ⟨w, js, q, h, ho⟩

/-- The server is done with the head of its inbox. -/
theorem take (h : v.InOrder E answer absorb a c) (hv : v.stage = .serving) {e : Envelope A}
    {r : List (Envelope A)} (hi : v.inbox = e :: r) {x z : A.World} {p : A.State × A.Ctx}
    (hx : (sequential E answer absorb).step
      (v.deeds.filterMap Deed.served?, (v.actor, v.ctx)) (.take e x z) =
        some ((v.deeds ++ l).filterMap Deed.served?, p))
    (hs : l.filterMap Deed.settled? = [e.id]) (ha : l.filterMap Deed.accepted? = [])
    (hh : l.filterMap Deed.handled? = []) (hu : u.stage = .serving) (hud : u.deeds = v.deeds ++ l)
    (hup : (u.actor, u.ctx) = p) (hui : u.inbox = r) : u.InOrder E answer absorb a c := by
  obtain ⟨w, js, hd, hac⟩ := h.serving hv
  rw [hi] at hac
  rw [InOrder, hu]
  refine ⟨w, js ++ [.take e x z], ?_, ?_⟩
  · rw [hud, hup]
    exact hd.snoc hx hs hh ⟨r, by rw [hac, List.append_assoc]; rfl⟩
  · rw [hud, hui, List.filterMap_append, ha, List.append_nil, hac, List.filterMap_append,
      List.append_assoc]
    rfl

theorem accept (h : v.InOrder E answer absorb a c) (e : Envelope A) :
    ({ v with inbox := v.inbox ++ [e], deeds := v.deeds ++ [.accepted e] } :
      Server A).InOrder E answer absorb a c := by
  unfold InOrder at h ⊢
  cases hv : v.stage with
  | starting =>
    simp only [hv] at h ⊢
    refine ⟨fun w => (h.1 w).append rfl rfl rfl, ?_, h.2.2⟩
    rw [List.filterMap_append, h.2.1]
    rfl
  | serving =>
    simp only [hv] at h ⊢
    obtain ⟨w, js, hd, hac⟩ := h
    refine ⟨w, js, hd.append rfl rfl rfl, ?_⟩
    rw [List.filterMap_append, hac, List.append_assoc]
    rfl
  | done o | gone o =>
    simp only [hv] at h ⊢
    obtain ⟨w, js, q, hd, ho⟩ := h
    exact ⟨w, js, q, hd.append rfl rfl rfl, ho⟩

theorem start (h : v.InOrder E answer absorb a c) (hv : v.stage = .starting) (w : A.World) :
    (v.started w []).InOrder E answer absorb a c := by
  rw [InOrder, hv] at h
  obtain ⟨hd, hac, hcore⟩ := h
  rw [Prod.mk.injEq] at hcore
  rcases hw : A.started w v.actor v.ctx with ⟨_ | _, p⟩
  · rw [started_error [] hw]
    exact of_done rfl (hd w) fun b hb => by cases hb
  · rw [started_ok [] hw]
    refine ⟨w, [], ?_, ?_⟩
    · have hp : (A.started w a c).2 = p := by rw [← hcore.1, ← hcore.2, hw]
      have := (hd w).append (l := []) rfl rfl rfl
      rwa [hp] at this
    · show (v.deeds ++ []).filterMap Deed.accepted? = _
      rw [List.append_nil, hac]
      rfl

/-- The last hooks run. -/
theorem close (h : v.InOrder E answer absorb a c) (hv : v.stage = .serving)
    (r : List (Envelope A)) (w₁ w₂ : A.World) :
    (({ v with inbox := r } : Server A).closed E w₁ w₂).InOrder E answer absorb a c := by
  obtain ⟨w, js, hd, -⟩ := h.serving hv
  exact of_done rfl hd fun b hb => ⟨w₁, w₂, by cases hb; rfl⟩

theorem serve (hA : A.Computes answer absorb) (h : v.InOrder E answer absorb a c)
    (hv : v.stage = .serving) {i : ℕ} {f : TaskFn A} {r : List (Envelope A)}
    (hi : v.inbox = ⟨i, .task f⟩ :: r) {ws : List A.World}
    (hu : servedBy { v with inbox := r } i f ws = some u) : u.InOrder E answer absorb a c := by
  unfold servedBy at hu
  split at hu
  · next reply p hd =>
    cases hu
    have hout := hA.task hd
    obtain ⟨w, -⟩ := h.serving hv
    refine h.take (l := [.served i reply]) hv hi (x := w) (z := w) ?_ rfl rfl rfl hv rfl rfl rfl
    rw [List.filterMap_append]
    show some (_ ++ [(i, (f.outcome answer (v.actor, v.ctx)).1)], _) = _
    rw [← hout]
    rfl
  · cases hu

/-- A restart sends no reply. -/
theorem step_refreshed {i : ℕ} {x z : A.World} {p r : A.State × A.Ctx}
    (h : E.refreshed x z p = some r) : (sequential E answer absorb).step
      (ds.filterMap Deed.served?, p) (.take ⟨i, .restart⟩ x z) =
        some ((ds ++ [Deed.refreshed i]).filterMap Deed.served?, r) := by
  show (E.refreshed x z p).map _ = _
  rw [h, List.filterMap_append]
  exact congrArg (fun l => some (l, r)) (List.append_nil _).symm

theorem refuse [Nonempty A.World] (h : v.InOrder E answer absorb a c) (hv : v.stage = .serving)
    {i : ℕ} {r : List (Envelope A)} (hi : v.inbox = ⟨i, .restart⟩ :: r)
    (hu : refused E { v with inbox := r } i = some u) : u.InOrder E answer absorb a c := by
  unfold refused at hu
  split at hu
  · cases hu
    obtain ⟨w, js, q, hd, -⟩ := h.did
    exact of_done rfl hd fun b hb => by cases hb
  · next hs hR =>
    cases hu
    obtain ⟨w, -⟩ := h.serving hv
    have hr : E.refreshed w w (v.actor, v.ctx) = some (v.actor, v.ctx) := by
      simp only [Environment.refreshed, hs, hR]
    exact h.take hv hi (step_refreshed hr) rfl rfl rfl hv rfl rfl rfl
  · cases hu

theorem restart (h : v.InOrder E answer absorb a c) (hv : v.stage = .serving)
    {i : ℕ} {r : List (Envelope A)} (hi : v.inbox = ⟨i, .restart⟩ :: r) {w₁ w₂ : A.World}
    (hu : restarted E { v with inbox := r } i w₁ w₂ = some u) : u.InOrder E answer absorb a c := by
  have hgo : ∀ x p, A.started w₂ (E.renewed w₁ (v.actor, v.ctx)).1
      (E.renewed w₁ (v.actor, v.ctx)).2 = (x, p) → E.stream = none → E.strategy ≠ .nonRestartable →
      (({ v with inbox := r } : Server A).put (E.renewed w₁ (v.actor, v.ctx))).started w₂
        [.refreshed i] = u → u.InOrder E answer absorb a c := by
    intro x p hx hs hR hu
    cases x with
    | error e =>
      rw [started_error [.refreshed i] hx] at hu
      subst hu
      obtain ⟨w, js, hd, -⟩ := h.serving hv
      exact of_done rfl hd fun b hb => by cases hb
    | ok x =>
      rw [started_ok [.refreshed i] hx] at hu
      subst hu
      refine h.take (p := p) hv hi (step_refreshed (x := w₁) (z := w₂) ?_) rfl rfl rfl rfl rfl
        rfl rfl
      cases hst : E.strategy with
      | nonRestartable => exact absurd hst hR
      | restartOnly | recreateFromDefault => simp only [Environment.refreshed, hs, hst, hx]
  unfold restarted at hu
  split at hu
  · cases hu
  · cases hu
  · next hs hR => exact hgo _ _ rfl hs (fun h => hR (by rw [h])) (Option.some_inj.mp hu)

theorem item (hA : A.Computes answer absorb) (h : v.InOrder E answer absorb a c)
    (hv : v.stage = .serving) {x : A.Item} {ws : List A.World}
    (hu : handledBy { v with cursor := v.cursor + 1 } x ws = some u) :
    u.InOrder E answer absorb a c := by
  unfold handledBy at hu
  split at hu
  · next r p hd =>
    cases hu
    obtain rfl := hA.item _ _ _ _ _ hd
    obtain ⟨w, js, hdid, hac⟩ := h.serving hv
    rw [InOrder]
    simp only [put, hv]
    refine ⟨w, js ++ [.item x], hdid.snoc ?_ rfl rfl ?_, ?_⟩
    · show some (_, absorb x (v.actor, v.ctx)) = _
      rw [List.filterMap_append]
      exact congrArg (fun l => some (l, _)) (List.append_nil _).symm
    · exact ⟨v.inbox, by rw [hac]; simp [Job.envelope?]⟩
    · rw [List.filterMap_append, List.filterMap_append, hac]
      exact (List.append_nil _).trans (congrArg (· ++ v.inbox) (List.append_nil _).symm)
  · cases hu

theorem step [Nonempty A.World] (hA : A.Computes answer absorb) (ht : E.taskTimeout = none)
    (h : v.InOrder E answer absorb a c) {l : Turn A} (hst : v.step E l = some u) :
    u.InOrder E answer absorb a c := by
  have hend : ∀ o, (∀ b, o ≠ .ok b) → some { v with stage := .done o } = some u →
      u.InOrder E answer absorb a c := by
    rintro o ho hu
    cases hu
    obtain ⟨w, js, q, hd, -⟩ := h.did
    exact of_done rfl hd fun b hb => absurd hb (ho b)
  cases l with
  | accept e =>
    simp only [Server.step] at hst
    split at hst
    · cases hst
    · cases hst
      exact h.accept e
  | start w =>
    simp only [Server.step] at hst
    split at hst
    · next hv =>
      cases hst
      exact h.start hv w
    · cases hst
  | serve ws =>
    simp only [Server.step] at hst
    split at hst
    · next hh =>
      obtain ⟨hv, r, hi, rfl⟩ := head_eq_some hh
      exact h.serve hA hv hi hst
    · cases hst
  | giveUp ws =>
    -- without a timeout no turn is given up
    simp only [Server.step, gaveUpBy, ht] at hst
    split at hst
    · split at hst
      · next h => cases h
      · cases hst
    · cases hst
  | refuseRestart =>
    simp only [Server.step] at hst
    split at hst
    · next hh =>
      obtain ⟨hv, r, hi, rfl⟩ := head_eq_some hh
      exact h.refuse hv hi hst
    · cases hst
  | restart w₁ w₂ =>
    simp only [Server.step] at hst
    split at hst
    · next hh =>
      obtain ⟨hv, r, hi, rfl⟩ := head_eq_some hh
      exact h.restart hv hi hst
    · cases hst
  | item ws =>
    simp only [Server.step] at hst
    split at hst
    · next hn => exact h.item hA (next_eq_some hn) hst
    · cases hst
  | stop w₁ w₂ =>
    simp only [Server.step] at hst
    split at hst
    · next hh =>
      obtain ⟨hv, r, hi, rfl⟩ := head_eq_some hh
      cases hst
      exact h.close hv r w₁ w₂
    · cases hst
  | hangUp w₁ w₂ =>
    simp only [Server.step] at hst
    split at hst
    · next hv _ =>
      cases hst
      exact h.close hv v.inbox w₁ w₂
    · cases hst
  | streamEnd w₁ w₂ =>
    simp only [Server.step] at hst
    split at hst
    · next hn =>
      cases hst
      exact h.close (next_eq_some hn) v.inbox w₁ w₂
    · cases hst
  | panic =>
    simp only [Server.step] at hst
    split at hst
    · exact hend _ (by simp) hst
    · exact hend _ (by simp) hst
    · cases hst
  | drop =>
    simp only [Server.step] at hst
    split at hst
    · exact hend _ (by simp) hst
    · exact hend _ (by simp) hst
    · cases hst
  | release =>
    simp only [Server.step] at hst
    split at hst
    · next o hv =>
      cases hst
      rw [InOrder, hv] at h
      obtain ⟨w, js, q, hd, ho⟩ := h
      exact ⟨w, js, q, hd.append rfl rfl rfl, ho⟩
    · cases hst

end InOrder

/-- In every run the server does its jobs in order. -/
theorem inOrder [Nonempty A.World] (hA : A.Computes answer absorb) (ht : E.taskTimeout = none)
    (h : (Server.system E).Reaches (spawn a c) v) : v.InOrder E answer absorb a c :=
  Machine.invariant (M := Server.system E) (P := InOrder E answer absorb a c)
    (fun _ _ _ hv hst => hv.step hA ht hst) (s := spawn a c)
    ⟨fun _ => ⟨rfl, rfl, rfl, List.nil_prefix⟩, rfl, rfl⟩ h

end InOrder

end Server

/-! ### So does the actor -/

section Actor

variable {E : Environment A}
  {answer : A.Message → A.State × A.Ctx → A.Response × A.State × A.Ctx}
  {absorb : A.Item → A.State × A.Ctx → A.State × A.Ctx} {a : A.State} {c : A.Ctx} {s : Sys A}

namespace Environment.Reachable

theorem did [Nonempty A.World] (hA : A.Computes answer absorb) (ht : E.taskTimeout = none)
    (h : E.Reachable a c s) :
    ∃ w js q, Server.Did E answer absorb a c w (deedsOf s.trace) js q ∧
      (s.phase = .receiving → js.filterMap Job.envelope? = taken s.trace ∧ q = (s.actor, s.ctx)) ∧
      ∀ b, s.phase = .ended (.ok b) → ∃ w₁ w₂, b = (E.closing w₁ w₂ q).1 := by
  obtain ⟨v, hv, hsh⟩ := h.shows
  have hord := Server.inOrder hA ht hv
  by_cases hrec : s.phase = .receiving
  · -- between two turns the server has taken what the loop has
    obtain ⟨hi, hst, hact, hctx, -⟩ := hsh.received hrec
    obtain ⟨w, js, hd, hac⟩ := hord.serving hst
    rw [hsh.deeds] at hd hac
    refine ⟨w, js, _, hd, fun _ => ⟨?_, by rw [hact, hctx]⟩, fun b hb => ?_⟩
    · rw [deedsOf_accepted, hi] at hac
      exact (List.append_cancel_right ((h.queued (by rw [hrec]; rfl)).symm.trans hac)).symm
    · rw [hrec] at hb
      cases hb
  · by_cases hend : ∃ o, s.phase = .ended o
    · obtain ⟨o, ho⟩ := hend
      obtain ⟨held, -, hturn⟩ := hsh.turn
      rw [InTurn, ho] at hturn
      rw [Server.InOrder, hturn.2] at hord
      obtain ⟨w, js, q, hd, hq⟩ := hord
      rw [hsh.deeds] at hd
      refine ⟨w, js, q, hd, fun hp => absurd hp hrec, fun b hb => hq b ?_⟩
      rw [ho] at hb
      cases hb
      rfl
    · obtain ⟨w, js, q, hd, -⟩ := hord.did
      rw [hsh.deeds] at hd
      exact ⟨w, js, q, hd, fun hp => absurd hp hrec, fun b hb => absurd ⟨_, hb⟩ hend⟩

/-- A join comes back with an actor only from a loop that returned it. -/
theorem joined_ended (h : E.Reachable a c s) {j : ℕ} {b : A.State}
    (hj : .joined j (some b) ∈ s.trace) : s.phase = .ended (.ok b) := by
  refine Machine.invariant (M := E.system)
    (P := fun s => ∀ j b, .joined j (some b) ∈ s.trace → s.phase = .ended (.ok b))
    (fun s l t hs hst j b hj => ?_) (s := E.init a c) (fun j b hj => by cases hj) h j b hj
  obtain ⟨es, hes, hy⟩ := Environment.step_yields hst
  rw [hes.trace, List.mem_append] at hj
  rcases hj with hj | hj
  · exact hes.ended (hs j b hj)
  · cases hy with
    | quiet he => exact absurd hj (he j _)
    | fetches k out r he hr ho =>
      rw [he, List.mem_append, List.mem_singleton] at hj
      obtain hj := hj.resolve_left (hr j _)
      cases hj
      -- the task had returned the actor then
      obtain ⟨o, hp⟩ := Phase.ended_of_output ho
      rw [hes.ended hp]
      rw [hp] at ho
      cases o <;> cases ho
      rfl
    | empty k hl hjk hsl he => simp [he] at hj

end Environment.Reachable

end Actor

/-- **Actors are linearizable.**  Without a timeout, whatever the interleaving: the replies
are those of a single thread that takes the accepted payloads one after the other, with
the items of the stream in between; between two turns it has the same actor; what a request
returns is its reply; and the order respects real time. -/
theorem linearizable [Nonempty A.World] {E : Environment A}
    {answer : A.Message → A.State × A.Ctx → A.Response × A.State × A.Ctx}
    {absorb : A.Item → A.State × A.Ctx → A.State × A.Ctx} (hA : A.Computes answer absorb)
    (ht : E.taskTimeout = none) {a : A.State} {c : A.Ctx} {s : Sys A} (h : E.Reachable a c s) :
    ∃ w js q,
      (sequential E answer absorb).run ([], (A.started w a c).2) js =
        some (repliesOf s.trace, q) ∧
      js.filterMap Job.envelope? <+: accepted s.trace ∧
      js.filterMap Job.item? = itemsHandled s.trace ∧
      (s.phase = .receiving → js.filterMap Job.envelope? = taken s.trace ∧
        q = (s.actor, s.ctx)) ∧
      (∀ i r, .returned i (.ok (some r)) ∈ s.trace → (i, some r) ∈ repliesOf s.trace) ∧
      ∀ e ∈ accepted s.trace, ∀ e' ∈ accepted s.trace, ∀ r,
        [.returned e.id r, .began e'.id] <+ s.trace → [e, e'] <+ accepted s.trace := by
  obtain ⟨w, js, q, hd, hrec, -⟩ := h.did hA ht
  refine ⟨w, js, q, ?_, ?_, ?_, hrec, fun i r hret => ?_, fun e he e' he' r hb => ?_⟩
  · rw [hd.run, deedsOf_served]
  · rw [← deedsOf_accepted]
    exact hd.taken
  · rw [← deedsOf_handled]
    exact hd.items.symm
  · exact List.mem_filterMap.mpr ⟨_, h.answered.sent i r (h.replies.replied i r hret), rfl⟩
  · exact h.enqueued.real_time he he' hb

namespace Patient

/-- The sum after the number was added. -/
def answer (m : patient.Message) (p : patient.State × patient.Ctx) :
    patient.Response × patient.State × patient.Ctx :=
  (show ℕ from (show ℕ from p.1) + (show ℕ from m), (show ℕ from p.1) + (show ℕ from m), p.2)

def absorb (x : patient.Item) (p : patient.State × patient.Ctx) : patient.State × patient.Ctx :=
  (answer x p).2

theorem computes : patient.Computes answer absorb := by
  have h : ∀ ws (k m : ℕ) p r q, patient.drive ws (k, m) p = (.inr r, q) →
      (r, q) = answer m p := by
    intro ws
    induction ws with
    | nil =>
      intro k m p r q h
      cases h
    | cons w ws ih =>
      intro k m p r q h
      cases k with
      | zero =>
        cases h
        rfl
      | succ k => exact ih k m p r q h
  exact ⟨fun ws m => h ws m m, fun ws x p r q hd => congrArg Prod.snd (h ws x x p r q hd)⟩

/-- A call is answered, and then the actor restarts. -/
def restarting : List (Label patient) :=
  [.op (.begin (.call (1 : ℕ)) 0), .op (.push 0), .op (.begin .restart 0), .op (.push 1),
    .loop (.hook ()), .loop .recv, .loop (.pollTask () ⟨false, false⟩),
    .loop (.pollTask () ⟨false, false⟩), .op (.respond 0), .loop .recv, .loop (.hook ()),
    .loop (.hook ())]

/-- A call is made, and then the actor is stopped and joined. -/
def joining : List (Label patient) :=
  [.op (.begin (.call (1 : ℕ)) 0), .op (.push 0), .op (.begin .stop 0), .op (.push 1),
    .loop (.hook ()), .loop .recv, .loop (.pollTask () ⟨false, false⟩),
    .loop (.pollTask () ⟨false, false⟩), .loop .recv, .loop (.hook ()), .loop .notify,
    .loop .dropContext, .loop .release, .watch (.join 0), .watch (.pollJoin 0)]

end Patient

theorem linearizable_of_restart : ∃ s w js q,
    Patient.plain.system.run (Patient.spawn Patient.plain) Patient.restarting = some s ∧
      (sequential Patient.plain Patient.answer Patient.absorb).run
        ([], (patient.started w (0 : ℕ) ()).2) js = some (repliesOf s.trace, q) ∧
      (js.filterMap Job.envelope?).length = 2 ∧ q = ((1 : ℕ), ()) := by
  obtain ⟨w, js, q, hrun, -, -, hrec, -⟩ := linearizable (E := Patient.plain) Patient.computes rfl
    (a := (0 : ℕ)) (c := ()) ⟨Patient.restarting, rfl⟩
  obtain ⟨hjs, hq⟩ := hrec rfl
  exact ⟨_, w, js, q, rfl, hrun, by rw [hjs]; rfl, hq⟩

/-- **The actor that comes back is what one thread makes of its messages.**  Without a timeout,
whatever the interleaving: the actor that a join yields, and `consume` with it, is that of
a single thread behind its last hooks.  The thread has sent all replies, has handled all
items that the actor handled, and has taken everything in front of the first `Stop`, or
everything that was accepted, or went on to the end of the stream. -/
theorem retrieved [Nonempty A.World] {E : Environment A}
    {answer : A.Message → A.State × A.Ctx → A.Response × A.State × A.Ctx}
    {absorb : A.Item → A.State × A.Ctx → A.State × A.Ctx} (hA : A.Computes answer absorb)
    (ht : E.taskTimeout = none) {a : A.State} {c : A.Ctx} {s : Sys A} (h : E.Reachable a c s)
    {j : ℕ} {b : A.State} (hj : .joined j (some b) ∈ s.trace) :
    ∃ w js q w₁ w₂,
      (sequential E answer absorb).run ([], (A.started w a c).2) js =
        some (repliesOf s.trace, q) ∧
      b = (E.closing w₁ w₂ q).1 ∧
      js.filterMap Job.item? = itemsHandled s.trace ∧
      ((∃ i, js.filterMap Job.envelope? ++ [⟨i, .stop⟩] <+: accepted s.trace) ∨
        js.filterMap Job.envelope? = accepted s.trace ∨
        js.filterMap Job.envelope? <+: accepted s.trace ∧
          ∃ items, E.stream = some items ∧ items (itemsHandled s.trace).length = none) := by
  have hp := h.joined_ended hj
  obtain ⟨w, js, q, hd, -, hend⟩ := h.did hA ht
  obtain ⟨w₁, w₂, hb⟩ := hend b hp
  have hrun := hd.run
  rw [deedsOf_served] at hrun
  have hitems := hd.items
  rw [deedsOf_handled] at hitems
  have htaken := hd.taken
  rw [deedsOf_accepted] at htaken
  obtain ⟨l, hl, hwork, hlast⟩ := h.ended_taken hp
  have hpre : l <+: accepted s.trace := by
    refine List.IsPrefix.trans ?_ h.logged.ordered
    rcases hlast with ⟨e, -, htk⟩ | ⟨htk, -⟩
    · exact ⟨[e], htk.symm⟩
    · exact htk ▸ List.prefix_refl l
  -- the thread took what the loop took, but for the `Stop`
  have hjs : js.filterMap Job.envelope? = l := by
    have hsettled := hd.settled
    rw [deedsOf_settled] at hsettled
    have hlen := congrArg List.length (hsettled.symm.trans hwork)
    rw [List.length_map, List.length_map] at hlen
    exact (List.prefix_of_prefix_length_le htaken hpre hlen.le).eq_of_length hlen
  refine ⟨w, js, q, w₁, w₂, hrun, hb, hitems.symm, ?_⟩
  rw [hjs]
  rcases hlast with ⟨⟨i, x⟩, he, htk⟩ | ⟨htk, hm | hm⟩
  · obtain rfl : x = .stop := he
    exact .inl ⟨i, htk ▸ h.logged.ordered⟩
  · exact .inr (.inl (htk ▸ (h.drained hm).2.symm))
  · refine .inr (.inr ⟨hpre, ?_⟩)
    cases hs : E.stream with
    | none => exact absurd hm (h.no_streamEnd hs)
    | some items => exact ⟨items, rfl, h.items_at_end hs (by rw [hp]; rfl) hm⟩

theorem retrieved_of_stop : ∃ s w js q w₁ w₂,
    Patient.plain.system.run (Patient.spawn Patient.plain) Patient.joining = some s ∧
      .joined 0 (some (1 : ℕ)) ∈ s.trace ∧
      (sequential Patient.plain Patient.answer Patient.absorb).run
        ([], (patient.started w (0 : ℕ) ()).2) js = some (repliesOf s.trace, q) ∧
      (1 : ℕ) = (Patient.plain.closing w₁ w₂ q).1 := by
  obtain ⟨s, hs, hj⟩ : ∃ s,
      Patient.plain.system.run (Patient.spawn Patient.plain) Patient.joining = some s ∧
      Event.joined 0 (some (1 : ℕ)) ∈ s.trace :=
    ⟨_, rfl, List.mem_of_getLast? rfl⟩
  obtain ⟨w, js, q, w₁, w₂, hrun, hb, -⟩ := retrieved (E := Patient.plain) Patient.computes rfl
    (a := (0 : ℕ)) (c := ()) ⟨Patient.joining, hs⟩ hj
  exact ⟨s, w, js, q, w₁, w₂, hs, hj, hrun, hb⟩

end Hannibal
