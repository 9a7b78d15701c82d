/-
The children of an actor.

A context keeps a `Sender<()>` of every child and does nothing with it but drop it.  So
when a parent is gone its children are left to whoever else holds them:

* `Sys.Barred` — the loop is over, a `Stop` waits in the mailbox, or nobody can put
  anything into it any more;
* `Environment.Reachable.barred_run` — then nothing is taken that comes later;
* **`children_end_iff`** — a child is barred when its parent's context is dropped exactly if
  it was on its way to its end before, or the context held it alone.
-/
import Hannibal.Broker
import Hannibal.Builder

open scoped List

namespace Hannibal

section Actor

variable {A : Actor}

namespace Sys

/-- No transmitter is left and no operation is about to push. -/
structure Severed (s : Sys A) : Prop where
  tx : s.arcs.tx = 0
  force : s.arcs.force = 0
  pushed : ∀ o ∈ s.ops, o.state ≠ .begun

/-- The loop is over, or will be before it takes anything that comes later. -/
def Barred (s : Sys A) : Prop :=
  s.phase.looping = false ∨ (∃ e ∈ s.chan.queue, e.payload = .stop) ∨ s.Severed

theorem Severed.step {E : Environment A} {s t : Sys A} {es : List (Event A)} (hs : s.Severed)
    (hc : s.Counted) (h : E.Step s t es) : t.Severed ∧ accepted es = [] := by
  have htx := hs.tx
  have hforce := hs.force
  obtain ⟨hrtx, hrforce⟩ := hc.revives h
  have harcs : t.arcs.tx = 0 ∧ t.arcs.force = 0 := by omega
  -- nobody has a handle that could begin a send
  have hstrong : ¬ s.StrongHandle := by
    intro hh
    have := hc.tx_pos.mpr hh
    omega
  have hkeep : t.ops = s.ops → t.Severed := by
    intro ho
    exact ⟨harcs.1, harcs.2, ho ▸ hs.pushed⟩
  cases h with
  | handle l h =>
    obtain ⟨hl, ar, n, rfl⟩ := handleStep_frame h
    exact ⟨hkeep rfl, rfl⟩
  | op es h =>
    cases h with
    | begin m i hd hh ho hk =>
      obtain ⟨hget, hal⟩ := handle?_eq_some.mp hh
      exact absurd (.inl ⟨hd, List.mem_of_getElem? hget, hal, hk⟩) hstrong
    | upgraded m w k hu =>
      obtain ⟨hk, htx', -⟩ := Arcs.upgrade_some hu
      have hcap := HandleKind.strong_iff_captures_tx.mp hk
      have := htx' (by omega)
      omega
    | context m hp hm hb hf => omega
    | refused m =>
      refine ⟨⟨harcs.1, harcs.2, fun o ho => ?_⟩, rfl⟩
      rcases List.mem_append.mp (show o ∈ s.ops ++ [_] from ho) with ho | ho
      · exact hs.pushed o ho
      · rw [List.mem_singleton.mp ho]
        simp
    | push i o d ho hst hch => exact absurd hst (hs.pushed o (List.mem_of_getElem? ho))
    | move i o st ho hm =>
      refine ⟨⟨harcs.1, harcs.2, fun o' ho' => ?_⟩, accepted_returnEvents _ _⟩
      rcases Table.mem_set_cases (show o' ∈ s.ops.set i { o with state := st } from ho') with
        rfl | ho'
      · exact hm.ne_begun
      · exact hs.pushed o' ho'
  | loop es hb h =>
    refine ⟨hkeep h.untouched.ops, accepted_eq_nil fun e hmem => ?_⟩
    have := h.source _ hmem
    simp [Event.source] at this
  | watch es h => cases h <;> exact ⟨hkeep rfl, rfl⟩

end Sys

/-- A step borrows no handle but the one that it uses. -/
theorem Environment.step_borrowed {E : Environment A} {s t : Sys A} {l : Label A}
    (h : E.step s l = some t) {i : ℕ} (hb : s.borrowed i = false) (hl : l.uses ≠ some i) :
    t.borrowed i = false := by
  by_cases hop : ∀ k, l ≠ .op k
  · rwa [Sys.borrowed, step_ops h hop]
  · push Not at hop
    obtain ⟨k, rfl⟩ := hop
    rw [Sys.borrowed, List.any_eq_false] at hb ⊢
    intro o' ho'
    rcases Sys.opStep_ops h with ⟨o, ht, hlabel⟩ | ⟨k, o, st, ho, hlive, ht⟩ <;> rw [ht] at ho'
    · rcases List.mem_append.mp ho' with hm | hm
      · exact hb o' hm
      · rw [List.mem_singleton.mp hm]
        have hacc : o.access ≠ .borrowed i := by
          rintro hacc
          rcases hlabel with ⟨j, rfl, hj⟩ | ⟨-, hno⟩
          · exact hl (congrArg some (hj i hacc).symm)
          · exact hno i hacc
        simp [hacc]
    · rcases Table.mem_set_cases ho' with rfl | hm
      · have hn := hb o (List.mem_of_getElem? ho)
        simp only [hlive, Bool.and_true, decide_eq_true_eq] at hn
        simp [hn]
      · exact hb o' hm

/-- The context is dropped when the loop is over. -/
theorem Environment.looping_dropContext {E : Environment A} {s t : Sys A}
    (h : E.step s (.loop .dropContext) = some t) :
    s.phase.looping = false ∧ t.phase.looping = false := by
  simp only [step, Sys.loopStep] at h
  split at h
  · cases h
  · split at h
    · next hd =>
      cases h
      obtain ⟨o, hp | hp⟩ := Sys.phase_of_dropsContext hd <;> simp [hp, Phase.looping]
    · cases h

namespace Environment.Reachable

variable {E : Environment A} {a : A.State} {c : A.Ctx} {s t : Sys A}

/-- What an actor takes later that was accepted by then is all it takes, once it is barred. -/
theorem barred_run (h : E.Reachable a c s) (hb : s.Barred) (hr : E.system.Reaches s t) :
    ∀ e ∈ taken t.trace, e ∈ accepted s.trace := by
  have ht : E.Reachable a c t := h.trans hr
  obtain ⟨u, hu⟩ := reaches_trace hr
  rcases hb with hover | ⟨d, hd, hstop⟩ | hsev
  · -- the loop takes nothing more
    have hinv := Machine.invariant (M := E.system)
      (P := fun t => t.phase.looping = false ∧ taken t.trace = taken s.trace)
      (fun t l v hP hst => ?_) ⟨hover, rfl⟩ hr
    · intro e he
      rw [hinv.2] at he
      exact h.logged.ordered.subset he
    · obtain ⟨es, hes⟩ := step_cases hst
      obtain ⟨hp, hidle⟩ := Sys.step_idle hes hP.1
      have hno : taken es = [] := taken_eq_nil fun e hmem => by
        have := hidle _ hmem
        simp [Event.working] at this
      exact ⟨hp, by rw [hes.trace, taken_append, hno, List.append_nil, hP.2]⟩
  · -- behind the `Stop` it takes nothing
    intro e he
    by_contra hnew
    have hrec : s.chan.receiver = true := by
      by_contra hrec
      rw [h.logged.dropped (by simpa using hrec)] at hd
      cases hd
    have hd' : d ∈ accepted s.trace := by
      rw [h.logged.queued hrec]
      exact List.mem_append_right _ hd
    have he' : e ∈ accepted t.trace := ht.logged.ordered.subset he
    have hall : accepted t.trace = accepted s.trace ++ accepted u := by
      rw [← hu, accepted_append]
    have hpair : [d, e] <+ accepted t.trace := by
      rw [hall, List.mem_append] at he'
      rw [hall]
      exact pair_sublist_append.mpr (.inr (.inr ⟨hd', he'.resolve_left hnew⟩))
    exact ht.stop_last hstop
      (pair_of_prefix_of_nodup ht.logged.ordered ht.enqueued.nodup.of_map hpair he)
  · -- nothing more is accepted
    have hinv := Machine.invariant (M := E.system)
      (P := fun t => E.Reachable a c t ∧ t.Severed ∧ accepted t.trace = accepted s.trace)
      (fun t l v hP hst => ?_) ⟨h, hsev, rfl⟩ hr
    · intro e he
      rw [← hinv.2.2]
      exact ht.logged.ordered.subset he
    · obtain ⟨es, hes⟩ := step_cases hst
      obtain ⟨hsev', hno⟩ := hP.2.1.step hP.1.counted hes
      exact ⟨hP.1.next hst, hsev', by rw [hes.trace, accepted_append, hno, hP.2.2, List.append_nil]⟩

end Environment.Reachable

end Actor

/-! ### Parents -/

/-- The loop's future drops its context. -/
def Label.dropsContext {A : Actor} : Label A → Bool
  | .loop .dropContext => true
  | _ => false

/-- The actors of a program; `children` lists which actor's context keeps which sender. -/
structure Family {T : Type} (S : Program T) where
  actors : List (Spawned S)
  children : List (ℕ × SenderAt)

inductive FamilyLabel {T : Type} (S : Program T) where
  | spawn (t : T) (E : Environment (S.actor t)) (a : (S.actor t).State) (c : (S.actor t).Ctx)
  | actor (i : ℕ) (t : T) (l : Label (S.actor t))
  | addChild (i : ℕ) (s : SenderAt)
  | createChild (i : ℕ) (t : T) (a : (S.actor t).State) (c : (S.actor t).Ctx)

namespace Family

open Spawned (Later)

variable {T : Type} {S : Program T}

def init (S : Program T) : Family S := ⟨[], []⟩

/-- Some context keeps the sender. -/
def owns (f : Family S) (s : SenderAt) : Bool := f.children.any fun c => c.2 = s

/-- `Context::children` of the actor `i`. -/
def childrenOf (f : Family S) (i : ℕ) : List SenderAt :=
  (f.children.filter fun c => c.1 = i).map Prod.snd

/-- The sender can be moved into a context. -/
def movable (f : Family S) (s : SenderAt) : Bool :=
  match f.actors[s.id]? with
  | some z =>
    match z.sys.handle? s.handle with
    | some hd => hd.kind = .sender && !z.sys.borrowed s.handle && !f.owns s
    | none => false
  | none => false

/-- `&mut Context` of the actor is at hand: one of its hooks or handlers runs. -/
def hasContext (f : Family S) (i : ℕ) : Bool :=
  match f.actors[i]? with
  | some x => x.sys.phase.hasContext && !x.sys.contextBusy
  | none => false

/-- A sender is dropped. -/
def release (xs : List (Spawned S)) (s : SenderAt) : List (Spawned S) :=
  xs.modify s.id (·.onHandle (.drop s.handle))

/-- The context of the actor `i` is dropped. -/
def dropContext (f : Family S) (i : ℕ) : Family S where
  actors := (f.childrenOf i).foldl release f.actors
  children := f.children.filter fun c => c.1 ≠ i

/-- `create_child().spawn()` in an unbounded environment: of the new actor's handles only the
sender is left. -/
def spawnChild (t : T) (a : (S.actor t).State) (c : (S.actor t).Ctx) : Spawned S :=
  let E := Environment.ofBuffer none
  ((Spawned.mk t E (E.init a c)).onHandle (.derive 0 .sender)).onHandle (.drop 0)

/-- Another task may take the step: nobody uses a sender that a context keeps. -/
def allows (f : Family S) (i : ℕ) {A : Actor} (l : Label A) : Bool :=
  !l.uses.any fun h => f.owns ⟨i, h⟩

def step [DecidableEq T] (f : Family S) : FamilyLabel S → Option (Family S)
  | .spawn t E a c => some { f with actors := f.actors ++ [⟨t, E, E.init a c⟩] }
  | .actor i t l =>
    match f.actors[i]? with
    | some x =>
      if ht : t = x.type then
        if f.allows i l then
          (x.env.step x.sys (ht ▸ l)).map fun s =>
            let g : Family S := { f with actors := f.actors.set i { x with sys := s } }
            if l.dropsContext then g.dropContext i else g
        else none
      else none
    | none => none
  | .addChild i s =>
    if f.hasContext i && f.movable s then some { f with children := f.children ++ [(i, s)] }
    else none
  | .createChild i t a c =>
    if f.hasContext i then
      some ⟨f.actors ++ [spawnChild t a c], f.children ++ [(i, ⟨f.actors.length, 1⟩)]⟩
    else none

/-- All interleavings of a program whose actors have children. -/
def system (S : Program T) [DecidableEq T] : Machine (Family S) (FamilyLabel S) := ⟨step⟩

def Reachable [DecidableEq T] (f : Family S) : Prop := (system S).Reaches (init S) f

variable {f g : Family S} {xs : List (Spawned S)}

/-! ### What a context keeps -/

/-- The sender exists and nothing borrows it. -/
def HeldAt (xs : List (Spawned S)) (s : SenderAt) : Prop :=
  ∃ (z : Spawned S) (hd : Handle), xs[s.id]? = some z ∧ z.sys.handle? s.handle = some hd ∧
    hd.kind = .sender ∧ z.sys.borrowed s.handle = false

/-- The actor lost `n` senders and is as it was otherwise. -/
def Sheds (n : ℕ) (x y : Spawned S) : Prop :=
  ∃ s, y = { x with sys := s } ∧ s.phase = x.sys.phase ∧ s.ctxDropped = x.sys.ctxDropped ∧
    s.chan.queue = x.sys.chan.queue ∧ s.ops = x.sys.ops ∧ s.arcs.tx = x.sys.arcs.tx - n ∧
    s.arcs.force = x.sys.arcs.force - n

theorem Sheds.refl (x : Spawned S) : Sheds 0 x x := ⟨x.sys, rfl, rfl, rfl, rfl, rfl, rfl, rfl⟩

theorem Sheds.trans {m n : ℕ} {x y z : Spawned S} (h : Sheds m x y) (h' : Sheds n y z) :
    Sheds (m + n) x z := by
  obtain ⟨s, rfl, hp, hd, hq, ho, ht, hf⟩ := h
  obtain ⟨t, rfl, hp', hd', hq', ho', ht', hf'⟩ := h'
  refine ⟨t, rfl, hp'.trans hp, hd'.trans hd, hq'.trans hq, ho'.trans ho, ?_, ?_⟩
  · rw [ht', ht, Nat.sub_sub]
  · rw [hf', hf, Nat.sub_sub]

/-- The actor `i` takes a step that does not use the sender. -/
theorem HeldAt.set {s : SenderAt} (h : HeldAt xs s) {i : ℕ} {x : Spawned S}
    (hx : xs[i]? = some x) {l : Label (S.actor x.type)} {t : Sys (S.actor x.type)}
    (hst : x.env.step x.sys l = some t) (hl : i = s.id → l.uses ≠ some s.handle) :
    HeldAt (xs.set i { x with sys := t }) s := by
  obtain ⟨z, hd, hz, hh, hk, hb⟩ := h
  by_cases hi : i = s.id
  · subst hi
    rw [hx, Option.some_inj] at hz
    subst hz
    have huse := hl rfl
    refine ⟨{ x with sys := t }, hd, List.getElem?_set_self (List.getElem?_eq_some_iff.mp hx).1,
      Environment.step_handle hst hh (fun he => huse (by rw [he]; rfl))
        fun he => huse (by rw [he]; rfl), hk, Environment.step_borrowed hst hb huse⟩
  · exact ⟨z, hd, (List.getElem?_set_ne hi).trans hz, hh, hk, hb⟩

theorem HeldAt.append {s : SenderAt} (h : HeldAt xs s) (x : Spawned S) : HeldAt (xs ++ [x]) s := by
  obtain ⟨z, hd, hz, hh, hk, hb⟩ := h
  refine ⟨z, hd, ?_, hh, hk, hb⟩
  rw [List.getElem?_append_left (List.getElem?_eq_some_iff.mp hz).1, hz]

/-- A sender that nothing borrows can be dropped. -/
theorem HeldAt.drops {s : SenderAt} (h : HeldAt xs s) : ∃ (z : Spawned S) (hd : Handle),
    xs[s.id]? = some z ∧ hd.kind = .sender ∧
    z.env.step z.sys (.handle (.drop s.handle)) = some (z.sys.dropHandle s.handle hd) ∧
    release xs s = xs.set s.id { z with sys := z.sys.dropHandle s.handle hd } := by
  obtain ⟨z, hd, hz, hh, hk, hb⟩ := h
  have hdrop : z.sys.handleStep (.drop s.handle) = some (z.sys.dropHandle s.handle hd) := by
    simp [Sys.handleStep, hh, hb]
  refine ⟨z, hd, hz, hk, hdrop, ?_⟩
  rw [release, List.modify_eq_set_getElem?, hz]
  show xs.set s.id (z.onHandle _) = _
  rw [Spawned.onHandle, hdrop]
  rfl

/-- Another sender stays where it is. -/
theorem HeldAt.release {s s' : SenderAt} (h : HeldAt xs s) (h' : HeldAt xs s') (hne : s ≠ s') :
    HeldAt (release xs s) s' := by
  obtain ⟨z, hd, hz, -, hst, heq⟩ := h.drops
  rw [heq]
  refine h'.set hz hst fun hid huse => hne ?_
  obtain ⟨i, j⟩ := s
  obtain ⟨i', j'⟩ := s'
  obtain rfl : i = i' := hid
  obtain rfl : j = j' := Option.some_inj.mp huse
  rfl

/-- What the drop of a context leaves of an actor. -/
theorem sheds {L : List SenderAt} (hn : L.Nodup) (hL : ∀ s ∈ L, HeldAt xs s) {k : ℕ}
    {x : Spawned S} (hx : xs[k]? = some x) :
    ∃ y, (L.foldl release xs)[k]? = some y ∧ Sheds (L.countP fun s => s.id = k) x y := by
  induction L generalizing xs x with
  | nil => exact ⟨x, hx, .refl x⟩
  | cons s L ih =>
    rw [List.nodup_cons] at hn
    have hs := hL s List.mem_cons_self
    have hrest : ∀ s' ∈ L, HeldAt (release xs s) s' := by
      intro s' hs'
      refine hs.release (hL s' (List.mem_cons_of_mem _ hs')) ?_
      rintro rfl
      exact hn.1 hs'
    obtain ⟨z, hd, hz, hk, -, heq⟩ := hs.drops
    have hone : ∃ y, (release xs s)[k]? = some y ∧ Sheds (if s.id = k then 1 else 0) x y := by
      rw [heq]
      by_cases hsk : s.id = k
      · subst hsk
        rw [hx, Option.some_inj] at hz
        subst hz
        refine ⟨_, List.getElem?_set_self (List.getElem?_eq_some_iff.mp hx).1, ?_⟩
        rw [if_pos rfl]
        refine ⟨_, rfl, rfl, rfl, rfl, rfl, ?_, ?_⟩ <;>
          simp [Sys.dropHandle, Sys.releaseArcs, hk, HandleKind.captures]
      · rw [if_neg hsk, List.getElem?_set_ne hsk]
        exact ⟨x, hx, .refl x⟩
    obtain ⟨y, hy, hxy⟩ := hone
    obtain ⟨w, hw, hyw⟩ := ih hn.2 hrest hy
    refine ⟨w, hw, ?_⟩
    have hsum := hxy.trans hyw
    rw [List.countP_cons, Nat.add_comm]
    simpa using hsum

theorem HeldAt.foldl {s : SenderAt} {L : List SenderAt} (hn : L.Nodup)
    (hL : ∀ s ∈ L, HeldAt xs s) (h : HeldAt xs s) (hs : s ∉ L) :
    HeldAt (L.foldl Family.release xs) s := by
  induction L generalizing xs with
  | nil => exact h
  | cons s' L ih =>
    rw [List.nodup_cons] at hn
    rw [List.mem_cons, not_or] at hs
    have hs' := hL s' List.mem_cons_self
    refine ih hn.2 (fun s'' hs'' => ?_) (hs'.release h (Ne.symm hs.1)) hs.2
    refine hs'.release (hL s'' (List.mem_cons_of_mem _ hs'')) ?_
    rintro rfl
    exact hn.1 hs''

/-- The actors go on when a context is dropped. -/
theorem later_foldl (L : List SenderAt) (xs : List (Spawned S)) :
    Later (fun _ _ => False) xs (L.foldl release xs) := by
  induction L generalizing xs with
  | nil => exact .refl _ _
  | cons s L ih =>
    have hfirst : Later (fun _ _ => False) xs (release xs s) :=
      .onHandle xs s.id _ fun _ hno => hno.elim
    exact hfirst.trans (ih _)

/-! ### Steps -/

/-- What one step does. -/
inductive FamilyStep (f : Family S) : FamilyLabel S → Family S → Prop where
  | spawn (t : T) (E : Environment (S.actor t)) (a : (S.actor t).State) (c : (S.actor t).Ctx) :
      FamilyStep f (.spawn t E a c) { f with actors := f.actors ++ [⟨t, E, E.init a c⟩] }
  | act (i : ℕ) (x : Spawned S) (l : Label (S.actor x.type)) (s : Sys (S.actor x.type))
      (hx : f.actors[i]? = some x) (hs : x.env.step x.sys l = some s)
      (ha : f.allows i l = true) (hl : l.dropsContext = false) :
      FamilyStep f (.actor i x.type l) { f with actors := f.actors.set i { x with sys := s } }
  | leave (i : ℕ) (x : Spawned S) (s : Sys (S.actor x.type)) (hx : f.actors[i]? = some x)
      (hs : x.env.step x.sys (.loop .dropContext) = some s) :
      FamilyStep f (.actor i x.type (.loop .dropContext))
        (({ f with actors := f.actors.set i { x with sys := s } } : Family S).dropContext i)
  | addChild (i : ℕ) (s : SenderAt) (hc : f.hasContext i = true) (hm : f.movable s = true) :
      FamilyStep f (.addChild i s) { f with children := f.children ++ [(i, s)] }
  | createChild (i : ℕ) (t : T) (a : (S.actor t).State) (c : (S.actor t).Ctx)
      (hc : f.hasContext i = true) :
      FamilyStep f (.createChild i t a c)
        ⟨f.actors ++ [spawnChild t a c], f.children ++ [(i, ⟨f.actors.length, 1⟩)]⟩

theorem step_cases [DecidableEq T] {l : FamilyLabel S} (h : f.step l = some g) :
    FamilyStep f l g := by
  cases l with
  | spawn t E a c =>
    cases h
    exact .spawn t E a c
  | actor i t l =>
    simp only [step] at h
    split at h
    · next x hx =>
      split at h
      · next ht =>
        subst ht
        split at h
        · next ha =>
          obtain ⟨s, hs, rfl⟩ := Option.map_eq_some_iff.mp h
          cases hl : l.dropsContext with
          | false => exact .act i x l s hx hs ha hl
          | true =>
            obtain rfl : l = .loop .dropContext := by
              unfold Label.dropsContext at hl
              split at hl
              · rfl
              · cases hl
            exact .leave i x s hx hs
        · cases h
      · cases h
    · cases h
  | addChild i s =>
    simp only [step] at h
    split at h
    · next hc =>
      rw [Bool.and_eq_true] at hc
      cases h
      exact .addChild i s hc.1 hc.2
    · cases h
  | createChild i t a c =>
    simp only [step] at h
    split at h
    · next hc =>
      cases h
      exact .createChild i t a c hc
    · cases h

theorem FamilyStep.later {l : FamilyLabel S} (h : FamilyStep f l g) :
    Later (fun _ _ => False) f.actors g.actors := by
  cases h with
  | spawn t E a c => exact .spawn ⟨a, c, .refl _ _⟩
  | act i x l s hx hs ha hl => exact .set hx (.of_step hs) fun _ _ hno => hno.elim
  | leave i x s hx hs =>
    have hset : Later (fun _ _ => False) f.actors (f.actors.set i { x with sys := s }) :=
      .set hx (.of_step hs) fun _ _ hno => hno.elim
    exact hset.trans (later_foldl _ _)
  | addChild i s hc hm => exact .refl _ _
  | createChild i t a c hc =>
    have hnew : (Spawned.mk t (.ofBuffer none) (Environment.init _ a c) : Spawned S).Alive :=
      ⟨a, c, .refl _ _⟩
    exact .spawn (((Spawned.Leads.of_onHandle _ _).trans (.of_onHandle _ _)).alive hnew)

/-- The actors live; the contexts have different senders, and each of them is still there. -/
structure Keeping (f : Family S) : Prop where
  alive : ∀ (i : ℕ) (x : Spawned S), f.actors[i]? = some x → x.Alive
  held : ∀ c ∈ f.children, HeldAt f.actors c.2
  nodup : (f.children.map Prod.snd).Nodup

namespace Keeping

theorem of_allows {i : ℕ} {A : Actor} {l : Label A} (ha : f.allows i l = true) {c : ℕ × SenderAt}
    (hc : c ∈ f.children) (hi : i = c.2.id) : l.uses ≠ some c.2.handle := by
  intro huse
  have hown : f.owns ⟨i, c.2.handle⟩ = true := by
    rw [owns, List.any_eq_true]
    exact ⟨c, hc, by simp [hi]⟩
  simp [allows, huse, hown] at ha

theorem childrenOf_nodup (h : f.Keeping) (i : ℕ) : (f.childrenOf i).Nodup :=
  h.nodup.sublist (List.filter_sublist.map _)

theorem held_of (h : f.Keeping) {i : ℕ} {s : SenderAt} (hs : s ∈ f.childrenOf i) :
    HeldAt f.actors s := by
  obtain ⟨c, hc, rfl⟩ := List.mem_map.mp hs
  exact h.held c (List.mem_filter.mp hc).1

/-- A step of an actor that uses none of the senders. -/
theorem act (h : f.Keeping) {i : ℕ} {x : Spawned S} (hx : f.actors[i]? = some x)
    {l : Label (S.actor x.type)} {s : Sys (S.actor x.type)} (hs : x.env.step x.sys l = some s)
    (hl : ∀ c ∈ f.children, i = c.2.id → l.uses ≠ some c.2.handle) :
    Keeping { f with actors := f.actors.set i { x with sys := s } } := by
  have hset : Later (fun _ _ => False) f.actors (f.actors.set i { x with sys := s }) :=
    .set hx (.of_step hs) fun _ _ hno => hno.elim
  exact ⟨hset.alive h.alive, fun c hc => (h.held c hc).set hx hs (hl c hc), h.nodup⟩

theorem dropContext (h : f.Keeping) (i : ℕ) : (f.dropContext i).Keeping := by
  refine ⟨(later_foldl _ _).alive h.alive, fun c hc => ?_, ?_⟩
  · obtain ⟨hc, hci⟩ := List.mem_filter.mp hc
    refine (h.held c hc).foldl (h.childrenOf_nodup i) (fun s hs => h.held_of hs) fun hmem => ?_
    -- the sender would be kept twice
    obtain ⟨d, hd, hdc⟩ := List.mem_map.mp hmem
    obtain ⟨hd, hdi⟩ := List.mem_filter.mp hd
    obtain rfl := List.inj_on_of_nodup_map h.nodup hd hc hdc
    simp at hci hdi
    exact hci hdi
  · exact h.nodup.sublist (List.filter_sublist.map _)

/-- A sender that no context keeps yet. -/
theorem add (h : f.Keeping) {s : SenderAt} (hs : HeldAt f.actors s) (hn : f.owns s = false)
    (i : ℕ) : Keeping { f with children := f.children ++ [(i, s)] } := by
  refine ⟨h.alive, fun c hc => ?_, ?_⟩
  · rcases List.mem_append.mp hc with hc | hc
    · exact h.held c hc
    · rw [List.mem_singleton.mp hc]
      exact hs
  · show ((f.children ++ [(i, s)]).map Prod.snd).Nodup
    rw [List.map_append, List.nodup_append']
    refine ⟨h.nodup, List.nodup_singleton _, fun s' hs' hnew => ?_⟩
    obtain rfl := List.mem_singleton.mp hnew
    obtain ⟨c, hc, hcs⟩ := List.mem_map.mp hs'
    rw [owns, List.any_eq_false] at hn
    exact hn c hc (by simpa using hcs)

theorem step (h : f.Keeping) {l : FamilyLabel S} (hst : FamilyStep f l g) : g.Keeping := by
  cases hst with
  | spawn t E a c =>
    have hsp : Later (fun _ _ => False) f.actors (f.actors ++ [⟨t, E, E.init a c⟩]) :=
      .spawn ⟨a, c, .refl _ _⟩
    exact ⟨hsp.alive h.alive, fun c hc => (h.held c hc).append _, h.nodup⟩
  | act i x l s hx hs ha hl => exact h.act hx hs fun c hc hi => of_allows ha hc hi
  | leave i x s hx hs => exact (h.act hx hs fun c _ _ => by simp [Label.uses]).dropContext i
  | addChild i s hc hm =>
    unfold movable at hm
    split at hm
    · next z hz =>
      split at hm
      · next hd hh =>
        simp only [Bool.and_eq_true, decide_eq_true_eq, Bool.not_eq_true'] at hm
        exact h.add ⟨z, hd, hz, hh, hm.1.1, hm.1.2⟩ hm.2 i
      · cases hm
    · cases hm
  | createChild i t a c hc =>
    have hsp := (FamilyStep.createChild (f := f) i t a c hc).later
    have hgo : Keeping { f with actors := f.actors ++ [spawnChild t a c] } :=
      ⟨hsp.alive h.alive, fun c hc => (h.held c hc).append _, h.nodup⟩
    refine hgo.add ⟨spawnChild t a c, ⟨.sender, true, false⟩, ?_, rfl, rfl, rfl⟩ ?_ i
    · exact List.getElem?_concat_length
    · -- the senders that are kept belong to older actors
      show f.owns _ = false
      rw [owns, List.any_eq_false]
      intro c hc he
      obtain ⟨z, -, hz, -⟩ := h.held c hc
      have hlt := (List.getElem?_eq_some_iff.mp hz).1
      have hid : c.2 = ⟨f.actors.length, 1⟩ := by simpa using he
      rw [hid] at hlt
      exact absurd hlt (lt_irrefl _)

end Keeping

/-! ### The end of a parent -/

/-- The child `k` is on its way to its end, or the context of the actor `i` holds it alone: its
transmitters have no more strong references than there are senders in the context, and
nothing is about to be pushed. -/
def Lets (f : Family S) (i k : ℕ) {A : Actor} (s : Sys A) : Prop :=
  s.phase.looping = false ∨ (∃ e ∈ s.chan.queue, e.payload = .stop) ∨
    s.arcs.tx ≤ (f.childrenOf i).countP (fun s => s.id = k) ∧
    s.arcs.force ≤ (f.childrenOf i).countP (fun s => s.id = k) ∧ ∀ o ∈ s.ops, o.state ≠ .begun

theorem Sheds.barred_iff {n : ℕ} {x y : Spawned S} (h : Sheds n x y) : y.sys.Barred ↔
    x.sys.phase.looping = false ∨ (∃ e ∈ x.sys.chan.queue, e.payload = .stop) ∨
      x.sys.arcs.tx ≤ n ∧ x.sys.arcs.force ≤ n ∧ ∀ o ∈ x.sys.ops, o.state ≠ .begun := by
  obtain ⟨s, rfl, hp, -, hq, ho, ht, hf⟩ := h
  show s.phase.looping = false ∨ (∃ e ∈ s.chan.queue, e.payload = .stop) ∨ s.Severed ↔ _
  rw [hp, hq]
  refine or_congr Iff.rfl (or_congr Iff.rfl ?_)
  constructor
  · rintro ⟨htx, hforce, hops⟩
    exact ⟨by omega, by omega, ho ▸ hops⟩
  · rintro ⟨htx, hforce, hops⟩
    exact ⟨by omega, by omega, ho ▸ hops⟩

/-- The drop of the context of the actor `i`, at the actor `k`. -/
theorem Keeping.drops (h : f.Keeping) {i k : ℕ} {t : T}
    (hst : FamilyStep f (.actor i t (.loop .dropContext)) g) {x : Spawned S}
    (hx : f.actors[k]? = some x) :
    ∃ y, g.actors[k]? = some y ∧ x.Leads y ∧ (y.sys.Barred ↔ f.Lets i k x.sys) := by
  cases hst with
  | act i z l v hz hv ha hl => cases hl
  | leave i z v hz hv =>
    have hrel := h.act hz hv fun c _ _ => by simp [Label.uses]
    have hdrop : ∀ x' : Spawned S, (f.actors.set i { z with sys := v })[k]? = some x' →
        x.Leads x' → ∃ y, (({ f with actors := f.actors.set i { z with sys := v } } :
          Family S).dropContext i).actors[k]? = some y ∧ x.Leads y ∧
          Sheds ((f.childrenOf i).countP fun s => s.id = k) x' y := by
      intro x' hx' hxx'
      obtain ⟨y, hy, hsh⟩ := sheds (hrel.childrenOf_nodup i) (fun s hs => hrel.held_of hs) hx'
      obtain ⟨w, hw, hxw⟩ := (later_foldl (f.childrenOf i) _).actor k x' hx'
      obtain rfl := Option.some_inj.mp (hy.symm.trans hw)
      exact ⟨y, hy, hxx'.trans hxw, hsh⟩
    by_cases hik : i = k
    · -- the loop of the actor itself is over
      subst hik
      obtain rfl := Option.some_inj.mp (hz.symm.trans hx)
      obtain ⟨y, hy, hxy, hsh⟩ := hdrop { z with sys := v }
        (List.getElem?_set_self (List.getElem?_eq_some_iff.mp hz).1) (.of_step hv)
      obtain ⟨hbefore, hafter⟩ := Environment.looping_dropContext hv
      refine ⟨y, hy, hxy, iff_of_true (hsh.barred_iff.mpr (.inl hafter)) (.inl hbefore)⟩
    · obtain ⟨y, hy, hxy, hsh⟩ := hdrop x ((List.getElem?_set_ne hik).trans hx) (.refl x)
      exact ⟨y, hy, hxy, hsh.barred_iff⟩

section Runs

variable [DecidableEq T]

theorem Reachable.keeping (h : Reachable f) : f.Keeping := by
  have hinit : (init S).Keeping :=
    ⟨fun i x hx => by simp [init] at hx, fun c hc => (by cases hc), List.nodup_nil⟩
  exact Machine.invariant (M := system S) (P := Keeping)
    (fun f l g hf hst => hf.step (step_cases hst)) hinit h

theorem later_of_reaches (h : (system S).Reaches f g) :
    Later (fun _ _ => False) f.actors g.actors :=
  Machine.invariant (M := system S) (P := fun g => Later (fun _ _ => False) f.actors g.actors)
    (fun _ _ _ hg hst => hg.trans (step_cases hst).later) (.refl _ _) h

/-- **A child ends with its parent exactly if nobody else holds it**, or if it is on its way to
its end by itself.  In `g` the context of the actor `i` has just been dropped.  A child that is
barred takes nothing any more that is accepted from then on. -/
theorem children_end_iff (h : Reachable f) {i : ℕ} {t : T} {s : SenderAt}
    (hs : (i, s) ∈ f.children)
    (hst : (system S).step f (.actor i t (.loop .dropContext)) = some g) :
    ∃ x y, f.actors[s.id]? = some x ∧ g.actors[s.id]? = some y ∧ x.Leads y ∧
      (y.sys.Barred ↔ f.Lets i s.id x.sys) ∧
      (y.sys.Barred → ∀ u, (system S).Reaches g u → ∃ w : Sys (S.actor y.type),
        u.actors[s.id]? = some { y with sys := w } ∧
          ∀ e ∈ taken w.trace, e ∈ accepted y.sys.trace) := by
  have hkeep := h.keeping
  have hreach : Reachable g := h.trans (.single hst)
  have hstep : f.step (.actor i t (.loop .dropContext)) = some g := hst
  obtain ⟨x, -, hx, -⟩ := hkeep.held _ hs
  obtain ⟨y, hy, hxy, hiff⟩ := hkeep.drops (step_cases hstep) hx
  refine ⟨x, y, hx, hy, hxy, hiff, fun hb u hu => ?_⟩
  obtain ⟨w, hw, v, rfl, hv⟩ := (later_of_reaches hu).actor s.id y hy
  obtain ⟨a, c, hr⟩ := hreach.keeping.alive s.id y hy
  exact ⟨v, hw, hr.barred_run hb hv⟩

end Runs

end Family

namespace Tally

/-- A parent stops. -/
def parentStops : List (FamilyLabel listeners) :=
  [.actor 0 () (.loop (.hook true)), .actor 0 () (.op (.begin .stop 0)),
    .actor 0 () (.op (.push 0)), .actor 0 () (.loop .recv), .actor 0 () (.loop (.hook true)),
    .actor 0 () (.loop .notify)]

/-- The child is given to the parent, and its `Addr` is kept. -/
def addedChild : List (FamilyLabel listeners) :=
  [.spawn () plain (0 : ℕ) (0 : ℕ), .spawn () plain (0 : ℕ) (0 : ℕ),
    .actor 1 () (.handle (.derive 0 .sender)), .addChild 0 ⟨1, 1⟩]

/-- The parent creates the child. -/
def createdChild : List (FamilyLabel listeners) :=
  [.spawn () plain (0 : ℕ) (0 : ℕ), .createChild 0 () (0 : ℕ) (0 : ℕ)]

/-- A number is sent to the child, which takes it. -/
def childTakes : List (FamilyLabel listeners) :=
  [.actor 1 () (.loop (.hook true)), .actor 1 () (.op (.begin (.send (5 : ℕ)) 0)),
    .actor 1 () (.op (.push 0)), .actor 1 () (.loop .recv)]

end Tally

/-- A child whose `Addr` is kept works on without its parent. -/
theorem not_children_end : ¬ ∀ (f g u : Family Tally.listeners) (i : ℕ) (s : SenderAt),
    Family.Reachable f → (i, s) ∈ f.children →
    (Family.system Tally.listeners).step f (.actor i () (.loop .dropContext)) = some g →
    (Family.system Tally.listeners).Reaches g u →
    ∃ y w, g.actors[s.id]? = some y ∧ u.actors[s.id]? = some { y with sys := w } ∧
      ∀ e ∈ taken w.trace, e ∈ accepted y.sys.trace := by
  intro h
  obtain ⟨f, hf, hc, g, hg, hga, u, hu, hut⟩ : ∃ f,
      (Family.system Tally.listeners).run (Family.init _) (Tally.addedChild ++ Tally.parentStops) =
        some f ∧ f.children = [(0, ⟨1, 1⟩)] ∧ ∃ g,
      (Family.system Tally.listeners).step f (.actor 0 () (.loop .dropContext)) = some g ∧
      (g.actors[1]?.map fun y => (accepted y.sys.trace).length) = some 0 ∧ ∃ u,
      (Family.system Tally.listeners).run g Tally.childTakes = some u ∧
      (u.actors[1]?.map fun y => (taken y.sys.trace).length) = some 1 :=
    ⟨_, rfl, rfl, _, rfl, rfl, _, rfl, rfl⟩
  obtain ⟨y, w, hy, hw, hall⟩ := h f g u 0 ⟨1, 1⟩ ⟨_, hf⟩ (by simp [hc]) hg ⟨_, hu⟩
  rw [show g.actors[1]? = some y from hy, Option.map_some, Option.some_inj,
    List.length_eq_zero_iff] at hga
  rw [show u.actors[1]? = _ from hw, Option.map_some, Option.some_inj,
    List.length_eq_one_iff] at hut
  obtain ⟨e, he⟩ := hut
  have hacc := hall e (by simp [he])
  rw [hga] at hacc
  cases hacc

/-- A child that was created by its parent and that nobody else got hold of ends with it. -/
theorem children_end_iff_of_alone : ∃ f g x y,
    (Family.system Tally.listeners).run (Family.init _) (Tally.createdChild ++ Tally.parentStops) =
      some f ∧
    (Family.system Tally.listeners).step f (.actor 0 () (.loop .dropContext)) = some g ∧
    f.actors[1]? = some x ∧ g.actors[1]? = some y ∧ f.Lets 0 1 x.sys ∧ y.sys.Barred := by
  obtain ⟨f, hf, hc, x, hx, hlets, g, hg⟩ : ∃ f, (Family.system Tally.listeners).run
      (Family.init _) (Tally.createdChild ++ Tally.parentStops) = some f ∧
      f.children = [(0, ⟨1, 1⟩)] ∧ ∃ x, f.actors[1]? = some x ∧ f.Lets 0 1 x.sys ∧ ∃ g,
      (Family.system Tally.listeners).step f (.actor 0 () (.loop .dropContext)) = some g :=
    ⟨_, rfl, rfl, _, rfl, .inr (.inr ⟨by decide, by decide, fun o ho => (by cases ho)⟩), _, rfl⟩
  obtain ⟨x', y, hx', hy, -, hiff, -⟩ :=
    Family.children_end_iff (f := f) (i := 0) (s := ⟨1, 1⟩) ⟨_, hf⟩ (by simp [hc]) hg
  obtain rfl := Option.some_inj.mp (hx.symm.trans hx')
  exact ⟨f, g, x, y, hf, hg, hx, hy, hlets, hiff.mpr hlets⟩

end Hannibal
