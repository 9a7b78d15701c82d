/-
Handles and what they capture.

Every handle type keeps an actor reachable through closures over two
reference-counted transmitters, `payload_tx` and `payload_force_tx`.  Each of
the two is itself a closure over one sender clone of the mailbox channel, so
the channel loses a sender when the last strong reference to a transmitter
goes.

`HandleKind.captures` says which of the two a handle type holds strongly,
`Arcs.upgrade` what upgrading a weak handle asks for, and `handleStep` is the
life of the handles: deriving one from another, upgrading, dropping.
-/
import Hannibal.Actor

namespace Hannibal

namespace HandleKind

/-- The strong references among the fields and closures of a handle:
`Caller::new` captures `tx` in `call_fn`, `Sender::new` captures `tx` in
`send_fn` and `force_tx` in `force_send_fn`; what `downgrade_fn` and the weak
handles capture is weak. -/
def captures : HandleKind → Arcs
  | .addr => ⟨1, 1⟩
  | .owningAddr => ⟨1, 1⟩
  | .sender => ⟨1, 1⟩
  | .caller => ⟨1, 0⟩
  | .weakAddr => ⟨0, 0⟩
  | .weakSender => ⟨0, 0⟩
  | .weakCaller => ⟨0, 0⟩

def strong : HandleKind → Bool
  | .addr => true
  | .owningAddr => true
  | .sender => true
  | .caller => true
  | .weakAddr => false
  | .weakSender => false
  | .weakCaller => false

/-- Which handles can be made from a handle without upgrading: its clones, what
`sender`, `caller`, `weak_sender`, `weak_caller` and `downgrade` return, and
the `Addr` inside an `OwningAddr`. -/
def derives : HandleKind → HandleKind → Bool
  | .addr, k => k ≠ .owningAddr
  | .owningAddr, k => k ≠ .owningAddr
  | .sender, k => k = .sender ∨ k = .weakSender
  | .caller, k => k = .caller ∨ k = .weakCaller
  | .weakAddr, k => k = .weakAddr
  | .weakSender, k => k = .weakSender
  | .weakCaller, k => k = .weakCaller

end HandleKind

namespace Arcs

/-- The `upgrade` closures of the weak handles: those of `WeakAddr` and
`WeakSender` zip the upgrades of both transmitters, that of `WeakCaller` asks
for `tx` alone. -/
def upgrade (a : Arcs) : HandleKind → Option HandleKind
  | .weakAddr => if 0 < a.tx ∧ 0 < a.force then some .addr else none
  | .weakSender => if 0 < a.tx ∧ 0 < a.force then some .sender else none
  | .weakCaller => if 0 < a.tx then some .caller else none
  | _ => none

/-- The transmitters that still exist; each holds one sender of the channel. -/
def closures (a : Arcs) : ℕ := (if 0 < a.tx then 1 else 0) + (if 0 < a.force then 1 else 0)

end Arcs

/-- Whether a hook or a handler runs, so that `&Context` is at hand. -/
def Phase.hasContext {A : Actor} : Phase A → Bool
  | .starting => true
  | .receiving => false
  | .task _ _ => true
  | .refreshStopping _ => true
  | .refreshStarting _ => true
  | .item _ _ => true
  | .finishing => true
  | .stopping => true
  | .leaving _ => false
  | .releasing _ => false
  | .ended _ => false

def OpState.live {A : Actor} : OpState A → Bool
  | .begun => true
  | .flushing => true
  | .awaiting => true
  | .returned _ => false
  | .dropped => false

namespace Sys

variable {A : Actor}

/-- Let go of strong references; a transmitter whose count reaches zero takes
its sender clone with it. -/
def releaseArcs (s : Sys A) (a : Arcs) : Sys A :=
  { s with
    arcs := s.arcs - a
    chan := s.chan.dropSenders (s.arcs.closures - (s.arcs - a).closures) }

def addHandle (s : Sys A) (k : HandleKind) (spent : Bool) : Sys A :=
  { s with
    handles := s.handles ++ [⟨k, true, spent⟩]
    arcs := s.arcs + k.captures }

/-- Some operation in progress borrows the handle. -/
def borrowed (s : Sys A) (h : ℕ) : Bool :=
  s.ops.any fun o => o.access = .borrowed h && o.state.live

def dropHandle (s : Sys A) (h : ℕ) (hd : Handle) : Sys A :=
  ({ s with handles := s.handles.set h { hd with alive := false } }).releaseArcs hd.kind.captures

end Sys

/-! ### Steps -/

inductive HandleLabel where
  | derive (h : ℕ) (k : HandleKind)
  | upgrade (h : ℕ)
  | contextHandle (k : HandleKind)
  | drop (h : ℕ)
  deriving DecidableEq, Repr

namespace Sys

variable {A : Actor}

/-- The handle `h`, as long as it is not dropped. -/
def handle? (s : Sys A) (h : ℕ) : Option Handle := (s.handles[h]?).filter (·.alive)

/-- `Context::address`, `weak_sender` and `weak_caller`: the context holds weak
references only, so an `Addr` needs both upgrades. -/
def contextHandle (s : Sys A) : HandleKind → Option (Sys A)
  | .addr => (s.arcs.upgrade .weakAddr).map fun k => s.addHandle k false
  | .weakSender => some (s.addHandle .weakSender false)
  | .weakCaller => some (s.addHandle .weakCaller false)
  | _ => none

def handleStep (s : Sys A) : HandleLabel → Option (Sys A)
  | .derive h k =>
    match s.handle? h with
    | some hd => if hd.kind.derives k then some (s.addHandle k hd.spent) else none
    | none => none
  | .upgrade h =>
    match s.handle? h with
    | some hd =>
      match s.arcs.upgrade hd.kind with
      | some k => some (s.addHandle k hd.spent)
      | none => none
    | none => none
  | .contextHandle k => if s.phase.hasContext then s.contextHandle k else none
  | .drop h =>
    match s.handle? h with
    | some hd => if s.borrowed h then none else some (s.dropHandle h hd)
    | none => none

end Sys

/-! ### What a handle step can do -/

namespace Sys

variable {A : Actor}

theorem handle?_eq_some {s : Sys A} {h : ℕ} {hd : Handle} :
    s.handle? h = some hd ↔ s.handles[h]? = some hd ∧ hd.alive = true := by
  simp [handle?, Option.filter_eq_some_iff]

/-- A handle step makes a handle whose captures are at hand, or drops one that
nothing borrows. -/
theorem handleStep_cases {s s' : Sys A} {l : HandleLabel} (h : s.handleStep l = some s') :
    (∃ i hd k, s.handle? i = some hd ∧ hd.kind.derives k = true ∧
      s' = s.addHandle k hd.spent) ∨
    (∃ w k b, s.arcs.upgrade w = some k ∧ s' = s.addHandle k b) ∨
    (∃ k b, k.captures = 0 ∧ k.strong = false ∧ s' = s.addHandle k b) ∨
    (∃ i hd, s.handle? i = some hd ∧ s.borrowed i = false ∧ s' = s.dropHandle i hd) := by
  cases l with
  | derive i k =>
    simp only [handleStep] at h
    split at h
    · next hd hhd =>
      split at h
      · next hk => exact .inl ⟨i, hd, k, hhd, hk, by simpa using h.symm⟩
      · cases h
    · cases h
  | upgrade i =>
    simp only [handleStep] at h
    split at h
    · next hd hhd =>
      split at h
      · next k hk => exact .inr (.inl ⟨hd.kind, k, hd.spent, hk, by simpa using h.symm⟩)
      · cases h
    · cases h
  | contextHandle k =>
    simp only [handleStep] at h
    split at h
    · cases k <;> simp only [contextHandle, Option.map_eq_some_iff, reduceCtorEq] at h
      · obtain ⟨k, hk, rfl⟩ := h
        exact .inr (.inl ⟨.weakAddr, k, false, hk, rfl⟩)
      · exact .inr (.inr (.inl ⟨.weakSender, false, rfl, rfl, by simpa using h.symm⟩))
      · exact .inr (.inr (.inl ⟨.weakCaller, false, rfl, rfl, by simpa using h.symm⟩))
    · cases h
  | drop i =>
    simp only [handleStep] at h
    split at h
    · next hd hhd =>
      split at h
      · cases h
      · next hb =>
        exact .inr (.inr (.inr ⟨i, hd, hhd, by simpa using hb, by simpa using h.symm⟩))
    · cases h

/-- A handle step changes nothing but the handles and what they hold. -/
theorem handleStep_frame {s t : Sys A} {l : HandleLabel} (h : s.handleStep l = some t) :
    ∃ hs ar n, t = { s with handles := hs, arcs := ar, chan := { s.chan with senders := n } } := by
  obtain ⟨i, hd, k, -, -, rfl⟩ | ⟨w, k, b, -, rfl⟩ | ⟨k, b, -, -, rfl⟩ | ⟨i, hd, -, -, rfl⟩ :=
    handleStep_cases h <;>
  exact ⟨_, _, _, rfl⟩

end Sys

end Hannibal
