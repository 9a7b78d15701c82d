/-
What the registry promises about services.

`RegistryStep` lists what one step of the registry or of its surroundings does.
The registry owns the handles that its map and its operations hold, and nobody
else uses or drops them, so

* `Safe.step` — the handles that it owns exist, and each is held in one place;
* `Safe.hasEnded_of_stopped` — an address that can be peeked is one of an actor
  that has ended.
-/
import Hannibal.Registry

open scoped List

namespace Hannibal

/-! ### The actors of the registry -/

namespace Spawned

variable {T : Type} {S : Program T}

theorem service_alive (S : Program T) (t : T) : (service S t).Alive := by
  refine (Leads.of_onHandle _ _).alive ((Leads.of_onHandle _ _).alive ?_)
  exact ⟨(S.actor t).default, S.ctx t, .refl _ _⟩

end Spawned

namespace Registry

open Spawned (Later)

variable {T : Type} {S : Program T} {r q : Registry S}

theorem hasEnded_eq {i : ℕ} {x : Spawned S} (hx : r.actors[i]? = some x) :
    r.hasEnded i = x.sys.hasEnded := by
  simp [hasEnded, hx]

/-- Every actor of the registry was spawned and went on from there. -/
def Alive (r : Registry S) : Prop :=
  ∀ (i : ℕ) (x : Spawned S), r.actors[i]? = some x → x.Alive

theorem onHandle_actors (r : Registry S) (i : ℕ) (l : HandleLabel) (j : ℕ) :
    (r.onHandle i l).actors[j]? =
      if i = j then (r.actors[j]?).map (·.onHandle l) else r.actors[j]? := by
  simp only [onHandle, List.getElem?_modify]
  split <;> simp

theorem stopped_iff {b : Boxed T} : r.stopped b = true ↔ r.running b = false := by
  rw [stopped, running]
  cases r.peek b <;> simp

theorem discard_same (r : Registry S) (old : Option (Boxed T)) :
    (r.discard old).map = r.map ∧ (r.discard old).trace = r.trace := by
  cases old <;> exact ⟨rfl, rfl⟩

theorem hasEnded_later {P : ℕ → ℕ → Prop} (h : Later P r.actors q.actors) (ha : r.Alive) {i : ℕ}
    (he : r.hasEnded i = true) : q.hasEnded i = true := by
  cases hx : r.actors[i]? with
  | none => simp [Registry.hasEnded, hx] at he
  | some x =>
    obtain ⟨y, hy, hxy⟩ := h.actor i x hx
    rw [hasEnded_eq hx] at he
    rw [hasEnded_eq hy]
    exact hxy.hasEnded (ha i x hx) he

theorem nextHandle_later {P : ℕ → ℕ → Prop} (h : Later P r.actors q.actors) (ha : r.Alive) (i : ℕ) :
    r.nextHandle i ≤ q.nextHandle i := by
  unfold nextHandle
  cases hx : r.actors[i]? with
  | none => exact Nat.zero_le _
  | some x =>
    obtain ⟨y, hy, hxy⟩ := h.actor i x hx
    rw [hy]
    exact hxy.handles_length (ha i x hx)

theorem derive_later {P : ℕ → ℕ → Prop} (r : Registry S) (i j : ℕ) (k : HandleKind) :
    Later P r.actors (r.onHandle i (.derive j k)).actors :=
  .onHandle _ _ _ fun _ _ => nofun

/-- All handles but that of `b`. -/
def Spares (b : Boxed T) (i h : ℕ) : Prop := ¬ (i = b.id ∧ h = b.handle)

theorem drop_later (r : Registry S) (b : Boxed T) :
    Later (Spares b) r.actors (r.onHandle b.id (.drop b.handle)).actors :=
  .onHandle _ _ _ fun _ hP he => hP ⟨rfl, (HandleLabel.drop.inj he).symm⟩

theorem spawnService_later {P : ℕ → ℕ → Prop} (r : Registry S) (t : T) :
    Later P r.actors (r.spawnService t).actors := .spawn (Spawned.service_alive S t)

/-- Dropping what was displaced keeps the addresses that are not displaced. -/
theorem discard_later {P : ℕ → ℕ → Prop} (r : Registry S) (old : Option (Boxed T))
    (h : ∀ b, old = some b → ∀ i j, P i j → Spares b i j) :
    Later P r.actors (r.discard old).actors := by
  cases old with
  | none => exact .refl P _
  | some b => exact (drop_later r b).mono (h b rfl)

variable [DecidableEq T]

theorem holds_iff {b : Boxed T} : r.holds b = true ↔ ∃ x hd, r.actors[b.id]? = some x ∧
    x.type = b.type ∧ x.sys.handle? b.handle = some hd ∧ hd.kind = .addr := by
  unfold holds
  constructor
  · intro h
    split at h
    · next x hx =>
      split at h
      · next hd hh =>
        simp only [Bool.and_eq_true, decide_eq_true_eq] at h
        exact ⟨x, hd, hx, h.1, hh, h.2⟩
      · cases h
    · cases h
  · rintro ⟨x, hd, hx, ht, hh, hk⟩
    simp [hx, hh, ht, hk]

/-- An address that is kept is still held. -/
theorem holds_later {P : ℕ → ℕ → Prop} (h : Later P r.actors q.actors) {b : Boxed T}
    (hP : P b.id b.handle) (hb : r.holds b = true) : q.holds b = true := by
  obtain ⟨x, hd, hx, ht, hh, hk⟩ := holds_iff.mp hb
  obtain ⟨y, hy, hxy⟩ := h.actor b.id x hx
  obtain ⟨z, hz, hzh⟩ := Spawned.handleAt_eq_some.mp
    (h.keeps b.id b.handle hd hP (Spawned.handleAt_eq_some.mpr ⟨x, hx, hh⟩))
  rw [hy, Option.some_inj] at hz
  subst hz
  exact holds_iff.mpr ⟨y, hd, hy, hxy.type.trans ht, hzh, hk⟩

theorem lt_nextHandle {b : Boxed T} (h : r.holds b = true) : b.handle < r.nextHandle b.id := by
  obtain ⟨x, hd, hx, -, hh, -⟩ := holds_iff.mp h
  simp only [nextHandle, hx]
  exact (List.getElem?_eq_some_iff.mp (Sys.handle?_eq_some.mp hh).1).1

/-- The addresses of one actor differ by their handles. -/
theorem holds_ext {b b' : Boxed T} (h : r.holds b = true) (h' : r.holds b' = true)
    (hid : b.id = b'.id) (hh : b.handle = b'.handle) : b = b' := by
  obtain ⟨x, -, hx, ht, -⟩ := holds_iff.mp h
  obtain ⟨y, -, hy, ht', -⟩ := holds_iff.mp h'
  rw [hid, hy, Option.some_inj] at hx
  subst hx
  have htype : b.type = b'.type := ht.symm.trans ht'
  cases b
  cases b'
  simp_all

/-- Two addresses that are held are the same one or differ in their handles. -/
theorem spares_of_ne {b d : Boxed T} (h : r.holds b = true) (h' : r.holds d = true)
    (hne : d ≠ b) : Spares b d.id d.handle :=
  fun he => hne (holds_ext h' h he.1 he.2)

/-! ### Writing the map -/

/-- The clone that is stored is an address of the same actor. -/
theorem insert_holds {b : Boxed T} (h : r.holds b = true) :
    (r.insert b).holds (r.cloned b) = true := by
  obtain ⟨x, hd, hx, ht, hh, hk⟩ := holds_iff.mp h
  have hder := Spawned.onHandle_derive (k := .addr) hh (by rw [hk]; rfl)
  refine holds_iff.mpr
    ⟨x.onHandle (.derive b.handle .addr), ⟨.addr, true, hd.spent⟩, ?_, ht, ?_, rfl⟩
  · show (r.onHandle b.id (.derive b.handle .addr)).actors[b.id]? = _
    rw [onHandle_actors, if_pos rfl, hx]
    rfl
  · have hn : (r.cloned b).handle = x.sys.handles.length := by simp [cloned, nextHandle, hx]
    rw [Sys.handle?_eq_some, hder, hn]
    simp

theorem insert_later {P : ℕ → ℕ → Prop} (r : Registry S) (b : Boxed T) :
    Later P r.actors (r.insert b).actors := derive_later r b.id b.handle .addr

/-! ### Steps -/

/-- What one step does, and what it records. -/
inductive RegistryStep (r : Registry S) :
    RegistryLabel S → List (RegistryEvent T) → Registry S → Prop where
  | spawn (t : T) (E : Environment (S.actor t)) (a : (S.actor t).State) (c : (S.actor t).Ctx) :
      RegistryStep r (.spawn t E a c) [] { r with actors := r.actors ++ [⟨t, E, E.init a c⟩] }
  | act (i : ℕ) (x : Spawned S) (l : Label (S.actor x.type)) (s : Sys (S.actor x.type))
      (hx : r.actors[i]? = some x) (hs : x.env.step x.sys l = some s)
      (hu : ∀ h, l.uses = some h → r.reserved ⟨x.type, i, h⟩ = false) :
      RegistryStep r (.actor i x.type l)
        (if s.hasEnded && !x.sys.hasEnded then [.ended i] else []) (r.act i x s)
  | hands (t : T) (b : Boxed T) (hl : r.lock = none) (hm : r.map t = some b) (ht : b.type = t)
      (hr : r.running b = true) :
      RegistryStep r (.enter (.fromRegistry t)) [.handed t b.id]
        ((r.onHandle b.id (.derive b.handle .addr)).record [.handed t b.id])
  | tries (t : T) (b : Boxed T) (hl : r.lock = none) (hm : r.map t = some b) (ht : b.type = t)
      (hr : r.running b = true) :
      RegistryStep r (.tryFromRegistry t) [.tried t (some b.id)]
        ((r.onHandle b.id (.derive b.handle .addr)).record [.tried t (some b.id)])
  | misses (t : T)
      (hd : r.lock = none → ∀ b, r.map t = some b → b.type = t → r.stopped b = true) :
      RegistryStep r (.tryFromRegistry t) [.tried t none] (r.record [.tried t none])
  | refuses (self : Boxed T) (hl : r.lock = none) (ha : r.admits (.register self) = true)
      (hd : r.inspect (.register self) = .refuse) :
      RegistryStep r (.enter (.register self)) [.refused self]
        ((r.onHandle self.id (.drop self.handle)).record [.refused self])
  | locks (op : RegistryOp T) (hl : r.lock = none) (ha : r.admits op = true)
      (hd : op.overrides = false → ∀ b, r.map op.key = some b → b.type = op.key →
        r.stopped b = true) :
      RegistryStep r (.enter op) [] { r with lock := some op }
  | registers (self : Boxed T) (hl : r.lock = some (.register self)) :
      RegistryStep r .commit
        [.registered (r.cloned self) ((r.map self.type).bind (downcast self.type))]
        (r.commit (.register self))
  | replaces (self : Boxed T) (hl : r.lock = some (.replace self)) :
      RegistryStep r .commit
        [.replaced (r.cloned self) ((r.map self.type).bind (downcast self.type))]
        (r.commit (.replace self))
  | unregisters (t : T) (hl : r.lock = some (.unregister t)) :
      RegistryStep r .commit [.unregistered t ((r.map t).bind (downcast t))]
        (r.commit (.unregister t))
  | respawns (t : T) (hl : r.lock = some (.fromRegistry t)) :
      RegistryStep r .commit
        [.spawned ((r.spawnService t).cloned ⟨t, r.actors.length, 1⟩), .handed t r.actors.length]
        (r.commit (.fromRegistry t))

theorem downcast_eq_some {t : T} {b b' : Boxed T} :
    downcast t b = some b' ↔ b.type = t ∧ b = b' := by
  unfold downcast
  split <;> simp_all

/-- A lookup finds the entry that counts as running. -/
theorem lookup_eq_some {t : T} {b : Boxed T} :
    ((r.map t).bind (downcast t)).filter r.running = some b ↔
      r.map t = some b ∧ b.type = t ∧ r.running b = true := by
  simp only [Option.filter_eq_some_iff, Option.bind_eq_some_iff, downcast_eq_some]
  constructor
  · rintro ⟨⟨b', hb, ht, rfl⟩, hr⟩
    exact ⟨hb, ht, hr⟩
  · rintro ⟨hb, ht, hr⟩
    exact ⟨⟨b, hb, ht, rfl⟩, hr⟩

theorem lookup_eq_none {t : T} (h : ((r.map t).bind (downcast t)).filter r.running = none)
    {b : Boxed T} (hb : r.map t = some b) (ht : b.type = t) : r.stopped b = true := by
  rw [stopped_iff, ← Bool.not_eq_true]
  intro hr
  rw [lookup_eq_some.mpr ⟨hb, ht, hr⟩] at h
  cases h

theorem step_cases {l : RegistryLabel S} (h : step r l = some q) :
    ∃ es, RegistryStep r l es q := by
  cases l with
  | spawn t E a c =>
    cases h
    exact ⟨[], .spawn t E a c⟩
  | actor i t l =>
    simp only [step] at h
    split at h
    · next x hx =>
      split at h
      · next ht =>
        subst ht
        split at h
        · cases h
        · next hu =>
          obtain ⟨s, hs, rfl⟩ := Option.map_eq_some_iff.mp h
          refine ⟨_, .act i x l s hx hs fun j hj => ?_⟩
          rw [hj] at hu
          simpa using hu
      · cases h
    · cases h
  | enter op =>
    simp only [step] at h
    split at h
    · next hg =>
      simp only [Bool.and_eq_true, decide_eq_true_eq] at hg
      cases h
      cases op with
      | register self =>
        cases hm : r.map self.type with
        | none =>
          have hi : r.inspect (.register self) = .insert := by simp [inspect, hm]
          rw [enter, hi]
          exact ⟨[], .locks _ hg.1 hg.2 fun _ b hb => absurd (hm.symm.trans hb) (by simp)⟩
        | some existing =>
          by_cases hs : ((downcast self.type existing).map r.stopped).getD false = true
          · have hi : r.inspect (.register self) = .insert := by simp [inspect, hm, hs]
            rw [enter, hi]
            refine ⟨[], .locks _ hg.1 hg.2 fun _ b hb ht => ?_⟩
            obtain rfl := Option.some_inj.mp (hm.symm.trans hb)
            have hd : downcast self.type existing = some existing := downcast_eq_some.mpr ⟨ht, rfl⟩
            rwa [hd] at hs
          · have hi : r.inspect (.register self) = .refuse := by simp [inspect, hm, hs]
            rw [enter, hi]
            exact ⟨_, .refuses self hg.1 hg.2 hi⟩
      | replace self => exact ⟨[], .locks _ hg.1 hg.2 nofun⟩
      | unregister t => exact ⟨[], .locks _ hg.1 hg.2 nofun⟩
      | fromRegistry t =>
        cases hf : ((r.map t).bind (downcast t)).filter r.running with
        | none =>
          have hi : r.inspect (.fromRegistry t) = .spawn := by simp [inspect, hf]
          rw [enter, hi]
          exact ⟨[], .locks _ hg.1 hg.2 fun _ b => lookup_eq_none hf⟩
        | some b =>
          have hi : r.inspect (.fromRegistry t) = .hand b := by simp [inspect, hf]
          obtain ⟨hm, rfl, hr⟩ := lookup_eq_some.mp hf
          rw [enter, hi]
          exact ⟨_, .hands _ b hg.1 hm rfl hr⟩
    · cases h
  | commit =>
    obtain ⟨op, hl, rfl⟩ := Option.map_eq_some_iff.mp h
    cases op with
    | register self => exact ⟨_, .registers self hl⟩
    | replace self => exact ⟨_, .replaces self hl⟩
    | unregister t => exact ⟨_, .unregisters t hl⟩
    | fromRegistry t => exact ⟨_, .respawns t hl⟩
  | tryFromRegistry t =>
    cases h
    rw [tryFromRegistry]
    cases hl : r.lock with
    | some op => exact ⟨_, .misses t fun hn => absurd (hl.symm.trans hn) nofun⟩
    | none =>
      cases hf : ((r.map t).bind (downcast t)).filter r.running with
      | none => exact ⟨_, .misses t fun _ b => lookup_eq_none hf⟩
      | some b =>
        obtain ⟨hm, ht, hr⟩ := lookup_eq_some.mp hf
        exact ⟨_, .tries t b hl hm ht hr⟩

/-! ### What every step keeps -/

/-- The new service is registered under its address. -/
theorem spawnService_holds (r : Registry S) (t : T) :
    (r.spawnService t).holds ⟨t, r.actors.length, 1⟩ = true :=
  holds_iff.mpr ⟨.service S t, ⟨.addr, true, false⟩, List.getElem?_concat_length, rfl, rfl, rfl⟩

namespace RegistryStep

variable {l : RegistryLabel S} {es : List (RegistryEvent T)}

theorem trace (h : RegistryStep r l es q) : q.trace = r.trace ++ es := by
  cases h with
  | spawn t E a c => exact (List.append_nil _).symm
  | locks op hl ha hd => exact (List.append_nil _).symm
  | respawns t hl =>
    show (((r.spawnService t).insert _).discard (r.map t)).trace ++ _ = _
    rw [(discard_same _ _).2]
    rfl
  | _ => rfl

end RegistryStep

/-! ### The invariant -/

/-- The handles that the registry or the operation in progress owns. -/
def Owned (r : Registry S) (i h : ℕ) : Prop := ∃ t, r.reserved ⟨t, i, h⟩ = true

/-- The handles of the entries that are not under the key `t`. -/
def Others (r : Registry S) (t : T) (i h : ℕ) : Prop := ∃ t', t' ≠ t ∧ r.map t' = some ⟨t', i, h⟩

/-- Every entry is an address of its key's type that the registry holds, and so
is the address that waits to be stored; what `register` and `from_registry`
wait to displace has ended; what was returned is not in the map, and was
returned once. -/
structure Safe (r : Registry S) : Prop where
  alive : r.Alive
  typed : ∀ t b, r.map t = some b → b.type = t ∧ r.holds b = true
  moved : ∀ b, r.lock.bind RegistryOp.self? = some b →
    r.holds b = true ∧ r.map b.type ≠ some b
  locked : ∀ op, r.lock = some op → op.overrides = false →
    ∀ b, r.map op.key = some b → r.hasEnded b.id = true
  known : ∀ b ∈ r.trace.filterMap RegistryEvent.returned,
    b.handle < r.nextHandle b.id ∧ r.map b.type ≠ some b
  nodup : (r.trace.filterMap RegistryEvent.returned).Nodup

namespace Safe

theorem init (S : Program T) : (Registry.init S).Safe where
  alive i x hx := by simp [Registry.init] at hx
  typed := nofun
  moved := nofun
  locked := nofun
  known := nofun
  nodup := .nil

/-- What the registry or an operation owns is held. -/
theorem holds_of_reserved (h : r.Safe) {b : Boxed T} (hb : r.reserved b = true) :
    r.holds b = true := by
  simp only [reserved, Bool.or_eq_true, decide_eq_true_eq] at hb
  rcases hb with hb | hb
  · exact (h.typed _ b hb).2
  · exact (h.moved b hb).1

/-- What can be peeked belongs to an actor that has ended. -/
theorem hasEnded_of_stopped (h : r.Safe) {b : Boxed T} (hb : r.stopped b = true) :
    r.hasEnded b.id = true := by
  unfold stopped peek at hb
  split at hb
  · next x hx =>
    obtain ⟨a, c, hr⟩ := h.alive b.id x hx
    split at hb
    · rw [hasEnded_eq hx]
      exact hr.hasEnded_of_peek hb
    · cases hb
  · cases hb

/-- A step that leaves the map and the lock alone. -/
theorem same (h : r.Safe) {es : List (RegistryEvent T)} (hl : Later r.Owned r.actors q.actors)
    (hm : q.map = r.map) (hk : q.lock = r.lock) (ht : q.trace = r.trace ++ es)
    (hes : es.filterMap RegistryEvent.returned = []) : q.Safe := by
  have hret : q.trace.filterMap RegistryEvent.returned =
      r.trace.filterMap RegistryEvent.returned := by
    rw [ht, List.filterMap_append, hes, List.append_nil]
  refine ⟨hl.alive h.alive, fun t b hb => ?_, fun b hb => ?_, fun op ho hov b hb => ?_,
    fun b hb => ?_, ?_⟩
  · rw [hm] at hb
    obtain ⟨rfl, hbh⟩ := h.typed t b hb
    exact ⟨rfl, holds_later hl ⟨b.type, by simp [reserved, hb]⟩ hbh⟩
  · rw [hk] at hb
    obtain ⟨hbh, hbm⟩ := h.moved b hb
    exact ⟨holds_later hl ⟨b.type, by simp [reserved, hb]⟩ hbh, by rwa [hm]⟩
  · rw [hk] at ho
    rw [hm] at hb
    exact hasEnded_later hl h.alive (h.locked op ho hov b hb)
  · rw [hret] at hb
    obtain ⟨hlt, hbm⟩ := h.known b hb
    exact ⟨hlt.trans_le (nextHandle_later hl h.alive b.id), by rwa [hm]⟩
  · rw [hret]
    exact h.nodup

/-- A step that writes the entry of `t` and gives the lock back. -/
theorem writes (h : r.Safe) {es : List (RegistryEvent T)} {t : T} {v : Option (Boxed T)}
    (hl : Later (r.Others t) r.actors q.actors) (hm : q.map = Function.update r.map t v)
    (hk : q.lock = none)
    (hv : ∀ b, v = some b → b.type = t ∧ q.holds b = true ∧ r.nextHandle b.id ≤ b.handle)
    (ht : q.trace = r.trace ++ es)
    (hes : ∀ b ∈ es.filterMap RegistryEvent.returned, r.map t = some b)
    (hlen : (es.filterMap RegistryEvent.returned).Nodup) : q.Safe := by
  have hret : q.trace.filterMap RegistryEvent.returned =
      r.trace.filterMap RegistryEvent.returned ++ es.filterMap RegistryEvent.returned := by
    rw [ht, List.filterMap_append]
  -- a known address is not the new one, so it is not in the map unless it was
  have hold : ∀ b, b.handle < r.nextHandle b.id → (r.map b.type ≠ some b ∨ b.type = t) →
      q.map b.type ≠ some b := by
    intro b hlt hb hq
    rw [hm] at hq
    by_cases hbt : b.type = t
    · rw [hbt, Function.update_self] at hq
      have := (hv b hq).2.2
      omega
    · rw [Function.update_of_ne hbt] at hq
      exact hb.elim (absurd hq) hbt
  refine ⟨hl.alive h.alive, fun t' b hb => ?_, fun b hb => ?_, fun op ho => ?_, fun b hb => ?_, ?_⟩
  · rw [hm] at hb
    by_cases htt : t' = t
    · subst htt
      rw [Function.update_self] at hb
      exact ⟨(hv b hb).1, (hv b hb).2.1⟩
    · rw [Function.update_of_ne htt] at hb
      obtain ⟨rfl, hbh⟩ := h.typed t' b hb
      exact ⟨rfl, holds_later hl ⟨b.type, htt, hb⟩ hbh⟩
  · rw [hk] at hb
    cases hb
  · rw [hk] at ho
    cases ho
  · rw [hret] at hb
    rcases List.mem_append.mp hb with hb | hb
    · obtain ⟨hlt, hbm⟩ := h.known b hb
      exact ⟨hlt.trans_le (nextHandle_later hl h.alive b.id), hold b hlt (.inl hbm)⟩
    · obtain ⟨hbt, hbh⟩ := h.typed t b (hes b hb)
      have hlt := lt_nextHandle hbh
      exact ⟨hlt.trans_le (nextHandle_later hl h.alive b.id), hold b hlt (.inr hbt)⟩
  · rw [hret, List.nodup_append']
    refine ⟨h.nodup, hlen, fun b hb hb' => (h.known b hb).2 ?_⟩
    obtain ⟨rfl, -⟩ := h.typed t b (hes b hb')
    exact hes b hb'

/-- No downcast fails. -/
theorem downcast_entry (h : r.Safe) {t : T} {b : Boxed T} (hb : r.map t = some b) :
    downcast t b = some b :=
  downcast_eq_some.mpr ⟨(h.typed t b hb).1, rfl⟩

theorem displaced (h : r.Safe) (t : T) : (r.map t).bind (downcast t) = r.map t := by
  cases hb : r.map t with
  | none => rfl
  | some b => exact h.downcast_entry hb

/-- Other entries are not the address `b`. -/
theorem others_spare (h : r.Safe) {b : Boxed T} (hb : r.holds b = true)
    (hne : r.map b.type ≠ some b) {t : T} {i j : ℕ} (ho : r.Others t i j) : Spares b i j := by
  obtain ⟨t', -, hm⟩ := ho
  refine spares_of_ne (d := ⟨t', i, j⟩) hb (h.typed t' _ hm).2 fun he => hne ?_
  rw [← he]
  exact hm

/-- The address that is stored is new. -/
theorem insert_new {b : Boxed T} (hb : r.holds b = true) {q : Registry S}
    (hq : Later (Spares b) (r.insert b).actors q.actors) :
    (r.cloned b).type = b.type ∧ q.holds (r.cloned b) = true ∧
      r.nextHandle (r.cloned b).id ≤ (r.cloned b).handle := by
  refine ⟨rfl, holds_later hq (fun he => ?_) (insert_holds hb), le_refl _⟩
  have hlt := lt_nextHandle hb
  have : r.nextHandle b.id = b.handle := he.2
  omega

theorem step (h : r.Safe) {l : RegistryLabel S} {es : List (RegistryEvent T)}
    (hs : RegistryStep r l es q) : q.Safe := by
  have ht := hs.trace
  cases hs with
  | spawn t E a c => exact h.same (.spawn ⟨a, c, .refl _ _⟩) rfl rfl ht rfl
  | act i x l s hx hs hu =>
    refine h.same (.set hx (.of_step hs) fun j hd hj hh => ?_) rfl rfl ht ?_
    · -- the step does not use a handle that the registry owns
      have huse : l.uses ≠ some j := by
        intro huse
        obtain ⟨t, ht⟩ := hj
        obtain ⟨y, -, hy, hty, -⟩ := holds_iff.mp (h.holds_of_reserved ht)
        obtain rfl := Option.some_inj.mp (hx.symm.trans hy)
        have hfalse := hu j huse
        rw [hty, ht] at hfalse
        cases hfalse
      exact Environment.step_handle hs hh (fun hl => huse (hl ▸ rfl)) fun hl => huse (hl ▸ rfl)
    · split <;> rfl
  | hands t b hl hm hbt hr => exact h.same (derive_later r b.id b.handle .addr) rfl rfl ht rfl
  | tries t b hl hm hbt hr => exact h.same (derive_later r b.id b.handle .addr) rfl rfl ht rfl
  | misses t hd => exact h.same (.refl _ _) rfl rfl ht rfl
  | refuses self hl hadm hd =>
    -- the refused address is none of the registry's own
    simp only [admits, RegistryOp.self?, Bool.and_eq_true, Bool.not_eq_true'] at hadm
    refine h.same ((drop_later r self).mono fun i j ho => ?_) rfl rfl ht rfl
    obtain ⟨t, hres⟩ := ho
    refine spares_of_ne (d := ⟨t, i, j⟩) hadm.1.1 (h.holds_of_reserved hres) fun he => ?_
    rw [he, hadm.1.2] at hres
    cases hres
  | locks op hl hadm hd =>
    refine ⟨h.alive, h.typed, fun b hb => ?_, fun op' ho hov b hb => ?_, h.known, h.nodup⟩
    · have hself : op.self? = some b := hb
      simp only [admits, hself, reserved, Bool.and_eq_true, Bool.not_eq_true', Bool.or_eq_false_iff,
        decide_eq_false_iff_not] at hadm
      exact ⟨hadm.1.1, hadm.1.2.1⟩
    · obtain rfl := Option.some_inj.mp ho
      exact h.hasEnded_of_stopped (hd hov b hb (h.typed _ b hb).1)
  | registers self hl =>
    obtain ⟨hself, -⟩ := h.moved self (by rw [hl]; rfl)
    refine h.writes (v := some (r.cloned self)) (insert_later r self) rfl rfl ?_ ht nofun .nil
    rintro b ⟨⟩
    exact insert_new hself (.refl _ _)
  | replaces self hl =>
    obtain ⟨hself, hnot⟩ := h.moved self (by rw [hl]; rfl)
    have hdrop : Later (Spares self) (r.insert self).actors (r.commit (.replace self)).actors :=
      drop_later { r.insert self with lock := none } self
    refine h.writes (v := some (r.cloned self))
      ((insert_later r self).trans (hdrop.mono fun i j => h.others_spare hself hnot)) rfl rfl ?_ ht
      ?_ ?_
    · rintro b ⟨⟩
      exact insert_new hself hdrop
    · intro b hb
      simpa [RegistryEvent.returned, h.displaced] using hb
    · rw [List.filterMap_cons, List.filterMap_nil]
      split <;> simp
  | unregisters t hl =>
    refine h.writes (v := none) (.refl _ _) rfl rfl nofun ht ?_ ?_
    · intro b hb
      simpa [RegistryEvent.returned, h.displaced] using hb
    · rw [List.filterMap_cons, List.filterMap_nil]
      split <;> simp
  | respawns t hl =>
    set n := r.actors.length with hn
    have hspawn : Later (fun _ _ => True) r.actors ((r.spawnService t).insert ⟨t, n, 1⟩).actors :=
      (spawnService_later r t).trans (insert_later _ _)
    -- the address that is displaced belongs to another actor than the new one
    have hdrop : Later (fun i j => r.Others t i j ∨ i = n)
        ((r.spawnService t).insert ⟨t, n, 1⟩).actors (r.commit (.fromRegistry t)).actors := by
      refine discard_later _ (r.map t) fun b hb i j hor => ?_
      obtain ⟨hbt, hbh⟩ := h.typed t b hb
      rcases hor with ⟨t', hne, hm⟩ | rfl
      · refine spares_of_ne (d := ⟨t', i, j⟩) hbh (h.typed t' _ hm).2 fun he => hne ?_
        rw [← hbt, ← he]
      · rintro ⟨hid, -⟩
        obtain ⟨x, -, hx, -⟩ := holds_iff.mp hbh
        have := (List.getElem?_eq_some_iff.mp hx).1
        omega
    refine h.writes (v := some ((r.spawnService t).cloned ⟨t, n, 1⟩))
      ((hspawn.mono fun _ _ _ => trivial).trans (hdrop.mono fun _ _ => .inl)) ?_ rfl ?_ ht
      nofun .nil
    · show (((r.spawnService t).insert ⟨t, n, 1⟩).discard (r.map t)).map = _
      rw [(discard_same _ _).1]
      rfl
    · rintro b ⟨⟩
      refine ⟨rfl, holds_later hdrop (.inr rfl) (insert_holds (spawnService_holds r t)), ?_⟩
      have hnone : r.actors[n]? = none := List.getElem?_eq_none (le_refl _)
      show r.nextHandle n ≤ _
      simp [nextHandle, hnone]

end Safe

end Registry

end Hannibal
