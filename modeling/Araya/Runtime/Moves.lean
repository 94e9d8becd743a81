import Araya.Runtime.Deeds
import Araya.Runtime.Resolve
import Araya.Runtime.Turn

/-!
The engine moves the ledger. The two facts a move relies on, and keeps, are that
a fiber's activation is in the state the fiber's own state asks for and that
every binding names a fiber below the counter of identities.
-/

namespace Araya

/-- The activation agrees with the fiber's state. -/
structure FiberRecord.Sound (f : FiberRecord) : Prop where
  loading : f.state = .loading → f.activation.map (·.state) = some .loading
  active : f.state = .active → f.activation.map (·.state) = some .active
  unloading : f.state = .unloading → f.activation.map (·.state) = some .loading ∨
    f.activation.map (·.state) = some .unloading

namespace FiberRecord.Sound
variable {f : FiberRecord}

theorem of_inactive (h : f.state = .inactive) : f.Sound := by
  constructor <;> intro hs <;> simp [h] at hs

theorem of_loading (h : f.state = .loading) (ha : f.activation.map (·.state) = some .loading) :
    f.Sound := by
  constructor <;> intro hs <;> first | exact ha | simp [h] at hs

theorem of_active (h : f.state = .active) (ha : f.activation.map (·.state) = some .active) :
    f.Sound := by
  constructor <;> intro hs <;> first | exact ha | simp [h] at hs

theorem of_unloading (h : f.state = .unloading) (ha : f.activation.map (·.state) = some .loading ∨
    f.activation.map (·.state) = some .unloading) : f.Sound := by
  constructor <;> intro hs <;> first | exact ha | simp [h] at hs

/-- Soundness reads the state and the activation only. -/
theorem congr {g : FiberRecord} (h : f.Sound) (hs : g.state = f.state)
    (ha : g.activation.map (·.state) = f.activation.map (·.state)) : g.Sound := by
  constructor <;> rw [hs, ha]
  · exact h.loading
  · exact h.active
  · exact h.unloading

end FiberRecord.Sound

namespace Runtime

structure WellFormed (rt : Runtime) : Prop where
  sound : ∀ id f, rt.find id = some f → f.Sound
  bounded : rt.contexts.Providers (· < rt.nextId)

namespace WellFormed
variable {rt : Runtime} {id : FiberId} {f : FiberRecord}

theorem set (h : rt.WellFormed) (hf : f.Sound) : (rt.set id f).WellFormed where
  sound := by
    intro j g hg
    rw [find_set] at hg
    split at hg
    · cases hg; exact hf
    · exact h.sound j g hg
  bounded := h.bounded

theorem eraseFiber (h : rt.WellFormed) : (rt.eraseFiber id).WellFormed where
  sound := by
    intro j g hg
    rw [find_eraseFiber] at hg
    split at hg
    · cases hg
    · exact h.sound j g hg
  bounded := h.bounded

theorem eraseAll (h : rt.WellFormed) (ids : List FiberId) : (ids.foldl Runtime.eraseFiber rt).WellFormed := by
  induction ids generalizing rt with
  | nil => exact h
  | cons i is ih => exact ih h.eraseFiber

/-- A runtime with the same records over contexts with no new provider. -/
theorem of_find {rt' : Runtime} (h : rt.WellFormed) (hf : ∀ j, rt'.find j = rt.find j)
    (hc : rt'.contexts.Providers (· < rt'.nextId)) : rt'.WellFormed where
  sound j g hg := h.sound j g (hf j ▸ hg)
  bounded := hc

theorem teardownOf (h : rt.WellFormed) : (rt.teardownOf id f).WellFormed := by
  refine h.of_find (teardownOf_find rt id · f) ?_
  have hp := providers_teardownOf h.bounded id f
  obtain ⟨c, p, he⟩ := teardownOf_eq rt id f
  rw [he] at hp ⊢
  exact hp

end WellFormed

section
variable {rt : Runtime} {id : FiberId}

theorem ledger_same {rt' : Runtime} (hf : ∀ j, rt'.find j = rt.find j) (ha : rt'.applies = rt.applies)
    (hn : rt.nextId ≤ rt'.nextId) : rt.ledger.Same rt'.ledger :=
  ⟨funext fun j => by simp only [ledger_guards, hf], ha, hn⟩

theorem same_set {f g : FiberRecord} (h : rt.find id = some f) (hg : g.guard = f.guard) :
    rt.ledger.Same (rt.set id g).ledger := by
  rw [ledger_set_same h hg]
  exact .refl _

theorem guards_of_find {f : FiberRecord} (h : rt.find id = some f) :
    rt.ledger.guards id = some f.guard := by
  rw [ledger_guards, h]
  rfl

theorem guards_none_of_find (h : rt.find id = none) : rt.ledger.guards id = none := by
  rw [ledger_guards, h]
  rfl

/-! Loading -/

theorem providers_bounded (h : rt.WellFormed) {f : FiberRecord}
    (hs : (rt.resolve id f).satisfiable = true) (k : ServiceId) (p : FiberId)
    (hk : (rt.resolve id f).providers.find? k = some p) : p < rt.nextId := by
  obtain ⟨_, b, hb, rfl⟩ := (resolve_names hs).mp hk
  exact h.bounded.lookup (binding?_eq_some.mp hb).1

theorem WellFormed.drawId (h : rt.WellFormed) : rt.drawId.WellFormed :=
  h.of_find (fun _ => rfl) (h.bounded.mono fun _ hp => Nat.lt_succ_of_lt hp)

theorem drawId_set_ledger (g : FiberRecord) :
    (rt.drawId.set id g).ledger = { rt.ledger.set id g.guard with nextId := rt.nextId + 1 } := by
  rw [ledger_set]
  rfl

theorem spawn_ledger : (rt.spawn id).ledger = { rt.ledger with applies := id :: rt.applies } := rfl

theorem unresolved_guard {f : FiberRecord} (hi : f.state = .inactive) (r : Resolution) :
    (unresolved f r).guard = f.guard := by
  have hp : f.phase = .inactive := FiberRecord.phase_inactive.mpr hi
  have hu : (unresolved f r).phase = .inactive := rfl
  unfold FiberRecord.guard
  rw [hp, hu]
  rfl

/-! Withdrawal -/

theorem raiseReactivate_guard (f : FiberRecord) (b : Bool) : (raiseReactivate f b).guard = f.guard := by
  unfold raiseReactivate
  split
  · next hr =>
      have hret : decide (max f.reactivate (if b then 1 else 0) < 0) = decide (f.reactivate < 0) := by
        rw [decide_eq_decide]
        omega
      unfold FiberRecord.guard
      dsimp only
      rw [hret]
      rfl
  · rfl

theorem raiseReactivate_sound {f : FiberRecord} (h : f.Sound) (b : Bool) :
    (raiseReactivate f b).Sound :=
  h.congr (raiseReactivate_state f b) (by rw [raiseReactivate_activation])

theorem diverted_guard {f : FiberRecord} (hs : f.Sound) (hl : f.state = .loading) :
    (diverted f).guard = { f.guard with phase := .diverted, done := f.guard.done.close } := by
  have hp : (diverted f).phase = .diverted := by
    have ha : (diverted f).activation.map (·.state) = some .loading := hs.loading hl
    have hu : (diverted f).state = .unloading := rfl
    simp only [FiberRecord.phase, hu, ha]
    rfl
  simp only [FiberRecord.guard, hp]
  rfl

theorem withdrawing_guard {f : FiberRecord} (hs : f.Sound) (ha : f.state = .active) (n : Nat) :
    (withdrawing f n).guard =
      { f.guard with phase := .withdrawing, done := f.guard.done.close, remaining := n } := by
  have act : (withdrawing f n).activation.map (·.state) = some .unloading := by
    obtain ⟨a, hact, _⟩ := Option.map_eq_some_iff.mp (hs.active ha)
    simp only [withdrawing, hact]
    rfl
  have hp : (withdrawing f n).phase = .withdrawing := by
    have hu : (withdrawing f n).state = .unloading := rfl
    simp only [FiberRecord.phase, hu, act, if_true]
  simp only [FiberRecord.guard, hp]
  rfl

theorem withdrawing_sound {f : FiberRecord} (hs : f.Sound) (ha : f.state = .active) (n : Nat) :
    (withdrawing f n).Sound := by
  refine .of_unloading rfl (.inr ?_)
  obtain ⟨a, hact, _⟩ := Option.map_eq_some_iff.mp (hs.active ha)
  simp only [withdrawing, hact]
  rfl

theorem markBindings_ledger (f : FiberRecord) (state : ProviderState) :
    (rt.markBindings id f state).ledger = rt.ledger := rfl

theorem WellFormed.markBindings (h : rt.WellFormed) (f : FiberRecord) (state : ProviderState) :
    (rt.markBindings id f state).WellFormed :=
  h.of_find (fun _ => rfl) (providers_markProvided h.bounded _ _ _ _)

theorem transitionStarted_ledger : rt.transitionStarted.ledger = rt.ledger := rfl

theorem WellFormed.transitionStarted (h : rt.WellFormed) : rt.transitionStarted.WellFormed :=
  h.of_find (fun _ => rfl) h.bounded

theorem parked_guard (f : FiberRecord) : (parked f).guard = f.guard.parked := rfl

theorem condemned_guard (f : FiberRecord) :
    ({ f with reactivate := -1 } : FiberRecord).guard = { f.guard with retired := true } := rfl

/-! Frames -/

theorem teardownOf_ledger (f : FiberRecord) : (rt.teardownOf id f).ledger = rt.ledger := by
  obtain ⟨c, p, he⟩ := teardownOf_eq rt id f
  rw [he]
  rfl

theorem Still.ledger {rt' : Runtime} (h : rt.Still rt') : rt'.ledger = rt.ledger := by
  simp only [Runtime.ledger, h.find, h.nextId, h.applies]

theorem Still.wellFormed {rt' : Runtime} (h : rt.Still rt') (wf : rt.WellFormed) : rt'.WellFormed := by
  refine wf.of_find h.find ?_
  rw [h.nextId]
  exact wf.bounded.of_bindings h.bindings

theorem Errand.plain {fr : Frame} (h : fr.Errand) : fr.Plain := by
  cases fr <;> trivial

theorem alike_guard {f g : FiberRecord} (h : f.Alike g) : g.guard = f.guard := by
  simp only [FiberRecord.guard, FiberRecord.phase, h.state, h.activation, h.reactivate, h.committed,
    h.consumers, h.remaining, h.done]

theorem alike_sound {f g : FiberRecord} (h : f.Alike g) (hs : f.Sound) : g.Sound :=
  hs.congr h.state (by rw [h.activation])

/-- A deed is a turn of the ledger. -/
theorem Deed.turn {fr : Frame} {rt' : Runtime} {fs : List Frame} (h : rt.WellFormed) (d : rt.Deed fr rt' fs) :
    Turn rt.ledger fr rt'.ledger fs := by
  cases d with
  | @errand fr rt' fs errand unload _ still calls =>
      rw [still.ledger]
      refine .quiet ?_ (.refl _) fun g hg => Errand.plain (calls g hg)
      cases fr <;> first | trivial | exact absurd rfl (unload _ _)
  | noted e hf hs => exact .quiet trivial (same_set hf rfl) (by simp)
  | loaded r hf hs kept hr met =>
      subst hr
      rw [spawn_ledger, drawId_set_ledger]
      exact .load (guards_of_find hf) (FiberRecord.phase_inactive.mpr hs) (decide_eq_false (Int.not_lt.mpr kept))
        (providers_bounded h met)
  | lapsed hf hs hg =>
      rw [drawId_set_ledger]
      obtain rfl | ⟨r, rfl⟩ := hg
      · exact .lapse (guards_of_find hf) (FiberRecord.phase_inactive.mpr hs)
      · refine .quiet trivial ?_ (by simp)
        have same := ledger_set_same hf rfl
        rw [ledger_set] at same
        rw [unresolved_guard hs, same]
        exact ⟨rfl, rfl, Nat.le_succ _⟩
  | @absent id fr hf frame =>
      obtain ⟨b, rfl⟩ | rfl | rfl | rfl := frame
      · exact .passed fun g hg => absurd ((guards_none_of_find hf).symm.trans hg) (by simp)
      all_goals exact .quiet trivial (.refl _) (by simp)
  | @raised id f b hf hs =>
      rw [ledger_set_same hf (raiseReactivate_guard f b)]
      refine .passed fun g hg => ?_
      cases (guards_of_find hf).symm.trans hg
      exact ⟨fun hl => by simp [FiberRecord.phase_loading.mp hl] at hs,
        fun ha => by simp [FiberRecord.phase_active.mp ha] at hs⟩
  | @diverted id f b hf hs =>
      have loading : (raiseReactivate f b).state = .loading := (raiseReactivate_state f b).trans hs
      rw [ledger_set, diverted_guard (raiseReactivate_sound (h.sound id f hf) b) loading, raiseReactivate_guard]
      exact .divert (guards_of_find hf) (FiberRecord.phase_loading.mpr hs)
  | @withdrew id f g b hf hs hg =>
      subst hg
      have active : (raiseReactivate f b).state = .active := (raiseReactivate_state f b).trans hs
      have consumers : (raiseReactivate f b).consumers = f.guard.consumers :=
        congrArg Guard.consumers (raiseReactivate_guard f b)
      rw [markBindings_ledger, transitionStarted_ledger, ledger_set,
        withdrawing_guard (raiseReactivate_sound (h.sound id f hf) b) active, raiseReactivate_guard,
        ledger_countInstalled, consumers]
      exact .leave (guards_of_find hf) (FiberRecord.phase_active.mpr hs)
  | @stopped id f hf =>
      have same : (rt.set id { f with stopRequested := true }).ledger = rt.ledger := ledger_set_same hf rfl
      rw [same]
      exact .stop
  | held _ _ | drained | shut _ | ended => exact .quiet trivial ⟨rfl, rfl, Nat.le_refl _⟩ (by simp)
  | finished hf hs hr =>
      rw [ledger_set, teardownOf_ledger, parked_guard]
      exact .finish (guards_of_find hf) (FiberRecord.phase_unloading.mpr hs) hr (by simp [Frame.Plain])
  | skipped hf => exact .skip (guards_none_of_find hf)
  | released hf =>
      rw [ledger_set]
      exact .release (guards_of_find hf)
  | opened hf _ =>
      rw [ledger_set]
      exact .opened (guards_of_find hf)
  | @revived id f hf hr =>
      refine .quiet trivial (same_set hf ?_) (by simp [Frame.Plain])
      have kept : decide (f.reactivate < 0) = false := decide_eq_false (by omega)
      unfold FiberRecord.guard
      rw [kept]
      rfl
  | @through id w open_ =>
      refine .through fun g hg => ?_
      obtain ⟨f, hf, rfl⟩ := Option.map_eq_some_iff.mp hg
      exact open_ f hf
  | waits hf hd =>
      rw [ledger_set]
      exact .waits (guards_of_find hf) hd
  | erased hw =>
      rw [ledger_eraseFiber]
      exact .erased hw
  | resumed => exact .resumed
  | childErased hf hs =>
      rw [ledger_eraseFiber]
      exact .childErased (guards_of_find hf) (FiberRecord.phase_inactive.mpr hs)
  | childWaits _ _ => exact .childWaits
  | childMounted => exact .quiet trivial ⟨rfl, rfl, Nat.le_refl _⟩ (by simp)
  | diffDone => exact .diffDone
  | dropped still hf =>
      rw [ledger_set, condemned_guard, still.ledger]
      exact .dropEntry (.refl _) (guards_of_find hf)
  | kept still calls =>
      rw [still.ledger]
      exact .keepEntry (.refl _) fun g hg => Errand.plain (calls g hg)
  | @revised desired es es' toAwait rt' fs id f g still calls hf alike =>
      have same : (rt'.set id g).ledger = rt.ledger :=
        (ledger_set_same ((still.find id).trans hf) (alike_guard alike)).trans still.ledger
      rw [same]
      exact .keepEntry (.refl _) fun g hg => Errand.plain (calls g hg)
  | moved hf calls =>
      exact .quiet trivial ⟨rfl, rfl, Nat.le_refl _⟩ fun g hg => Errand.plain (calls g hg)
  | placed hf alike calls =>
      exact .quiet trivial (same_set hf (alike_guard alike)) fun g hg => Errand.plain (calls g hg)
  | awaitNext => exact .awaitNext
  | erasedAll =>
      rw [ledger_eraseAll]
      exact .erasedAll

/-- A deed keeps the activations and the providers in order. -/
theorem Deed.wellFormed {fr : Frame} {rt' : Runtime} {fs : List Frame} (h : rt.WellFormed)
    (d : rt.Deed fr rt' fs) : rt'.WellFormed := by
  cases d with
  | errand _ _ _ still _ | kept still _ => exact still.wellFormed h
  | noted _ hf hs => exact h.set (.of_inactive hs)
  | loaded => exact (h.drawId.set (.of_loading rfl rfl)).of_find (fun _ => rfl) h.drawId.bounded
  | lapsed hf hs hg =>
      refine h.drawId.set (.of_inactive ?_)
      obtain rfl | ⟨r, rfl⟩ := hg <;> rfl
  | absent | held | drained | skipped | shut | through | resumed | childWaits | diffDone | awaitNext => exact h
  | raised hf hs => exact h.set (raiseReactivate_sound (h.sound _ _ hf) _)
  | @diverted id f b hf hs =>
      have raised := raiseReactivate_sound (h.sound id f hf) b
      exact h.set (.of_unloading rfl (.inl (raised.loading ((raiseReactivate_state f b).trans hs))))
  | @withdrew id f g b hf hs hg =>
      subst hg
      have raised := raiseReactivate_sound (h.sound id f hf) b
      have active : (raiseReactivate f b).state = .active := (raiseReactivate_state f b).trans hs
      exact (h.set (withdrawing_sound raised active _)).transitionStarted.markBindings _ _
  | stopped hf | released hf | opened hf | revived hf | waits hf => exact h.set ((h.sound _ _ hf).congr rfl rfl)
  | finished => exact h.teardownOf.set (.of_inactive rfl)
  | ended | childMounted => exact h.of_find (fun _ => rfl) h.bounded
  | erased | childErased => exact h.eraseFiber
  | dropped still hf =>
      exact (still.wellFormed h).set ((h.sound _ _ hf).congr rfl rfl)
  | revised still _ hf alike => exact (still.wellFormed h).set (alike_sound alike (h.sound _ _ hf))
  | moved => exact h.of_find (fun _ => rfl) (providers_moveBindings h.bounded _ _ _ _)
  | placed hf alike => exact h.set (alike_sound alike (h.sound _ _ hf))
  | erasedAll => exact h.eraseAll _

theorem Threw.unwound {fr : Frame} {rt' : Runtime} (h : rt.WellFormed) (t : rt.Threw fr rt') :
    Unwound rt.ledger fr rt'.ledger ∧ rt'.WellFormed := by
  cases t with
  | create r hf hs kept hr met =>
      subst hr
      refine ⟨?_, h.drawId.set (.of_loading rfl rfl)⟩
      rw [drawId_set_ledger]
      exact .load (guards_of_find hf) (FiberRecord.phase_inactive.mpr hs) (decide_eq_false (Int.not_lt.mpr kept))
        (providers_bounded h met)

/-! Operations -/

theorem mountLocked_ledger (spec : ComponentSpec) (parent : FiberId) :
    (rt.mountLocked spec parent).ledger =
      { rt.ledger.set rt.nextId {} with nextId := rt.nextId + 1 } := by
  have hg : (rt.set rt.nextId (mountedRecord spec parent)).ledger = rt.ledger.set rt.nextId {} := by
    rw [ledger_set]
    rfl
  rw [← hg]
  rfl

theorem WellFormed.mountLocked (h : rt.WellFormed) (spec : ComponentSpec) (parent : FiberId) :
    (rt.mountLocked spec parent).WellFormed :=
  (h.set (f := mountedRecord spec parent) (.of_inactive rfl)).of_find (fun _ => rfl)
    (h.bounded.mono fun _ hp => Nat.lt_succ_of_lt hp)

/-- Another list of effects leaves the activation's state alone. -/
theorem effects_guard {f : FiberRecord} {act : Activation} (ha : f.activation = some act)
    (effects : List Effect) :
    ({ f with activation := some { act with effects } } : FiberRecord).guard = f.guard := by
  simp only [FiberRecord.guard, FiberRecord.phase, ha]
  rfl

theorem effects_sound {f : FiberRecord} {act : Activation} (hs : f.Sound)
    (ha : f.activation = some act) (effects : List Effect) :
    ({ f with activation := some { act with effects } } : FiberRecord).Sound :=
  hs.congr rfl (by rw [ha]; rfl)

theorem addConsumer_ledger (es : List (ServiceId × FiberId)) :
    (rt.addConsumer id es).ledger = rt.ledger.enroll id (es.map Prod.snd) := by
  have hg : (rt.addConsumer id es).ledger.guards = (rt.ledger.enroll id (es.map Prod.snd)).guards := by
    funext j
    simp only [ledger_guards, Ledger.enroll, addConsumer_find]
    cases rt.find j with
    | none => rfl
    | some p =>
        simp only [Option.map_some]
        split <;> rfl
  obtain ⟨fs, he⟩ := addConsumer_eq rt id es
  have hn : (rt.addConsumer id es).nextId = rt.nextId := by rw [he]
  have ha : (rt.addConsumer id es).applies = rt.applies := by rw [he]
  unfold ledger at hg ⊢
  rw [hn, ha]
  exact congrArg (fun g => Ledger.mk g rt.nextId rt.applies) hg

theorem WellFormed.addConsumer (h : rt.WellFormed) (es : List (ServiceId × FiberId)) :
    (rt.addConsumer id es).WellFormed where
  sound := by
    intro j g hg
    rw [addConsumer_find] at hg
    obtain ⟨p, hp, rfl⟩ := Option.map_eq_some_iff.mp hg
    split
    · exact (h.sound j p hp).congr rfl rfl
    · exact h.sound j p hp
  bounded := by
    obtain ⟨fs, he⟩ := addConsumer_eq rt id es
    rw [he]
    exact h.bounded

theorem applyOutcome_guard (f : FiberRecord) (ep : Option String) :
    (parked (applyOutcome f ep)).guard = f.guard.parked := by
  unfold applyOutcome
  split
  · split
    · rfl
    · split <;> rfl
  · rfl

theorem activated_guard {f : FiberRecord} (hs : f.Sound) (hl : f.state = .loading) :
    (activated f).guard = { f.guard with phase := .active } ∧ (activated f).Sound := by
  constructor
  · rfl
  · refine .of_active rfl ?_
    obtain ⟨a, ha, _⟩ := Option.map_eq_some_iff.mp (hs.loading hl)
    simp only [activated, ha]
    rfl

theorem published_ledger (hs : rt.WellFormed) {f : FiberRecord} (hf : rt.find id = some f)
    (loading : f.state = .loading) (applies : List FiberId) :
    ({ rt with applies }.publish id f).1.ledger =
      { (rt.ledger.set id { f.guard with phase := .active }).enroll id (f.guard.committed.toList.map Prod.snd) with
        applies } := by
  unfold publish
  dsimp only
  rw [addConsumer_ledger, ledger_set, (activated_guard (hs.sound id f hf) loading).1, markBindings_ledger]
  rfl

theorem Delivery.enters {p : Posted} {n : Nat} {rt' : Runtime} {fs : List Frame} (d : rt.Delivery p rt' fs) :
    Entry rt.Publishes rt.ledger (.deliver n) rt'.ledger fs := by
  cases d with
  | gone | untracked => exact .quiet (.refl _) (by simp) (by simp)
  | retired hf =>
      rw [ledger_set, condemned_guard]
      exact .retireChild (guards_of_find hf)
  | child | entry =>
      rw [mountLocked_ledger]
      exact .mounted rfl (by simp [Frame.Plain])
  | tracked hf ha => exact .quiet (same_set hf (effects_guard ha _)) (by simp) (by simp)
  | unloadAll =>
      refine .quiet (.refl _) (fun g hg => ?_) (by simp [Op.nested])
      obtain ⟨e, -, rfl⟩ := List.mem_map.mp hg
      trivial

theorem Delivery.wellFormed {p : Posted} {rt' : Runtime} {fs : List Frame} (h : rt.WellFormed)
    (d : rt.Delivery p rt' fs) : rt'.WellFormed := by
  cases d with
  | gone | untracked | unloadAll => exact h
  | retired hf => exact h.set ((h.sound _ _ hf).congr rfl rfl)
  | child | entry => exact h.mountLocked _ _
  | tracked hf ha => exact h.set (effects_sound (h.sound _ _ hf) ha _)

/-- A feat is an entry of the ledger. -/
theorem Feat.enters {o : Op} {rt' : Runtime} {fs : List Frame} (h : rt.WellFormed) (t : rt.Feat o rt' fs) :
    Entry rt.Publishes rt.ledger o rt'.ledger fs := by
  cases t with
  | mounted =>
      rw [mountLocked_ledger]
      exact .mounted rfl (by simp [Frame.Plain])
  | asked => exact .quiet (ledger_same (fun _ => rfl) rfl (Nat.le_refl _)) (by simp) (by simp)
  | absent | available | unknown => exact .quiet (.refl _) (by simp) (by simp)
  | erased hf hs =>
      rw [ledger_eraseFiber]
      exact .retireInactive (guards_of_find hf) (FiberRecord.phase_inactive.mpr hs)
  | retired hf _ =>
      rw [ledger_set, condemned_guard]
      exact .retire (guards_of_find hf)
  | reconciled => exact .reconcile
  | ignored hin _ => exact .ignored hin
  | published hin hf loading published =>
      rw [published_ledger h hf loading]
      exact .published hin (guards_of_find hf) (FiberRecord.phase_loading.mpr loading) ⟨_, hf, published⟩
        (by simp [Frame.Plain])
  | @failed id ep f fs hin hf _ _ calls =>
      rw [ledger_set, teardownOf_ledger, applyOutcome_guard]
      refine .dropped hin (guards_of_find hf) fun g hg => ?_
      obtain hg | hg := List.mem_append.mp hg
      · exact Errand.plain (calls g hg)
      · rw [List.mem_singleton.mp hg]
        trivial
  | provided hf ha => exact .quiet (same_set hf (effects_guard ha _)) (by simp) (by simp)
  | promoted =>
      exact .quiet (ledger_same (fun _ => rfl) rfl (Nat.le_refl _)) (by simp [Frame.Plain]) (by simp [Op.nested])
  | cancelled hf => exact .quiet (same_set hf rfl) (by simp) (by simp)
  | delivered hp d => exact d.enters

theorem Feat.wellFormed {o : Op} {rt' : Runtime} {fs : List Frame} (h : rt.WellFormed)
    (mounted : ∀ j f, rt.find j = some f → j < rt.nextId) (t : rt.Feat o rt' fs) : rt'.WellFormed := by
  cases t with
  | mounted => exact h.mountLocked _ 0
  | asked _ _ hc => exact h.of_find (fun _ => rfl) (h.bounded.of_bindings hc)
  | absent | available | unknown | reconciled => exact h
  | erased => exact h.eraseFiber
  | retired hf | cancelled hf => exact h.set ((h.sound _ _ hf).congr rfl rfl)
  | ignored => exact h.of_find (fun _ => rfl) h.bounded
  | @published id ep f _ hf loading _ =>
      have wf : ({ rt with applies := rt.applies.erase id } : Runtime).WellFormed :=
        h.of_find (fun _ => rfl) h.bounded
      exact ((wf.markBindings f .active).set (activated_guard (h.sound id f hf) loading).2).addConsumer _
  | failed =>
      refine WellFormed.set (WellFormed.teardownOf ?_) (.of_inactive rfl)
      exact h.of_find (fun _ => rfl) h.bounded
  | @provided id key value available f act state hf ha =>
      refine WellFormed.set ?_ (effects_sound (h.sound id f hf) ha _)
      exact h.of_find (fun _ => rfl) (h.bounded.bindRealm (mounted id f hf))
  | promoted => exact h.of_find (fun _ => rfl) (h.bounded.modifyLookup _ _ fun _ => rfl)
  | delivered _ d =>
      refine Delivery.wellFormed ?_ d
      exact h.of_find (fun _ => rfl) h.bounded

end
end Runtime

/-- One step of the engine, on the ledger and the stack. -/
inductive Moved (c c' : EngineConfig) : Label Op → Prop
  | turn {f : Frame} {rest fs : List Frame} : c.stack = f :: rest →
      Turn c.state.ledger f c'.state.ledger fs → c'.stack = fs ++ rest → Moved c c' .run
  | unwound {f : Frame} {rest : List Frame} : c.stack = f :: rest →
      c.state.exec f = .throw c'.state → Unwound c.state.ledger f c'.state.ledger →
      c'.stack = [] → Moved c c' .run
  | entry {o : Op} {fs : List Frame} : (c.stack = [] ∨ o.nested = true) →
      Entry c.state.Publishes c.state.ledger o c'.state.ledger fs → c'.stack = fs ++ c.stack →
      Moved c c' (.op o)

theorem engine_moved {c c' : EngineConfig} {a : Label Op} (h : c.state.WellFormed)
    (mounted : ∀ j f, c.state.find j = some f → j < c.state.nextId)
    (hn : engine.next c a = some c') : Moved c c' a ∧ c'.state.WellFormed := by
  cases engine_acts hn with
  | deed hst d hst' => exact ⟨.turn hst (d.turn h) hst', d.wellFormed h⟩
  | threw hst hx t hst' => exact ⟨.unwound hst hx (t.unwound h).1 hst', (t.unwound h).2⟩
  | feat hst t hst' => exact ⟨.entry hst (t.enters h) hst', t.wellFormed h mounted⟩

end Araya
