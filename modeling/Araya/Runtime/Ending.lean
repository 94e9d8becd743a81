import Araya.Runtime.Routine
import Araya.Util.Descent

/-!
The end of a cascade. Re-evaluation, withdrawal, teardown and notification call each other, and a reconcile pass calls them
all; from whatever state and with whatever calls pending, the strand comes to rest after finitely many steps. Inside a
cascade no fiber becomes active, each unload of an active fiber leaves one less of them, and a fiber that loads again is
unloaded only by a call that was made for it before.
-/

namespace Araya

/-! What is left to do -/

/-- What the strand does, at most, for a waiter whose gate opens. -/
def Waiter.weight : Waiter → Nat
  | .retire _ | .retireChild _ => 1
  | .reconcile job => 3 + 3 * job.awaiting.length

namespace FiberRecord

def running (f : FiberRecord) : Nat := if f.state = .active then 1 else 0

/-- A load that begins takes from it, and so does an unload that ends. -/
def unrest (f : FiberRecord) : Nat :=
  match f.state with
  | .inactive => 1
  | .unloading => 2
  | .loading | .active => 0

def awaited (f : FiberRecord) : Nat := f.done.waiters.foldr (fun w n => w.weight + n) 0

end FiberRecord

namespace Runtime

def running (rt : Runtime) : Nat := rt.fibers.total FiberRecord.running

def unrest (rt : Runtime) : Nat := rt.fibers.total FiberRecord.unrest

def awaited (rt : Runtime) : Nat := rt.fibers.total FiberRecord.awaited

/-- How many keys the mounted fibers declare to provide. -/
def declared (rt : Runtime) : Nat := rt.fibers.total (·.provide.length)

/-- How many entries the index of the consumers has. -/
def audience (rt : Runtime) : Nat := rt.consumersOf.total (·.card)

def up (rt : Runtime) (id : FiberId) : Bool := (rt.find id).any fun f => f.state == .active

end Runtime

namespace Frame

/-- The unloads that the frame may call for without an active fiber to withdraw. -/
def due (rt : Runtime) : Frame → Nat
  | .beginUnload id _ => if rt.up id then 0 else 3
  | .reconcileDiff _ entries _ => 3 * entries.length
  | _ => 0

/-- What the frame leads to while no fiber loads or unloads, where the index of the consumers has `b` entries and the
fibers declare `p` keys. -/
def weight (b p : Nat) : Frame → Nat
  | .evaluate _ => 2
  | .beginUnload .. => 1
  | .requestStop _ => 2
  | .maybeFinishUnload _ => 1
  | .releaseProviders _ es => 1 + 2 * es.length
  | .openDone _ => 1
  | .notifyProvided _ ks => 1 + ks.length * (3 + 3 * b)
  | .notify .. => 2 + 3 * b
  | .notifyLoop _ _ _ ids _ => 1 + 3 * ids.length
  | .reactivate _ => 3
  | .transitionFinished | .forgetPath _ | .recordPath .. | .childMounted .. | .reconcileMount _ => 1
  | .awaitDone _ w => w.weight + 1
  | .resume w => w.weight
  | .retireChildTail _ => 3
  | .reassign _ _ _ ks => 5 + ks.length * (5 + 6 * b)
  | .reassignNotify _ _ ks => 1 + ks.length * (5 + 6 * b)
  | .reassignTail .. => 3
  | .reconcileAwait job => 2 + 3 * job.awaiting.length
  | .reconcileDiff _ es toAwait => 3 + 3 * toAwait.length + es.length * (12 + p * (5 + 6 * b))

end Frame

namespace Runtime

def due (rt : Runtime) (fs : List Frame) : Nat := fs.foldr (fun fr n => fr.due rt + n) 0

def weight (rt : Runtime) (fs : List Frame) : Nat :=
  fs.foldr (fun fr n => fr.weight rt.audience rt.declared + n) 0

end Runtime

/-- First the active fibers, then the transitions that are left, then the calls. -/
def cascadeMeasure (c : EngineConfig) : ℕ ×ₗ ℕ ×ₗ ℕ :=
  toLex (c.state.running, toLex (c.state.unrest + c.state.due c.stack, c.state.awaited + c.state.weight c.stack))

namespace Runtime

/-! States that have as much left to do -/

structure Level (rt rt' : Runtime) : Prop where
  running : rt'.running = rt.running
  unrest : rt'.unrest = rt.unrest
  awaited : rt'.awaited = rt.awaited
  declared : rt'.declared = rt.declared
  audience : rt'.audience = rt.audience
  up : ∀ id, rt'.up id = rt.up id

section
variable {rt rt' rt'' : Runtime} {id : FiberId} {f g : FiberRecord} {fr : Frame} {fs gs : List Frame}

theorem Level.of_fibers (same : rt'.fibers = rt.fibers) (heard : rt'.consumersOf = rt.consumersOf) : rt.Level rt' := by
  constructor <;> simp only [Runtime.running, Runtime.unrest, Runtime.awaited, Runtime.declared, Runtime.audience, Runtime.up,
    find, same, heard, implies_true]

theorem Level.refl (rt : Runtime) : rt.Level rt := .of_fibers rfl rfl

theorem Level.trans (h : rt.Level rt') (h' : rt'.Level rt'') : rt.Level rt'' :=
  ⟨h'.running.trans h.running, h'.unrest.trans h.unrest, h'.awaited.trans h.awaited, h'.declared.trans h.declared,
    h'.audience.trans h.audience, fun id => (h'.up id).trans (h.up id)⟩

theorem total_set (hf : rt.find id = some f) (same : rt'.fibers = rt.fibers.insert id g) (w : FiberRecord → Nat) :
    rt'.fibers.total w + w f = rt.fibers.total w + w g := by
  rw [same]
  exact SortedMap.total_replace hf g w

theorem total_level (hf : rt.find id = some f) (same : rt'.fibers = rt.fibers.insert id g) {w : FiberRecord → Nat}
    (level : w g = w f) : rt'.fibers.total w = rt.fibers.total w := by
  have total := total_set hf same w
  omega

theorem find_replaced (same : rt'.fibers = rt.fibers.insert id g) (j : FiberId) :
    rt'.find j = if j = id then some g else rt.find j := by
  rw [find, same]
  exact SortedMap.find?_insert ..

theorem up_replaced (same : rt'.fibers = rt.fibers.insert id g) (j : FiberId) :
    rt'.up j = if j = id then g.state == .active else rt.up j := by
  simp only [Runtime.up, find_replaced same]
  split <;> rfl

theorem up_of_find (hf : rt.find id = some f) : rt.up id = (f.state == .active) := by
  rw [Runtime.up, hf]
  rfl

theorem Level.of_set (hf : rt.find id = some f) (same : rt'.fibers = rt.fibers.insert id g)
    (heard : rt'.consumersOf = rt.consumersOf) (descriptor : g.descriptor = f.descriptor) (state : g.state = f.state)
    (done : g.done = f.done) : rt.Level rt' := by
  refine ⟨total_level hf same ?_, total_level hf same ?_, total_level hf same ?_, total_level hf same ?_, ?_, fun j => ?_⟩
  · simp only [FiberRecord.running, state]
  · simp only [FiberRecord.unrest, state]
  · simp only [FiberRecord.awaited, done]
  · simp only [FiberRecord.provide, descriptor]
  · simp only [Runtime.audience, heard]
  · rw [up_replaced same]
    split
    · next hj => rw [hj, up_of_find hf, state]
    · rfl

/-! What a frame spends -/

/-- Executing the frame leaves fewer active fibers, or fewer transitions and calls for them, or less to be done at once. -/
def Spends (rt : Runtime) (fr : Frame) (rt' : Runtime) (fs : List Frame) : Prop :=
  rt'.running < rt.running ∨
    rt'.running = rt.running ∧ (∀ id, rt.up id = true → rt'.up id = true) ∧ rt'.audience ≤ rt.audience ∧
      rt'.declared ≤ rt.declared ∧
      (rt'.unrest + rt'.due fs < rt.unrest + fr.due rt ∨
        rt'.unrest + rt'.due fs ≤ rt.unrest + fr.due rt ∧
          rt'.awaited + rt.weight fs < rt.awaited + fr.weight rt.audience rt.declared)

theorem Level.due (l : rt.Level rt') (fs : List Frame) : rt'.due fs = rt.due fs := by
  have each : Frame.due rt' = Frame.due rt := by
    funext g
    cases g <;> simp only [Frame.due, l.up]
  rw [Runtime.due, Runtime.due, each]

theorem Level.weight (l : rt.Level rt') (fs : List Frame) : rt'.weight fs = rt.weight fs := by
  rw [Runtime.weight, Runtime.weight, l.audience, l.declared]

theorem Spends.of_level (s : rt'.Spends fr rt'' fs) (l : rt.Level rt') : rt.Spends fr rt'' fs := by
  have due := l.due [fr]
  simp only [Runtime.due, List.foldr_cons, List.foldr_nil, Nat.add_zero] at due
  unfold Spends at s ⊢
  rw [l.weight, due, l.running, l.unrest, l.awaited, l.declared, l.audience] at s
  simpa only [l.up] using s

theorem Spends.idle (l : rt.Level rt') (due : rt'.due fs ≤ fr.due rt)
    (weight : rt.weight fs < fr.weight rt.audience rt.declared) : rt.Spends fr rt' fs := by
  refine .inr ⟨l.running, fun id up => (l.up id).trans up, Nat.le_of_eq l.audience, Nat.le_of_eq l.declared, .inr ⟨?_, ?_⟩⟩
  · rw [l.unrest]
    omega
  · rw [l.awaited]
    omega

theorem Spends.of_set (hf : rt.find id = some f) (same : rt'.fibers = rt.fibers.insert id g)
    (heard : rt'.consumersOf = rt.consumersOf) (descriptor : g.descriptor = f.descriptor) (down : g.running ≤ f.running)
    (less : g.running = f.running → g.unrest + rt'.due fs < f.unrest + fr.due rt ∨
      g.unrest + rt'.due fs ≤ f.unrest + fr.due rt ∧
        g.awaited + rt.weight fs < f.awaited + fr.weight rt.audience rt.declared) : rt.Spends fr rt' fs := by
  have running : rt'.running + f.running = rt.running + g.running := total_set hf same _
  have unrest : rt'.unrest + f.unrest = rt.unrest + g.unrest := total_set hf same _
  have awaited : rt'.awaited + f.awaited = rt.awaited + g.awaited := total_set hf same _
  have declared : rt'.declared = rt.declared := total_level hf same (by simp only [FiberRecord.provide, descriptor])
  have audience : rt'.audience = rt.audience := by rw [Runtime.audience, heard]; rfl
  obtain fewer | level := Nat.lt_or_eq_of_le down
  · exact .inl (by omega)
  · refine .inr ⟨by omega, fun j up => ?_, Nat.le_of_eq audience, Nat.le_of_eq declared, ?_⟩
    · rw [up_replaced same]
      split
      · next hj =>
          subst hj
          rw [up_of_find hf] at up
          simp only [FiberRecord.running, beq_iff_eq] at level up ⊢
          by_contra other
          rw [if_pos up, if_neg other] at level
          cases level
      · exact up
    · obtain fewer | ⟨few, light⟩ := less level
      · exact .inl (by omega)
      · exact .inr ⟨by omega, by omega⟩

/-! Records that are erased -/

/-- Fewer active fibers, or as many and nothing more to do. -/
def Wanes (rt rt' : Runtime) : Prop :=
  rt'.running < rt.running ∨
    rt'.running = rt.running ∧ (∀ id, rt.up id = true → rt'.up id = true) ∧ rt'.audience ≤ rt.audience ∧
      rt'.declared ≤ rt.declared ∧ rt'.unrest ≤ rt.unrest ∧ rt'.awaited ≤ rt.awaited

theorem Wanes.refl (rt : Runtime) : rt.Wanes rt :=
  .inr ⟨rfl, fun _ up => up, Nat.le_refl _, Nat.le_refl _, Nat.le_refl _, Nat.le_refl _⟩

theorem Wanes.trans (h : rt.Wanes rt') (h' : rt'.Wanes rt'') : rt.Wanes rt'' := by
  obtain fewer | ⟨running, up, audience, declared, unrest, awaited⟩ := h
  · obtain fewer' | ⟨running', -⟩ := h'
    · exact .inl (Nat.lt_trans fewer' fewer)
    · exact .inl (running' ▸ fewer)
  · obtain fewer' | ⟨running', up', audience', declared', unrest', awaited'⟩ := h'
    · exact .inl (running ▸ fewer')
    · exact .inr ⟨running'.trans running, fun id h => up' id (up id h), Nat.le_trans audience' audience,
        Nat.le_trans declared' declared, Nat.le_trans unrest' unrest, Nat.le_trans awaited' awaited⟩

theorem unindexMap_total (m : SortedMap ServiceId (SortedSet FiberId)) (id : FiberId) :
    (unindexMap m id).total (·.card) ≤ m.total (·.card) := by
  refine SortedMap.total_filterMap m fun x y kept => ?_
  split at kept
  · cases kept
  · cases kept
    exact List.length_erase_le

theorem eraseFiber_wanes (rt : Runtime) (id : FiberId) : rt.Wanes (rt.eraseFiber id) := by
  have audience : (rt.eraseFiber id).audience ≤ rt.audience := unindexMap_total _ id
  have less (w : FiberRecord → Nat) : (rt.eraseFiber id).fibers.total w ≤ rt.fibers.total w := SortedMap.total_erase_le ..
  have stays (other : rt.up id = false) (j : FiberId) (up : rt.up j = true) : (rt.eraseFiber id).up j = true := by
    have apart : j ≠ id := by
      rintro rfl
      rw [other] at up
      cases up
    rwa [Runtime.up, find_eraseFiber, if_neg apart]
  cases hf : rt.find id with
  | none =>
      have same : (rt.eraseFiber id).running = rt.running := by
        unfold Runtime.running eraseFiber unindex
        rw [show (({ rt with fibers := rt.fibers.erase id } : Runtime).fibers) = rt.fibers from SortedMap.erase_of_none hf]
      exact .inr ⟨same, stays (by rw [Runtime.up, hf]; rfl), audience, less _, less _, less _⟩
  | some f =>
      have running : rt.running = (rt.eraseFiber id).running + f.running := SortedMap.total_erase hf _
      by_cases active : f.state = .active
      · rw [show f.running = 1 from if_pos active] at running
        exact .inl (by omega)
      · rw [show f.running = 0 from if_neg active] at running
        exact .inr ⟨running.symm, stays (by rw [up_of_find hf]; simpa using active), audience, less _, less _, less _⟩

theorem erased_wanes (ids : List FiberId) (rt : Runtime) : rt.Wanes (ids.foldl eraseFiber rt) := by
  induction ids generalizing rt with
  | nil => exact .refl rt
  | cons id ids ih => exact (eraseFiber_wanes rt id).trans (ih _)

theorem Spends.of_wanes (h : rt.Wanes rt') (due : rt'.due fs ≤ fr.due rt)
    (weight : rt.weight fs < fr.weight rt.audience rt.declared) : rt.Spends fr rt' fs := by
  obtain fewer | ⟨running, up, audience, declared, unrest, awaited⟩ := h
  · exact .inl fewer
  · exact .inr ⟨running, up, audience, declared, .inr ⟨by omega, by omega⟩⟩


/-! The frames -/

@[simp] theorem due_nil (rt : Runtime) : rt.due [] = 0 := rfl

@[simp] theorem due_cons (rt : Runtime) (fr : Frame) (fs : List Frame) : rt.due (fr :: fs) = fr.due rt + rt.due fs := rfl

@[simp] theorem due_append (rt : Runtime) (fs gs : List Frame) : rt.due (fs ++ gs) = rt.due fs + rt.due gs := by
  induction fs with
  | nil => exact (Nat.zero_add _).symm
  | cons fr fs ih => rw [List.cons_append, due_cons, due_cons, ih, Nat.add_assoc]

@[simp] theorem weight_nil (rt : Runtime) : rt.weight [] = 0 := rfl

@[simp] theorem weight_cons (rt : Runtime) (fr : Frame) (fs : List Frame) :
    rt.weight (fr :: fs) = fr.weight rt.audience rt.declared + rt.weight fs := rfl

@[simp] theorem weight_append (rt : Runtime) (fs gs : List Frame) : rt.weight (fs ++ gs) = rt.weight fs + rt.weight gs := by
  induction fs with
  | nil => exact (Nat.zero_add _).symm
  | cons fr fs ih => rw [List.cons_append, weight_cons, weight_cons, ih, Nat.add_assoc]

@[simp] theorem due_resumes (rt : Runtime) (ws : List Waiter) : rt.due (ws.map .resume) = 0 := by
  induction ws with
  | nil => rfl
  | cons w ws ih => simp [Frame.due, ih]

@[simp] theorem weight_resumes (rt : Runtime) (ws : List Waiter) :
    rt.weight (ws.map .resume) = ws.foldr (fun w n => w.weight + n) 0 := by
  induction ws with
  | nil => rfl
  | cons w ws ih => rw [List.map_cons, weight_cons, ih, Frame.weight, List.foldr_cons]

theorem waiters_append (ws : List Waiter) (w : Waiter) :
    (ws ++ [w]).foldr (fun w n => w.weight + n) 0 = ws.foldr (fun w n => w.weight + n) 0 + w.weight := by
  induction ws with
  | nil => exact Nat.add_comm ..
  | cons v ws ih => rw [List.cons_append, List.foldr_cons, List.foldr_cons, ih, Nat.add_assoc]

theorem startLoading_spends (hf : rt.find id = some f) (hs : f.state = .inactive)
    (hx : rt.startLoading id = .call rt' fs) : rt.Spends (.evaluate id) rt' fs := by
  unfold startLoading at hx
  rw [hf] at hx
  dsimp only at hx
  have idle {g : FiberRecord} (descriptor : g.descriptor = f.descriptor) (state : g.state = .inactive)
      (done : g.done = f.done) : rt.Spends (.evaluate id) (rt.drawId.set id g) [] := by
    refine .of_set hf rfl rfl descriptor ?_ fun _ => .inr ⟨?_, ?_⟩
    · simp [FiberRecord.running, state]
    · simp [FiberRecord.unrest, state, hs]
    · simp [FiberRecord.awaited, done, Frame.weight]
  split at hx
  · split at hx
    · cases hx
    · cases hx
      exact idle rfl rfl rfl
    · cases hx
      refine .of_set hf rfl rfl rfl ?_ fun _ => .inl ?_
      · simp [FiberRecord.running, committing, starting]
      · simp [FiberRecord.unrest, committing, starting, hs, Frame.due]
  · cases hx
    exact idle rfl rfl rfl

theorem evaluate_spends (hx : rt.evaluate id = .call rt' fs) : rt.Spends (.evaluate id) rt' fs := by
  have nothing : rt.Spends (.evaluate id) rt [] := .idle (.refl rt) (Nat.le_refl _) (by simp [Frame.weight])
  unfold evaluate at hx
  split at hx
  · cases hx
    exact nothing
  · next f hf =>
      split at hx
      · cases hx
        exact nothing
      · next idle =>
          split at hx
          · cases hx
            exact nothing
          · dsimp only at hx
            split at hx
            · next hs =>
                split at hx
                · exact startLoading_spends hf hs hx
                · split at hx
                  · cases hx
                    exact .idle (.of_set hf rfl rfl rfl rfl rfl) (Nat.le_refl _) (by simp [Frame.weight])
                  · cases hx
                    exact nothing
            · next awake =>
                split at hx
                · cases hx
                  exact nothing
                · cases hx
                  have active : rt.up id = true := by
                    rw [up_of_find hf, beq_iff_eq]
                    by_contra other
                    exact idle ⟨awake, other⟩
                  exact .idle (.refl rt) (by simp [Frame.due, active]) (by simp [Frame.weight])

theorem beginUnload_spends {b : Bool} (d : rt.Deeds (.beginUnload id b) (.call rt' fs)) :
    rt.Spends (.beginUnload id b) rt' fs := by
  have sleeping (down : rt.up id = false) : (Frame.beginUnload id b).due rt = 3 := by simp [Frame.due, down]
  cases d with
  | errand _ unload => exact absurd rfl (unload id b)
  | absent hf same =>
      have down : rt.up id = false := by
        obtain ⟨_, same⟩ | same | same | same := same <;> cases same
        rw [Runtime.up, hf]
        rfl
      refine .inr ⟨rfl, fun _ up => up, Nat.le_refl _, Nat.le_refl _, .inl ?_⟩
      rw [sleeping down, due_nil]
      exact Nat.lt_add_of_pos_right (Nat.succ_pos 2)
  | @raised _ f _ hf hs =>
      obtain ⟨n, same⟩ := raiseReactivate_eq f b
      rw [same]
      have due := sleeping (by rw [up_of_find hf]; cases hs <;> simp [*])
      refine .of_set hf rfl rfl rfl (Nat.le_refl _) fun _ => .inl ?_
      rw [due, due_nil]
      exact Nat.lt_add_of_pos_right (Nat.succ_pos 2)
  | @diverted _ f _ hf hs =>
      obtain ⟨n, same⟩ := raiseReactivate_eq f b
      rw [same]
      have due := sleeping (by rw [up_of_find hf, hs]; rfl)
      refine .of_set hf rfl rfl rfl ?_ fun _ => .inl ?_
      · simp [FiberRecord.running, Runtime.diverted]
      · simp [FiberRecord.unrest, Runtime.diverted, hs, due]
  | @withdrew _ f g _ hf hs hg =>
      obtain ⟨n, same⟩ := raiseReactivate_eq f b
      refine .of_set hf rfl rfl ?_ ?_ fun level => ?_
      · rw [hg, same]
        rfl
      · simp [FiberRecord.running, withdrawing]
      · simp [FiberRecord.running, withdrawing, hs] at level

theorem maybeFinishUnload_spends (d : rt.Deeds (.maybeFinishUnload id) (.call rt' fs)) :
    rt.Spends (.maybeFinishUnload id) rt' fs := by
  have nothing : rt.Spends (.maybeFinishUnload id) rt [] := .idle (.refl rt) (Nat.le_refl _) (by simp [Frame.weight])
  cases d with
  | errand errand => exact errand.elim
  | absent | held => exact nothing
  | @finished _ f hf hs _ =>
      obtain ⟨c, p, torn⟩ := teardownOf_eq rt id f
      rw [torn]
      refine .of_set (g := parked f) hf rfl rfl rfl ?_ fun _ => .inl ?_
      · simp [FiberRecord.running, parked]
      · simp [FiberRecord.unrest, parked, hs, Frame.due]

theorem releaseProviders_spends {es : List (ServiceId × FiberId)}
    (d : rt.Deeds (.releaseProviders id es) (.call rt' fs)) : rt.Spends (.releaseProviders id es) rt' fs := by
  cases d with
  | errand errand => exact errand.elim
  | absent _ same => obtain ⟨_, same⟩ | same | same | same := same <;> cases same
  | drained => exact .idle (.refl rt) (Nat.le_refl _) (by simp [Frame.weight])
  | skipped => exact .idle (.refl rt) (by simp [Frame.due]) (by simp [Frame.weight])
  | released hp => exact .idle (.of_set hp rfl rfl rfl rfl rfl) (by simp [Frame.due]) (by simp [Frame.weight]; omega)

theorem openDone_spends (d : rt.Deeds (.openDone id) (.call rt' fs)) : rt.Spends (.openDone id) rt' fs := by
  cases d with
  | errand errand => exact errand.elim
  | absent _ same => obtain ⟨_, same⟩ | same | same | same := same <;> cases same
  | shut => exact .idle (.refl rt) (Nat.le_refl _) (by simp [Frame.weight])
  | opened hf _ =>
      refine .of_set hf rfl rfl rfl (Nat.le_refl _) fun _ => .inr ⟨?_, ?_⟩
      · simp [FiberRecord.unrest, Frame.due]
      · simp [FiberRecord.awaited, Frame.weight]

theorem awaitDone_spends {w : Waiter} (d : rt.Deeds (.awaitDone id w) (.call rt' fs)) :
    rt.Spends (.awaitDone id w) rt' fs := by
  cases d with
  | errand errand => exact errand.elim
  | absent _ same => obtain ⟨_, same⟩ | same | same | same := same <;> cases same
  | through => exact .idle (.refl rt) (by simp [Frame.due]) (by simp [Frame.weight])
  | waits hf _ =>
      refine .of_set hf rfl rfl rfl (Nat.le_refl _) fun _ => .inr ⟨?_, ?_⟩
      · simp [FiberRecord.unrest, Frame.due]
      · rw [FiberRecord.awaited, waiters_append, FiberRecord.awaited, weight_nil, Frame.weight]
        omega

theorem resume_spends {w : Waiter} (d : rt.Deeds (.resume w) (.call rt' fs)) : rt.Spends (.resume w) rt' fs := by
  cases d with
  | errand errand => exact errand.elim
  | absent _ same => obtain ⟨_, same⟩ | same | same | same := same <;> cases same
  | erased same =>
      refine .of_wanes (eraseFiber_wanes ..) (Nat.le_refl _) ?_
      cases w with
      | retire | retireChild => simp [Frame.weight, Waiter.weight]
      | reconcile job => cases same
  | resumed => exact .idle (.refl rt) (by simp [Frame.due]) (by simp [Frame.weight, Waiter.weight])

theorem retireChildTail_spends (d : rt.Deeds (.retireChildTail id) (.call rt' fs)) :
    rt.Spends (.retireChildTail id) rt' fs := by
  cases d with
  | errand errand => exact errand.elim
  | absent => exact .idle (.refl rt) (Nat.le_refl _) (by simp [Frame.weight])
  | childErased => exact .of_wanes (eraseFiber_wanes ..) (Nat.le_refl _) (by simp [Frame.weight])
  | childWaits => exact .idle (.refl rt) (by simp [Frame.due]) (by simp [Frame.weight, Waiter.weight])

theorem reconcileAwait_spends {job : ReconcileJob} (d : rt.Deeds (.reconcileAwait job) (.call rt' fs)) :
    rt.Spends (.reconcileAwait job) rt' fs := by
  cases d with
  | errand errand => exact errand.elim
  | absent _ same => obtain ⟨_, same⟩ | same | same | same := same <;> cases same
  | awaitNext => exact .idle (.refl rt) (by simp [Frame.due]) (by simp [Frame.weight, Waiter.weight]; omega)
  | erasedAll => exact .of_wanes (erased_wanes ..) (by simp [Frame.due]) (by simp [Frame.weight])

theorem notifyProvided_spends {ks : List ServiceId} (hx : rt.notifyProvided id ks = .call rt' fs) :
    rt.Spends (.notifyProvided id ks) rt' fs := by
  cases ks with
  | nil =>
      cases hx
      exact .idle (.refl rt) (Nat.le_refl _) (by simp [Frame.weight])
  | cons k ks =>
      simp only [notifyProvided] at hx
      split at hx
      · cases hx
        exact .idle (.refl rt) (Nat.le_refl _) (by simp [Frame.weight])
      · cases hx
        exact .idle (.refl rt) (by simp [Frame.due]) (by simp [Frame.weight, Nat.succ_mul]; omega)

theorem notify_spends {key : ServiceId} {scope : ScopeId} {realm : Realm} (hx : rt.notify key scope realm = .call rt' fs) :
    rt.Spends (.notify key scope realm) rt' fs := by
  unfold notify at hx
  split at hx
  · cases hx
    exact .idle (.refl rt) (Nat.le_refl _) (by simp [Frame.weight])
  · next ids found =>
      cases hx
      have heard : ids.toList.length ≤ rt.audience := SortedMap.le_total found (·.card)
      exact .idle (.refl rt) (by simp [Frame.due]) (by simp [Frame.weight]; omega)

theorem dropStale_wanes (rt : Runtime) (key : ServiceId) (stale : List FiberId) : rt.Wanes (rt.dropStale key stale) := by
  unfold dropStale
  split
  · exact .refl rt
  · next ids found =>
      have fewer (stale : List FiberId) (ids : SortedSet FiberId) : (stale.foldl SortedSet.erase ids).card ≤ ids.card := by
        induction stale generalizing ids with
        | nil => exact Nat.le_refl _
        | cons i stale ih => exact Nat.le_trans (ih _) List.length_erase_le
      have total := SortedMap.total_replace found (stale.foldl SortedSet.erase ids) (·.card)
      have less := fewer stale ids
      exact .inr ⟨rfl, fun _ up => up, by simp only [Runtime.audience]; omega, Nat.le_refl _, Nat.le_refl _, Nat.le_refl _⟩

theorem notifyLoop_spends {key : ServiceId} {scope : ScopeId} {realm : Realm} {ids stale : List FiberId}
    (hx : rt.notifyLoop key scope realm ids stale = .call rt' fs) :
    rt.Spends (.notifyLoop key scope realm ids stale) rt' fs := by
  cases ids with
  | nil =>
      cases hx
      exact .of_wanes (dropStale_wanes ..) (Nat.le_refl _) (by simp [Frame.weight])
  | cons i ids =>
      simp only [notifyLoop] at hx
      split at hx
      · cases hx
        exact .idle (.refl rt) (by simp [Frame.due]) (by simp [Frame.weight])
      · split at hx
        · cases hx
          exact .idle (.refl rt) (by simp [Frame.due]) (by simp [Frame.weight]; omega)
        · cases hx
          exact .idle (.refl rt) (by simp [Frame.due]) (by simp [Frame.weight])

theorem reactivateTail_spends (hx : rt.reactivateTail id = .call rt' fs) : rt.Spends (.reactivate id) rt' fs := by
  unfold reactivateTail at hx
  split at hx
  · cases hx
    exact .idle (.refl rt) (Nat.le_refl _) (by simp [Frame.weight])
  · next f hf =>
      split at hx
      · cases hx
        exact .idle (.of_set hf rfl rfl rfl rfl rfl) (by simp [Frame.due]) (by simp [Frame.weight])
      · cases hx
        exact .idle (.refl rt) (Nat.le_refl _) (by simp [Frame.weight])

theorem entered_level (rt : Runtime) (path : String) (spec : ComponentSpec) : rt.Level (rt.entryScopeFor path spec).1 :=
  .of_fibers (entryScopeFor_still rt path spec).fibers (entryScopeFor_leaves path spec).1

theorem reconcileMount_spends {desired : List DesiredComponent} (hx : rt.reconcileMount desired = .call rt' fs) :
    rt.Spends (.reconcileMount desired) rt' fs := by
  induction desired with
  | nil =>
      cases hx
      exact .idle (.refl rt) (Nat.le_refl _) (by simp [Frame.weight])
  | cons node rest ih =>
      unfold reconcileMount at hx
      split at hx
      · exact ih hx
      · cases hx
        exact .idle (.trans (entered_level ..) (.of_fibers rfl rfl)) (Nat.le_refl _) (by simp [Frame.weight])

theorem reassignNotify_spends {old scope : ScopeId} {ks : List (ServiceId × Realm)}
    (hx : rt.reassignNotify old scope ks = .call rt' fs) : rt.Spends (.reassignNotify old scope ks) rt' fs := by
  cases ks with
  | nil =>
      cases hx
      exact .idle (.refl rt) (Nat.le_refl _) (by simp [Frame.weight])
  | cons k ks =>
      cases hx
      exact .idle (.refl rt) (by simp [Frame.due]) (by simp [Frame.weight, Nat.succ_mul]; omega)

theorem reassign_spends {next : ComponentSpec} {scope : ScopeId} {ks : List (ServiceId × Realm)}
    (hx : rt.reassign id next scope ks = .call rt' fs) : rt.Spends (.reassign id next scope ks) rt' fs := by
  unfold reassign at hx
  split at hx
  · cases hx
    exact .idle (.refl rt) (Nat.le_refl _) (by simp [Frame.weight])
  · cases hx
    refine .idle (.of_fibers rfl rfl) ?_ ?_
    · split <;> simp [Frame.due]
    · split <;> simp [Frame.weight] <;> omega

theorem reassignTail_spends {next : ComponentSpec} {scope : ScopeId} (hx : rt.reassignTail id next scope = .call rt' fs) :
    rt.Spends (.reassignTail id next scope) rt' fs := by
  unfold reassignTail at hx
  split at hx
  · cases hx
    exact .idle (.refl rt) (Nat.le_refl _) (by simp [Frame.weight])
  · next f hf =>
      cases hx
      refine .idle (.of_set hf rfl rfl rfl rfl rfl) ?_ ?_
      · split <;> simp [Frame.due]
      · split <;> simp [Frame.weight]

section
variable {desired : List DesiredComponent} {path : String} {entries : List (String × FiberId)} {toAwait : List FiberId}
  {e : String × FiberId}

theorem retireEntry_spends (hf : rt.find id = some f)
    (hx : rt.retireEntry desired path id f entries toAwait = .call rt' fs) :
    rt.Spends (.reconcileDiff desired (e :: entries) toAwait) rt' fs := by
  cases hx
  refine .idle (.of_set hf rfl rfl rfl rfl rfl) ?_ ?_
  · simp only [due_cons, due_nil, Frame.due, List.length_cons]
    split <;> omega
  · simp only [weight_cons, weight_nil, Frame.weight, List.length_cons, List.length_append, List.length_nil, Nat.succ_mul entries.length]
    omega

theorem retainEntry_spends {spec : ComponentSpec} (hf : rt.find id = some f)
    (hx : rt.retainEntry desired path id f spec entries toAwait = .call rt' fs) :
    rt.Spends (.reconcileDiff desired (e :: entries) toAwait) rt' fs := by
  unfold retainEntry at hx
  have level := entered_level rt path spec
  have hf' : (rt.entryScopeFor path spec).1.find id = some f := ((entryScopeFor_still rt path spec).find id).trans hf
  generalize rt.entryScopeFor path spec = entered at level hf' hx
  obtain ⟨rt₁, scope⟩ := entered
  dsimp only at level hf' hx
  have onward {rt₂ : Runtime} (level' : rt₁.Level rt₂) :
      rt.Spends (.reconcileDiff desired (e :: entries) toAwait) rt₂ [.reconcileDiff desired entries toAwait] := by
    refine .idle (level.trans level') ?_ ?_
    · simp only [due_cons, due_nil, Frame.due, List.length_cons]
      omega
    · simp only [weight_cons, weight_nil, Frame.weight, List.length_cons, Nat.succ_mul entries.length]
      omega
  split at hx
  · exact (retireEntry_spends hf' hx).of_level level
  · split at hx
    · split at hx
      · cases hx
        have declared : f.provide.length ≤ rt.declared := SortedMap.le_total hf (·.provide.length)
        have most := Nat.mul_le_mul_right (5 + 6 * rt.audience) declared
        refine .idle level ?_ ?_
        · simp only [due_cons, due_nil, Frame.due, List.length_cons]
          omega
        · simp only [weight_cons, weight_nil, Frame.weight, List.length_cons, List.length_map,
            Nat.succ_mul entries.length]
          omega
      · cases hx
        exact onward (.of_set hf' rfl rfl rfl rfl rfl)
    · cases hx
      exact onward (.refl _)

theorem reconcileDiff_spends {es : List (String × FiberId)} (hx : rt.reconcileDiff desired es toAwait = .call rt' fs) :
    rt.Spends (.reconcileDiff desired es toAwait) rt' fs := by
  cases es with
  | nil =>
      cases hx
      exact .idle (.refl rt) (by simp [Frame.due]) (by simp [Frame.weight])
  | cons e es =>
      obtain ⟨path, id⟩ := e
      simp only [reconcileDiff] at hx
      split at hx
      · cases hx
        refine .idle (.of_fibers rfl rfl) ?_ ?_
        · simp only [due_cons, due_nil, Frame.due, List.length_cons]
          omega
        · simp only [weight_cons, weight_nil, Frame.weight, List.length_cons, Nat.succ_mul es.length]
          omega
      · next f hf =>
          split at hx
          · exact retireEntry_spends hf hx
          · next node _ =>
              split at hx
              · exact retireEntry_spends hf hx
              · split at hx
                · split at hx
                  · exact (retainEntry_spends (find_set_self ..) hx).of_level (.of_set hf rfl rfl rfl rfl rfl)
                  · exact retireEntry_spends hf hx
                · exact retainEntry_spends hf hx

end

/-- Each frame that returns leaves less to do. -/
theorem exec_spends (hx : rt.exec fr = .call rt' fs) : rt.Spends fr rt' fs := by
  have deeds := exec_deeds rt fr
  rw [hx] at deeds
  cases fr with
  | evaluate id => exact evaluate_spends hx
  | beginUnload id b => exact beginUnload_spends deeds
  | requestStop id =>
      cases deeds with
      | errand errand => exact errand.elim
      | absent => exact .idle (.refl rt) (Nat.le_refl _) (by simp [Frame.weight])
      | stopped hf => exact .idle (.of_set hf rfl rfl rfl rfl rfl) (by simp [Frame.due]) (by simp [Frame.weight])
  | maybeFinishUnload id => exact maybeFinishUnload_spends deeds
  | releaseProviders id es => exact releaseProviders_spends deeds
  | openDone id => exact openDone_spends deeds
  | notifyProvided id ks => exact notifyProvided_spends hx
  | notify key scope realm => exact notify_spends hx
  | notifyLoop key scope realm ids stale => exact notifyLoop_spends hx
  | reactivate id => exact reactivateTail_spends hx
  | transitionFinished | forgetPath path | recordPath path id | childMounted parent serial child =>
      cases hx
      exact .idle (.of_fibers rfl rfl) (Nat.le_refl _) (by simp [Frame.weight])
  | awaitDone id w => exact awaitDone_spends deeds
  | resume w => exact resume_spends deeds
  | retireChildTail id => exact retireChildTail_spends deeds
  | reconcileDiff desired es toAwait => exact reconcileDiff_spends hx
  | reassign id next scope ks => exact reassign_spends hx
  | reassignNotify old scope ks => exact reassignNotify_spends hx
  | reassignTail id next scope => exact reassignTail_spends hx
  | reconcileAwait job => exact reconcileAwait_spends deeds
  | reconcileMount desired => exact reconcileMount_spends hx

/-! The strand -/

theorem due_mono (up : ∀ id, rt.up id = true → rt'.up id = true) (fs : List Frame) : rt'.due fs ≤ rt.due fs := by
  induction fs with
  | nil => exact Nat.le_refl _
  | cons fr fs ih =>
      rw [due_cons, due_cons]
      refine Nat.add_le_add ?_ ih
      cases fr with
      | beginUnload id b =>
          simp only [Frame.due]
          split
          · exact Nat.zero_le _
          · next down => rw [if_neg fun was => down (up id was)]
      | _ => exact Nat.le_refl _

theorem weight_mono {b b' p p' : Nat} (heard : b' ≤ b) (declared : p' ≤ p) (fr : Frame) : fr.weight b' p' ≤ fr.weight b p := by
  cases fr with
  | notify => exact Nat.add_le_add_left (Nat.mul_le_mul_left 3 heard) 2
  | notifyProvided id ks => exact Nat.add_le_add_left (Nat.mul_le_mul_left _ (by omega)) 1
  | reassign id next scope ks => exact Nat.add_le_add_left (Nat.mul_le_mul_left _ (by omega)) 5
  | reassignNotify old scope ks => exact Nat.add_le_add_left (Nat.mul_le_mul_left _ (by omega)) 1
  | reconcileDiff desired es toAwait =>
      exact Nat.add_le_add_left (Nat.mul_le_mul_left _ (Nat.add_le_add_left (Nat.mul_le_mul declared (by omega)) 12)) _
  | _ => exact Nat.le_refl _

theorem weights_mono (heard : rt'.audience ≤ rt.audience) (declared : rt'.declared ≤ rt.declared) (fs : List Frame) :
    rt'.weight fs ≤ rt.weight fs := by
  induction fs with
  | nil => exact Nat.le_refl _
  | cons fr fs ih =>
      rw [weight_cons, weight_cons]
      exact Nat.add_le_add (weight_mono heard declared fr) ih

theorem Spends.falls {rest : List Frame} (s : rt.Spends fr rt' fs) :
    cascadeMeasure ⟨rt', fs ++ rest⟩ < cascadeMeasure ⟨rt, fr :: rest⟩ := by
  obtain fewer | ⟨level, up, heard, declared, less⟩ := s
  · exact Prod.Lex.toLex_lt_toLex.mpr (.inl fewer)
  · refine Prod.Lex.toLex_lt_toLex.mpr (.inr ⟨level, Prod.Lex.toLex_lt_toLex.mpr ?_⟩)
    have due := due_mono up rest
    have weight := weights_mono heard declared rest
    have weight' := weights_mono heard declared fs
    simp only [due_append, due_cons, weight_append, weight_cons]
    obtain fewer | ⟨few, light⟩ := less
    · exact .inl (by omega)
    · by_cases same : rt'.unrest + (rt'.due fs + rt'.due rest) = rt.unrest + (fr.due rt + rt.due rest)
      · exact .inr ⟨same, by omega⟩
      · exact .inl (by omega)

theorem Threw.falls {rest : List Frame} (t : rt.Threw fr rt') :
    cascadeMeasure ⟨rt', []⟩ < cascadeMeasure ⟨rt, fr :: rest⟩ := by
  cases t with
  | @create id f r hf hs =>
      have spends : rt.Spends (.evaluate id) (rt.drawId.set id (committing f rt.nextId r)) [] := by
        refine .of_set hf rfl rfl rfl ?_ fun _ => .inl ?_
        · simp [FiberRecord.running, committing, starting]
        · simp [FiberRecord.unrest, committing, starting, hs, Frame.due]
      have falls : cascadeMeasure ⟨_, [] ++ rest⟩ < cascadeMeasure ⟨rt, .evaluate id :: rest⟩ := spends.falls
      refine lt_of_le_of_lt ?_ falls
      refine Prod.Lex.toLex_le_toLex.mpr (.inr ⟨rfl, Prod.Lex.toLex_le_toLex.mpr ?_⟩)
      simp only [due_nil, weight_nil, List.nil_append]
      by_cases same : (rt.drawId.set id (committing f rt.nextId r)).due rest = 0
      · exact .inr ⟨by rw [same], by omega⟩
      · exact .inl (by omega)

theorem Level.measure (l : rt.Level rt') (fs : List Frame) : cascadeMeasure ⟨rt', fs⟩ = cascadeMeasure ⟨rt, fs⟩ := by
  unfold cascadeMeasure
  dsimp only
  rw [l.running, l.unrest, l.awaited, l.due, l.weight]

/-- What an apply does inside a cascade, and a request to stop, calls for nothing. -/
theorem op_level {o : Op} (inside : o.nested = true) (ho : op o rt = some (rt', fs)) : rt.Level rt' ∧ fs = [] := by
  cases o with
  | provide id key value available =>
      obtain ⟨rt₁, provided, same⟩ := Option.map_eq_some_iff.mp ho
      cases same
      unfold provide at provided
      split at provided
      · cases provided
      · next f hf =>
          split at provided
          · cases provided
          · split at provided
            · cases provided
            · cases provided
              exact ⟨.of_set hf rfl rfl rfl rfl rfl, rfl⟩
  | mountChild parent spec =>
      obtain ⟨rt₁, mounted, same⟩ := Option.map_eq_some_iff.mp ho
      cases same
      unfold mountChild at mounted
      split at mounted
      · cases mounted
      · cases mounted
        exact ⟨.of_fibers rfl rfl, rfl⟩
  | cancel id =>
      cases ho
      refine ⟨?_, rfl⟩
      unfold cancel
      split
      · exact .refl rt
      · next f hf => exact .of_set hf rfl rfl rfl rfl rfl
  | _ => cases inside

end
end Runtime

theorem engine_descent : engine.Descent cascadeMeasure := by
  refine ⟨fun c c' h => ?_, fun c o c' inside h => ?_⟩
  · obtain ⟨fr, rest, s', fs, -, hst, hx, rfl⟩ | ⟨fr, rest, s', -, hst, hx, rfl⟩ | ⟨o, -, -, same, -⟩ :=
      StackMachine.next_cases h
    · obtain ⟨rt, st⟩ := c
      cases hst
      exact (Runtime.exec_spends hx).falls
    · obtain ⟨rt, st⟩ := c
      cases hst
      have threw := Runtime.exec_deeds rt fr
      rw [show rt.exec fr = .throw s' from hx] at threw
      exact threw.falls
    · cases same
  · obtain ⟨fr, rest, s', fs, same, -⟩ | ⟨fr, rest, s', same, -⟩ | ⟨o', s', fs, same, -, ho, rfl⟩ :=
      StackMachine.next_cases h
    · cases same
    · cases same
    · cases same
      obtain ⟨level, rfl⟩ := Runtime.op_level inside ho
      exact le_of_eq (level.measure c.stack)

/-- From every configuration the strand comes to rest, and no run executes frames for ever while the outside only
publishes, mounts children or asks to stop inside the cascade. -/
theorem cascade_ends : (∀ c : EngineConfig, ∃ n d, engine.drain (fun _ _ => true) n c = some d ∧ d.stack = []) ∧
    ∀ (run : ℕ → EngineConfig) (a : ℕ → Label Op), (∀ n, engine.next (run n) (a n) = some (run (n + 1))) →
      (∀ n o, a n = .op o → o.nested = true) → ∃ N, ∀ n, N ≤ n → a n ≠ .run :=
  ⟨engine_descent.drains, engine_descent.finite⟩

/-- A fiber that is gone is re-evaluated, and then asked to stop again and again. -/
theorem cascade_ends_asked :
    ∃ N, ∀ n, N ≤ n → (if n = 0 then Label.run else .op (Op.cancel 1)) ≠ .run := by
  refine cascade_ends.2 (fun n => if n = 0 then ⟨{}, [.evaluate 1]⟩ else ⟨{}, []⟩) _ (fun n => ?_) fun n o same => ?_
  · cases n <;> rfl
  · split at same
    · cases same
    · cases same
      rfl

end Araya
