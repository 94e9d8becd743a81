import Araya.Runtime.Records

/-!
The index of the providers. A mount enters a fiber under every key it provides, an erasure takes it out, and no
other call touches the index, so in every state it lists the mounted fibers and no empty set.
-/

namespace Araya
namespace Runtime

/-! The index as a relation -/

/-- The fiber is listed under the key. -/
def Lists (m : SortedMap ServiceId (SortedSet FiberId)) (k : ServiceId) (id : FiberId) : Prop :=
  ∃ ids, m.find? k = some ids ∧ id ∈ ids

def NoneEmpty (m : SortedMap ServiceId (SortedSet FiberId)) : Prop := ∀ k ids, m.find? k = some ids → ∃ id, Lists m k id

section
variable {m : SortedMap ServiceId (SortedSet FiberId)} {id j : FiberId} {k : ServiceId}

theorem lists_insert {key : ServiceId} {ids : SortedSet FiberId} :
    Lists (m.insert key ids) k j ↔ if k = key then j ∈ ids else Lists m k j := by
  unfold Lists
  rw [SortedMap.find?_insert]
  split <;> simp

theorem lists_getD : j ∈ (m.find? k).getD ∅ ↔ Lists m k j := by
  unfold Lists
  cases m.find? k with
  | none => simp
  | some ids => simp

theorem lists_index {keys : List ServiceId} : Lists (index m id keys) k j ↔ Lists m k j ∨ j = id ∧ k ∈ keys := by
  unfold index
  induction keys generalizing m with
  | nil => simp
  | cons key keys ih =>
      rw [List.foldl_cons, ih, lists_insert, List.mem_cons]
      by_cases same : k = key
      · subst same
        rw [if_pos rfl, SortedSet.mem_insert, lists_getD]
        tauto
      · rw [if_neg same]
        tauto

theorem lists_unindex : Lists (unindexMap m id) k j ↔ j ≠ id ∧ Lists m k j := by
  unfold Lists unindexMap
  rw [SortedMap.find?_filterMap]
  cases m.find? k with
  | none => simp
  | some ids =>
      rw [Option.bind_some]
      split
      case isTrue empty =>
          have gone := SortedSet.card_eq_zero.mp empty
          constructor
          · rintro ⟨_, none, _⟩
            cases none
          · rintro ⟨other, all, found, member⟩
            cases found
            exact absurd (SortedSet.mem_erase.mpr ⟨other, member⟩) (gone j)
      case isFalse => simp

theorem noneEmpty_index (h : NoneEmpty m) (keys : List ServiceId) : NoneEmpty (index m id keys) := by
  unfold index
  induction keys generalizing m with
  | nil => exact h
  | cons key keys ih =>
      refine ih fun k ids found => ?_
      rw [SortedMap.find?_insert] at found
      simp only [lists_insert]
      split at found
      case isTrue same => exact ⟨id, by rw [if_pos same]; exact SortedSet.mem_insert.mpr (.inl rfl)⟩
      case isFalse other =>
          obtain ⟨j, listed⟩ := h k ids found
          exact ⟨j, by rwa [if_neg other]⟩

theorem noneEmpty_unindex : NoneEmpty (unindexMap m id) := by
  intro k ids found
  unfold Lists
  rw [found]
  unfold unindexMap at found
  rw [SortedMap.find?_filterMap] at found
  obtain ⟨all, -, kept⟩ := Option.bind_eq_some_iff.mp found
  split at kept
  · cases kept
  · next some =>
      cases kept
      obtain ⟨j, member⟩ := SortedSet.exists_mem_of_card_pos (Nat.pos_of_ne_zero some)
      exact ⟨j, _, rfl, member⟩

end

/-! What the steps do to the index -/

/-- The index of the providers agrees with the records. -/
structure Registered (rt : Runtime) : Prop where
  lists : ∀ k id, Lists rt.providersOf k id ↔ ∃ f, rt.find id = some f ∧ k ∈ f.provide
  noneEmpty : NoneEmpty rt.providersOf

/-- What a step is to the index. -/
inductive Registers (rt : Runtime) : Runtime → Prop
  | kept {rt' : Runtime} : rt'.providersOf = rt.providersOf →
      (∀ j, (rt'.find j).map (·.descriptor) = (rt.find j).map (·.descriptor)) → Registers rt rt'
  | erased (ids : List FiberId) : Registers rt (ids.foldl eraseFiber rt)
  | mounted (posted : List Posted) (spec : ComponentSpec) (parent : FiberId) :
      Registers rt ({ rt with posted }.mountLocked spec parent)

section
variable {rt rt' : Runtime} {id j : FiberId}

namespace Registered

theorem eraseFiber (h : rt.Registered) (id : FiberId) : (rt.eraseFiber id).Registered where
  lists k j := by
    rw [find_eraseFiber]
    refine lists_unindex.trans ?_
    rw [h.lists]
    by_cases same : j = id <;> simp [same]
  noneEmpty := noneEmpty_unindex

theorem eraseAll (h : rt.Registered) (ids : List FiberId) : (ids.foldl Runtime.eraseFiber rt).Registered := by
  induction ids generalizing rt with
  | nil => exact h
  | cons id ids ih => exact ih (h.eraseFiber id)

theorem mountLocked (h : rt.Registered) (known : rt.Known) (spec : ComponentSpec) (parent : FiberId) :
    (rt.mountLocked spec parent).Registered where
  lists k j := by
    have find : (rt.mountLocked spec parent).find j = if j = rt.nextId then some (mountedRecord spec parent) else rt.find j :=
      find_set _ _ _ _
    rw [find]
    refine (lists_index.trans (or_congr_left (h.lists k j))).trans ?_
    by_cases same : j = rt.nextId
    · subst same
      have fresh : ∀ f, rt.find rt.nextId ≠ some f := fun f found => Nat.lt_irrefl _ (known _ f found)
      simp [fresh, mountedRecord, FiberRecord.provide]
    · simp [same]
  noneEmpty := noneEmpty_index h.noneEmpty _

end Registered

theorem Registers.registered (known : rt.Known) (r : rt.Registers rt') (h : rt.Registered) : rt'.Registered := by
  cases r with
  | kept same records =>
      refine ⟨fun k id => ?_, same ▸ h.noneEmpty⟩
      have record := records id
      rw [same, h.lists]
      cases before : rt.find id with
      | none =>
          rw [before] at record
          simp [Option.map_eq_none_iff.mp record]
      | some f =>
          rw [before] at record
          obtain ⟨f', after, descriptor⟩ := Option.map_eq_some_iff.mp record
          simp [after, FiberRecord.provide, descriptor]
  | erased ids => exact h.eraseAll ids
  | mounted posted spec parent =>
      have waiting : ({ rt with posted } : Runtime).Registered := ⟨h.lists, h.noneEmpty⟩
      exact waiting.mountLocked known spec parent

/-! Frames -/

/-- The index after a frame that erases no fiber. -/
def Keeps (rt : Runtime) : Ran → Prop
  | .call rt' _ | .throw rt' => rt'.providersOf = rt.providersOf

/-- Both indexes after a frame that takes no entry out of them. -/
def Leaves (rt : Runtime) : Ran → Prop
  | .call rt' _ | .throw rt' => rt'.consumersOf = rt.consumersOf ∧ rt'.providersOf = rt.providersOf

theorem Leaves.keeps {ran : Ran} (h : rt.Leaves ran) : rt.Keeps ran := by
  cases ran <;> exact h.2

theorem teardownOf_leaves (id : FiberId) (f : FiberRecord) :
    (rt.teardownOf id f).consumersOf = rt.consumersOf ∧ (rt.teardownOf id f).providersOf = rt.providersOf := by
  obtain ⟨c, p, h⟩ := teardownOf_eq rt id f
  rw [h]
  exact ⟨rfl, rfl⟩

theorem addConsumer_leaves (id : FiberId) (es : List (ServiceId × FiberId)) :
    (rt.addConsumer id es).consumersOf = rt.consumersOf ∧ (rt.addConsumer id es).providersOf = rt.providersOf := by
  obtain ⟨fs, h⟩ := addConsumer_eq rt id es
  rw [h]
  exact ⟨rfl, rfl⟩

theorem entryScopeFor_leaves (path : String) (spec : ComponentSpec) :
    (rt.entryScopeFor path spec).1.consumersOf = rt.consumersOf ∧
      (rt.entryScopeFor path spec).1.providersOf = rt.providersOf := by
  obtain ⟨c, m, n, -, h⟩ := entryScopeFor_eq rt path spec
  rw [h]
  exact ⟨rfl, rfl⟩

theorem evaluate_leaves (rt : Runtime) (id : FiberId) : rt.Leaves (rt.evaluate id) := by
  unfold evaluate startLoading
  repeat' split
  all_goals first | exact ⟨rfl, rfl⟩ | skip
  all_goals
    dsimp only
    repeat' split
    all_goals exact ⟨rfl, rfl⟩

theorem beginUnload_leaves (rt : Runtime) (id : FiberId) (b : Bool) : rt.Leaves (rt.beginUnload id b) := by
  unfold beginUnload
  repeat' split
  all_goals first | exact ⟨rfl, rfl⟩ | skip
  all_goals
    dsimp only
    split <;> exact ⟨rfl, rfl⟩

theorem maybeFinishUnload_leaves (rt : Runtime) (id : FiberId) : rt.Leaves (rt.maybeFinishUnload id) := by
  unfold maybeFinishUnload finishUnload
  repeat' split
  all_goals first | exact ⟨rfl, rfl⟩ | exact teardownOf_leaves _ _

theorem retainEntry_leaves (rt : Runtime) (desired : List DesiredComponent) (path : String) (id : FiberId)
    (f : FiberRecord) (spec : ComponentSpec) (entries : List (String × FiberId)) (toAwait : List FiberId) :
    rt.Leaves (rt.retainEntry desired path id f spec entries toAwait) := by
  have same := @entryScopeFor_leaves rt path spec
  unfold retainEntry retireEntry
  dsimp only
  repeat' split
  all_goals exact same

theorem reconcileDiff_leaves (rt : Runtime) (desired : List DesiredComponent) (entries : List (String × FiberId))
    (toAwait : List FiberId) : rt.Leaves (rt.reconcileDiff desired entries toAwait) := by
  cases entries with
  | nil => exact ⟨rfl, rfl⟩
  | cons e entries =>
      obtain ⟨path, id⟩ := e
      simp only [reconcileDiff]
      repeat' split
      case isTrue.isTrue => exact retainEntry_leaves (rt.set id _) _ _ _ _ _ _ _
      case isFalse.isFalse => exact retainEntry_leaves rt _ _ _ _ _ _ _
      all_goals exact ⟨rfl, rfl⟩

theorem reconcileMount_leaves (rt : Runtime) (desired : List DesiredComponent) :
    rt.Leaves (rt.reconcileMount desired) := by
  induction desired with
  | nil => exact ⟨rfl, rfl⟩
  | cons node rest ih =>
      unfold reconcileMount
      split
      · exact ih
      · exact entryScopeFor_leaves _ _

/-- A frame leaves both indexes alone, or all it does is to erase fibers, or it
drops what a notification found stale. -/
theorem exec_leaves (rt : Runtime) (fr : Frame) :
    rt.Leaves (rt.exec fr) ∨
      (∃ (ids : List FiberId) (fs : List Frame), rt.exec fr = .call (ids.foldl eraseFiber rt) fs) ∨
      ∃ k s r stale, fr = .notifyLoop k s r [] stale := by
  cases fr with
  | evaluate id => exact .inl (evaluate_leaves rt id)
  | beginUnload id b => exact .inl (beginUnload_leaves rt id b)
  | maybeFinishUnload id => exact .inl (maybeFinishUnload_leaves rt id)
  | resume w =>
      cases w with
      | retire id | retireChild id => exact .inr (.inl ⟨[id], _, rfl⟩)
      | reconcile job => exact .inl ⟨rfl, rfl⟩
  | retireChildTail id =>
      simp only [exec, retireChildTail]
      split
      · exact .inl ⟨rfl, rfl⟩
      · split
        · exact .inr (.inl ⟨[id], _, rfl⟩)
        · exact .inl ⟨rfl, rfl⟩
  | reconcileAwait job =>
      simp only [exec, reconcileAwait]
      split
      · exact .inr (.inl ⟨job.retired, _, rfl⟩)
      · exact .inl ⟨rfl, rfl⟩
  | reconcileDiff desired es toAwait => exact .inl (reconcileDiff_leaves rt desired es toAwait)
  | reconcileMount desired => exact .inl (reconcileMount_leaves rt desired)
  | releaseProviders id es =>
      refine .inl ?_
      cases es with
      | nil => exact ⟨rfl, rfl⟩
      | cons e es =>
          simp only [exec, releaseProviders]
          split <;> exact ⟨rfl, rfl⟩
  | notifyProvided id keys =>
      refine .inl ?_
      cases keys with
      | nil => exact ⟨rfl, rfl⟩
      | cons k ks =>
          simp only [exec, notifyProvided]
          split <;> exact ⟨rfl, rfl⟩
  | notifyLoop key scope realm ids stale =>
      cases ids with
      | nil => exact .inr (.inr ⟨key, scope, realm, stale, rfl⟩)
      | cons c ids =>
          refine .inl ?_
          simp only [exec, notifyLoop]
          repeat' split
          all_goals exact ⟨rfl, rfl⟩
  | reassignNotify old scope keys => cases keys <;> exact .inl ⟨rfl, rfl⟩
  | transitionFinished | forgetPath | recordPath | childMounted => exact .inl ⟨rfl, rfl⟩
  | requestStop id =>
      simp only [exec, requestStop]
      split <;> exact .inl ⟨rfl, rfl⟩
  | openDone id =>
      simp only [exec, openDone]
      repeat' split
      all_goals exact .inl ⟨rfl, rfl⟩
  | notify key scope realm =>
      simp only [exec, notify]
      split <;> exact .inl ⟨rfl, rfl⟩
  | reactivate id =>
      simp only [exec, reactivateTail]
      repeat' split
      all_goals exact .inl ⟨rfl, rfl⟩
  | awaitDone id w =>
      simp only [exec, awaitDone]
      repeat' split
      all_goals exact .inl ⟨rfl, rfl⟩
  | reassign id spec scope old =>
      simp only [exec, reassign]
      split <;> exact .inl ⟨rfl, rfl⟩
  | reassignTail id spec scope =>
      simp only [exec, reassignTail]
      split <;> exact .inl ⟨rfl, rfl⟩

/-- A frame keeps the index, or all it does is to erase fibers. -/
theorem exec_keeps (rt : Runtime) (fr : Frame) :
    rt.Keeps (rt.exec fr) ∨ ∃ (ids : List FiberId) (fs : List Frame), rt.exec fr = .call (ids.foldl eraseFiber rt) fs := by
  obtain left | erases | ⟨k, s, r, stale, rfl⟩ := exec_leaves rt fr
  · exact .inl left.keeps
  · exact .inr erases
  · refine .inl ?_
    simp only [exec, notifyLoop, dropStale]
    split <;> rfl

/-! Steps -/

theorem raiseReactivate_descriptor (f : FiberRecord) (b : Bool) : (raiseReactivate f b).descriptor = f.descriptor := by
  unfold raiseReactivate
  split <;> rfl

/-- No step gives a fiber another component. -/
theorem rewrite_descriptor {pub ret : Prop} {post : Posted → Prop} {f g : FiberRecord} (h : Rewrite pub ret post f g) :
    g.descriptor = f.descriptor := by
  cases h with
  | alike alike => exact alike.descriptor
  | lapsed _ hg => obtain rfl | ⟨r, rfl⟩ := hg <;> rfl
  | raised b _ => exact raiseReactivate_descriptor f b
  | diverted b _ => exact raiseReactivate_descriptor f b
  | withdrew b n _ => exact raiseReactivate_descriptor f b
  | parked _ hg _ =>
      obtain rfl | ⟨ep, rfl⟩ := hg
      · rfl
      · unfold parked applyOutcome
        repeat' split
        all_goals rfl
  | _ => rfl

theorem records_same (rewritten : ∀ j f', rt'.find j = some f' → ∃ f, rt.find j = some f ∧ f'.descriptor = f.descriptor)
    (kept : ∀ j, rt'.find j = none → rt.find j = none) (j : FiberId) :
    (rt'.find j).map (·.descriptor) = (rt.find j).map (·.descriptor) := by
  cases after : rt'.find j with
  | none => rw [kept j after]
  | some f' =>
      obtain ⟨f, before, same⟩ := rewritten j f' after
      rw [before, Option.map_some, Option.map_some, same]

/-- A frame drops no record, or all it does is to erase fibers. -/
theorem Deed.drops {fr : Frame} {fs : List Frame} (d : rt.Deed fr rt' fs) :
    (∃ ids : List FiberId, rt' = ids.foldl Runtime.eraseFiber rt) ∨ ∀ j, rt'.find j = none → rt.find j = none := by
  cases d with
  | errand _ _ _ still _ | kept still _ => exact .inr fun j h => still.find j ▸ h
  | noted | loaded | lapsed | raised | diverted | withdrew | stopped | released | opened | revived | waits | placed =>
      exact .inr fun j h => lost_set (fun _ => rfl) h
  | absent | held | drained | skipped | shut | ended | through | resumed | childWaits | childMounted | diffDone |
    moved | awaitNext => exact .inr fun j h => h
  | @finished id f => exact .inr fun j h => lost_set (teardownOf_find rt id · f) h
  | dropped still _ | revised still _ _ _ => exact .inr fun j h => lost_set still.find h
  | @erased id => exact .inl ⟨[id], rfl⟩
  | @childErased id => exact .inl ⟨[id], rfl⟩
  | @erasedAll desired retired => exact .inl ⟨retired, rfl⟩

theorem Delivery.registers {p : Posted} {n : Nat} {fs : List Frame}
    (d : { rt with posted := rt.posted.eraseIdx n }.Delivery p rt' fs) : rt.Registers rt' := by
  cases d with
  | gone | untracked | unloadAll => exact .kept rfl fun _ => rfl
  | retired hf | tracked hf _ =>
      refine .kept rfl (records_same (fun j f' h => ?_) fun j h => lost_set (fun _ => rfl) h)
      have one : ∃ f, rt.find j = some f ∧ Rewrite False True (fun _ => True) f f' :=
        rewrite_set (fun _ => rfl) hf h fun _ => by first | exact .retired trivial | exact .tracked _ ‹_›
      obtain ⟨f, before, rewritten⟩ := one
      exact ⟨f, before, rewrite_descriptor rewritten⟩
  | child => exact .mounted _ _ _
  | entry => exact .mounted _ _ _

theorem Feat.registers {o : Op} {fs : List Frame} (t : rt.Feat o rt' fs) : rt.Registers rt' := by
  have same (h : rt'.providersOf = rt.providersOf) (old : ∀ j f', ¬ rt.Mounts rt' j f')
      (kept : ∀ j, rt'.find j = none → rt.find j = none) : rt.Registers rt' := by
    refine .kept h (records_same (fun j f' after => ?_) kept)
    obtain ⟨f, before, rewritten⟩ := (t.rewrites after).resolve_left (old j f')
    exact ⟨f, before, rewrite_descriptor rewritten⟩
  cases t with
  | mounted => exact .mounted rt.posted _ _
  | delivered _ d => exact d.registers
  | @erased id => exact .erased [id]
  | absent | available | reconciled | unknown | asked | promoted | ignored => exact .kept rfl fun _ => rfl
  | retired | cancelled => exact same rfl (fun j f' new => Nat.lt_irrefl _ new.2.1) fun j h => lost_set (fun _ => rfl) h
  | provided => exact same rfl (fun j f' new => Nat.lt_irrefl _ new.2.1) fun j h => lost_set (fun _ => rfl) h
  | @published id ep f =>
      refine same ((addConsumer_leaves _ _).2) (fun j f' new => ?_) fun j h => ?_
      · exact Nat.lt_irrefl _ (new.2.1.trans_eq (addConsumer_nextId id f.committed.toList))
      · have set := lost_addConsumer h
        exact lost_set (fun _ => rfl) set
  | @failed id ep f =>
      refine same ((teardownOf_leaves _ _).2) (fun j f' new => ?_) fun j h => lost_set (fun k => ?_) h
      · exact Nat.lt_irrefl _ (new.2.1.trans_eq (teardownOf_nextId id f))
      · exact teardownOf_find _ id k f

end

end Runtime

section
variable {c c' : EngineConfig} {a : Label Op}

theorem engine_registers (h : engine.next c a = some c') : c.state.Registers c'.state := by
  obtain ⟨fr, rest, s', fs, rfl, hst, hx, rfl⟩ | ⟨fr, rest, s', rfl, hst, hx, rfl⟩ |
    ⟨o, s', fs, rfl, hst, ho, rfl⟩ := StackMachine.next_cases h
  · have deed : c.state.Deed fr s' fs := by
      have deeds := Runtime.exec_deeds c.state fr
      rwa [show c.state.exec fr = .call s' fs from hx] at deeds
    obtain keeps | ⟨ids, fs', erases⟩ := Runtime.exec_keeps c.state fr
    · rw [show c.state.exec fr = .call s' fs from hx] at keeps
      obtain ⟨ids, rfl⟩ | kept := deed.drops
      · exact .erased ids
      · refine .kept keeps (Runtime.records_same (fun j f' after => ?_) kept)
        obtain ⟨f, before, rewritten⟩ := deed.rewrites after
        exact ⟨f, before, Runtime.rewrite_descriptor rewritten⟩
    · rw [show c.state.exec fr = .call s' fs from hx] at erases
      cases erases
      exact .erased ids
  · have threw : c.state.Threw fr s' := by
      have deeds := Runtime.exec_deeds c.state fr
      rwa [show c.state.exec fr = .throw s' from hx] at deeds
    cases threw with
    | create r hf hs kept resolved met applied created =>
        refine .kept rfl (Runtime.records_same (fun j f' after => ?_) fun j h => Runtime.lost_set (fun _ => rfl) h)
        obtain ⟨f, before, rewritten⟩ := (Runtime.Threw.create r hf hs kept resolved met applied created).rewrites after
        exact ⟨f, before, Runtime.rewrite_descriptor rewritten⟩
  · exact (Runtime.op_feat ho).registers

theorem engine_registered (h : engine.next c a = some c') (known : c.state.Known) (registered : c.state.Registered) :
    c'.state.Registered :=
  (engine_registers h).registered known registered

end
end Araya
