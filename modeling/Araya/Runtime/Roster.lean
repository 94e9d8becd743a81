import Araya.Runtime.Registry

/-!
The index of the consumers. A mount enters a fiber under every key it declares, an erasure takes it out, and the
end of a notification drops what its loop set aside. What a loop sets aside is never mounted again, so in every
state of every run the index lists each mounted fiber.
-/

namespace Araya
namespace Runtime

section
variable {rt rt' : Runtime} {fr : Frame} {fs : List Frame} {id j : FiberId} {k : ServiceId}

/-! The index of the consumers -/

/-- Every mounted fiber is listed under the keys it declares, and every identity
listed was drawn. -/
structure Enrolled (rt : Runtime) : Prop where
  lists : ∀ id f, rt.find id = some f → ∀ k ∈ f.descriptor.injectKeys, Lists rt.consumersOf k id
  drawn : ∀ k id, Lists rt.consumersOf k id → id < rt.nextId

namespace Enrolled

theorem start (h : rt.Fresh) : rt.Enrolled where
  lists id f hf := by
    rw [Runtime.find, h.fibers] at hf
    cases hf
  drawn k id listed := by
    rw [h.consumersOf] at listed
    obtain ⟨ids, none, -⟩ := listed
    cases none

theorem keep (h : rt.Enrolled) (same : rt'.consumersOf = rt.consumersOf) (grown : rt.nextId ≤ rt'.nextId)
    (records : ∀ j f', rt'.find j = some f' → ∃ f, rt.find j = some f ∧ f'.descriptor = f.descriptor) :
    rt'.Enrolled where
  lists j f' hf' k hk := by
    obtain ⟨f, hf, component⟩ := records j f' hf'
    rw [same]
    exact h.lists j f hf k (component ▸ hk)
  drawn k j listed := Nat.lt_of_lt_of_le (h.drawn k j (same ▸ listed)) grown

theorem eraseFiber (h : rt.Enrolled) (id : FiberId) : (rt.eraseFiber id).Enrolled where
  lists j f hf k hk := by
    rw [find_eraseFiber] at hf
    split at hf
    · cases hf
    · next other => exact lists_unindex.mpr ⟨other, h.lists j f hf k hk⟩
  drawn k j listed := h.drawn k j (lists_unindex.mp listed).2

theorem eraseAll (h : rt.Enrolled) (ids : List FiberId) : (ids.foldl Runtime.eraseFiber rt).Enrolled := by
  induction ids generalizing rt with
  | nil => exact h
  | cons id ids ih => exact ih (h.eraseFiber id)

theorem mountLocked (h : rt.Enrolled) (spec : ComponentSpec) (parent : FiberId) :
    (rt.mountLocked spec parent).Enrolled where
  lists j f hf k hk := by
    have found : (rt.set rt.nextId (mountedRecord spec parent)).find j = some f := hf
    rw [find_set] at found
    refine lists_index.mpr ?_
    split at found
    · next same =>
        cases found
        exact .inr ⟨same, hk⟩
    · exact .inl (h.lists j f found k hk)
  drawn k j listed := by
    obtain before | ⟨rfl, -⟩ := lists_index.mp listed
    · exact Nat.lt_succ_of_lt (h.drawn k j before)
    · exact Nat.lt_succ_self _

theorem mem_foldl_erase {stale : List FiberId} {ids : SortedSet FiberId} :
    j ∈ stale.foldl SortedSet.erase ids ↔ j ∈ ids ∧ j ∉ stale := by
  induction stale generalizing ids with
  | nil => simp
  | cons i stale ih =>
      rw [List.foldl_cons, ih, SortedSet.mem_erase, List.mem_cons]
      tauto

theorem dropStale (h : rt.Enrolled) (key : ServiceId) {stale : List FiberId}
    (gone : ∀ i ∈ stale, rt.find i = none) : (rt.dropStale key stale).Enrolled := by
  unfold Runtime.dropStale
  split
  · exact h
  · next ids found =>
      constructor
      · intro j f hf k hk
        have listed := h.lists j f hf k hk
        rw [lists_insert]
        split
        · next same =>
            subst same
            obtain ⟨all, listing, member⟩ := listed
            cases found.symm.trans listing
            refine mem_foldl_erase.mpr ⟨member, fun dropped => ?_⟩
            exact absurd (gone j dropped) (by simp [show rt.find j = some f from hf])
        · exact listed
      · intro k j listed
        rw [lists_insert] at listed
        split at listed
        · next same => exact h.drawn key j ⟨ids, found, (mem_foldl_erase.mp listed).1⟩
        · exact h.drawn k j listed

theorem deed (h : rt.Enrolled) (d : rt.Deed fr rt' fs) (same : rt'.consumersOf = rt.consumersOf) : rt'.Enrolled := by
  refine h.keep same d.nextId fun j f' hf' => ?_
  obtain ⟨f, hf, rewritten⟩ := d.rewrites hf'
  exact ⟨f, hf, rewrite_descriptor rewritten⟩

theorem feat {o : Op} (h : rt.Enrolled) (t : rt.Feat o rt' fs) : rt'.Enrolled := by
  have keeps (same : rt'.consumersOf = rt.consumersOf) (still : rt'.nextId = rt.nextId) : rt'.Enrolled := by
    refine h.keep same still.ge fun j f' hf' => ?_
    obtain ⟨-, grown, -⟩ | ⟨f, hf, rewritten⟩ := t.rewrites hf'
    · exact absurd grown (still ▸ Nat.lt_irrefl _)
    · exact ⟨f, hf, rewrite_descriptor rewritten⟩
  cases t with
  | mounted => exact h.mountLocked _ _
  | erased => exact h.eraseFiber _
  | published => exact keeps (addConsumer_leaves _ _).1 (addConsumer_nextId _ _)
  | failed => exact keeps (teardownOf_leaves _ _).1 (teardownOf_nextId _ _)
  | @delivered n p rt' fs _ d =>
      have waiting : ({ rt with posted := rt.posted.eraseIdx n } : Runtime).Enrolled := ⟨h.lists, h.drawn⟩
      cases d with
      | child | entry => exact waiting.mountLocked _ _
      | _ => exact keeps rfl rfl
  | _ => exact keeps rfl rfl

end Enrolled

end
end Runtime

/-! The loops that are running -/

/-- The frame is the loop of a notification. -/
def Frame.Loop : Frame → Prop
  | .notifyLoop .. => True
  | _ => False

namespace Runtime

/-- The frame calls no loop. -/
def Loopless : Ran → Prop
  | .call _ fs => ∀ g ∈ fs, ¬ g.Loop
  | .throw _ => True

section
variable (rt : Runtime)

theorem loopless_nil (rt' : Runtime) : Loopless (.call rt' []) := by
  simp [Loopless]

theorem evaluate_loopless (id : FiberId) : Loopless (rt.evaluate id) := by
  unfold evaluate startLoading
  repeat' split
  all_goals first | exact loopless_nil _ | skip
  all_goals
    dsimp only
    repeat' split
    all_goals simp [Loopless, Frame.Loop]

theorem retainEntry_loopless (desired : List DesiredComponent) (path : String) (id : FiberId)
    (f : FiberRecord) (spec : ComponentSpec) (entries : List (String × FiberId)) (toAwait : List FiberId) :
    Loopless (rt.retainEntry desired path id f spec entries toAwait) := by
  unfold retainEntry retireEntry
  dsimp only
  repeat' split
  all_goals simp [Loopless, Frame.Loop]

theorem reconcileDiff_loopless (desired : List DesiredComponent) (entries : List (String × FiberId))
    (toAwait : List FiberId) : Loopless (rt.reconcileDiff desired entries toAwait) := by
  cases entries with
  | nil => simp [reconcileDiff, Loopless, Frame.Loop]
  | cons e entries =>
      obtain ⟨path, id⟩ := e
      simp only [reconcileDiff]
      repeat' split
      case isTrue.isTrue => exact retainEntry_loopless _ _ _ _ _ _ _ _
      case isFalse.isFalse => exact retainEntry_loopless _ _ _ _ _ _ _ _
      all_goals simp [retireEntry, Loopless, Frame.Loop]

/-- Only a notification and its loop call a loop. -/
theorem exec_loopless (fr : Frame) : Loopless (rt.exec fr) ∨ (∃ k s r, fr = .notify k s r) ∨ fr.Loop := by
  cases fr with
  | notify k s r => exact .inr (.inl ⟨k, s, r, rfl⟩)
  | notifyLoop => exact .inr (.inr trivial)
  | evaluate id => exact .inl (evaluate_loopless rt id)
  | reconcileDiff desired es toAwait => exact .inl (reconcileDiff_loopless rt desired es toAwait)
  | reconcileMount desired =>
      obtain ⟨rt', he, -⟩ := reconcileMount_call rt desired
      rw [exec, he]
      exact .inl (loopless_nil rt')
  | releaseProviders id es => cases es with
      | nil => exact .inl (loopless_nil rt)
      | cons e es =>
          refine .inl ?_
          simp only [exec, releaseProviders]
          split <;> simp [Loopless, Frame.Loop]
  | notifyProvided id keys => cases keys with
      | nil => exact .inl (loopless_nil rt)
      | cons k ks =>
          refine .inl ?_
          simp only [exec, notifyProvided]
          split <;> simp [Loopless, Frame.Loop]
  | reassignNotify old scope keys => cases keys <;> exact .inl (by simp [exec, reassignNotify, Loopless, Frame.Loop])
  | reassign id next scope old =>
      refine .inl ?_
      simp only [exec, reassign]
      repeat' split
      all_goals simp [Loopless, Frame.Loop]
  | resume w => cases w <;> exact .inl (by simp [exec, resume, Loopless, Frame.Loop])
  | reconcileAwait job =>
      refine .inl ?_
      simp only [exec, reconcileAwait]
      split <;> simp [Loopless, Frame.Loop]
  | transitionFinished | forgetPath | recordPath | childMounted => exact .inl (loopless_nil _)
  | beginUnload id b =>
      refine .inl ?_
      simp only [exec, beginUnload]
      repeat' split
      case h_4 =>
          intro g hg
          rcases List.mem_append.mp hg with cascade | last
          · obtain ⟨i, -, rfl⟩ := List.mem_map.mp cascade
            exact not_false
          · rw [List.mem_singleton.mp last]
            exact not_false
      all_goals exact loopless_nil _
  | requestStop | maybeFinishUnload | openDone | reactivate | awaitDone | retireChildTail | reassignTail =>
      refine .inl ?_
      simp only [exec, requestStop, maybeFinishUnload, finishUnload, openDone, reactivateTail, awaitDone,
        retireChildTail, reassignTail]
      repeat' split
      all_goals simp [Loopless, Frame.Loop]

/-- A turn of the loop: the fiber is set aside, or evaluated, or passed over. -/
theorem notifyLoop_cases (k : ServiceId) (s : ScopeId) (r : Realm) (i : FiberId) (ids stale : List FiberId) :
    (rt.find i = none ∧
      rt.notifyLoop k s r (i :: ids) stale = .call rt [.notifyLoop k s r ids (stale ++ [i])]) ∨
    ∃ g, rt.find i = some g ∧
      ((rt.sees g k s r = true ∧
          rt.notifyLoop k s r (i :: ids) stale = .call rt [.evaluate i, .notifyLoop k s r ids stale]) ∨
        (rt.sees g k s r = false ∧
          rt.notifyLoop k s r (i :: ids) stale = .call rt [.notifyLoop k s r ids stale])) := by
  simp only [notifyLoop]
  cases hf : rt.find i with
  | none => exact .inl ⟨rfl, rfl⟩
  | some g =>
      refine .inr ⟨g, rfl, ?_⟩
      cases seen : rt.sees g k s r with
      | true => exact .inl ⟨rfl, if_pos seen⟩
      | false => exact .inr ⟨rfl, if_neg (seen ▸ Bool.false_ne_true)⟩

theorem op_loopless {o : Op} {r : Runtime × List Frame} (h : rt.op o = some r) : ∀ g ∈ r.2, ¬ g.Loop := by
  cases o with
  | mount spec =>
      cases h
      simp [Frame.Loop]
  | reconcile desired =>
      cases h
      simp [Frame.Loop]
  | cancel id =>
      cases h
      simp
  | mountChild parent spec =>
      obtain ⟨rt', -, he⟩ := Option.map_eq_some_iff.mp h
      cases he
      simp
  | provide id key value available =>
      obtain ⟨rt', -, he⟩ := Option.map_eq_some_iff.mp h
      cases he
      simp
  | retire id =>
      cases h
      unfold retire
      repeat' split
      all_goals simp [Frame.Loop]
  | complete id ep =>
      simp only [op] at h
      split at h
      · cases h
        simp only [onApplyCompleted, publish]
        repeat' split
        all_goals simp [Frame.Loop]
      · cases h
  | promote id key =>
      simp only [op, promote] at h
      repeat' split at h
      all_goals cases h
      all_goals simp [Frame.Loop]
  | deliver n =>
      simp only [op, deliver] at h
      split at h
      · cases h
      · cases h
        unfold runPosted
        repeat' split
        case h_5 =>
            intro g hg
            obtain ⟨e, -, rfl⟩ := List.mem_map.mp hg
            exact not_false
        all_goals simp [Frame.Loop]

end
end Runtime

/-! The steps -/

/-- What the loops on the stack carry: identities that were drawn, and among
those set aside as stale no fiber that is mounted. -/
def LoopsDrawn (c : EngineConfig) : Prop :=
  ∀ k s r ids stale, .notifyLoop k s r ids stale ∈ c.stack →
    (∀ i ∈ ids, i < c.state.nextId) ∧ ∀ i ∈ stale, i < c.state.nextId ∧ c.state.find i = none

section
variable {c c' : EngineConfig} {a : Label Op}

/-- A fiber that is erased is not mounted again. -/
theorem gone_step (h : engine.next c a = some c') {i : FiberId} (drawn : i < c.state.nextId)
    (gone : c.state.find i = none) : i < c'.state.nextId ∧ c'.state.find i = none := by
  refine ⟨Nat.lt_of_lt_of_le drawn (engine_nextId h), ?_⟩
  cases after : c'.state.find i with
  | none => rfl
  | some f' =>
      obtain ⟨rfl, -⟩ | ⟨f, hf, -⟩ := engine_rewrites h after
      · exact absurd drawn (Nat.lt_irrefl _)
      · rw [gone] at hf
        cases hf

theorem enrolled_step (inv : c.state.Enrolled) (loops : LoopsDrawn c) (h : engine.next c a = some c') :
    c'.state.Enrolled := by
  obtain ⟨fr, rest, s', fs, rfl, hst, hx, rfl⟩ | ⟨fr, rest, s', rfl, hst, hx, rfl⟩ |
    ⟨o, s', fs, rfl, hst, ho, rfl⟩ := StackMachine.next_cases h
  · obtain left | ⟨ids, fs', erases⟩ | ⟨k, s, r, stale, rfl⟩ := Runtime.exec_leaves c.state fr
    · rw [show c.state.exec fr = .call s' fs from hx] at left
      have deeds := Runtime.exec_deeds c.state fr
      rw [show c.state.exec fr = .call s' fs from hx] at deeds
      exact inv.deed deeds left.1
    · rw [show c.state.exec fr = .call s' fs from hx] at erases
      cases erases
      exact inv.eraseAll ids
    · cases hx
      refine inv.dropStale k fun i hi => ?_
      exact ((loops k s r [] stale (hst ▸ List.mem_cons_self)).2 i hi).2
  · obtain left | ⟨ids, fs', erases⟩ | ⟨k, s, r, stale, rfl⟩ := Runtime.exec_leaves c.state fr
    · rw [show c.state.exec fr = .throw s' from hx] at left
      have threw := Runtime.exec_deeds c.state fr
      rw [show c.state.exec fr = .throw s' from hx] at threw
      have grown : c.state.nextId ≤ s'.nextId := Runtime.Threw.nextId threw
      refine inv.keep left.1 grown fun j f' hf' => ?_
      obtain ⟨f, hf, rewritten⟩ := Runtime.Threw.rewrites threw hf'
      exact ⟨f, hf, Runtime.rewrite_descriptor rewritten⟩
    · rw [show c.state.exec fr = .throw s' from hx] at erases
      cases erases
    · cases hx
  · exact inv.feat (Runtime.op_feat ho)

theorem loopsDrawn_step (enrolled : c.state.Enrolled) (inv : LoopsDrawn c) (h : engine.next c a = some c') :
    LoopsDrawn c' := by
  have kept {k s r ids stale} (hm : Frame.notifyLoop k s r ids stale ∈ c.stack) :
      (∀ i ∈ ids, i < c'.state.nextId) ∧ ∀ i ∈ stale, i < c'.state.nextId ∧ c'.state.find i = none := by
    obtain ⟨drawn, gone⟩ := inv k s r ids stale hm
    exact ⟨fun i hi => Nat.lt_of_lt_of_le (drawn i hi) (engine_nextId h),
      fun i hi => gone_step h (gone i hi).1 (gone i hi).2⟩
  intro k s r ids stale hm
  obtain ⟨fr, rest, s', fs, rfl, hst, hx, rfl⟩ | ⟨fr, rest, s', rfl, hst, hx, rfl⟩ |
    ⟨o, s', fs, rfl, hst, ho, rfl⟩ := StackMachine.next_cases h
  · rcases List.mem_append.mp hm with called | below
    · obtain loopless | ⟨key, scope, realm, rfl⟩ | loop := Runtime.exec_loopless c.state fr
      · rw [show c.state.exec fr = .call s' fs from hx] at loopless
        exact absurd trivial (loopless _ called)
      · simp only [engine, Runtime.exec, Runtime.notify] at hx
        split at hx
        · cases hx
          cases called
        · next all found =>
            cases hx
            cases List.mem_singleton.mp called
            exact ⟨fun i hi => enrolled.drawn k i ⟨all, found, hi⟩, by simp⟩
      · cases fr with
        | notifyLoop key scope realm ids' stale' =>
            obtain ⟨drawn, gone⟩ := inv key scope realm ids' stale' (hst ▸ List.mem_cons_self)
            cases ids' with
            | nil =>
                cases hx
                cases called
            | cons i ids' =>
                have rest : ∀ j ∈ ids', j < c.state.nextId := fun j hj => drawn j (List.mem_cons_of_mem _ hj)
                obtain ⟨lost, calls⟩ | ⟨g, hf, ⟨-, calls⟩ | ⟨-, calls⟩⟩ :=
                  Runtime.notifyLoop_cases c.state key scope realm i ids' stale'
                · cases calls.symm.trans hx
                  cases List.mem_singleton.mp called
                  refine ⟨rest, fun j hj => ?_⟩
                  rcases List.mem_append.mp hj with before | now
                  · exact gone j before
                  · rw [List.mem_singleton.mp now]
                    exact ⟨drawn i List.mem_cons_self, lost⟩
                · cases calls.symm.trans hx
                  simp only [List.mem_cons, reduceCtorEq, List.not_mem_nil, or_false, false_or] at called
                  cases called
                  exact ⟨rest, gone⟩
                · cases calls.symm.trans hx
                  cases List.mem_singleton.mp called
                  exact ⟨rest, gone⟩
        | _ => exact loop.elim
    · exact kept (hst ▸ List.mem_cons_of_mem _ below)
  · cases hm
  · rcases List.mem_append.mp hm with called | below
    · exact absurd trivial (Runtime.op_loopless _ ho _ called)
    · exact kept below

/-- In every state of a run the index lists the mounted fibers. -/
theorem enrolled_reached {ok : EngineConfig → Label Op → Prop} (h : engine.system.Reached ok c) :
    c.state.Enrolled ∧ LoopsDrawn c := by
  refine h.invariant (I := fun c => c.state.Enrolled ∧ LoopsDrawn c) ?_ fun s a s' _ inv
    (hn : engine.next s a = some s') _ => ⟨enrolled_step inv.1 inv.2 hn, loopsDrawn_step inv.1 inv.2 hn⟩
  rintro c ⟨fresh, empty⟩
  refine ⟨.start fresh, fun k s r ids stale hm => ?_⟩
  rw [empty] at hm
  cases hm

end
end Araya
