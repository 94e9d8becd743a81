import Araya.Runtime.Deeds

/-!
What a step of the engine may do to one record. A record that is there after a
step was mounted by it, or rewritten in one of the ways listed here; a record
that is gone was erased by one of four calls.
-/

namespace Araya

/-- `pub` holds where the fiber's apply is published, `ret` where its unload is
about to begin because it is retired, and `post` of the handlers that wait then. -/
inductive Rewrite (pub ret : Prop) (post : Posted → Prop) (f : FiberRecord) : FiberRecord → Prop
  | same : Rewrite pub ret post f f
  | alike {g : FiberRecord} : f.Alike g → Rewrite pub ret post f g
  | started (serial : Nat) (r : Runtime.Resolution) (hasInstance : Bool) : f.state = .inactive → 0 ≤ f.reactivate →
      Rewrite pub ret post f { Runtime.committing f serial r with hasInstance }
  | lapsed {g : FiberRecord} : f.state = .inactive →
      (g = Runtime.factoryFailed f ∨ ∃ r, g = Runtime.unresolved f r) → Rewrite pub ret post f g
  | raised (b : Bool) : (f.state = .inactive ∨ f.state = .unloading) →
      Rewrite pub ret post f (Runtime.raiseReactivate f b)
  | diverted (b : Bool) : f.state = .loading →
      Rewrite pub ret post f (Runtime.diverted (Runtime.raiseReactivate f b))
  | withdrew (b : Bool) (n : Nat) : f.state = .active →
      Rewrite pub ret post f (Runtime.withdrawing (Runtime.raiseReactivate f b) n)
  | stopped : Rewrite pub ret post f { f with stopRequested := true }
  | parked {g : FiberRecord} : (f.state = .loading ∨ f.state = .unloading) →
      (g = f ∨ ∃ ep, g = Runtime.applyOutcome f ep) →
      (∀ act child, f.activation = some act → .retireChild child ∈ act.effects → post (.retireChild child)) →
      Rewrite pub ret post f (Runtime.parked g)
  | released (id : FiberId) : Rewrite pub ret post f (Runtime.release id f)
  | gated (done : Gate) : Rewrite pub ret post f { f with done }
  | revived : 0 < f.reactivate → Rewrite pub ret post f { f with reactivate := 0 }
  | retired : ret → Rewrite pub ret post f { f with reactivate := -1 }
  | activated (consumers : SortedSet FiberId) : pub → f.state = .loading →
      Rewrite pub ret post f { Runtime.activated f with consumers }
  | enrolled (consumers : SortedSet FiberId) : Rewrite pub ret post f { f with consumers }
  | tracked {act : Activation} (e : Effect) : f.activation = some act →
      Rewrite pub ret post f { f with activation := some { act with effects := act.effects ++ [e] } }

theorem Rewrite.mono {pub ret pub' ret' : Prop} {post post' : Posted → Prop} {f g : FiberRecord}
    (h : Rewrite pub ret post f g) (published : pub → pub') (retired : ret → ret') (posted : ∀ p, post p → post' p) :
    Rewrite pub' ret' post' f g := by
  cases h with
  | same => exact .same
  | alike alike => exact .alike alike
  | started serial r hasInstance hs kept => exact .started serial r hasInstance hs kept
  | lapsed hs hg => exact .lapsed hs hg
  | raised b hs => exact .raised b hs
  | diverted b hs => exact .diverted b hs
  | withdrew b n hs => exact .withdrew b n hs
  | stopped => exact .stopped
  | parked hs hg hp => exact .parked hs hg fun act child ha hc => posted _ (hp act child ha hc)
  | released id => exact .released id
  | gated done => exact .gated done
  | revived hr => exact .revived hr
  | retired hr => exact .retired (retired hr)
  | activated consumers hp hs => exact .activated consumers (published hp) hs
  | enrolled consumers => exact .enrolled consumers
  | tracked e ha => exact .tracked e ha

/-- The fibers whose records a frame drops. -/
def Frame.erases : Frame → List FiberId
  | .resume w => w.erases.toList
  | .reconcileAwait ⟨_, [], retired⟩ => retired
  | _ => []

namespace Runtime

section
variable {rt rt' : Runtime} {pub ret : Prop} {post : Posted → Prop} {id j : FiberId} {f g f' : FiberRecord}

theorem runEffects_posted (id : FiberId) (scope : ScopeId) (es : List Effect) (rt : Runtime) :
    ∃ new, (es.foldl (runEffect id scope) rt).posted = rt.posted ++ new := by
  induction es generalizing rt with
  | nil => exact ⟨[], (List.append_nil _).symm⟩
  | cons e es ih =>
      obtain ⟨new, h⟩ := ih (runEffect id scope rt e)
      cases e with
      | unbind k =>
          have same : (runEffect id scope rt (.unbind k)).posted = rt.posted := by
            simp only [runEffect]
            repeat' split
            all_goals rfl
          exact ⟨new, h.trans (by rw [same])⟩
      | retireChild c => exact ⟨.retireChild c :: new, h.trans (by simp [runEffect])⟩

theorem teardownOf_posted (rt : Runtime) (id : FiberId) (f : FiberRecord) :
    ∃ new, (rt.teardownOf id f).posted = rt.posted ++ new := by
  unfold teardownOf
  split
  · exact ⟨[], (List.append_nil _).symm⟩
  · exact runEffects_posted id _ _ rt

/-- A teardown posts the retirement of every child among the effects. -/
theorem teardownOf_posts (rt : Runtime) (id : FiberId) {act : Activation} {child : FiberId}
    (ha : f.activation = some act) (hc : .retireChild child ∈ act.effects) :
    .retireChild child ∈ (rt.teardownOf id f).posted := by
  have posts (es : List Effect) (rt : Runtime) (h : .retireChild child ∈ es) :
      .retireChild child ∈ (es.foldl (runEffect id act.scope) rt).posted := by
    induction es generalizing rt with
    | nil => cases h
    | cons e es ih =>
        obtain rfl | h := List.mem_cons.mp h
        · obtain ⟨new, posted⟩ :=
            runEffects_posted id act.scope es (runEffect id act.scope rt (.retireChild child))
          rw [List.foldl_cons, posted]
          exact List.mem_append_left _ (List.mem_append_right _ (List.mem_singleton.mpr rfl))
        · exact ih _ h
  unfold teardownOf
  rw [ha]
  exact posts _ rt (List.mem_reverse.mpr hc)

/-- One record is rewritten and the others are kept. -/
theorem rewrite_set (same : ∀ k, rt'.find k = rt.find k) (hf : rt.find id = some f)
    (h : (rt'.set id g).find j = some f') (own : j = id → Rewrite pub ret post f g) :
    ∃ f, rt.find j = some f ∧ Rewrite pub ret post f f' := by
  rw [find_set] at h
  split at h
  · next hj =>
      cases h
      exact ⟨f, hj ▸ hf, own hj⟩
  · exact ⟨f', (same j).symm.trans h, .same⟩

theorem rewrite_erase (h : (rt.eraseFiber id).find j = some f') : rt.find j = some f' := by
  rw [find_eraseFiber] at h
  split at h
  · cases h
  · exact h

theorem rewrite_eraseAll {ids : List FiberId} (h : (ids.foldl eraseFiber rt).find j = some f') :
    rt.find j = some f' := by
  induction ids generalizing rt with
  | nil => exact h
  | cons i is ih => exact rewrite_erase (ih h)

end

section
variable {rt rt' : Runtime} {fr : Frame} {fs : List Frame} {j : FiberId} {f' : FiberRecord}

theorem Deed.rewrites (d : rt.Deed fr rt' fs) (h : rt'.find j = some f') :
    ∃ f, rt.find j = some f ∧ Rewrite False (∃ rest, fs = .beginUnload j false :: rest) (· ∈ rt'.posted) f f' := by
  cases d with
  | errand _ _ _ still _ | kept still _ => exact ⟨f', still.find j ▸ h, .same⟩
  | noted e hf _ => exact rewrite_set (fun _ => rfl) hf h fun _ => .alike ⟨rfl, rfl, rfl, rfl, rfl, rfl, rfl, rfl, rfl, rfl, rfl⟩
  | loaded r hf hs kept => exact rewrite_set (fun _ => rfl) hf h fun _ => .started _ _ _ hs kept
  | lapsed hf hs hg => exact rewrite_set (fun _ => rfl) hf h fun _ => .lapsed hs hg
  | absent | held | drained | skipped | shut | ended | through | resumed | childWaits | childMounted | diffDone |
    moved | awaitNext => exact ⟨f', h, .same⟩
  | raised hf hs => exact rewrite_set (fun _ => rfl) hf h fun _ => .raised _ hs
  | diverted hf hs => exact rewrite_set (fun _ => rfl) hf h fun _ => .diverted _ hs
  | withdrew hf hs hg =>
      subst hg
      exact rewrite_set (fun _ => rfl) hf h fun _ => .withdrew _ _ hs
  | stopped hf => exact rewrite_set (fun _ => rfl) hf h fun _ => .stopped
  | @finished id f hf hs _ =>
      exact rewrite_set (teardownOf_find rt id · f) hf h fun _ =>
        .parked (.inr hs) (.inl rfl) fun act child ha hc => teardownOf_posts rt id ha hc
  | released hp => exact rewrite_set (fun _ => rfl) hp h fun _ => .released _
  | opened hf _ => exact rewrite_set (fun _ => rfl) hf h fun _ => .gated _
  | revived hf hr => exact rewrite_set (fun _ => rfl) hf h fun _ => .revived hr
  | waits hf _ => exact rewrite_set (fun _ => rfl) hf h fun _ => .gated _
  | erased | childErased => exact ⟨f', rewrite_erase h, .same⟩
  | dropped still hf =>
      exact rewrite_set still.find hf h fun hj => .retired ⟨_, by rw [hj]⟩
  | revised still _ hf alike =>
      exact rewrite_set still.find hf h fun _ => .alike alike
  | placed hf alike _ => exact rewrite_set (fun _ => rfl) hf h fun _ => .alike alike
  | erasedAll => exact ⟨f', rewrite_eraseAll h, .same⟩

theorem Threw.rewrites (t : rt.Threw fr rt') (h : rt'.find j = some f') :
    ∃ f, rt.find j = some f ∧ Rewrite False False (· ∈ rt'.posted) f f' := by
  cases t with
  | create r hf hs kept => exact rewrite_set (fun _ => rfl) hf h fun _ => .started _ _ _ hs kept

theorem addConsumer_rewrites (id : FiberId) (es : List (ServiceId × FiberId))
    (h : (rt.addConsumer id es).find j = some f') :
    ∃ f consumers, rt.find j = some f ∧ f' = { f with consumers } := by
  rw [addConsumer_find] at h
  obtain ⟨f, hf, rfl⟩ := Option.map_eq_some_iff.mp h
  by_cases hj : j ∈ es.map Prod.snd
  · exact ⟨f, f.consumers.insert id, hf, by rw [if_pos hj]⟩
  · exact ⟨f, f.consumers, hf, by rw [if_neg hj]⟩

theorem publish_find {id : FiberId} (f : FiberRecord) :
    ∃ consumers, (rt.publish id f).1.find id = some { activated f with consumers } := by
  simp only [publish, addConsumer_find, find_set, if_pos, Option.map_some]
  split
  · exact ⟨_, rfl⟩
  · exact ⟨_, rfl⟩

theorem publish_rewrites {id : FiberId} {f : FiberRecord} {pub ret : Prop} {post : Posted → Prop} (hf : rt.find id = some f)
    (hs : f.state = .loading) (h : (rt.publish id f).1.find j = some f') (own : j = id → pub) :
    ∃ f, rt.find j = some f ∧ Rewrite pub ret post f f' := by
  obtain ⟨g, consumers, hg, rfl⟩ := addConsumer_rewrites id f.committed.toList h
  rw [find_set] at hg
  split at hg
  · next hj =>
      cases hg
      exact ⟨f, hj ▸ hf, .activated consumers (own hj) hs⟩
  · exact ⟨g, hg, .enrolled consumers⟩

/-- The step mounts the fiber, under the next identity. -/
def Mounts (rt rt' : Runtime) (j : FiberId) (f' : FiberRecord) : Prop :=
  j = rt.nextId ∧ rt.nextId < rt'.nextId ∧ ∃ spec parent, f' = mountedRecord spec parent

theorem mountLocked_rewrites {spec : ComponentSpec} {parent : FiberId} {pub ret : Prop} {post : Posted → Prop}
    (h : (rt.mountLocked spec parent).find j = some f') :
    Mounts rt (rt.mountLocked spec parent) j f' ∨ ∃ f, rt.find j = some f ∧ Rewrite pub ret post f f' := by
  have hset : (rt.set rt.nextId (mountedRecord spec parent)).find j = some f' := h
  rw [find_set] at hset
  split at hset
  · next hj =>
      cases hset
      exact .inl ⟨hj, Nat.lt_succ_self _, spec, parent, rfl⟩
  · exact .inr ⟨f', hset, .same⟩

theorem Delivery.rewrites {p : Posted} {pub : Prop} (d : rt.Delivery p rt' fs) (h : rt'.find j = some f') :
    Mounts rt rt' j f' ∨ ∃ f, rt.find j = some f ∧ Rewrite pub (∃ rest, fs = .beginUnload j false :: rest) (· ∈ rt'.posted) f f' := by
  cases d with
  | gone | untracked | unloadAll => exact .inr ⟨f', h, .same⟩
  | retired hf => exact .inr (rewrite_set (fun _ => rfl) hf h fun hj => .retired ⟨_, by rw [hj]⟩)
  | child | entry => exact mountLocked_rewrites h
  | tracked hf ha => exact .inr (rewrite_set (fun _ => rfl) hf h fun _ => .tracked _ ha)

theorem Feat.rewrites {o : Op} (t : rt.Feat o rt' fs) (h : rt'.find j = some f') :
    Mounts rt rt' j f' ∨ ∃ f, rt.find j = some f ∧ Rewrite (∃ ep, o = .complete j ep ∧ rt.Publishes j ep)
        (∃ rest, fs = .beginUnload j false :: rest) (· ∈ rt'.posted) f f' := by
  cases t with
  | mounted => exact mountLocked_rewrites h
  | asked | absent | available | promoted | reconciled | ignored | unknown => exact .inr ⟨f', h, .same⟩
  | erased => exact .inr ⟨f', rewrite_erase h, .same⟩
  | retired hf _ => exact .inr (rewrite_set (fun _ => rfl) hf h fun hj => .retired ⟨_, by rw [hj]⟩)
  | @published id ep f _ hf hs published =>
      have kept : ({ rt with applies := rt.applies.erase id } : Runtime).find id = some f := hf
      have own : j = id → ∃ ep', Op.complete id ep = .complete j ep' ∧ rt.Publishes j ep' :=
        fun hj => ⟨ep, by rw [hj], f, hj ▸ hf, published⟩
      obtain ⟨g, hg, rewritten⟩ := publish_rewrites kept hs h own
      exact .inr ⟨g, hg, rewritten⟩
  | @failed id ep f fs _ hf hs _ _ =>
      have torn (k : FiberId) : ({ rt with applies := rt.applies.erase id }.teardownOf id f).find k = rt.find k :=
        teardownOf_find _ id k f
      exact .inr (rewrite_set torn hf h fun _ =>
        .parked hs (.inr ⟨ep, rfl⟩) fun act child ha hc => teardownOf_posts _ id ha hc)
  | provided hf ha => exact .inr (rewrite_set (fun _ => rfl) hf h fun _ => .tracked _ ha)
  | cancelled hf => exact .inr (rewrite_set (fun _ => rfl) hf h fun _ => .stopped)
  | delivered _ d => exact d.rewrites h

theorem Feat.activates {id : FiberId} {ep : Option String} {f : FiberRecord} (t : rt.Feat (.complete id ep) rt' fs)
    (hf : rt.find id = some f) (loading : f.state = .loading) (published : rt.publishes f ep = true) :
    ∃ consumers, rt'.find id = some { activated f with consumers } := by
  cases t with
  | ignored _ none => exact absurd loading (none f hf).1
  | published _ hg _ _ =>
      cases hf.symm.trans hg
      exact publish_find f
  | failed _ hg _ failed _ =>
      cases hf.symm.trans hg
      exact absurd published (by simp [failed])

/-- An unload that begins leaves a fiber that is inactive or unloading. -/
theorem Deed.closes {id : FiberId} {b : Bool} (d : rt.Deed (.beginUnload id b) rt' fs)
    (h : rt'.find id = some f') : f'.state = .inactive ∨ f'.state = .unloading := by
  cases d with
  | errand _ unload _ _ _ => exact absurd rfl (unload id b)
  | absent none frame =>
      obtain ⟨_, same⟩ | same | same | same := frame <;> cases same
      exact absurd (none.symm.trans h) (by simp)
  | @raised _ f _ _ hs =>
      have set : (rt.set id (raiseReactivate f b)).find id = some f' := h
      cases (find_set_self rt id _).symm.trans set
      rwa [raiseReactivate_state]
  | @diverted _ f _ _ _ =>
      have set : (rt.set id (Runtime.diverted (raiseReactivate f b))).find id = some f' := h
      cases (find_set_self rt id _).symm.trans set
      exact .inr rfl
  | @withdrew _ f g _ _ _ _ =>
      have set : (rt.set id (withdrawing g (rt.countInstalled g.consumers))).find id = some f' := h
      cases (find_set_self rt id _).symm.trans set
      exact .inr rfl

theorem Feat.calls {o : Op} (t : rt.Feat o rt' fs) (h : o.nested = true) : fs = [] := by
  cases t with
  | provided | asked | unknown | cancelled => rfl
  | _ => cases h

/-! Identities -/

theorem addConsumer_nextId (id : FiberId) (es : List (ServiceId × FiberId)) :
    (rt.addConsumer id es).nextId = rt.nextId := by
  obtain ⟨fs, h⟩ := addConsumer_eq rt id es
  rw [h]

theorem teardownOf_nextId (id : FiberId) (f : FiberRecord) : (rt.teardownOf id f).nextId = rt.nextId := by
  obtain ⟨c, p, h⟩ := teardownOf_eq rt id f
  rw [h]

theorem eraseAll_nextId (ids : List FiberId) : (ids.foldl eraseFiber rt).nextId = rt.nextId := by
  induction ids generalizing rt with
  | nil => rfl
  | cons i is ih => exact ih

theorem Deed.nextId (d : rt.Deed fr rt' fs) : rt.nextId ≤ rt'.nextId := by
  cases d with
  | errand _ _ _ still _ | kept still _ => exact Nat.le_of_eq still.nextId.symm
  | loaded | lapsed => exact Nat.le_succ _
  | finished => exact Nat.le_of_eq (teardownOf_nextId _ _).symm
  | dropped still _ | revised still _ _ _ => exact Nat.le_of_eq still.nextId.symm
  | erasedAll => exact Nat.le_of_eq (eraseAll_nextId _).symm
  | _ => exact Nat.le_refl _

theorem Threw.nextId (t : rt.Threw fr rt') : rt.nextId ≤ rt'.nextId := by
  cases t with
  | create => exact Nat.le_succ _

theorem Delivery.nextId {p : Posted} (d : rt.Delivery p rt' fs) : rt.nextId ≤ rt'.nextId := by
  cases d with
  | child | entry => exact Nat.le_succ _
  | _ => exact Nat.le_refl _

theorem Feat.nextId {o : Op} (t : rt.Feat o rt' fs) : rt.nextId ≤ rt'.nextId := by
  cases t with
  | mounted => exact Nat.le_succ _
  | published =>
      refine Nat.le_of_eq (Eq.symm ?_)
      exact addConsumer_nextId _ _
  | failed =>
      refine Nat.le_of_eq (Eq.symm ?_)
      exact teardownOf_nextId _ _
  | delivered _ d => exact d.nextId
  | _ => exact Nat.le_refl _

/-! Handlers -/

theorem addConsumer_posted (id : FiberId) (es : List (ServiceId × FiberId)) :
    (rt.addConsumer id es).posted = rt.posted := by
  obtain ⟨fs, h⟩ := addConsumer_eq rt id es
  rw [h]

theorem eraseAll_posted (ids : List FiberId) : (ids.foldl eraseFiber rt).posted = rt.posted := by
  induction ids generalizing rt with
  | nil => rfl
  | cons i is ih => exact ih

theorem Deed.posted (d : rt.Deed fr rt' fs) : ∃ new, rt'.posted = rt.posted ++ new := by
  cases d with
  | errand _ _ _ still _ | kept still _ | dropped still _ | revised still _ _ _ =>
      obtain ⟨new, h, _⟩ := still.posted
      exact ⟨new, h⟩
  | finished => exact teardownOf_posted _ _ _
  | childMounted => exact ⟨_, rfl⟩
  | erasedAll => exact ⟨[], (eraseAll_posted _).trans (List.append_nil _).symm⟩
  | _ => exact ⟨[], (List.append_nil _).symm⟩

theorem Threw.posted (t : rt.Threw fr rt') : rt'.posted = rt.posted := by
  cases t with
  | create => rfl

/-- Handlers stay posted, up to the one that is delivered. -/
theorem Feat.posted {o : Op} (t : rt.Feat o rt' fs) {p : Posted} (h : p ∈ rt.posted) :
    p ∈ rt'.posted ∨ ∃ n, o = .deliver n ∧ rt.posted[n]? = some p := by
  cases t with
  | asked => exact .inl (List.mem_append_left _ h)
  | @published id =>
      refine .inl ?_
      rw [publish, addConsumer_posted]
      exact h
  | @failed id ep f =>
      obtain ⟨new, posted⟩ := teardownOf_posted { rt with applies := rt.applies.erase id } id f
      refine .inl ?_
      change p ∈ Runtime.posted (Runtime.teardownOf _ _ _)
      exact posted ▸ List.mem_append_left _ h
  | @delivered n q _ _ hq d =>
      obtain ⟨m, hm⟩ := List.mem_iff_getElem?.mp h
      by_cases same : m = n
      · exact .inr ⟨n, rfl, same ▸ hm⟩
      · refine .inl ?_
        have left : p ∈ rt.posted.eraseIdx n := List.mem_eraseIdx_iff_getElem?.mpr ⟨m, same, hm⟩
        cases d with
        | _ => exact left
  | _ => exact .inl h

/-! Erasures -/

theorem lost_set {id : FiberId} {g : FiberRecord} (same : ∀ k, rt'.find k = rt.find k)
    (h : (rt'.set id g).find j = none) : rt.find j = none := by
  rw [find_set] at h
  split at h
  · cases h
  · exact (same j).symm.trans h

theorem lost_mountLocked {spec : ComponentSpec} {parent : FiberId}
    (h : (rt.mountLocked spec parent).find j = none) : rt.find j = none := by
  have hset : (rt.set rt.nextId (mountedRecord spec parent)).find j = none := h
  exact lost_set (fun _ => rfl) hset

theorem lost_eraseAll {ids : List FiberId} (h : (ids.foldl eraseFiber rt).find j = none) :
    j ∈ ids ∨ rt.find j = none := by
  induction ids generalizing rt with
  | nil => exact .inr h
  | cons i is ih =>
      obtain member | lost := ih h
      · exact .inl (List.mem_cons_of_mem _ member)
      · rw [find_eraseFiber] at lost
        split at lost
        · next hj => exact .inl (hj ▸ List.mem_cons_self)
        · exact .inr lost

theorem lost_addConsumer {id : FiberId} {es : List (ServiceId × FiberId)}
    (h : (rt.addConsumer id es).find j = none) : rt.find j = none := by
  rw [addConsumer_find] at h
  exact Option.map_eq_none_iff.mp h

/-- A record that a frame drops was inactive, or the frame is one that erases it. -/
theorem Deed.erases (d : rt.Deed fr rt' fs) {f : FiberRecord} (hf : rt.find j = some f)
    (h : rt'.find j = none) : j ∈ fr.erases ∨ f.state = .inactive := by
  have kept : rt.find j ≠ none := by simp [hf]
  cases d with
  | errand _ _ _ still _ | kept still _ => exact absurd (still.find j ▸ h) kept
  | noted | loaded | lapsed | raised | diverted | withdrew | stopped | released | opened | revived | waits | placed =>
      exact absurd (lost_set (fun _ => rfl) h) kept
  | absent | held | drained | skipped | shut | ended | through | resumed | childWaits | childMounted | diffDone |
    moved | awaitNext => exact absurd h kept
  | @finished id g => exact absurd (lost_set (teardownOf_find rt id · g) h) kept
  | dropped still _ | revised still _ _ _ => exact absurd (lost_set still.find h) kept
  | @erased id w hw =>
      rw [find_eraseFiber] at h
      split at h
      · next hj =>
          subst hj
          exact .inl (by simp [Frame.erases, hw])
      · exact absurd h kept
  | @childErased id g hg hs =>
      rw [find_eraseFiber] at h
      split at h
      · next hj =>
          subst hj
          cases hf.symm.trans hg
          exact .inr hs
      · exact absurd h kept
  | erasedAll => exact .inl ((lost_eraseAll h).resolve_right kept)

theorem Threw.erases (t : rt.Threw fr rt') (h : rt'.find j = none) : rt.find j = none := by
  cases t with
  | create => exact lost_set (fun _ => rfl) h

theorem Delivery.erases {p : Posted} (d : rt.Delivery p rt' fs) (h : rt'.find j = none) : rt.find j = none := by
  cases d with
  | gone | untracked | unloadAll => exact h
  | retired | tracked => exact lost_set (fun _ => rfl) h
  | child | entry => exact lost_mountLocked h

theorem Feat.erases {o : Op} (t : rt.Feat o rt' fs) {f : FiberRecord} (hf : rt.find j = some f)
    (h : rt'.find j = none) : f.state = .inactive := by
  have kept : rt.find j ≠ none := by simp [hf]
  cases t with
  | mounted => exact absurd (lost_mountLocked h) kept
  | asked | absent | available | promoted | reconciled | ignored | unknown => exact absurd h kept
  | @erased id g hg hs =>
      rw [find_eraseFiber] at h
      split at h
      · next hj =>
          subst hj
          cases hf.symm.trans hg
          exact hs
      · exact absurd h kept
  | retired | cancelled => exact absurd (lost_set (fun _ => rfl) h) kept
  | provided =>
      rw [find_set] at h
      split at h
      · cases h
      · exact absurd h kept
  | published =>
      have set := lost_addConsumer h
      rw [find_set] at set
      split at set
      · cases set
      · exact absurd set kept
  | @failed id ep g =>
      refine absurd (lost_set (fun k => ?_) h) kept
      exact teardownOf_find _ id k g
  | delivered _ d => exact absurd (d.erases h) kept

/-! Bindings -/

section
variable {Q : ServiceId → Binding → Prop}

theorem addConsumer_contexts (id : FiberId) (es : List (ServiceId × FiberId)) :
    (rt.addConsumer id es).contexts = rt.contexts := by
  obtain ⟨fs, h⟩ := addConsumer_eq rt id es
  rw [h]

theorem eraseAll_contexts (ids : List FiberId) : (ids.foldl eraseFiber rt).contexts = rt.contexts := by
  induction ids generalizing rt with
  | nil => rfl
  | cons i is ih => exact ih

/-- A frame marks bindings as retiring, moves them or drops them. -/
theorem Deed.holds (d : rt.Deed fr rt' fs) (h : rt.contexts.Holds Q)
    (retiring : ∀ k b, Q k b → Q k { b with state := .retiring }) : rt'.contexts.Holds Q := by
  cases d with
  | errand _ _ _ still _ | kept still _ | dropped still _ | revised still _ _ _ => exact h.of_bindings still.bindings
  | withdrew => exact holds_markProvided h _ _ _ fun k _ b hb _ => retiring k b hb
  | finished => exact holds_teardownOf h _ _
  | moved => exact holds_moveBindings h _ _ _ _
  | erasedAll =>
      rw [eraseAll_contexts]
      exact h
  | _ => exact h

theorem Threw.contexts (t : rt.Threw fr rt') : rt'.contexts = rt.contexts := by
  cases t with
  | create => rfl

theorem Delivery.holds {p : Posted} (d : rt.Delivery p rt' fs) (h : rt.contexts.Holds Q) :
    rt'.contexts.Holds Q := by
  cases d with
  | _ => exact h

theorem Feat.holds {o : Op} (t : rt.Feat o rt' fs) (h : rt.contexts.Holds Q)
    (published : ∀ id ep f, o = .complete id ep → rt.find id = some f → f.state = .loading →
      rt.publishes f ep = true → ∀ k b, Q k b → b.provider = id → Q k { b with state := .active })
    (provided : ∀ id key value available f act, o = .provide id key value available → rt.find id = some f →
      f.activation = some act →
      Q key ⟨some value, id, if act.state = .active then .active else .loading, available⟩)
    (promoted : ∀ k b, Q k b → Q k { b with available := true }) : rt'.contexts.Holds Q := by
  cases t with
  | @published id ep f _ hf hs hp =>
      have marked : (markProvided rt.contexts id f.scope .active f.provide).Holds Q :=
        holds_markProvided h id f.scope f.provide fun k _ b hb own => published id ep f rfl hf hs hp k b hb own
      refine (addConsumer_contexts id f.committed.toList).symm ▸ ?_
      exact marked
  | @failed id ep f =>
      have kept : ({ rt with applies := rt.applies.erase id } : Runtime).contexts.Holds Q := h
      exact holds_teardownOf kept id f
  | @provided id key value available f act state hf ha _ hs =>
      subst hs
      exact h.bindRealm (provided id key value available f act rfl hf ha)
  | asked _ _ hc => exact h.of_bindings hc
  | promoted => exact h.modifyLookup _ _ fun b _ hb => promoted _ b hb
  | delivered _ d => exact d.holds h
  | _ => exact h

end

end

/-- Every mounted fiber's identity was drawn. -/
def Known (rt : Runtime) : Prop := ∀ j f, rt.find j = some f → j < rt.nextId

end Runtime

/-! Steps -/

section
variable {c c' : EngineConfig} {a : Label Op} {j : FiberId} {f' : FiberRecord}

/-- A record after a step was mounted by it, or is a rewrite of the record before. -/
theorem engine_rewrites (h : engine.next c a = some c') (hf : c'.state.find j = some f') :
    c.state.Mounts c'.state j f' ∨
      ∃ f, c.state.find j = some f ∧ Rewrite (∃ ep, a = .op (.complete j ep) ∧ c.state.Publishes j ep)
        (∃ rest, c'.stack = .beginUnload j false :: rest) (· ∈ c'.state.posted) f f' := by
  cases engine_acts h with
  | deed hst d hst' =>
      obtain ⟨f, hf, rewritten⟩ := d.rewrites hf
      refine .inr ⟨f, hf, rewritten.mono (fun none => none.elim) ?_ fun _ hp => hp⟩
      rintro ⟨rest, rfl⟩
      exact ⟨_, hst'⟩
  | threw hst _ t _ =>
      obtain ⟨f, hf, rewritten⟩ := t.rewrites hf
      exact .inr ⟨f, hf, rewritten.mono (fun none => none.elim) (fun none => none.elim) fun _ hp => hp⟩
  | feat hst t hst' =>
      obtain new | ⟨f, hf, rewritten⟩ := t.rewrites hf
      · exact .inl new
      · refine .inr ⟨f, hf, rewritten.mono ?_ ?_ fun _ hp => hp⟩
        · rintro ⟨ep, rfl, published⟩
          exact ⟨ep, rfl, published⟩
        · rintro ⟨rest, rfl⟩
          exact ⟨_, hst'⟩

theorem engine_nextId (h : engine.next c a = some c') : c.state.nextId ≤ c'.state.nextId := by
  cases engine_acts h with
  | deed _ d _ => exact d.nextId
  | threw _ _ t _ => exact t.nextId
  | feat _ t _ => exact t.nextId

theorem engine_known (h : engine.next c a = some c') (known : c.state.Known) : c'.state.Known := by
  intro j f' hf
  obtain ⟨rfl, grown, _⟩ | ⟨f, hf, _⟩ := engine_rewrites h hf
  · exact grown
  · exact Nat.lt_of_lt_of_le (known j f hf) (engine_nextId h)

theorem engine_posted (h : engine.next c a = some c') {p : Posted} (hp : p ∈ c.state.posted) :
    p ∈ c'.state.posted ∨ ∃ n, a = .op (.deliver n) ∧ c.state.posted[n]? = some p := by
  cases engine_acts h with
  | deed _ d _ =>
      obtain ⟨new, posted⟩ := d.posted
      exact .inl (posted ▸ List.mem_append_left _ hp)
  | threw _ _ t _ => exact .inl (t.posted ▸ hp)
  | feat _ t _ =>
      obtain kept | ⟨n, rfl, delivered⟩ := t.posted hp
      · exact .inl kept
      · exact .inr ⟨n, rfl, delivered⟩

/-- A record that a step drops was inactive, or the step runs a frame that erases it. -/
theorem engine_erases (h : engine.next c a = some c') {f : FiberRecord} (hf : c.state.find j = some f)
    (lost : c'.state.find j = none) :
    f.state = .inactive ∨ a = .run ∧ ∃ fr rest, c.stack = fr :: rest ∧ j ∈ fr.erases := by
  cases engine_acts h with
  | deed hst d _ =>
      obtain erases | inactive := d.erases hf lost
      · exact .inr ⟨rfl, _, _, hst, erases⟩
      · exact .inl inactive
  | threw _ _ t _ => exact absurd (t.erases lost) (by simp [hf])
  | feat _ t _ => exact .inl (t.erases hf lost)

end
end Araya
