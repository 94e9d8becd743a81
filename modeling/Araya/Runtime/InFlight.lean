import Araya.Runtime.Waiting
import Araya.Runtime.Withdrawal

/-!
Transitions in flight. In every run in which no factory throws, no fiber is
loaded over an apply that is still outstanding and only inactive fibers are
erased, the counter of transitions is the number of fibers that load or unload,
and each of them has something that ends its transition.
-/

namespace Araya

/-! Counting -/

def FiberRecord.transitional (f : FiberRecord) : Bool := f.state == .loading || f.state == .unloading

def Frame.settles : Frame → Bool
  | .transitionFinished => true
  | _ => false

namespace Runtime

/-- How many fibers are loading or unloading. -/
def transitions (rt : Runtime) : Nat := rt.fibers.count FiberRecord.transitional

/-- The counter is ahead of the fibers by the calls that will take one off. -/
def Counted (rt : Runtime) (st : List Frame) : Prop :=
  rt.inFlight = rt.transitions + st.countP Frame.settles

section
variable {rt rt' : Runtime} {id : FiberId} {f g : FiberRecord}

theorem transitions_set (hf : rt.find id = some f) :
    (rt.set id g).transitions + f.transitional.toNat = rt.transitions + g.transitional.toNat := by
  have inserted := SortedMap.count_insert rt.fibers id g FiberRecord.transitional
  have erased := SortedMap.count_erase hf FiberRecord.transitional
  simp only [transitions, set]
  omega

theorem transitions_set_same (hf : rt.find id = some f) (hg : g.transitional = f.transitional) :
    (rt.set id g).transitions = rt.transitions := by
  have counted := transitions_set (g := g) hf
  rw [hg] at counted
  exact Nat.add_right_cancel counted

theorem transitions_enters (hf : rt.find id = some f) (hs : f.transitional = false) (hg : g.transitional = true) :
    (rt.set id g).transitions = rt.transitions + 1 := by
  have counted := transitions_set (g := g) hf
  rwa [hs, hg] at counted

theorem transitions_leaves (hf : rt.find id = some f) (hs : f.transitional = true) (hg : g.transitional = false) :
    (rt.set id g).transitions + 1 = rt.transitions := by
  have counted := transitions_set (g := g) hf
  rwa [hs, hg] at counted

theorem transitions_of_fibers (h : rt'.fibers = rt.fibers) : rt'.transitions = rt.transitions := by
  simp only [transitions, h]

theorem transitions_eraseFiber (idle : ∀ f, rt.find id = some f → f.transitional = false) :
    (rt.eraseFiber id).transitions = rt.transitions := by
  have same : (rt.eraseFiber id).transitions = (rt.fibers.erase id).count FiberRecord.transitional := rfl
  rw [same]
  cases hf : rt.find id with
  | none => rw [SortedMap.erase_of_none hf]; rfl
  | some f =>
      have counted := SortedMap.count_erase hf FiberRecord.transitional
      rw [idle f hf] at counted
      exact counted.symm

theorem transitions_eraseAll {ids : List FiberId}
    (idle : ∀ j ∈ ids, ∀ f, rt.find j = some f → f.transitional = false) :
    (ids.foldl eraseFiber rt).transitions = rt.transitions := by
  induction ids generalizing rt with
  | nil => rfl
  | cons i is ih =>
      refine (ih fun j hj f hf => ?_).trans (transitions_eraseFiber (idle i List.mem_cons_self))
      exact idle j (List.mem_cons_of_mem _ hj) f (rewrite_erase hf)

theorem eraseAll_inFlight (ids : List FiberId) : (ids.foldl eraseFiber rt).inFlight = rt.inFlight := by
  induction ids generalizing rt with
  | nil => rfl
  | cons i is ih => exact ih

theorem transitions_addConsumer (id : FiberId) (es : List (ServiceId × FiberId)) :
    (rt.addConsumer id es).transitions = rt.transitions := by
  induction es generalizing rt with
  | nil => rfl
  | cons e es ih =>
      unfold addConsumer
      rw [List.foldl_cons]
      split
      · exact ih
      · next p hp => exact ih.trans (transitions_set_same hp rfl)

theorem addConsumer_inFlight (id : FiberId) (es : List (ServiceId × FiberId)) :
    (rt.addConsumer id es).inFlight = rt.inFlight := by
  obtain ⟨fs, h⟩ := addConsumer_eq rt id es
  rw [h]

theorem teardownOf_fibers (rt : Runtime) (id : FiberId) (f : FiberRecord) :
    (rt.teardownOf id f).fibers = rt.fibers ∧ (rt.teardownOf id f).inFlight = rt.inFlight := by
  obtain ⟨c, p, h⟩ := teardownOf_eq rt id f
  rw [h]
  exact ⟨rfl, rfl⟩

/-- A record with the same state counts the same. -/
theorem transitional_congr (h : g.state = f.state) : g.transitional = f.transitional := by
  simp only [FiberRecord.transitional, h]

end

section
variable {rt rt' : Runtime} {fr : Frame} {fs rest : List Frame}

theorem settles_of_errands (h : ∀ g ∈ fs, g.Errand) : fs.countP Frame.settles = 0 := by
  refine List.countP_eq_zero.mpr fun g hg => ?_
  have errand := h g hg
  cases g <;> first | exact errand.elim | simp [Frame.settles]

theorem Counted.change (h : rt.Counted (fr :: rest))
    (balance : rt'.inFlight + (rt.transitions + fr.settles.toNat) =
      rt.inFlight + (rt'.transitions + fs.countP Frame.settles)) : rt'.Counted (fs ++ rest) := by
  have counted : rt.inFlight = rt.transitions + (rest.countP Frame.settles + fr.settles.toNat) := by
    rw [Counted, List.countP_cons] at h
    rw [h]
    cases fr.settles <;> rfl
  rw [Counted, List.countP_append]
  omega

theorem Counted.keep (h : rt.Counted (fr :: rest)) (hfr : fr.settles = false) (hfs : fs.countP Frame.settles = 0)
    (hi : rt'.inFlight = rt.inFlight) (ht : rt'.transitions = rt.transitions) : rt'.Counted (fs ++ rest) := by
  refine h.change ?_
  rw [hfr, hfs, hi, ht]
  rfl

/-- A frame that runs keeps the count, where it erases no fiber that loads or unloads. -/
theorem Deed.counted (d : rt.Deed fr rt' fs)
    (idle : ∀ j ∈ fr.erases, ∀ f, rt.find j = some f → f.transitional = false) (h : rt.Counted (fr :: rest)) :
    rt'.Counted (fs ++ rest) := by
  cases d with
  | @errand fr rt' fs errand _ _ still calls =>
      have inert : fr.settles = false := by
        have none : [fr].countP Frame.settles = 0 := settles_of_errands (by simp [errand])
        simpa using none
      exact h.keep inert (settles_of_errands calls) still.inFlight (transitions_of_fibers still.fibers)
  | kept still calls =>
      refine h.keep rfl ?_ still.inFlight (transitions_of_fibers still.fibers)
      rw [List.countP_append, settles_of_errands calls]
      rfl
  | noted _ hf _ => exact h.keep rfl rfl rfl (transitions_set_same hf rfl)
  | @loaded id f r hf hs =>
      have drawn : rt.drawId.find id = some f := hf
      have loading : ((rt.drawId.set id { committing f rt.nextId r with hasInstance := true }).spawn id).transitions =
          rt.transitions + 1 := transitions_enters drawn (by simp [FiberRecord.transitional, hs]) rfl
      refine h.change ?_
      rw [loading]
      exact Nat.add_right_comm _ _ _
  | @lapsed id f g hf hs hg =>
      have drawn : rt.drawId.find id = some f := hf
      have inactive : g.state = f.state := by
        obtain rfl | ⟨r, rfl⟩ := hg <;> exact hs.symm
      exact h.keep rfl rfl rfl (transitions_set_same drawn (transitional_congr inactive))
  | absent _ frame => obtain ⟨_, rfl⟩ | rfl | rfl | rfl := frame <;> exact h.keep rfl rfl rfl rfl
  | held | drained | skipped | shut | through | resumed | childWaits | childMounted | diffDone | awaitNext =>
      exact h.keep rfl rfl rfl rfl
  | @raised id f b hf _ =>
      exact h.keep rfl rfl rfl (transitions_set_same hf (transitional_congr (raiseReactivate_state f b)))
  | @diverted id f b hf hs =>
      refine h.keep rfl rfl rfl (transitions_set_same hf ?_)
      simp [FiberRecord.transitional, hs, Runtime.diverted]
  | @withdrew id f g b hf hs hg =>
      subst hg
      have unloading : (((rt.set id (withdrawing (raiseReactivate f b)
          (rt.countInstalled (raiseReactivate f b).consumers))).transitionStarted.markBindings id
            (raiseReactivate f b) .retiring)).transitions = rt.transitions + 1 :=
        transitions_enters hf (by simp [FiberRecord.transitional, hs]) rfl
      have calls : ((raiseReactivate f b).consumers.toList.map (Frame.beginUnload · true) ++
          [Frame.requestStop id]).countP Frame.settles = 0 := by
        refine List.countP_eq_zero.mpr fun k hk => ?_
        obtain hk | hk := List.mem_append.mp hk
        · obtain ⟨c, _, rfl⟩ := List.mem_map.mp hk
          simp [Frame.settles]
        · cases List.mem_singleton.mp hk
          simp [Frame.settles]
      refine h.change ?_
      rw [calls, unloading]
      exact Nat.add_right_comm _ _ _
  | stopped hf => exact h.keep rfl rfl rfl (transitions_set_same hf rfl)
  | released hf => exact h.keep rfl rfl rfl (transitions_set_same hf rfl)
  | @opened id f hf _ =>
      refine h.keep rfl (List.countP_eq_zero.mpr fun k hk => ?_) rfl (transitions_set_same hf rfl)
      obtain ⟨w, _, rfl⟩ := List.mem_map.mp hk
      simp [Frame.settles]
  | revived hf _ => exact h.keep rfl rfl rfl (transitions_set_same hf rfl)
  | waits hf _ => exact h.keep rfl rfl rfl (transitions_set_same hf rfl)
  | @finished id f hf hs _ =>
      obtain ⟨fibers, inFlight⟩ := teardownOf_fibers rt id f
      have torn : (rt.teardownOf id f).find id = some f := (teardownOf_find rt id id f).trans hf
      have inactive := transitions_leaves (g := parked f) torn (by simp [FiberRecord.transitional, hs]) rfl
      rw [transitions_of_fibers fibers] at inactive
      have kept : ((rt.teardownOf id f).set id (parked f)).inFlight = rt.inFlight := inFlight
      refine h.change ?_
      rw [kept, ← inactive]
      rfl
  | ended =>
      have positive : 0 < rt.inFlight := by
        rw [Counted, List.countP_cons] at h
        simp only [Frame.settles, if_true] at h
        omega
      refine h.change ?_
      change rt.inFlight - 1 + (rt.transitions + 1) = rt.inFlight + (rt.transitions + 0)
      omega
  | @erased id w hw =>
      refine h.keep rfl rfl rfl (transitions_eraseFiber (idle id ?_))
      simp [Frame.erases, hw]
  | @childErased id f hf hs =>
      refine h.keep rfl rfl rfl (transitions_eraseFiber fun g hg => ?_)
      cases hf.symm.trans hg
      simp [FiberRecord.transitional, hs]
  | moved _ calls => exact h.keep rfl (settles_of_errands calls) rfl rfl
  | @dropped desired es es' path toAwait rt' id f still hf =>
      have same := transitions_set_same (g := { f with reactivate := -1 }) ((still.find id).trans hf) rfl
      exact h.keep rfl rfl still.inFlight (same.trans (transitions_of_fibers still.fibers))
  | @revised desired es es' toAwait rt' fs id f g still calls hf alike =>
      refine h.keep rfl ?_ still.inFlight ?_
      · rw [List.countP_append, settles_of_errands calls]
        rfl
      · exact (transitions_set_same ((still.find id).trans hf) (transitional_congr alike.state)).trans
          (transitions_of_fibers still.fibers)
  | placed hf alike calls =>
      exact h.keep rfl (settles_of_errands calls) rfl (transitions_set_same hf (transitional_congr alike.state))
  | erasedAll => exact h.keep rfl rfl (eraseAll_inFlight _) (transitions_eraseAll idle)

/-- A factory that throws is the only thing that throws. -/
theorem Threw.starts (t : rt.Threw fr rt') : ∃ id f, fr = .evaluate id ∧ rt.find id = some f ∧
    f.state = .inactive ∧ 0 ≤ f.reactivate ∧ f.applyFailed = false ∧ (rt.resolve id f).satisfiable = true ∧
    f.descriptor.create f.config rt.nextId = .throws := by
  cases t with
  | create r hf hs kept hr met applied created =>
      subst hr
      exact ⟨_, _, rfl, hf, hs, kept, applied, met, created⟩

/-- A frame that spawns an apply starts a load. -/
theorem Deed.starts {id : FiberId} (d : rt.Deed (.evaluate id) rt' fs) (spawned : rt'.applies = id :: rt.applies) :
    ∃ f, rt.find id = some f ∧ f.state = .inactive ∧ 0 ≤ f.reactivate ∧ f.applyFailed = false ∧
      (rt.resolve id f).satisfiable = true ∧ f.descriptor.create f.config rt.nextId = .plugin := by
  have longer : rt'.applies ≠ rt.applies := by
    intro same
    have length := congrArg List.length (spawned.symm.trans same)
    simp at length
  cases d with
  | errand _ _ _ still _ => exact absurd still.applies longer
  | noted | lapsed | absent => exact absurd rfl longer
  | loaded r hf hs kept hr met applied created =>
      subst hr
      exact ⟨_, hf, hs, kept, applied, met, created⟩

theorem Deed.achieves (d : rt.Deed fr rt' fs) : fr.Achieves rt'.ledger fs := by
  have found {id : FiberId} {g : Guard} (hg : rt'.ledger.guards id = some g) : ∃ f, rt'.find id = some f ∧ f.guard = g :=
    Option.map_eq_some_iff.mp hg
  cases d with
  | errand errand => constructor <;> intro id g hf _ <;> subst hf <;> exact errand.elim
  | absent none frame =>
      have gone := guards_none_of_find none
      obtain ⟨b, rfl⟩ | rfl | rfl | rfl := frame
      · constructor <;> intro id g hf <;> cases hf
      · exact .stop (.inr gone)
      · exact .finish fun g hg => absurd (gone.symm.trans hg) (by simp)
      · constructor <;> intro id g hf <;> cases hf
  | stopped hf => exact .stop (.inl (List.mem_singleton.mpr rfl))
  | held hf due =>
      refine .finish fun g hg unloading none => ?_
      obtain ⟨f', hf', rfl⟩ := found hg
      cases hf.symm.trans hf'
      exact due ⟨FiberRecord.phase_unloading.mp unloading, none⟩
  | finished hf hs hr =>
      refine .finish fun g hg unloading => ?_
      obtain ⟨f', hf', rfl⟩ := found hg
      cases (find_set_self ..).symm.trans hf'
      obtain withdrawing | diverted := unloading
      · cases withdrawing
      · cases diverted
  | shut open_ =>
      refine .openDone fun g hg => ?_
      obtain ⟨f', hf', rfl⟩ := found hg
      exact open_ f' hf'
  | opened hf _ =>
      refine .openDone fun g hg => ?_
      obtain ⟨f', hf', rfl⟩ := found hg
      cases (find_set_self ..).symm.trans hf'
      rfl
  | _ => constructor <;> intro id g hf <;> cases hf

/-! Operations -/

theorem transitions_mountLocked (known : rt.Known) (spec : ComponentSpec) (parent : FiberId) :
    (rt.mountLocked spec parent).transitions = rt.transitions := by
  have fresh : rt.find rt.nextId = none := by
    cases hf : rt.find rt.nextId with
    | none => rfl
    | some f => exact absurd (known _ f hf) (Nat.lt_irrefl _)
  have counted := SortedMap.count_insert rt.fibers rt.nextId (mountedRecord spec parent) FiberRecord.transitional
  rw [SortedMap.erase_of_none fresh] at counted
  exact counted

theorem Delivery.counted {p : Posted} (known : rt.Known) (d : rt.Delivery p rt' fs) :
    rt'.inFlight = rt.inFlight ∧ rt'.transitions = rt.transitions ∧ fs.countP Frame.settles = 0 := by
  cases d with
  | gone | untracked => exact ⟨rfl, rfl, rfl⟩
  | retired hf => exact ⟨rfl, transitions_set_same hf rfl, rfl⟩
  | child | entry => exact ⟨rfl, transitions_mountLocked known _ _, rfl⟩
  | tracked hf ha => exact ⟨rfl, transitions_set_same hf rfl, rfl⟩
  | unloadAll =>
      refine ⟨rfl, rfl, List.countP_eq_zero.mpr fun k hk => ?_⟩
      obtain ⟨e, _, rfl⟩ := List.mem_map.mp hk
      simp [Frame.settles]

/-- An operation keeps the count. -/
theorem Feat.counted {o : Op} {st : List Frame} (known : rt.Known) (t : rt.Feat o rt' fs) (h : rt.Counted st) :
    rt'.Counted (fs ++ st) := by
  have change (balance : rt'.inFlight + rt.transitions =
      rt.inFlight + (rt'.transitions + fs.countP Frame.settles)) : rt'.Counted (fs ++ st) := by
    unfold Counted at h ⊢
    rw [List.countP_append]
    omega
  have keep (hi : rt'.inFlight = rt.inFlight) (ht : rt'.transitions = rt.transitions)
      (hfs : fs.countP Frame.settles = 0) : rt'.Counted (fs ++ st) := by
    refine change ?_
    rw [hi, ht, hfs]
    rfl
  cases t with
  | mounted => exact keep rfl (transitions_mountLocked known _ _) rfl
  | asked | absent | reconciled | ignored | available | promoted | unknown => exact keep rfl rfl rfl
  | erased hf hs =>
      refine keep rfl (transitions_eraseFiber fun g hg => ?_) rfl
      cases hf.symm.trans hg
      simp [FiberRecord.transitional, hs]
  | retired hf _ => exact keep rfl (transitions_set_same hf rfl) rfl
  | cancelled hf => exact keep rfl (transitions_set_same hf rfl) rfl
  | @provided id key value available f act state hf ha _ _ =>
      refine keep rfl ?_ rfl
      exact transitions_set_same hf rfl
  | @published id ep f _ hf hs _ =>
      have marked : ({ rt with applies := rt.applies.erase id }.markBindings id f .active).find id = some f := hf
      have active := transitions_leaves (g := activated f) marked (by simp [FiberRecord.transitional, hs]) rfl
      refine change ?_
      have settled : ({ rt with applies := rt.applies.erase id }.publish id f).1.transitions + 1 = rt.transitions := by
        rw [publish, transitions_addConsumer]
        exact active
      have kept : ({ rt with applies := rt.applies.erase id }.publish id f).1.inFlight = rt.inFlight := by
        rw [publish, addConsumer_inFlight]
        rfl
      rw [kept, ← settled]
      rfl
  | @failed id ep f fs _ hf hs _ calls =>
      have torn : ({ rt with applies := rt.applies.erase id }.teardownOf id f).find id = some f :=
        (teardownOf_find _ id id f).trans hf
      obtain ⟨fibers, inFlight⟩ := teardownOf_fibers { rt with applies := rt.applies.erase id } id f
      have inactive := transitions_leaves (g := parked (applyOutcome f ep)) torn (by
        obtain hs | hs := hs <;> simp [FiberRecord.transitional, hs]) rfl
      rw [transitions_of_fibers fibers] at inactive
      have ended : (.openDone id :: fs ++ [.transitionFinished] : List Frame).countP Frame.settles = 1 := by
        rw [List.cons_append, List.countP_cons, List.countP_append, settles_of_errands calls]
        rfl
      have kept : (({ rt with applies := rt.applies.erase id }.teardownOf id f).set id
          (parked (applyOutcome f ep))).inFlight = rt.inFlight := inFlight
      have settled : (({ rt with applies := rt.applies.erase id }.teardownOf id f).set id
          (parked (applyOutcome f ep))).transitions + 1 = rt.transitions := inactive
      refine change ?_
      rw [kept, ended, settled]
  | @delivered n p rt' fs _ d =>
      have waiting : ({ rt with posted := rt.posted.eraseIdx n } : Runtime).Known := known
      obtain ⟨hi, ht, hfs⟩ := d.counted waiting
      exact keep hi ht hfs

/-- A completed apply leaves its fiber inactive or active. -/
theorem Feat.completes {id : FiberId} {ep : Option String} (t : rt.Feat (.complete id ep) rt' fs) {f' : FiberRecord}
    (h : rt'.find id = some f') : f'.state = .inactive ∨ f'.state = .active := by
  cases t with
  | ignored _ idle =>
      have neither := idle f' h
      cases hs : f'.state <;> simp [hs] at neither ⊢
  | @published _ _ f =>
      have active : ∃ consumers, ({ rt with applies := rt.applies.erase id }.publish id f).1.find id =
          some { activated f with consumers } := publish_find f
      obtain ⟨consumers, active⟩ := active
      cases active.symm.trans h
      exact .inr rfl
  | failed =>
      cases (find_set_self ..).symm.trans h
      exact .inl rfl

end

/-- The next evaluation of the fiber starts a load. -/
def Starts (rt : Runtime) (id : FiberId) (f : FiberRecord) : Prop :=
  rt.find id = some f ∧ f.state = .inactive ∧ 0 ≤ f.reactivate ∧ f.applyFailed = false ∧
    (rt.resolve id f).satisfiable = true

end Runtime

/-! Accounts of the transitions -/

/-- No factory throws, no plugin is applied over an apply that is outstanding,
and only inactive fibers are erased. -/
def Steady (c : EngineConfig) : Label Op → Prop
  | .run => ∀ fr rest, c.stack = fr :: rest →
      (∀ id f, fr = .evaluate id → c.state.Starts id f →
        f.descriptor.create f.config c.state.nextId ≠ .throws ∧
          (f.descriptor.create f.config c.state.nextId = .plugin → id ∉ c.state.applies)) ∧
      ∀ j f, j ∈ fr.erases → c.state.find j = some f → f.state = .inactive
  | .op _ => True

/-- What the counter of transitions stands for between two steps of the strand. -/
structure Accounted (c : EngineConfig) : Prop where
  inFlight : c.state.inFlight = c.state.transitions
  /-- A loading fiber has one outstanding apply, whose completion ends the load. -/
  loading : ∀ id f, c.state.find id = some f → f.state = .loading → c.state.applies.count id = 1 ∧
    ∀ ep, ∃ c', engine.next c (.op (.complete id ep)) = some c' ∧
      ∀ f', c'.state.find id = some f' → f'.state = .inactive ∨ f'.state = .active
  /-- An unload has an outstanding apply, or waits for a consumer that unloads too. -/
  unloading : ∀ id f, c.state.find id = some f → f.state = .unloading → c.state.applies.count id = 1 ∨
    ∃ i g, i ∈ f.consumers ∧ c.state.find i = some g ∧ g.state = .unloading ∧ g.Names id
  /-- Whoever waits on a gate waits for a fiber that unloads. -/
  waiting : ∀ id f, c.state.find id = some f → f.done.isOpen = false ∨ f.done.waiters ≠ [] →
    f.state = .unloading

/-- The invariant of the steady runs. -/
structure Flight (c : EngineConfig) : Prop where
  wellFormed : c.state.WellFormed
  known : c.state.Known
  counted : c.state.Counted c.stack
  tidy : Tidy c.state.ledger c.stack
  enlisted : Enlisted c.state.ledger c.stack

theorem flight_start {c : EngineConfig} (start : engine.system.start c) : Flight c := by
  obtain ⟨rt, st⟩ := c
  obtain ⟨fresh, rfl⟩ := start
  have none : ∀ j f, rt.find j ≠ some f := by
    intro j f hf
    rw [Runtime.find, fresh.fibers] at hf
    cases hf
  have guards : ∀ j g, rt.ledger.guards j ≠ some g := by
    intro j g hg
    obtain ⟨f, hf, _⟩ := Option.map_eq_some_iff.mp hg
    exact none j f hf
  have balanced : rt.Counted [] := by
    rw [Runtime.Counted, Runtime.transitions, fresh.inFlight, fresh.fibers]
    rfl
  refine ⟨⟨fun j f hf => absurd hf (none j f), fun s b hb => ?_⟩, fun j f hf => absurd hf (none j f), balanced,
    fun j g hg => absurd hg (guards j g), fun p d _ hd => absurd hd (guards p d),
    fun p d _ _ hd => absurd hd (guards p d), fun p d hd => absurd hd (guards p d)⟩
  rw [fresh.bindings] at hb
  cases hb

theorem flight_step {c c' : EngineConfig} {a : Label Op} (inv : Flight c) (h : engine.next c a = some c')
    (ok : Steady c a) : Flight c' := by
  have mounted : ∀ j g, c.state.ledger.guards j = some g → j < c.state.ledger.nextId := by
    intro j g hg
    obtain ⟨f, hf, _⟩ := Option.map_eq_some_iff.mp hg
    exact inv.known j f hf
  have known := engine_known h inv.known
  have counted := inv.counted
  have tidy := inv.tidy
  have enlisted := inv.enlisted
  cases engine_acts h with
  | @deed fr rest fs hst d hst' =>
      rw [hst] at counted tidy enlisted
      obtain ⟨starts, erases⟩ := ok fr rest hst
      have turn := d.turn inv.wellFormed
      refine ⟨d.wellFormed inv.wellFormed, known, ?_, ?_, ?_⟩ <;> rw [hst']
      · refine d.counted (fun j hj f hf => ?_) counted
        simp [FiberRecord.transitional, erases j f hj hf]
      · refine tidy.turn turn d.achieves fun id hid spawned => ?_
        subst hid
        obtain ⟨f, hf, hs, kept, applied, met, created⟩ := d.starts spawned
        exact List.count_eq_zero.mpr ((starts id f rfl ⟨hf, hs, kept, applied, met⟩).2 created)
      · refine enlisted.turn turn fun j g hj hg => ?_
        obtain ⟨f, hf, rfl⟩ := Option.map_eq_some_iff.mp hg
        exact FiberRecord.phase_inactive.mpr (erases j f hj hf)
  | @threw fr rest hst _ t _ =>
      obtain ⟨id, f, rfl, hf, hs, kept, applied, met, created⟩ := t.starts
      exact absurd created ((ok _ rest hst).1 id f rfl ⟨hf, hs, kept, applied, met⟩).1
  | @feat o fs hst t hst' =>
      refine ⟨t.wellFormed inv.wellFormed inv.known, known, ?_, ?_, ?_⟩ <;> rw [hst']
      · exact t.counted inv.known counted
      · refine tidy.entry (t.enters inv.wellFormed) fun id ep ho g hg => ?_
        subst ho
        obtain ⟨f, hf, rfl⟩ := Option.map_eq_some_iff.mp hg
        exact (t.completes hf).imp FiberRecord.phase_inactive.mpr FiberRecord.phase_active.mpr
      · exact enlisted.entry tidy mounted (t.enters inv.wellFormed)

theorem flight_accounted {c : EngineConfig} (inv : Flight c) (empty : c.stack = []) : Accounted c := by
  obtain ⟨rt, st⟩ := c
  cases empty
  have tidy (id : FiberId) (f : FiberRecord) (hf : rt.find id = some f) := inv.tidy id f.guard (Runtime.guards_of_find hf)
  constructor
  · exact inv.counted
  · intro id f hf loading
    have one := (tidy id f hf).applying (.inl (FiberRecord.phase_loading.mpr loading))
    refine ⟨one, fun ep => ?_⟩
    have applied : id ∈ rt.applies := List.count_pos_iff.mp (Nat.lt_of_lt_of_eq Nat.one_pos one.symm)
    obtain ⟨⟨rt', fs⟩, enabled⟩ : ∃ r, rt.op (.complete id ep) = some r := ⟨_, if_pos applied⟩
    refine ⟨⟨rt', fs ++ []⟩, ?_, fun f' hf' => (Runtime.op_feat enabled).completes hf'⟩
    simp only [StackMachine.next, engine, List.isEmpty_nil, Bool.true_or, if_true, enabled]
  · intro id f hf unloading
    obtain withdrawing | diverted := FiberRecord.phase_unloading.mpr unloading
    · refine .inr ?_
      have waits : f.remaining ≠ 0 := by
        intro none
        obtain call | call := (tidy id f hf).due withdrawing none <;> cases call
      obtain ⟨cs, _, enough, all⟩ := inv.enlisted.waits id f.guard (Runtime.guards_of_find hf) withdrawing
      cases cs with
      | nil => exact absurd (Nat.le_zero.mp enough) waits
      | cons i _ =>
          obtain ⟨registered, leaves⟩ := all i List.mem_cons_self
          obtain ⟨y, hy, withdrawing | ⟨_, _, call⟩⟩ | ⟨_, call, _⟩ := leaves
          · obtain ⟨g, hg, rfl⟩ := Option.map_eq_some_iff.mp hy
            have named := inv.enlisted.named id f.guard i g.guard (Runtime.guards_of_find hf) registered hy
            obtain ⟨_, names⟩ | ⟨_, call, _⟩ := named
            · exact ⟨i, g, registered, hg, FiberRecord.phase_unloading.mp (.inl withdrawing), names⟩
            · cases call
          · cases call
          · cases call
    · exact .inl ((tidy id f hf).applying (.inr diverted))
  · intro id f hf waited
    have closed : f.done.isOpen = false := by
      obtain closed | waiters := waited
      · exact closed
      · by_contra open_
        exact waiters ((tidy id f hf).waiters (Bool.eq_true_of_not_eq_false open_))
    obtain unloading | call := (tidy id f hf).gate closed
    · exact FiberRecord.phase_unloading.mp unloading
    · cases call

/-- In a steady run the transitions are accounted for between the steps of the
strand, and no step loses a call of a cascade that is still running. -/
theorem in_flight_accounted {c : EngineConfig} (reached : engine.system.Reached Steady c) :
    (c.stack = [] → Accounted c) ∧ ∀ fr rest c', c.stack = fr :: rest → Steady c .run →
      engine.next c .run = some c' → ∃ fs, c'.stack = fs ++ rest := by
  have inv : Flight c := reached.invariant (fun _ start => flight_start start)
    fun _ _ _ _ inv step ok => flight_step inv step ok
  refine ⟨flight_accounted inv, fun fr rest c' hst ok h => ?_⟩
  cases engine_acts h with
  | deed hst' _ calls =>
      cases hst.symm.trans hst'
      exact ⟨_, calls⟩
  | threw hst' _ t _ =>
      obtain ⟨id, f, rfl, hf, hs, kept, applied, met, created⟩ := t.starts
      exact absurd created ((ok _ _ hst').1 id f rfl ⟨hf, hs, kept, applied, met⟩).1

/-! Two runs -/

def steady? (c : EngineConfig) : Label Op → Bool
  | .run =>
    match c.stack with
    | [] => true
    | fr :: _ =>
      (match fr with
        | .evaluate id => (c.state.find id).all fun f =>
            match f.descriptor.create f.config c.state.nextId with
            | .plugin => !c.state.applies.contains id
            | .null => true
            | .throws => false
        | _ => true) &&
      fr.erases.all fun j => (c.state.find j).all (·.state == .inactive)
  | .op _ => true

theorem steady_of_check (c : EngineConfig) (a : Label Op) (h : steady? c a = true) : Steady c a := by
  cases a with
  | op o => trivial
  | run =>
      intro fr rest hst
      simp only [steady?, hst, Bool.and_eq_true] at h
      refine ⟨fun id f hid starts => ?_, fun j f hj hf => ?_⟩
      · subst hid
        have created := h.1
        simp only [starts.1, Option.all_some] at created
        split at created
        · next plugin => exact ⟨by simp [plugin], fun _ => by simpa using created⟩
        · next null => exact ⟨by simp [null], fun plugin => absurd (null.symm.trans plugin) (by simp)⟩
        · cases created
      · have idle := List.all_eq_true.mp h.2 j hj
        simpa [hf] using idle

/-- Two fibers load, and one of them is cancelled. -/
def twoLoads : List (Label Op) :=
  [.op (.mount { descriptor := { name := "p" } }), .run, .op (.mount { descriptor := { name := "q" } }), .run,
    .op (.retire 3), .run, .run]

theorem in_flight_accounted_cancelled : ∃ c, c.stack = [] ∧ c.state.inFlight = 2 ∧
    (c.stack = [] → Accounted c) ∧ ∀ fr rest c', c.stack = fr :: rest → Steady c .run →
      engine.next c .run = some c' → ∃ fs, c'.stack = fs ++ rest := by
  have played : (System.follow engine.next steady? ⟨{}, []⟩ twoLoads).any (fun c =>
      c.stack.isEmpty && c.state.inFlight == 2) = true := by decide +kernel
  obtain ⟨c, hw, hc⟩ := (Option.any_eq_true _ _).mp played
  simp only [Bool.and_eq_true, List.isEmpty_iff, beq_iff_eq] at hc
  have reached := System.follow_reached (S := engine.system) (fun _ _ _ h => h) steady_of_check hw (.start engine_start)
  exact ⟨c, hc.1, hc.2, in_flight_accounted reached⟩

/-- A factory that throws leaves a loading fiber that is not counted and has no apply. -/
theorem in_flight_unaccounted : ¬ ∀ c, engine.system.Reached (fun _ _ => True) c → c.stack = [] → Accounted c := by
  intro accounted
  have played : (System.follow engine.next (fun _ _ => true) ⟨{}, []⟩
      [.op (.mount { descriptor := { name := "p", create := fun _ _ => .throws } }), .run]).any (fun c =>
        c.stack.isEmpty && c.state.inFlight == 0 && c.state.transitions == 1) = true := by decide +kernel
  obtain ⟨c, hw, hc⟩ := (Option.any_eq_true _ _).mp played
  simp only [Bool.and_eq_true, List.isEmpty_iff, beq_iff_eq] at hc
  have reached := System.follow_reached (S := engine.system) (P := fun _ _ => True) (fun _ _ _ h => h)
    (fun _ _ _ => trivial) hw (.start engine_start)
  have counted := (accounted c reached hc.1.1).inFlight
  rw [hc.1.2, hc.2] at counted
  cases counted

end Araya
