import Araya.Runtime.Withdrawal
import Araya.Runtime.Sticky

/-!
The owners of the bindings. A fiber takes its bindings back when its activation is torn down: each cleanup looks the
key up from the scope the activation captured, under the realm that the tags give then. A binding that was moved or
retagged away from there stays.
-/

namespace Araya
namespace Runtime
open Contexts

/-- A fiber is mounted and not inactive. -/
def Awake (rt : Runtime) (id : FiberId) : Prop := ∃ f, rt.find id = some f ∧ f.state ≠ .inactive

/-- Every binding of every context names a fiber that is awake. -/
def Owned (rt : Runtime) : Prop := rt.contexts.Providers rt.Awake

/-- The cleanups, run from a scope, will find every binding of the fiber where they look for it. -/
def Found (rt : Runtime) (id : FiberId) (scope : ScopeId) (effects : List Effect) : Prop :=
  ∀ s k r b, rt.contexts.bindings.find? (slot s k r) = some b → b.provider = id →
    .unbind k ∈ effects ∧ rt.contexts.realmFor scope k = r ∧ rt.contexts.tree.bindTarget scope = some s ∧
      rt.contexts.lookup scope k = some b

/-- The teardown of the fiber finds all its bindings. -/
def Reclaims (rt : Runtime) (id : FiberId) (f : FiberRecord) : Prop :=
  match f.activation with
  | none => rt.contexts.Providers (· ≠ id)
  | some act => rt.Found id act.scope act.effects

end Runtime

/-- The activation of a fiber is torn down exactly while the fiber is inactive. -/
def FiberRecord.Paired (f : FiberRecord) : Prop :=
  ∀ act, f.activation = some act → (f.state = .inactive ↔ act.state = .inactive)

/-- A step that tears an activation down finds the bindings of its fiber, and no fiber is erased that a binding names. -/
def Reclaiming (c : EngineConfig) : Label Op → Prop
  | .run => ∀ fr rest, c.stack = fr :: rest →
      (∀ id f, fr = .maybeFinishUnload id → c.state.find id = some f → f.state = .unloading → f.remaining = 0 →
        c.state.Reclaims id f) ∧
      ∀ j ∈ fr.erases, c.state.contexts.Providers (· ≠ j)
  | .op (.complete id ep) => ∀ f, c.state.find id = some f → f.state = .loading ∨ f.state = .unloading →
      c.state.publishes f ep = false → c.state.Reclaims id f
  | .op _ => True

namespace Runtime
open Contexts

section
variable {rt rt' : Runtime} {id j : FiberId} {scope : ScopeId} {es : List Effect} {f f' g : FiberRecord}

/-! Teardown -/

theorem unbind_other {c : Contexts} {k k' : ServiceId} (other : k ≠ k') (s : ScopeId) (r : Realm) :
    (c.unbind scope k').bindings.find? (slot s k r) = c.bindings.find? (slot s k r) := by
  unfold Contexts.unbind Contexts.unbindRealm
  split
  · rfl
  · dsimp only
    rw [SortedMap.find?_erase, if_neg fun same => other (slot_inj.mp same).2.1]

theorem unbind_sub {c : Contexts} {k : ServiceId} {s : Slot} {b : Binding}
    (found : (c.unbind scope k).bindings.find? s = some b) : c.bindings.find? s = some b := by
  unfold Contexts.unbind Contexts.unbindRealm at found
  split at found
  · exact found
  · dsimp only at found
    rw [SortedMap.find?_erase] at found
    split at found
    · cases found
    · exact found

theorem findOn_congr {c d : Contexts} {k : ServiceId} {r : Realm}
    (same : ∀ s, d.bindings.find? (slot s k r) = c.bindings.find? (slot s k r)) (chain : List ScopeId) :
    d.findOn k r chain = c.findOn k r chain := by
  induction chain with
  | nil => rfl
  | cons s chain ih => simp only [Contexts.findOn, same, ih]

theorem realmFor_congr {c d : Contexts} (tree : d.tree = c.tree) (realms : d.realms = c.realms) (s : ScopeId) (k : ServiceId) :
    d.realmFor s k = c.realmFor s k := by
  unfold Contexts.realmFor
  rw [tree, realms]

/-- One cleanup takes the binding of its key back, and the others stay where theirs look for them. -/
theorem Found.effect {e : Effect} (found : rt.Found id scope (e :: es)) : (runEffect id scope rt e).Found id scope es := by
  cases e with
  | retireChild child =>
      intro s k r b bound own
      obtain ⟨member, rest⟩ := found s k r b bound own
      exact ⟨(List.mem_cons.mp member).resolve_left (by simp), rest⟩
  | unbind k' =>
      intro s k r b bound own
      have bound' : rt.contexts.bindings.find? (slot s k r) = some b := by
        unfold runEffect at bound
        dsimp only at bound
        split at bound
        · exact bound
        · split at bound
          · exact unbind_sub bound
          · exact bound
      obtain ⟨member, realm, target, looked⟩ := found s k r b bound' own
      by_cases same : k = k'
      · subst same
        exfalso
        unfold runEffect at bound
        dsimp only at bound
        rw [looked] at bound
        dsimp only at bound
        rw [if_pos own] at bound
        dsimp only [Contexts.unbind, Contexts.unbindRealm] at bound
        rw [target] at bound
        dsimp only at bound
        rw [SortedMap.find?_erase, realm, if_pos rfl] at bound
        cases bound
      · refine ⟨(List.mem_cons.mp member).resolve_left (by simpa using same), ?_⟩
        unfold runEffect
        dsimp only
        split
        · exact ⟨realm, target, looked⟩
        · split
          · dsimp only
            have realm' : (rt.contexts.unbind scope k').realmFor scope k = r :=
              (realmFor_congr (unbind_tree ..) (unbind_realms ..) scope k).trans realm
            refine ⟨realm', by rw [unbind_tree]; exact target, ?_⟩
            unfold Contexts.lookup Contexts.lookupRealm
            rw [realm', unbind_tree, findOn_congr fun s => unbind_other same s r]
            unfold Contexts.lookup Contexts.lookupRealm at looked
            rw [realm] at looked
            exact looked
          · exact ⟨realm, target, looked⟩

theorem Found.effects (found : rt.Found id scope es) :
    (es.foldl (runEffect id scope) rt).contexts.Providers (· ≠ id) := by
  induction es generalizing rt with
  | nil =>
      intro s b bound own
      exact List.not_mem_nil (found (ofLex s).1 (ofLex (ofLex s).2).1 (ofLex (ofLex s).2).2 b bound own).1
  | cons e es ih => exact ih found.effect

/-- After a teardown that finds all bindings of its fiber there are none. -/
theorem Reclaims.teardownOf (h : rt.Reclaims id f) : (rt.teardownOf id f).contexts.Providers (· ≠ id) := by
  unfold Runtime.teardownOf
  cases there : f.activation with
  | none => rwa [Runtime.Reclaims, there] at h
  | some act =>
      rw [Runtime.Reclaims, there] at h
      refine Found.effects fun s k r b bound own => ?_
      obtain ⟨member, rest⟩ := h s k r b bound own
      exact ⟨List.mem_reverse.mpr member, rest⟩

/-! Fibers that stop -/

theorem awake_set {rt₁ : Runtime} (same : ∀ k, rt₁.find k = rt.find k) (hf : rt.find j = some f) (awake : f.state ≠ .inactive)
    (h : (rt₁.set id g).find j = some f') (own : ∀ x, rt.find id = some x → x.state ≠ .inactive → g.state ≠ .inactive) :
    f'.state ≠ .inactive := by
  rw [find_set] at h
  split at h
  · next hj =>
      cases h
      exact own f (hj ▸ hf) awake
  · cases (hf.symm.trans ((same j).symm.trans h))
    exact awake

theorem awake_kept {rt₁ : Runtime} {x : FiberRecord} (same : ∀ k, rt₁.find k = rt.find k) (hf : rt.find j = some f)
    (awake : f.state ≠ .inactive) (down : f'.state = .inactive) (hx : rt.find id = some x)
    (h : (rt₁.set id g).find j = some f') (own : x.state ≠ .inactive → g.state ≠ .inactive) : False := by
  refine awake_set same hf awake h (fun y hy up => ?_) down
  cases hx.symm.trans hy
  exact own up

/-- A frame that makes a fiber inactive is the end of its unload. -/
theorem Deed.parks {fr : Frame} {fs : List Frame} (d : rt.Deed fr rt' fs) (hf : rt.find j = some f) (awake : f.state ≠ .inactive)
    (h : rt'.find j = some f') (down : f'.state = .inactive) : fr = .maybeFinishUnload j ∧ f.state = .unloading ∧
      f.remaining = 0 ∧ rt'.contexts = (rt.teardownOf j f).contexts := by
  cases d with
  | errand _ _ _ still _ | kept still _ =>
      cases hf.symm.trans ((still.find j).symm.trans h)
      exact absurd down awake
  | absent | held | drained | skipped | shut | ended | through | resumed | childWaits | childMounted | diffDone | moved |
    awaitNext =>
      cases hf.symm.trans h
      exact absurd down awake
  | noted e hx hs | lapsed hx hs => exact (awake_kept (fun _ => rfl) hf awake down hx h fun up => absurd hs up).elim
  | loaded r hx => exact (awake_kept (fun _ => rfl) hf awake down hx h fun _ same => by cases same).elim
  | raised hx => exact (awake_kept (fun _ => rfl) hf awake down hx h fun up => (raiseReactivate_state _ _).symm ▸ up).elim
  | diverted hx => exact (awake_kept (fun _ => rfl) hf awake down hx h fun _ same => by cases same).elim
  | withdrew hx => exact (awake_kept (fun _ => rfl) hf awake down hx h fun _ same => by cases same).elim
  | stopped hx | released hx | opened hx | revived hx | waits hx =>
      exact (awake_kept (fun _ => rfl) hf awake down hx h fun up => up).elim
  | dropped still hx => exact (awake_kept still.find hf awake down hx h fun up => up).elim
  | revised still _ hx alike => exact (awake_kept still.find hf awake down hx h fun up => alike.state.symm ▸ up).elim
  | placed hx alike => exact (awake_kept (fun _ => rfl) hf awake down hx h fun up => alike.state.symm ▸ up).elim
  | @finished id x hx hs hr =>
      by_cases hj : j = id
      · subst hj
        cases hf.symm.trans hx
        exact ⟨rfl, hs, hr, rfl⟩
      · rw [find_set, if_neg hj, teardownOf_find, hf] at h
        cases h
        exact absurd down awake
  | erased | childErased =>
      cases hf.symm.trans (rewrite_erase h)
      exact absurd down awake
  | erasedAll =>
      cases hf.symm.trans (rewrite_eraseAll h)
      exact absurd down awake

/-- An operation that makes a fiber inactive is the completion of an apply that is not published. -/
theorem Feat.parks {o : Op} {fs : List Frame} (t : rt.Feat o rt' fs) (hf : rt.find j = some f) (drawn : j < rt.nextId)
    (awake : f.state ≠ .inactive) (h : rt'.find j = some f') (down : f'.state = .inactive) : ∃ ep, o = .complete j ep ∧
      (f.state = .loading ∨ f.state = .unloading) ∧ rt.publishes f ep = false ∧
        rt'.contexts = (({ rt with applies := rt.applies.erase j } : Runtime).teardownOf j f).contexts := by
  have unmoved {rt₁ : Runtime} (h : rt₁.find j = some f') (same : rt₁.find j = rt.find j) : False := by
    cases hf.symm.trans (same.symm.trans h)
    exact awake down
  have mounted {rt₁ : Runtime} {spec : ComponentSpec} {parent : FiberId} (same : ∀ k, rt₁.find k = rt.find k)
      (next : rt₁.nextId = rt.nextId) (h : (rt₁.mountLocked spec parent).find j = some f') : False := by
    refine unmoved h ?_
    have set : (rt₁.mountLocked spec parent).find j = if j = rt₁.nextId then _ else rt₁.find j :=
      find_set rt₁ rt₁.nextId j (mountedRecord spec parent)
    rw [set, if_neg (next ▸ Nat.ne_of_lt drawn), same]
  cases t with
  | mounted => exact (mounted (fun _ => rfl) rfl h).elim
  | asked | absent | available | promoted | reconciled | ignored | unknown => exact (unmoved h rfl).elim
  | erased => exact (unmoved (rewrite_erase h) rfl).elim
  | retired hx | provided hx | cancelled hx => exact (awake_kept (fun _ => rfl) hf awake down hx h fun up => up).elim
  | published _ hx =>
      obtain ⟨g, consumers, hg, rfl⟩ := addConsumer_rewrites _ _ h
      exact (awake_set (fun _ => rfl) hf awake hg (fun _ _ _ same => by cases same) down).elim
  | @failed id ep x _ _ hx hs failed =>
      by_cases hj : j = id
      · subst hj
        cases hf.symm.trans hx
        exact ⟨ep, rfl, hs, failed, rfl⟩
      · rw [find_set, if_neg hj, teardownOf_find] at h
        exact (unmoved h rfl).elim
  | delivered _ d =>
      cases d with
      | gone | untracked | unloadAll => exact (unmoved h rfl).elim
      | retired hx | tracked hx => exact (awake_kept (fun _ => rfl) hf awake down hx h fun up => up).elim
      | child | entry => exact (mounted (fun _ => rfl) rfl h).elim

theorem Threw.stays {fr : Frame} (t : rt.Threw fr rt') (hf : rt.find j = some f) (awake : f.state ≠ .inactive)
    (h : rt'.find j = some f') : f'.state ≠ .inactive := by
  cases t with
  | create => exact awake_set (fun _ => rfl) hf awake h fun _ _ _ same => by cases same

/-- An operation binds only what an awake fiber provides. -/
theorem Feat.owners {o : Op} {fs : List Frame} (t : rt.Feat o rt' fs) (owned : rt.Owned)
    (paired : ∀ j f, rt.find j = some f → f.Paired) : rt'.contexts.Providers rt.Awake := by
  by_cases given : ∃ id key value available, o = .provide id key value available
  · obtain ⟨id, key, value, available, rfl⟩ := given
    cases t with
    | provided hf ha live _ => exact owned.bindRealm ⟨_, hf, fun down => live ((paired _ _ hf _ ha).mp down)⟩
  · exact providers_iff.mpr (t.holds (providers_iff.mp owned) (fun _ _ _ _ _ _ _ _ _ hb _ => hb)
      (fun id key value available _ _ same => absurd ⟨id, key, value, available, same⟩ given) fun _ _ hb => hb)

end
end Runtime

section
open Contexts
variable {c c' : EngineConfig} {a : Label Op} {f g : FiberRecord}

theorem Rewrite.paired {pub ret : Prop} {post : Posted → Prop} (h : Rewrite pub ret post f g) (paired : f.Paired) :
    g.Paired := by
  have raised := Runtime.raiseReactivate_activation f
  intro act ha
  cases h with
  | same | stopped | released | gated | revived | retired | enrolled => exact paired act ha
  | alike alike =>
      rw [alike.state]
      exact paired act (alike.activation ▸ ha)
  | started =>
      cases ha
      exact iff_of_false (fun same => by cases same) fun same => by cases same
  | lapsed inactive hg =>
      obtain rfl | ⟨r, rfl⟩ := hg
      · cases ha
      · exact iff_of_true rfl ((paired act ha).mp inactive)
  | raised b _ =>
      rw [Runtime.raiseReactivate_state]
      exact paired act (raised b ▸ ha)
  | diverted b loading =>
      have live := (paired act (raised b ▸ ha)).not.mp fun same => by cases loading.symm.trans same
      exact iff_of_false (fun same => by cases same) live
  | withdrew | activated =>
      obtain ⟨act', -, rfl⟩ := Option.map_eq_some_iff.mp ha
      exact iff_of_false (fun same => by cases same) fun same => by cases same
  | parked =>
      obtain ⟨act', -, rfl⟩ := Option.map_eq_some_iff.mp ha
      exact iff_of_true rfl rfl
  | tracked e ha' =>
      cases ha
      have was := paired _ ha'
      exact was

/-- The invariant of the runs whose teardowns find their bindings. -/
structure Owners (c : EngineConfig) : Prop where
  known : c.state.Known
  paired : ∀ j f, c.state.find j = some f → f.Paired
  owned : c.state.Owned

theorem owners_start (start : engine.system.start c) : Owners c := by
  have none (j : FiberId) (f : FiberRecord) : c.state.find j ≠ some f := by
    rw [Runtime.find, start.1.fibers]
    exact (Option.some_ne_none f).symm
  refine ⟨fun j f hf => absurd hf (none j f), fun j f hf => absurd hf (none j f), fun s b hb => ?_⟩
  rw [start.1.bindings] at hb
  cases hb

/-- What a binding names after a step was awake before it. -/
theorem owners_before (inv : Owners c) (h : engine.next c a = some c') : c'.state.contexts.Providers c.state.Awake := by
  cases engine_acts h with
  | deed _ d _ => exact providers_iff.mpr (d.holds (providers_iff.mp inv.owned) fun _ _ hb => hb)
  | threw _ _ t _ => exact t.contexts ▸ inv.owned
  | feat _ t _ => exact t.owners inv.owned inv.paired

theorem owners_step (inv : Owners c) (h : engine.next c a = some c') (ok : Reclaiming c a) : Owners c' := by
  refine ⟨engine_known h inv.known, fun j f' hf' => ?_, fun s b bound => ?_⟩
  · obtain ⟨-, -, spec, parent, rfl⟩ | ⟨f, hf, rewritten⟩ := engine_rewrites h hf'
    · intro act ha
      cases ha
    · exact rewritten.paired (inv.paired j f hf)
  · obtain ⟨f, hf, awake⟩ := owners_before inv h s b bound
    cases after : c'.state.find b.provider with
    | none =>
        obtain inactive | ⟨rfl, fr, rest, hst, erases⟩ := engine_erases h hf after
        · exact absurd inactive awake
        · have unnamed := (ok fr rest hst).2 _ erases
          cases engine_acts h with
          | deed _ d _ => exact absurd rfl (providers_iff.mpr (d.holds (providers_iff.mp unnamed) fun _ _ hb => hb) s b bound)
          | threw _ _ t _ => exact absurd rfl (unnamed s b (t.contexts ▸ bound))
    | some f' =>
        refine ⟨f', after, fun down => ?_⟩
        cases engine_acts h with
        | deed hst d _ =>
            obtain ⟨rfl, unloading, none, torn⟩ := d.parks hf awake after down
            have reclaims := (ok _ _ hst).1 _ f rfl hf unloading none
            exact reclaims.teardownOf s b (torn ▸ bound) rfl
        | threw _ _ t _ => exact t.stays hf awake after down
        | feat _ t _ =>
            obtain ⟨ep, rfl, transitional, failed, torn⟩ := t.parks hf (inv.known _ f hf) awake after down
            have reclaims : ({ c.state with applies := c.state.applies.erase b.provider } : Runtime).Reclaims b.provider f :=
              ok f hf transitional failed
            exact reclaims.teardownOf s b (torn ▸ bound) rfl

/-- In every run whose teardowns find the bindings of their fibers, and in which no fiber is erased that a binding names,
each binding names a fiber that is mounted and not inactive, and none names a fiber whose activation was torn down. -/
theorem bindings_owned (reached : engine.system.Reached Reclaiming c) : c.state.Owned ∧
    ∀ id f act, c.state.find id = some f → f.activation = some act → act.state = .inactive →
      c.state.contexts.Providers (· ≠ id) := by
  have inv : Owners c := reached.invariant (fun _ start => owners_start start)
    fun _ _ _ _ inv step ok => owners_step inv step ok
  refine ⟨inv.owned, fun id f act hf ha torn s b bound same => ?_⟩
  subst same
  obtain ⟨g, hg, awake⟩ := inv.owned s b bound
  cases hf.symm.trans hg
  exact awake ((inv.paired _ f hf act ha).mpr torn)

end

/-! Two schedules -/

def reclaims? (rt : Runtime) (id : FiberId) (f : FiberRecord) : Bool :=
  rt.contexts.bindings.toList.all fun e => e.2.provider != id ||
    f.activation.any fun act => decide (.unbind (ofLex (ofLex e.1).2).1 ∈ act.effects) &&
      rt.contexts.realmFor act.scope (ofLex (ofLex e.1).2).1 == (ofLex (ofLex e.1).2).2 &&
      rt.contexts.tree.bindTarget act.scope == some (ofLex e.1).1 &&
      rt.contexts.lookup act.scope (ofLex (ofLex e.1).2).1 == some e.2

def reclaiming? (c : EngineConfig) : Label Op → Bool
  | .run =>
    match c.stack with
    | [] => true
    | fr :: _ =>
      (match fr with
        | .maybeFinishUnload id => (c.state.find id).all fun f => reclaims? c.state id f
        | _ => true) &&
      fr.erases.all fun j => c.state.contexts.bindings.toList.all (·.2.provider != j)
  | .op (.complete id _) => (c.state.find id).all fun f => reclaims? c.state id f
  | .op _ => true

theorem reclaims_of_check {rt : Runtime} {id : FiberId} {f : FiberRecord} (h : reclaims? rt id f = true) : rt.Reclaims id f := by
  have each (s : Slot) (b : Binding) (bound : rt.contexts.bindings.find? s = some b) (own : b.provider = id) :=
    List.all_eq_true.mp h (s, b) (SortedMap.mem_toList.mpr bound)
  unfold Runtime.Reclaims
  cases there : f.activation with
  | none =>
      intro s b bound own
      have found := each s b bound own
      rw [there, own, bne_self_eq_false] at found
      cases found
  | some act =>
      intro s k r b bound own
      have found := each (slot s k r) b bound own
      rw [there, own, bne_self_eq_false, Bool.false_or, Option.any_some] at found
      simp only [Bool.and_eq_true, decide_eq_true_eq, beq_iff_eq] at found
      obtain ⟨⟨⟨member, realm⟩, target⟩, looked⟩ := found
      exact ⟨member, realm, target, looked⟩

theorem reclaiming_of_check (c : EngineConfig) (a : Label Op) (h : reclaiming? c a = true) : Reclaiming c a := by
  cases a with
  | run =>
      intro fr rest hst
      simp only [reclaiming?, hst, Bool.and_eq_true] at h
      refine ⟨fun id f same hf _ _ => ?_, fun j erases s b bound own => ?_⟩
      · subst same
        have found := h.1
        simp only [hf, Option.all_some] at found
        exact reclaims_of_check found
      · have unnamed := List.all_eq_true.mp (List.all_eq_true.mp h.2 j erases) (s, b) (SortedMap.mem_toList.mpr bound)
        rw [own, bne_self_eq_false] at unnamed
        cases unnamed
  | op o =>
      cases o with
      | complete id ep =>
          intro f hf _ _
          simp only [reclaiming?, hf, Option.all_some] at h
          exact reclaims_of_check h
      | _ => trivial

/-- An entry that provides a key under a realm of its own. -/
def tagged (name : String) : DesiredComponent :=
  ⟨"a", { descriptor := { name := "p", provide := [⟨"k", 1⟩] }, isolate := (∅ : SortedMap String Realm).insert name "x" }⟩

/-- The entry is published, and what it provides is there. -/
theorem bindings_owned_published : ∃ c : EngineConfig, c.state.contexts.bindings.size = 1 ∧ c.state.Owned := by
  have played : (engine.play reclaiming? 20 ⟨{}, []⟩
      [.reconcile [tagged "k"], .deliver 0, .provide 1 ⟨"k", 1⟩ 7 true, .complete 1 none]).any (fun c =>
        c.state.contexts.bindings.size == 1) = true := by decide +kernel
  obtain ⟨c, run, one⟩ := (Option.any_eq_true _ _).mp played
  exact ⟨c, beq_iff_eq.mp one, (bindings_owned (StackMachine.play_reached reclaiming_of_check run (.start engine_start))).1⟩

/-- The entry is retagged while its cancelled apply is still running: what it has provided outlives it. -/
theorem binding_orphaned : ¬ ∀ c : EngineConfig, engine.system.Reached (fun _ _ => True) c → c.state.Owned := by
  intro owned
  have played : (engine.play (fun _ _ => true) 20 ⟨{}, []⟩
      [.reconcile [tagged "k"], .deliver 0, .provide 1 ⟨"k", 1⟩ 7 true, .retire 1, .reconcile [tagged "z"],
        .complete 1 none]).any (fun c => c.state.fibers.size == 0 &&
          (c.state.contexts.bindings.find? (slot 0 ⟨"k", 1⟩ "x")).isSome) = true := by decide +kernel
  obtain ⟨c, run, shown⟩ := (Option.any_eq_true _ _).mp played
  obtain ⟨none, some⟩ := Bool.and_eq_true_iff.mp shown
  obtain ⟨b, bound⟩ := Option.isSome_iff_exists.mp some
  have reached := StackMachine.play_reached (P := fun _ _ => True) (fun _ _ _ => trivial) run (.start engine_start)
  obtain ⟨f, hf, -⟩ := owned c reached _ b bound
  have member := SortedMap.mem_toList.mpr hf
  rw [List.length_eq_zero_iff.mp (beq_iff_eq.mp none)] at member
  cases member

end Araya
