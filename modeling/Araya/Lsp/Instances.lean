import Araya.Lsp.Provider
import Araya.Util.Lists

/-!
One live server for a workspace. An instance that is not closed is the one of the map; a
query that is tried again closes the instance it had, and what it takes from the map must
still be that one.
-/

namespace Araya.Lsp

/-- The instance of the query has begun its exchange. -/
def QueryPoint.exchanging : QueryPoint → Bool
  | .opening | .requesting | .closing _ => true
  | _ => false

/-- What holds of an instance by itself. -/
structure LspInstance.Sound (inst : LspInstance) : Prop where
  closed : inst.disposed = true → inst.connection.closed = true
  quiet : inst.connection.closed = true → inst.connection.running = false
  fresh : inst.init = .spawned → inst.disposed = false ∧ inst.connection.closed = false ∧
    inst.connection.failed = false ∧ inst.readyDone = false
  early : inst.late = false ∧ inst.lateStart = false

/-- The instances that are not closed are those of the map, and the provider leaves none behind. -/
structure OneLive (p : LspProvider) : Prop where
  recorded : ∀ (i : Nat) (inst : LspInstance), p.pool[i]? = some inst → inst.disposed = false → p.instances.find? inst.key = some i
  apart : ∀ (i j : Nat) (inst inst' : LspInstance), p.pool[i]? = some inst → p.pool[j]? = some inst' → inst.disposed = false →
    inst'.disposed = false → inst.key = inst'.key → i = j
  gone : p.disposed = true → ∀ inst ∈ p.pool, inst.disposed = true ∧ inst.connection.running = false
  late : ∀ inst ∈ p.pool, inst.late = false ∧ inst.lateStart = false

/-- A disposal finds no instance whose handshake has still to begin, and a query is tried again only
while the provider is not disposed and the map has no other instance under its key. -/
def Orderly (p : LspProvider) : Op → Prop
  | .dispose => ∀ key i inst, p.instances.find? key = some i → p.pool[i]? = some inst → inst.init ≠ .spawned
  | op => ∀ q p' what query, p.resume op = some (q, p', some what) → p'.queries[q]? = some query →
      p'.retries query = true → p.disposed = false ∧
        (p.instances.find? query.key = none ∨ p.instances.find? query.key = some query.target)

def servers : System LspProvider Op where
  start p := p = {}
  step p op p' := p.next op = some p'

/-! The invariant -/

/-- What a query is about. -/
def Query.aim (query : Query) : String × Nat × Bool := (query.key, query.target, query.retried)

structure Filed (p : LspProvider) : Prop where
  recorded : ∀ (i : Nat) (inst : LspInstance), p.pool[i]? = some inst → inst.disposed = false → p.instances.find? inst.key = some i
  drained : p.disposed = true → p.instances = ∅
  sound : ∀ inst ∈ p.pool, inst.Sound
  past : ∀ query ∈ p.queries, query.point.exchanging = true →
    ∃ inst, p.pool[query.target]? = some inst ∧ inst.init ≠ .spawned

/-- What a query leaves alone while it is on its instance. -/
structure Stays (p p' : LspProvider) : Prop where
  filed : Filed p'
  disposed : p'.disposed = p.disposed
  instances : p'.instances = p.instances
  aims : p'.queries.map Query.aim = p.queries.map Query.aim

section
variable {p p' p'' : LspProvider} {inst : LspInstance} {q i : Nat} {query : Query}

theorem Filed.oneLive (h : Filed p) : OneLive p where
  recorded := h.recorded
  apart i j inst inst' hi hj live live' same := by
    have first := h.recorded i inst hi live
    rw [same, h.recorded j inst' hj live'] at first
    exact (Option.some.inj first).symm
  gone ended inst hinst := by
    obtain ⟨i, hi⟩ := List.getElem?_of_mem hinst
    have disposed : inst.disposed = true := by
      cases live : inst.disposed with
      | true => rfl
      | false =>
          have found := h.recorded i inst hi live
          rw [h.drained ended] at found
          cases found
    exact ⟨disposed, (h.sound inst hinst).quiet ((h.sound inst hinst).closed disposed)⟩
  late inst hinst := (h.sound inst hinst).early

theorem Stays.refl (h : Filed p) : Stays p p := ⟨h, rfl, rfl, rfl⟩

theorem Stays.trans (h : Stays p p') (h' : Stays p' p'') : Stays p p'' :=
  ⟨h'.filed, h'.disposed.trans h.disposed, h'.instances.trans h.instances, h'.aims.trans h.aims⟩

theorem Stays.aimed (h : Stays p p') (found : p'.queries[q]? = some query) :
    ∃ query', p.queries[q]? = some query' ∧ query'.aim = query.aim := by
  have same := congrArg (·[q]?) h.aims
  simp only [List.getElem?_map, found, Option.map_some] at same
  obtain ⟨query', before, aim⟩ := Option.map_eq_some_iff.mp same.symm
  exact ⟨query', before, aim⟩

theorem aims_modify {l : List Query} {f : Query → Query} (same : ∀ query, (f query).aim = query.aim) (q : Nat) :
    (l.modify q f).map Query.aim = l.map Query.aim := by
  refine List.ext_getElem? fun i => ?_
  rw [List.getElem?_map, List.getElem?_map, List.getElem?_modify]
  cases l[i]? with
  | none => rfl
  | some query =>
      by_cases here : q = i <;> simp [here, same]

/-! Points and instances -/

theorem Filed.setPoint (h : Filed p) {point : QueryPoint}
    (past : point.exchanging = true → ∀ query, p.queries[q]? = some query →
      ∃ inst, p.pool[query.target]? = some inst ∧ inst.init ≠ .spawned) : Stays p (p.setPoint q point) := by
  refine ⟨⟨h.recorded, h.drained, h.sound, fun query hquery exchanging => ?_⟩, rfl, rfl,
    aims_modify (f := fun query => { query with point }) (fun _ => rfl) q⟩
  obtain ⟨i, at_⟩ := List.getElem?_of_mem hquery
  obtain ⟨query', before, ⟨rfl, rfl⟩ | ⟨-, rfl⟩⟩ := getElem?_modify_cases at_
  · exact past exchanging query' before
  · exact h.past query (List.mem_of_getElem? before) exchanging

theorem Filed.grant (h : Filed p) (waiters : List Nat) : Stays p (p.grant waiters) := by
  induction waiters generalizing p with
  | nil => exact .refl h
  | cons q waiters ih =>
      have granted : Stays p (p.setPoint q .granted) := h.setPoint fun exchanging => by cases exchanging
      exact granted.trans (ih granted.filed)

/-- An instance changes without being reopened. -/
theorem Filed.setInstance (h : Filed p) {f : LspInstance → LspInstance}
    (step : ∀ inst, p.pool[i]? = some inst → (f inst).key = inst.key ∧
      ((f inst).disposed = false → inst.disposed = false) ∧ (f inst).Sound ∧
      (inst.init ≠ .spawned → (f inst).init ≠ .spawned)) : Stays p (p.setInstance i f) := by
  have after : ∀ (j : Nat) (inst' : LspInstance), (p.setInstance i f).pool[j]? = some inst' → ∃ inst : LspInstance, p.pool[j]? = some inst ∧
      inst'.key = inst.key ∧ (inst'.disposed = false → inst.disposed = false) ∧ inst'.Sound ∧
      (inst.init ≠ .spawned → inst'.init ≠ .spawned) := by
    intro j inst' at_
    obtain ⟨inst, before, ⟨rfl, rfl⟩ | ⟨-, rfl⟩⟩ := getElem?_modify_cases at_
    · exact ⟨inst, before, step inst before⟩
    · exact ⟨inst', before, rfl, id, h.sound inst' (List.mem_of_getElem? before), id⟩
  refine ⟨⟨fun j inst' at_ live => ?_, h.drained, fun inst' hinst' => ?_, fun query hquery exchanging => ?_⟩, rfl, rfl, rfl⟩
  · obtain ⟨inst, before, key, disposed, -, -⟩ := after j inst' at_
    exact key ▸ h.recorded j inst before (disposed live)
  · obtain ⟨j, at_⟩ := List.getElem?_of_mem hinst'
    obtain ⟨-, -, -, -, sound, -⟩ := after j inst' at_
    exact sound
  · obtain ⟨inst, before, begun⟩ := h.past query hquery exchanging
    have now : (p.setInstance i f).pool[query.target]? = some (if i = query.target then f inst else inst) := by
      rw [LspProvider.setInstance, List.getElem?_modify, before]
      split <;> rfl
    obtain ⟨inst', before', -, -, -, still⟩ := after _ _ now
    cases Option.some.inj (before.symm.trans before')
    exact ⟨_, now, still begun⟩

/-- Only the turns of an instance change. -/
theorem Filed.turn (h : Filed p) {f : LspInstance → LspInstance} (same : ∀ inst, f inst =
    { inst with locked := (f inst).locked, waiters := (f inst).waiters }) : Stays p (p.setInstance i f) := by
  refine h.setInstance fun inst found => ?_
  have sound := h.sound inst (List.mem_of_getElem? found)
  rw [same inst]
  exact ⟨rfl, id, ⟨sound.closed, sound.quiet, sound.fresh, sound.early⟩, id⟩

theorem closed_close (c : LspConnection) : c.close.closed = true := by
  unfold LspConnection.close
  split
  · next closed => exact closed
  · rfl

theorem LspInstance.Sound.close (sound : inst.Sound) : inst.connection.close.running = false := by
  unfold LspConnection.close
  split
  · next closed => exact sound.quiet closed
  · rfl

/-- A connection whose close took its process. -/
theorem LspInstance.Sound.close_failed (sound : inst.Sound) :
    ({ inst.connection with failed := true } : LspConnection).close.running = false := by
  unfold LspConnection.close
  split
  · next closed => exact sound.quiet closed
  · rfl

theorem Filed.close (h : Filed p) (begun : ∀ inst, p.pool[i]? = some inst → inst.disposed = false → inst.init ≠ .spawned) :
    Stays p (p.close i) := by
  unfold LspProvider.close
  split
  · exact .refl h
  · next inst found =>
      split
      · exact .refl h
      · next live =>
          have shut : Stays p (p.setInstance i .shut) := by
            refine h.setInstance fun inst' found' => ?_
            cases Option.some.inj (found.symm.trans found')
            have sound := h.sound inst (List.mem_of_getElem? found)
            have ended := begun inst found (Bool.eq_false_iff.mpr live)
            exact ⟨rfl, fun h => (by cases h), ⟨fun _ => closed_close _, fun _ => sound.close,
              fun spawned => absurd spawned ended, sound.early⟩, id⟩
          exact shut.trans (shut.filed.grant _)

theorem grant_pool (waiters : List Nat) : (p.grant waiters).pool = p.pool := by
  induction waiters generalizing p with
  | nil => rfl
  | cons q waiters ih => exact ih

theorem close_disposed (found : (p.close i).pool[i]? = some inst) : inst.disposed = true := by
  unfold LspProvider.close at found
  split at found
  · next none =>
      rw [none] at found
      cases found
  · next inst' found' =>
      split at found
      · next disposed => exact Option.some.inj (found'.symm.trans found) ▸ disposed
      · rw [grant_pool] at found
        obtain ⟨inst', -, ⟨-, rfl⟩ | ⟨other, -⟩⟩ := getElem?_modify_cases found
        · rfl
        · exact absurd rfl other

theorem Filed.unlock (h : Filed p) (i : Nat) : Stays p (p.unlock i) := by
  unfold LspProvider.unlock
  split
  · exact .refl h
  · have turned : Stays p (p.setInstance i .unlock) := by
      refine h.turn fun inst => ?_
      unfold LspInstance.unlock
      split <;> rfl
    exact turned.trans (turned.filed.grant _)

/-! The stages of a query -/

theorem Filed.fail (h : Filed p) (i : Nat) (what : String) : Stays p (p.fail i what).1 := h.unlock i

theorem Filed.afterReady (h : Filed p) (found : p.pool[i]? = some inst) (ready : inst.readyDone = true)
    (target : ∀ query, p.queries[q]? = some query → query.target = i) (env : Env) :
    Stays p (p.afterReady q i inst env).1 := by
  have begun : inst.init ≠ .spawned := by
    intro spawned
    have fresh := ((h.sound inst (List.mem_of_getElem? found)).fresh spawned).2.2.2
    rw [ready] at fresh
    cases fresh
  unfold LspProvider.afterReady
  split
  · exact h.fail ..
  · split
    · exact h.fail ..
    · split
      · exact h.fail ..
      · exact h.setPoint fun _ query hquery => ⟨inst, target query hquery ▸ found, begun⟩

theorem Filed.enterReady (h : Filed p) (found : p.pool[i]? = some inst)
    (target : ∀ query, p.queries[q]? = some query → query.target = i) (env : Env) :
    Stays p (p.enterReady q i inst env).1 := by
  unfold LspProvider.enterReady
  split
  · exact h.fail ..
  · split
    · exact h.fail ..
    · split
      · next ready => exact h.afterReady found ready target env
      · exact h.setPoint fun exchanging => by cases exchanging

theorem Filed.enter (h : Filed p) (found : p.pool[i]? = some inst)
    (target : ∀ query, p.queries[q]? = some query → query.target = i) (env : Env) :
    Stays p (p.enter q i inst env).1 := by
  unfold LspProvider.enter
  split
  · exact .refl h
  · split
    · have waits : Stays p (p.setInstance i fun inst => { inst with waiters := inst.waiters ++ [q] }) :=
        h.turn fun _ => rfl
      exact waits.trans (waits.filed.setPoint fun exchanging => by cases exchanging)
    · have held : Stays p (p.setInstance i fun inst => { inst with locked := true }) := h.turn fun _ => rfl
      have now : (p.setInstance i fun inst => { inst with locked := true }).pool[i]? = some { inst with locked := true } := by
        rw [LspProvider.setInstance, List.getElem?_modify, found]
        simp
      exact held.trans (held.filed.enterReady now target env)

theorem Filed.finish (h : Filed p) (q i : Nat) (error : Option String) : Stays p (p.finish q i error).1 := by
  unfold LspProvider.finish
  split
  · exact h.fail ..
  · have unlocked := h.unlock i
    exact unlocked.trans (unlocked.filed.setPoint fun exchanging => by cases exchanging)

theorem Filed.exchanged (h : Filed p) (error : Option String)
    (past : ∀ query, p.queries[q]? = some query → query.point.exchanging = true) : Stays p (p.exchanged q i inst error).1 := by
  unfold LspProvider.exchanged
  split
  · exact h.finish ..
  · exact h.setPoint fun _ query hquery => h.past query (List.mem_of_getElem? hquery) (past query hquery)

/-! The map -/

theorem Filed.instanceFor (h : Filed p) (live : p.disposed = false) (key : String) :
    Filed (p.instanceFor key).1 ∧ (p.instanceFor key).1.disposed = false ∧
      (p.instanceFor key).1.instances.find? key = some (p.instanceFor key).2 ∧
      (p.instanceFor key).1.queries = p.queries := by
  unfold LspProvider.instanceFor
  split
  · next i found => exact ⟨h, live, found, rfl⟩
  · next none =>
      refine ⟨⟨fun i inst at_ open_ => ?_, fun ended => absurd (live.symm.trans ended) (by decide), fun inst hinst => ?_,
        fun query hquery exchanging => ?_⟩, live, by simp, rfl⟩
      · rcases getElem?_concat at_ with old | ⟨last, rfl⟩
        · have found := h.recorded i inst old open_
          have other : inst.key ≠ key := by
            intro same
            rw [same, none] at found
            cases found
          simpa [other] using found
        · simp [last]
      · rcases List.mem_append.mp hinst with old | new
        · exact h.sound inst old
        · cases List.mem_singleton.mp new
          exact ⟨fun h => (by cases h), fun h => (by cases h), fun _ => ⟨rfl, rfl, rfl, rfl⟩, live, rfl⟩
      · obtain ⟨inst, found, begun⟩ := h.past query hquery exchanging
        obtain ⟨bound, -⟩ := List.getElem?_eq_some_iff.mp found
        exact ⟨inst, (List.getElem?_append_left bound).trans found, begun⟩

/-- Queries come and change; those that exchange something had a server. -/
theorem Filed.queries (h : Filed p) {queries : List Query}
    (past : ∀ query ∈ queries, query.point.exchanging = true →
      ∃ inst, p.pool[query.target]? = some inst ∧ inst.init ≠ .spawned) : Filed { p with queries } :=
  ⟨h.recorded, h.drained, h.sound, past⟩

theorem Filed.ask {key : String} {env : Env} {threw : Option String} (h : Filed p) (live : p.disposed = false)
    (asked : p.ask key env = some (q, p', threw)) : Filed p' ∧ p'.disposed = false ∧
      ∀ query, p'.queries[q]? = some query → p'.instances.find? query.key = some query.target := by
  obtain ⟨filed, open_, entry, queries⟩ := h.instanceFor live key
  obtain ⟨inst, found, step⟩ := Option.map_eq_some_iff.mp asked
  obtain ⟨rfl, result⟩ := Prod.mk.inj step
  have known : Filed { (p.instanceFor key).1 with queries := p.queries ++ [⟨key, (p.instanceFor key).2, false, .locking⟩] } := by
    refine filed.queries fun query hquery exchanging => ?_
    rcases List.mem_append.mp hquery with old | new
    · exact filed.past query (queries ▸ old) exchanging
    · cases List.mem_singleton.mp new
      cases exchanging
  have last : ∀ query, (p.queries ++ [⟨key, (p.instanceFor key).2, false, .locking⟩])[p.queries.length]? = some query →
      query = ⟨key, (p.instanceFor key).2, false, .locking⟩ := by
    intro query at_
    rw [List.getElem?_concat_length] at at_
    exact (Option.some.inj at_).symm
  have stays := known.enter (q := p.queries.length) found (fun query at_ => last query at_ ▸ rfl) env
  rw [result] at stays
  refine ⟨stays.filed, stays.disposed.trans open_, fun query at_ => ?_⟩
  obtain ⟨query', before, aim⟩ := stays.aimed at_
  cases last query' before
  have key_ : key = query.key := congrArg Prod.fst aim
  have target : (p.instanceFor key).2 = query.target := congrArg (·.2.1) aim
  rw [stays.instances, ← key_, ← target]
  exact entry

theorem at_cases {point : QueryPoint} (h : p.at_ q point = some (query, inst)) :
    p.queries[q]? = some query ∧ p.pool[query.target]? = some inst ∧ query.point = point := by
  obtain ⟨query', found, h⟩ := Option.bind_eq_some_iff.mp h
  obtain ⟨inst', pooled, h⟩ := Option.bind_eq_some_iff.mp h
  split at h
  · next same =>
      cases h
      exact ⟨found, pooled, same⟩
  · cases h

theorem Stays.of {step : LspProvider × Option String} {threw : Option String} (h : Stays p step.1)
    (result : step = (p', threw)) : Stays p p' := by
  rw [result] at h
  exact h

theorem Filed.resume {op : Op} {threw : Option String} (h : Filed p) (step : p.resume op = some (q, p', threw)) :
    Stays p p' := by
  have same {k : Nat} {query query' : Query} (found : p.queries[k]? = some query) (found' : p.queries[k]? = some query') :
      query' = query := Option.some.inj (found'.symm.trans found)
  cases op with
  | locked q' env =>
      obtain ⟨⟨query, inst⟩, at_, step⟩ := Option.bind_eq_some_iff.mp step
      obtain ⟨found, pooled, -⟩ := at_cases at_
      dsimp only at step
      split at step
      · cases step
        exact .refl h
      · obtain ⟨rfl, result⟩ := Prod.mk.inj (Option.some.inj step)
        have stays := h.enterReady pooled (fun query' found' => same found found' ▸ rfl) env
        exact stays.of result
  | ready q' env =>
      obtain ⟨⟨query, inst⟩, at_, step⟩ := Option.bind_eq_some_iff.mp step
      obtain ⟨found, pooled, -⟩ := at_cases at_
      dsimp only at step
      split at step
      · next ready =>
          obtain ⟨rfl, result⟩ := Prod.mk.inj (Option.some.inj step)
          have stays := h.afterReady pooled ready (fun query' found' => same found found' ▸ rfl) env
          exact stays.of result
      · cases step
  | opened q' failure env =>
      obtain ⟨⟨query, inst⟩, at_, step⟩ := Option.bind_eq_some_iff.mp step
      obtain ⟨found, pooled, point⟩ := at_cases at_
      have past : ∀ query', p.queries[q']? = some query' → query'.point.exchanging = true := by
        intro query' found'
        rw [same found found', point]
        rfl
      have ended (error : Option String) : Stays p (p.exchanged q' query.target inst error).1 := h.exchanged error past
      dsimp only at step
      split at step
      · cases step
        exact h.unlock _
      · split at step
        · obtain ⟨rfl, result⟩ := Prod.mk.inj (Option.some.inj step)
          exact (ended _).of result
        · split at step
          · obtain ⟨rfl, result⟩ := Prod.mk.inj (Option.some.inj step)
            exact (ended _).of result
          · cases step
            exact h.setPoint fun _ query' found' => h.past query' (List.mem_of_getElem? found') (past query' found')
  | answered q' failure env =>
      obtain ⟨⟨query, inst⟩, at_, step⟩ := Option.bind_eq_some_iff.mp step
      obtain ⟨found, pooled, point⟩ := at_cases at_
      obtain ⟨rfl, result⟩ := Prod.mk.inj (Option.some.inj step)
      have stays : Stays p (p.exchanged q' query.target inst failure).1 := h.exchanged failure
        fun query' found' => by rw [same found found', point]; rfl
      exact stays.of result
  | closed q' failure env =>
      obtain ⟨⟨query, error⟩, at_, step⟩ := Option.bind_eq_some_iff.mp step
      obtain ⟨query', found, point⟩ := Option.bind_eq_some_iff.mp at_
      obtain ⟨rfl, result⟩ := Prod.mk.inj (Option.some.inj step)
      have exchanging : query'.point.exchanging = true ∧ query' = query := by
        split at point
        · next closing =>
            cases point
            exact ⟨by rw [closing]; rfl, rfl⟩
        · cases point
      obtain ⟨exchanging, rfl⟩ := exchanging
      obtain ⟨inst, pooled, begun⟩ := h.past query' (List.mem_of_getElem? found) exchanging
      have closed : Stays p (if failure.isSome then p.close query'.target else p) := by
        split
        · refine h.close fun inst' pooled' _ => ?_
          cases Option.some.inj (pooled.symm.trans pooled')
          exact begun
        · exact .refl h
      exact (closed.trans (closed.filed.finish ..)).of result
  | query | dispose | init | initialized | lose | exit => cases step

/-- The failed instance is closed and its entry gone: nothing else was under its key. -/
theorem Filed.forget (h : Filed p) (live : p.disposed = false) (dead : p.retries query = true)
    (own : p.instances.find? query.key = none ∨ p.instances.find? query.key = some query.target) :
    Filed (p.forget query) ∧ (p.forget query).disposed = false := by
  obtain ⟨inst, pooled, died⟩ : ∃ inst, p.pool[query.target]? = some inst ∧ inst.dead = true :=
    (Option.any_eq_true _ _).mp (Bool.and_eq_true .. ▸ dead).2
  have closed : Stays p (p.close query.target) := by
    refine h.close fun inst' pooled' open_ spawned => ?_
    cases Option.some.inj (pooled.symm.trans pooled')
    obtain ⟨-, -, failed, -⟩ := (h.sound inst (List.mem_of_getElem? pooled)).fresh spawned
    rw [LspInstance.dead, open_, failed] at died
    cases died
  have open_ : (p.forget query).disposed = false := closed.disposed.trans live
  refine ⟨⟨fun i inst' at_ open_ => ?_, fun ended => absurd (open_.symm.trans ended) (by decide), closed.filed.sound,
    closed.filed.past⟩, open_⟩
  have entry := closed.filed.recorded i inst' at_ open_
  have other : inst'.key ≠ query.key := by
    intro same
    rw [closed.instances, same] at entry
    rcases own with none | target
    · rw [none] at entry
      cases entry
    · cases Option.some.inj (target.symm.trans entry)
      rw [close_disposed at_] at open_
      cases open_
  show ((p.close query.target).instances.erase query.key).find? inst'.key = some i
  rw [SortedMap.find?_erase, if_neg other]
  exact entry

theorem Filed.retry (h : Filed p) (live : p.disposed = false) (dead : p.retries query = true)
    (own : p.instances.find? query.key = none ∨ p.instances.find? query.key = some query.target) (env : Env) :
    Filed (p.retry q query env).1 := by
  obtain ⟨forgotten, open_⟩ := h.forget live dead own
  obtain ⟨filed, -, -, -⟩ := forgotten.instanceFor open_ query.key
  have again : Filed { ((p.forget query).instanceFor query.key).1 with
      queries := ((p.forget query).instanceFor query.key).1.queries.set q
        { query with target := ((p.forget query).instanceFor query.key).2, retried := true, point := .locking } } := by
    refine filed.queries fun query' hquery exchanging => ?_
    rcases List.mem_or_eq_of_mem_set hquery with old | rfl
    · exact filed.past query' old exchanging
    · cases exchanging
  unfold LspProvider.retry
  dsimp only
  split
  · exact again
  · next inst found =>
      refine (again.enter found (fun query' at_ => ?_) env).filed
      rw [List.getElem?_set] at at_
      split at at_
      · split at at_
        · cases at_
          rfl
        · cases at_
      · next other => exact absurd rfl other

theorem Filed.caught {threw : Option String} (h : Filed p) (env : Env)
    (own : ∀ query, threw.isSome = true → p.queries[q]? = some query → p.retries query = true → p.disposed = false ∧
      (p.instances.find? query.key = none ∨ p.instances.find? query.key = some query.target)) :
    Filed (p.caught q env threw) := by
  have ended (p : LspProvider) (h : Filed p) (what : String) : Filed (p.setPoint q (.ended (some what))) :=
    (h.setPoint fun exchanging => by cases exchanging).filed
  unfold LspProvider.caught
  split
  · exact h
  · split
    · exact h
    · next query found =>
        split
        · next again =>
            obtain ⟨live, entry⟩ := own query rfl found again
            have fresh := h.retry (q := q) live again entry env
            split
            · next p' what result =>
                rw [result] at fresh
                exact ended p' fresh what
            · next p' result =>
                rw [result] at fresh
                exact fresh
        · exact ended p h _

/-! Steps -/

theorem close_pool {j : Nat} {inst' : LspInstance} (found : (p.close j).pool[i]? = some inst') :
    ∃ inst, p.pool[i]? = some inst ∧ inst'.init = inst.init ∧ (inst'.disposed = false → inst' = inst) := by
  unfold LspProvider.close at found
  split at found
  · exact ⟨inst', found, rfl, fun _ => rfl⟩
  · split at found
    · exact ⟨inst', found, rfl, fun _ => rfl⟩
    · rw [grant_pool] at found
      obtain ⟨inst, before, ⟨-, rfl⟩ | ⟨-, rfl⟩⟩ := getElem?_modify_cases found
      · exact ⟨inst, before, rfl, fun open_ => (by cases open_)⟩
      · exact ⟨inst', before, rfl, fun _ => rfl⟩

theorem grant_flag (waiters : List Nat) (b : Bool) :
    ({ p with disposed := b } : LspProvider).grant waiters = { p.grant waiters with disposed := b } := by
  induction waiters generalizing p with
  | nil => rfl
  | cons q waiters ih => exact ih (p := p.setPoint q .granted)

theorem close_flag (i : Nat) (b : Bool) :
    ({ p with disposed := b } : LspProvider).close i = { p.close i with disposed := b } := by
  unfold LspProvider.close
  dsimp only
  split
  · rfl
  · split
    · rfl
    · exact grant_flag (p := p.setInstance i .shut) ..

/-- What the disposal does to the instances of the map. -/
def sweep (p : LspProvider) (entries : List (String × Nat)) : LspProvider :=
  entries.foldl (fun p e => p.close e.2) p

theorem sweep_flag (entries : List (String × Nat)) (b : Bool) :
    sweep { p with disposed := b } entries = { sweep p entries with disposed := b } := by
  induction entries generalizing p with
  | nil => rfl
  | cons e entries ih =>
      rw [sweep, List.foldl_cons, close_flag]
      exact ih

theorem sweep_open {entries : List (String × Nat)} (found : (sweep p entries).pool[i]? = some inst)
    (open_ : inst.disposed = false) : p.pool[i]? = some inst ∧ ∀ e ∈ entries, e.2 ≠ i := by
  induction entries generalizing p with
  | nil => exact ⟨found, fun _ h => (by cases h)⟩
  | cons e entries ih =>
      obtain ⟨closed, others⟩ := ih found
      obtain ⟨inst', before, -, same⟩ := close_pool closed
      refine ⟨same open_ ▸ before, fun e' he' here => ?_⟩
      rcases List.mem_cons.mp he' with rfl | later
      · subst here
        rw [close_disposed closed] at open_
        cases open_
      · exact others e' later here

theorem Filed.swept (h : Filed p) (entries : List (String × Nat))
    (begun : ∀ e ∈ entries, ∀ inst, p.pool[e.2]? = some inst → inst.init ≠ .spawned) : Stays p (sweep p entries) := by
  induction entries generalizing p with
  | nil => exact .refl h
  | cons e entries ih =>
      have closed := h.close (i := e.2) fun inst found _ => begun e (List.mem_cons_self ..) inst found
      refine closed.trans (ih closed.filed fun e' he' inst' found' => ?_)
      obtain ⟨inst, before, init, -⟩ := close_pool found'
      exact init ▸ begun e' (List.mem_cons_of_mem _ he') inst before

theorem Filed.dispose (h : Filed p)
    (begun : ∀ key i inst, p.instances.find? key = some i → p.pool[i]? = some inst → inst.init ≠ .spawned) :
    Filed p.dispose := by
  have closed := h.swept p.instances.toList fun e he inst found =>
    begun e.1 e.2 inst (SortedMap.mem_toList.mp he) found
  have disposed : p.dispose = { sweep p p.instances.toList with disposed := true, instances := ∅ } := by
    unfold LspProvider.dispose
    exact congrArg (fun p : LspProvider => { p with instances := ∅ }) (sweep_flag p.instances.toList true)
  rw [disposed]
  refine ⟨fun i inst found open_ => ?_, fun _ => rfl, closed.filed.sound, closed.filed.past⟩
  obtain ⟨before, others⟩ := sweep_open found open_
  exact absurd rfl (others (inst.key, i) (SortedMap.mem_toList.mpr (h.recorded i inst before open_)))

theorem Filed.handshake {point : InitPoint} {f : LspInstance → LspInstance} (h : Filed p)
    (step : p.handshake i point f = some p')
    (sound : ∀ inst, inst.Sound → p.pool[i]? = some inst → inst.init = point → (f inst).key = inst.key ∧
      (f inst).disposed = inst.disposed ∧ (f inst).Sound ∧ (f inst).init ≠ .spawned) : Filed p' := by
  obtain ⟨inst, found, step⟩ := Option.bind_eq_some_iff.mp step
  split at step
  · next at_ =>
      cases step
      refine (h.setInstance fun inst' found' => ?_).filed
      cases Option.some.inj (found.symm.trans found')
      obtain ⟨key, disposed, sound, begun⟩ := sound inst (h.sound inst (List.mem_of_getElem? found)) found at_
      exact ⟨key, fun open_ => disposed ▸ open_, sound, fun _ => begun⟩
  · cases step

theorem Filed.step {op : Op} (h : Filed p) (orderly : Orderly p op) (step : p.next op = some p') : Filed p' := by
  have resumed {op : Op} (orderly : ∀ q p' what query, p.resume op = some (q, p', some what) →
      p'.queries[q]? = some query → p'.retries query = true → p.disposed = false ∧
        (p.instances.find? query.key = none ∨ p.instances.find? query.key = some query.target))
      (step : ((p.resume op).map fun r => r.2.1.caught r.1 (LspProvider.envOf op) r.2.2) = some p') : Filed p' := by
    obtain ⟨⟨q, p', threw⟩, resumed, rfl⟩ := Option.map_eq_some_iff.mp step
    have stays := h.resume resumed
    refine stays.filed.caught _ fun query thrown found again => ?_
    obtain ⟨what, rfl⟩ := Option.isSome_iff_exists.mp thrown
    rw [stays.disposed, stays.instances]
    exact orderly q p' what query resumed found again
  cases op with
  | query prepared env =>
      simp only [LspProvider.next] at step
      have refused (what : String) : Filed (p.refuse what) := by
        refine h.queries fun query hquery exchanging => ?_
        rcases List.mem_append.mp hquery with old | new
        · exact h.past query old exchanging
        · cases List.mem_singleton.mp new
          cases exchanging
      split at step
      · cases step
        exact refused _
      · next live =>
          split at step
          · cases step
            exact refused _
          · next key =>
              obtain ⟨⟨q, p', threw⟩, asked, rfl⟩ := Option.map_eq_some_iff.mp step
              obtain ⟨filed, open_, entry⟩ := h.ask (Bool.eq_false_iff.mpr live) asked
              exact filed.caught _ fun query _ found _ => ⟨open_, .inr (entry query found)⟩
  | locked | ready | opened | answered | closed => exact resumed orderly step
  | dispose =>
      cases step
      exact h.dispose orderly
  | init i launch =>
      refine h.handshake step fun inst sound found at_ => ?_
      obtain ⟨live, closed, failed, ready⟩ := sound.fresh at_
      have open_ : p.disposed = false := by
        cases ended : p.disposed with
        | false => rfl
        | true =>
            have entry := h.recorded i inst found live
            rw [h.drained ended] at entry
            cases entry
      unfold LspProvider.launched
      split
      · exact ⟨rfl, rfl, ⟨sound.closed, sound.quiet, fun h => (by cases h), sound.early⟩, fun h => (by cases h)⟩
      · refine ⟨rfl, rfl, ⟨sound.closed, fun shut => ?_, fun h => (by cases h), sound.early.1, ?_⟩, fun h => (by cases h)⟩
        · exact absurd (closed.symm.trans shut) (by decide)
        · rw [sound.early.2, open_]
          rfl
  | initialized i failure =>
      refine h.handshake step fun inst sound _ _ => ?_
      exact ⟨rfl, rfl, ⟨sound.closed, sound.quiet, fun h => (by cases h), sound.early⟩, fun h => (by cases h)⟩
  | lose i malformed =>
      obtain ⟨inst, found, step⟩ := Option.bind_eq_some_iff.mp step
      split at step
      · cases step
      · next begun =>
          cases step
          refine (h.setInstance fun inst' found' => ?_).filed
          cases Option.some.inj (found.symm.trans found')
          have sound := h.sound inst (List.mem_of_getElem? found)
          unfold LspProvider.lost
          refine ⟨rfl, id, ⟨fun ended => ?_, fun shut => ?_, fun spawned => absurd spawned begun, sound.early⟩, id⟩
          · cases malformed with
            | false => exact sound.closed ended
            | true => exact closed_close _
          · cases malformed with
            | false => exact sound.quiet shut
            | true => exact sound.close_failed
  | exit i =>
      obtain ⟨inst, found, step⟩ := Option.bind_eq_some_iff.mp step
      cases step
      refine (h.setInstance fun inst' found' => ?_).filed
      have sound := h.sound inst' (List.mem_of_getElem? found')
      exact ⟨rfl, id, ⟨sound.closed, fun _ => rfl, sound.fresh, sound.early⟩, id⟩

end

/-- The instances that live are those of the map, in every run that is orderly. -/
theorem one_live {p : LspProvider} (h : servers.Reached Orderly p) : OneLive p := by
  have filed : Filed p := by
    refine h.invariant ?_ fun p op p' _ filed step orderly => filed.step orderly step
    rintro p rfl
    exact ⟨fun i inst found => (by cases found), fun ended => (by cases ended), fun _ h => (by cases h), fun _ h => (by cases h)⟩
  exact filed.oneLive

def orderly? (p : LspProvider) : Op → Bool
  | .dispose => p.instances.toList.all fun e => p.pool[e.2]?.all (·.init != .spawned)
  | op =>
    match p.resume op with
    | some (q, p', some _) => p'.queries[q]?.all fun query => !p'.retries query ||
        (!p.disposed && (p.instances.find? query.key == none || p.instances.find? query.key == some query.target))
    | _ => true

theorem orderly_of_check {p : LspProvider} {op : Op} (h : orderly? p op = true) : Orderly p op := by
  have resumed {op : Op} (h : (match p.resume op with
      | some (q, p', some _) => p'.queries[q]?.all fun query => !p'.retries query ||
          (!p.disposed && (p.instances.find? query.key == none || p.instances.find? query.key == some query.target))
      | _ => true) = true) (q : Nat) (p' : LspProvider) (what : String) (query : Query)
      (step : p.resume op = some (q, p', some what)) (found : p'.queries[q]? = some query)
      (again : p'.retries query = true) : p.disposed = false ∧
        (p.instances.find? query.key = none ∨ p.instances.find? query.key = some query.target) := by
    rw [step] at h
    simpa [found, again] using h
  cases op with
  | dispose =>
      intro key i inst entry found spawned
      have checked := List.all_eq_true.mp h (key, i) (SortedMap.mem_toList.mpr entry)
      simp [found, spawned] at checked
  | query | locked | ready | opened | answered | closed | init | initialized | lose | exit => exact resumed h

/-- A query whose server dies at its request. -/
def dying : List Op :=
  [.init 0 none, .initialized 0 none, .ready 0 {}, .opened 0 none {}, .lose 0 false, .answered 0 (some "exited") {}]

/-- A query is tried again on a fresh server, and the provider disposed. -/
theorem one_live_retried : ∃ p : LspProvider, p.disposed = true ∧ p.pool.length = 2 ∧ OneLive p := by
  have played : (System.follow LspProvider.next orderly? {} ([.query (.ok "w") {}] ++ dying ++
      [.init 1 none, .initialized 1 none, .dispose])).any (fun p => p.disposed && p.pool.length == 2) = true := by
    decide +kernel
  obtain ⟨p, hp, shape⟩ := (Option.any_eq_true _ _).mp played
  rw [Bool.and_eq_true, beq_iff_eq] at shape
  have reached := System.follow_reached (S := servers) (P := Orderly) (fun _ _ _ h => h)
    (fun _ _ => orderly_of_check) hp (.start rfl)
  exact ⟨p, shape.1, shape.2, one_live reached⟩

/-- Two queries wait on a server that dies: the second replaces the fresh instance of the first,
and nothing will close it. -/
theorem two_live : ¬ ∀ p, servers.Reached (fun _ _ => True) p → OneLive p := by
  intro claim
  have played : (System.follow LspProvider.next (fun _ _ => true) {} ([.query (.ok "w") {}, .query (.ok "w") {}] ++ dying ++
      [.locked 1 {}])).any (fun p => p.pool[1]?.any (fun inst => inst.key == "w" && !inst.disposed) &&
        p.instances.find? "w" == some 2) = true := by decide +kernel
  obtain ⟨p, hp, shape⟩ := (Option.any_eq_true _ _).mp played
  rw [Bool.and_eq_true, beq_iff_eq] at shape
  obtain ⟨inst, found, open_⟩ := (Option.any_eq_true _ _).mp shape.1
  rw [Bool.and_eq_true, beq_iff_eq, Bool.not_eq_true'] at open_
  have reached := System.follow_reached (S := servers) (P := fun _ _ => True) (fun _ _ _ h => h)
    (fun _ _ _ => trivial) hp (.start rfl)
  have entry := (claim p reached).recorded 1 inst found open_.2
  rw [open_.1, shape.2] at entry
  cases entry

end Araya.Lsp
