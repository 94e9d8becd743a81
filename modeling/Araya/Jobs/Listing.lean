import Araya.Jobs.Lifecycle
import Araya.Util.Strings

/-!
The jobs that a caller is shown. The table is ordered by the ids, which end in a decimal number, so the jobs come in the
order of their ids as strings and not in the order they were started.
-/

namespace Araya.Jobs
open Sessions (ensure)

namespace JobRegistry

/-- What never changes of a job: its id, its kind and its owner. -/
def roster (r : JobRegistry) : List (String × String × Option String) := r.jobs.map fun j => (j.id, j.kind, j.ownerSession)

def idOf (r : JobRegistry) (i : Nat) : String := (r.jobs[i]?.map (·.id)).getD ""

/-- The caller's own jobs and those that no session owns. -/
def visible (r : JobRegistry) (owner : Option String) (i : Nat) : Bool :=
  r.jobs[i]?.any fun j => j.ownerSession.isNone || owner.isSome && owner == j.ownerSession

/-- The job is in the table. -/
def tabled (r : JobRegistry) (i : Nat) : Bool := r.store.toList.any (·.2 == i)

/-- The jobs that `list` returns. -/
def listed (r : JobRegistry) (owner : Option String) : List Nat := ((r.list owner).seen.drop r.seen.length).map (·.job)

/-- The visible jobs of the table in the order they were started. -/
def registered (r : JobRegistry) (owner : Option String) : List Nat :=
  (List.range r.jobs.length).filter fun i => r.tabled i && r.visible owner i

/-- Every entry is under the id of its job, and every id is made of its kind and a number that was counted. -/
structure Keyed (r : JobRegistry) : Prop where
  entry : ∀ id i, r.store.find? id = some i → ∃ kind owner, r.roster[i]? = some (id, kind, owner)
  numbered : ∀ e ∈ r.roster, ∃ n, n ≤ (r.counters.find? e.2.1).getD 0 ∧ e.1 = e.2.1 ++ "-" ++ toString n

/-- The same jobs and numbers, and no new entry. -/
structure Shrinks (r r' : JobRegistry) : Prop where
  roster : r'.roster = r.roster
  counters : r'.counters = r.counters
  store : ∀ id i, r'.store.find? id = some i → r.store.find? id = some i

section
variable {r r' r'' : JobRegistry}

theorem Shrinks.refl : Shrinks r r := ⟨rfl, rfl, fun _ _ h => h⟩

theorem Shrinks.trans (first : Shrinks r r') (second : Shrinks r' r'') : Shrinks r r'' :=
  ⟨second.roster.trans first.roster, second.counters.trans first.counters,
    fun id i h => first.store id i (second.store id i h)⟩

theorem Keyed.shrink (keyed : r.Keyed) (shrinks : Shrinks r r') : r'.Keyed where
  entry id i h := shrinks.roster ▸ keyed.entry id i (shrinks.store id i h)
  numbered e member := shrinks.counters ▸ keyed.numbered e (shrinks.roster ▸ member)

theorem shrinks_update {i : Nat} {f : TrackedJob → TrackedJob}
    (same : ∀ j, (f j).id = j.id ∧ (f j).kind = j.kind ∧ (f j).ownerSession = j.ownerSession) :
    Shrinks r (r.update i f) := by
  refine ⟨List.ext_getElem? fun k => ?_, rfl, fun _ _ h => h⟩
  simp only [roster, update, List.getElem?_map, List.getElem?_modify]
  cases r.jobs[k]? with
  | none => rfl
  | some j =>
      obtain ⟨id, kind, owner⟩ := same j
      split
      · exact congrArg some (Prod.ext id (Prod.ext kind owner))
      · rfl

theorem shrinks_report (i : Nat) : Shrinks r (r.update i (·.report)) := shrinks_update fun _ => ⟨rfl, rfl, rfl⟩

theorem reportTerminal_names (j : TrackedJob) : j.reportTerminal.id = j.id ∧ j.reportTerminal.kind = j.kind ∧
    j.reportTerminal.ownerSession = j.ownerSession := by
  unfold TrackedJob.reportTerminal
  split <;> exact ⟨rfl, rfl, rfl⟩

theorem shrinks_reportTerminal (i : Nat) : Shrinks r (r.update i (·.reportTerminal)) := shrinks_update reportTerminal_names

theorem shrinks_erase (id : String) : Shrinks r { r with store := r.store.erase id } :=
  ⟨rfl, rfl, fun id' i h => by
    rw [SortedMap.find?_erase] at h
    split at h
    · cases h
    · exact h⟩

theorem shrinks_stopJob (i : Nat) : Shrinks r (r.stopJob i).1 := by
  unfold stopJob
  split
  · exact .refl
  · split
    · exact .refl
    · have marked : Shrinks r (r.update i fun j => { j with reported := true, inStore := false }) :=
        shrinks_update fun _ => ⟨rfl, rfl, rfl⟩
      dsimp only
      split
      · exact marked
      · exact marked.trans (shrinks_update fun _ => ⟨rfl, rfl, rfl⟩)

theorem shrinks_settle (i : Nat) (outcome : JobOutcome) (now : Int) : Shrinks r (r.settle i outcome now).1 := by
  unfold settle
  split
  · exact .refl
  · split
    · exact .refl
    · exact shrinks_update fun _ => ⟨rfl, rfl, rfl⟩

theorem shrinks_list (owner : Option String) : Shrinks r (r.list owner) := by
  unfold list
  generalize r.store.toList = entries
  have all (held : JobRegistry) (same : Shrinks r held) : Shrinks r (entries.foldl (fun r entry =>
      if r.jobs[entry.2]?.any (fun j => j.ownerSession.isNone || owner.isSome && owner == j.ownerSession)
      then r.hand entry.2 none else r) held) := by
    induction entries generalizing held with
    | nil => exact same
    | cons entry entries ih =>
        rw [List.foldl_cons]
        refine ih _ ?_
        split
        · exact same.trans ⟨rfl, rfl, fun _ _ h => h⟩
        · exact same
  exact all r .refl

theorem shrinks_attempt {α : Type} {result : Except String α} {f : α → JobRegistry × List Frame}
    (go : ∀ a, result = .ok a → Shrinks r (f a).1) : Shrinks r (r.attempt result f).1 := by
  cases result with
  | error message => exact .refl
  | ok a => exact go a rfl

theorem shrinks_kill {name : String} {owner : Option String} {after : JobRegistry × List Frame}
    (done : r.kill name owner = .ok after) : Shrinks r after.1 := by
  simp only [kill, bind, Except.bind] at done
  split at done
  · cases done
  · split at done
    · cases done
      exact shrinks_report _
    · split at done
      · cases done
        exact .refl
      · cases done
        exact shrinks_update fun _ => ⟨rfl, rfl, rfl⟩

theorem shrinks_read {name : String} {owner : Option String} {after : JobRegistry × List Frame}
    (done : r.read name owner = .ok after) : Shrinks r after.1 := by
  simp only [read, bind, Except.bind] at done
  split at done
  · cases done
  · split at done
    · cases done
      exact .refl
    · cases done
      exact (shrinks_reportTerminal _).trans ⟨rfl, rfl, fun _ _ h => h⟩

theorem shrinks_wait {name : String} {owner : Option String} {timeoutMs : Nat} {after : JobRegistry × List Frame}
    (done : r.wait name owner timeoutMs = .ok after) : Shrinks r after.1 := by
  simp only [wait, ensure, bind, Except.bind] at done
  split at done
  · cases done
  · split at done
    · cases done
    · split at done
      · cases done
        exact (shrinks_reportTerminal _).trans ⟨rfl, rfl, fun _ _ h => h⟩
      · cases done
        have queued (i : Nat) : Shrinks r (r.update i fun j => { j with waiters := j.waiters ++ [r.nextWait] }) :=
          shrinks_update fun _ => ⟨rfl, rfl, rfl⟩
        exact (queued _).trans ⟨rfl, rfl, fun _ _ h => h⟩

theorem shrinks_resume {token : Nat} (done : r.resume token = some r') : Shrinks r r' := by
  obtain ⟨⟨_, i⟩, -, rfl⟩ := Option.map_eq_some_iff.mp done
  have resumed (held : JobRegistry) : Shrinks held (held.update i fun j =>
      { j with waiters := j.waiters.filter (· != token) }.reportTerminal) :=
    shrinks_update fun j => reportTerminal_names { j with waiters := j.waiters.filter (· != token) }
  exact Shrinks.trans ⟨rfl, rfl, fun _ _ h => h⟩ ((resumed _).trans ⟨rfl, rfl, fun _ _ h => h⟩)

theorem shrinks_call {c : JobCall} (other : ∀ spec now, c ≠ .start spec now) : Shrinks r (r.call c).1 := by
  cases c with
  | start spec now => exact absurd rfl (other spec now)
  | list owner => exact shrinks_list owner
  | get name owner =>
      refine shrinks_attempt fun a done => ?_
      unfold JobRegistry.get at done
      cases access : r.access name owner with
      | error message =>
          rw [access] at done
          cases done
      | ok found =>
          rw [access] at done
          cases done
          exact ⟨rfl, rfl, fun _ _ h => h⟩
  | read name owner => exact shrinks_attempt fun a done => shrinks_read done
  | kill name owner => exact shrinks_attempt fun a done => shrinks_kill done
  | wait name owner timeoutMs => exact shrinks_attempt fun a done => shrinks_wait done
  | settle job outcome now => exact shrinks_settle job outcome now
  | onJobDone | removeJobDone token | onJobsChanged | removeJobsChanged token | attachController | detachController
  | disposeOwner session | shutdown => exact ⟨rfl, rfl, fun _ _ h => h⟩

theorem shrinks_exec (frame : Frame) : Shrinks r (r.exec frame).1 := by
  cases frame with
  | run i | kill i | stop i | read i | listener => exact .refl
  | change owner after =>
      simp only [exec]
      split <;> exact .refl
  | settled i =>
      simp only [exec]
      split <;> exact .refl
  | announce i shown after =>
      simp only [exec]
      split
      · exact .refl
      · exact ⟨rfl, rfl, fun _ _ h => h⟩
  | dispose session after removed =>
      simp only [exec]
      split
      · exact .refl
      · exact shrinks_stopJob _
  | erase session id => exact shrinks_erase id
  | shut after =>
      simp only [exec]
      split
      · exact ⟨rfl, rfl, fun _ _ h => absurd h (by simp)⟩
      · exact shrinks_stopJob _

theorem shrinks_ret (threw : Bool) (handle : JobHandle) (frame : Frame) : Shrinks r (r.ret threw handle frame).1 := by
  cases frame with
  | run i =>
      simp only [ret]
      split
      · have marked : Shrinks r (r.update i fun j => { j with inStore := false }) := shrinks_update fun _ => ⟨rfl, rfl, rfl⟩
        exact marked.trans (shrinks_erase _)
      · exact shrinks_update fun _ => ⟨rfl, rfl, rfl⟩
  | kill i =>
      simp only [ret]
      split
      · exact .refl
      · exact shrinks_update fun _ => ⟨rfl, rfl, rfl⟩
  | stop i => exact shrinks_update fun _ => ⟨rfl, rfl, rfl⟩
  | read i =>
      simp only [ret]
      split
      · exact .refl
      · exact (shrinks_reportTerminal i).trans ⟨rfl, rfl, fun _ _ h => h⟩
  | _ => exact .refl

theorem id_injective {kind kind' : String} {m n : Nat} (same : kind ++ "-" ++ toString m = kind' ++ "-" ++ toString n) :
    kind = kind' ∧ m = n := by
  have off (n : Nat) : '-' ∉ (toString n).toList := fun member => absurd (decimal_digits member) (by decide)
  have parts := congrArg String.toList same
  simp only [String.toList_append, List.append_assoc] at parts
  obtain ⟨kinds, numbers⟩ := split_last parts (off m) (off n)
  exact ⟨String.toList_inj.mp kinds, decimal_injective (String.toList_inj.mp numbers)⟩

/-- The id of a start is new. -/
theorem Keyed.fresh (keyed : r.Keyed) (kind : String) {i : Nat} :
    r.store.find? (kind ++ "-" ++ toString ((r.counters.find? kind).getD 0 + 1)) ≠ some i := by
  intro taken
  obtain ⟨kind', owner, found⟩ := keyed.entry _ i taken
  obtain ⟨n, counted, same⟩ := keyed.numbered _ (List.mem_of_getElem? found)
  obtain ⟨rfl, rfl⟩ := id_injective same
  exact absurd counted (Nat.not_succ_le_self _)

theorem tabled_iff {i : Nat} : r.tabled i = true ↔ ∃ id, r.store.find? id = some i := by
  simp only [tabled, List.any_eq_true, beq_iff_eq]
  constructor
  · rintro ⟨entry, member, rfl⟩
    exact ⟨entry.1, SortedMap.mem_toList.mp member⟩
  · rintro ⟨id, found⟩
    exact ⟨(id, i), SortedMap.mem_toList.mpr found, rfl⟩

/-- A start puts its job into the table. -/
theorem start_keyed (keyed : r.Keyed) {spec : JobStart} {now : Int} {frames : List Frame}
    (started : r.start spec now = .ok (r', frames)) : r'.Keyed ∧ r'.jobs.length = r.jobs.length + 1 ∧
      ∀ i, r'.tabled i = true ↔ i = r.jobs.length ∨ r.tabled i = true := by
  simp only [start, bind, Except.bind] at started
  split at started
  · cases started
  · cases started
    generalize counted : (r.counters.find? spec.kind).getD 0 + 1 = count
    generalize made : spec.kind ++ "-" ++ toString count = id
    have fresh (i : Nat) : r.store.find? id ≠ some i := made ▸ counted ▸ keyed.fresh spec.kind
    have absent : r.store.contains id = false := by
      rw [SortedMap.contains, Option.isSome_eq_false_iff, Option.isNone_iff_eq_none, Option.eq_none_iff_forall_ne_some]
      exact fresh
    rw [absent]
    refine ⟨⟨fun id' i found => ?_, fun e member => ?_⟩, List.length_append, fun i => ?_⟩
    · simp only [Bool.false_eq_true, if_false, SortedMap.find?_insert] at found
      simp only [roster, List.map_append, List.map_cons, List.map_nil]
      split at found
      · rename_i same
        cases found
        exact ⟨spec.kind, spec.ownerSession, by rw [List.getElem?_append_right (by simp), same]; simp⟩
      · obtain ⟨kind, owner, old⟩ := keyed.entry id' i found
        exact ⟨kind, owner, List.getElem?_append_left (List.getElem?_eq_some_iff.mp old).1 ▸ old⟩
    · simp only [roster, List.map_append, List.map_cons, List.map_nil, SortedMap.find?_insert] at member ⊢
      obtain old | new := List.mem_append.mp member
      · obtain ⟨n, within, same⟩ := keyed.numbered e old
        refine ⟨n, ?_, same⟩
        split
        · rename_i kinds
          rw [kinds] at within
          rw [Option.getD_some]
          omega
        · exact within
      · rw [List.mem_singleton.mp new, if_pos rfl]
        exact ⟨count, Nat.le_refl _, made.symm⟩
    · rw [tabled_iff, tabled_iff]
      simp only [Bool.false_eq_true, if_false, SortedMap.find?_insert]
      constructor
      · rintro ⟨id', found⟩
        split at found
        · cases found
          exact .inl rfl
        · exact .inr ⟨id', found⟩
      · rintro (rfl | ⟨id', found⟩)
        · exact ⟨id, if_pos rfl⟩
        · have other : id' ≠ id := by
            rintro rfl
            exact fresh i found
          exact ⟨id', (if_neg other).trans found⟩

theorem keyed_call (keyed : r.Keyed) (c : JobCall) : (r.call c).1.Keyed := by
  by_cases starts : ∃ spec now, c = .start spec now
  · obtain ⟨spec, now, rfl⟩ := starts
    rw [call]
    cases started : r.start spec now with
    | error message => exact keyed
    | ok after => exact (start_keyed keyed started).1
  · exact keyed.shrink (shrinks_call fun spec now same => starts ⟨spec, now, same⟩)

theorem keyed_next {s s' : JobsRun} {a : JobsAct} (keyed : s.registry.Keyed) (moved : s.next a = some s') :
    s'.registry.Keyed := by
  obtain ⟨r, stack⟩ := s
  cases a with
  | call c =>
      simp only [JobsRun.next] at moved
      split at moved
      · cases moved
        exact keyed_call keyed c
      · cases moved
  | step =>
      cases stack with
      | nil => cases moved
      | cons frame rest =>
          simp only [JobsRun.next] at moved
          split at moved
          · cases moved
          · cases moved
            exact keyed.shrink (shrinks_exec frame)
  | ret threw handle =>
      cases stack with
      | nil => cases moved
      | cons frame rest =>
          simp only [JobsRun.next] at moved
          split at moved
          · cases moved
            exact keyed.shrink (shrinks_ret threw handle frame)
          · cases moved
  | resume token =>
      simp only [JobsRun.next] at moved
      split at moved
      · obtain ⟨r', resumed, rfl⟩ := Option.map_eq_some_iff.mp moved
        exact keyed.shrink (shrinks_resume resumed)
      · cases moved

theorem keyed_reached {s : JobsRun} (reached : jobsSystem.Reached (fun _ _ => True) s) : s.registry.Keyed := by
  refine reached.invariant (I := fun s => s.registry.Keyed) (fun s h => ?_) fun s a s' _ keyed moved _ =>
    keyed_next keyed moved
  obtain ⟨-, maxConcurrent, fresh⟩ := h
  rw [fresh]
  exact ⟨fun id i found => (Option.some_ne_none i found.symm).elim, fun e member => absurd member List.not_mem_nil⟩

/-! Listings -/

theorem hand_visible {held : JobRegistry} (same : held.jobs = r.jobs) {owner : Option String} {i : Nat}
    (seen : r.visible owner i = true) : (held.hand i none).seen.map (·.job) = held.seen.map (·.job) ++ [i] := by
  obtain ⟨j, found, -⟩ := (Option.any_eq_true _ _).mp seen
  rw [hand, same, found, List.map_append]
  rfl

theorem listed_eq (r : JobRegistry) (owner : Option String) :
    r.listed owner = (r.store.toList.filter fun entry => r.visible owner entry.2).map Prod.snd := by
  have all (entries : List (String × Nat)) (held : JobRegistry) (same : held.jobs = r.jobs) :
      (entries.foldl (fun r entry =>
        if r.jobs[entry.2]?.any (fun j => j.ownerSession.isNone || owner.isSome && owner == j.ownerSession)
        then r.hand entry.2 none else r) held).seen.map (·.job) =
          held.seen.map (·.job) ++ (entries.filter fun entry => r.visible owner entry.2).map Prod.snd := by
    induction entries generalizing held with
    | nil => exact (List.append_nil _).symm
    | cons entry entries ih =>
        rw [List.foldl_cons, same]
        change (entries.foldl _ (if r.visible owner entry.2 = true then held.hand entry.2 none else held)).seen.map _ = _
        by_cases seen : r.visible owner entry.2 = true
        · rw [if_pos seen, ih (held.hand entry.2 none) same, hand_visible same seen,
            List.filter_cons_of_pos (p := fun e : String × Nat => r.visible owner e.2) seen, List.append_assoc]
          rfl
        · rw [if_neg seen, ih held same, List.filter_cons_of_neg (p := fun e : String × Nat => r.visible owner e.2) seen]
  rw [listed, list, List.map_drop, all _ r rfl]
  exact List.drop_left' (List.length_map _)

theorem mem_listed {owner : Option String} {i : Nat} :
    i ∈ r.listed owner ↔ r.tabled i = true ∧ r.visible owner i = true := by
  rw [listed_eq, tabled_iff]
  simp only [List.mem_map, List.mem_filter]
  constructor
  · rintro ⟨entry, ⟨member, seen⟩, rfl⟩
    exact ⟨⟨entry.1, SortedMap.mem_toList.mp member⟩, seen⟩
  · rintro ⟨⟨id, found⟩, seen⟩
    exact ⟨(id, i), ⟨SortedMap.mem_toList.mpr found, seen⟩, rfl⟩

theorem mem_registered {owner : Option String} {i : Nat} :
    i ∈ r.registered owner ↔ r.tabled i = true ∧ r.visible owner i = true := by
  rw [registered, List.mem_filter, List.mem_range, Bool.and_eq_true]
  refine ⟨And.right, fun ⟨held, seen⟩ => ⟨?_, held, seen⟩⟩
  obtain ⟨j, found, -⟩ := (Option.any_eq_true _ _).mp seen
  exact (List.getElem?_eq_some_iff.mp found).1

theorem Keyed.idOf (keyed : r.Keyed) {id : String} {i : Nat} (found : r.store.find? id = some i) : r.idOf i = id := by
  obtain ⟨kind, owner, entry⟩ := keyed.entry id i found
  rw [roster, List.getElem?_map] at entry
  obtain ⟨j, job, same⟩ := Option.map_eq_some_iff.mp entry
  rw [JobRegistry.idOf, job]
  exact congrArg Prod.fst same

/-- The ids increase in a listing. -/
theorem listed_sorted (keyed : r.Keyed) (owner : Option String) :
    (r.listed owner).Pairwise fun i k => r.idOf i < r.idOf k := by
  rw [listed_eq, List.pairwise_map]
  refine List.Pairwise.imp_of_mem ?_ (r.store.sorted.filter _)
  intro a b hold hold' before
  rw [keyed.idOf (SortedMap.mem_toList.mp (List.mem_filter.mp hold).1),
    keyed.idOf (SortedMap.mem_toList.mp (List.mem_filter.mp hold').1)]
  exact before

theorem listed_perm (keyed : r.Keyed) (owner : Option String) : (r.listed owner).Perm (r.registered owner) := by
  refine (List.perm_ext_iff_of_nodup ?_ (List.nodup_range.filter _)).mpr fun i => mem_listed.trans mem_registered.symm
  exact (listed_sorted keyed owner).imp fun before same => absurd (same ▸ before) (lt_irrefl _)

end

end JobRegistry

/-- In every state a listing has the visible jobs of the table, each once, and a start has put its job there; they come in
the order they were started exactly when in that order their ids increase as strings. -/
theorem listed_registered_iff {s : JobsRun} (reached : jobsSystem.Reached (fun _ _ => True) s) :
    (∀ spec now r frames, s.registry.start spec now = .ok (r, frames) → ∀ i, r.tabled i = true ↔
      i = s.registry.jobs.length ∨ s.registry.tabled i = true) ∧
    ∀ owner, (s.registry.listed owner).Perm (s.registry.registered owner) ∧
      (s.registry.listed owner = s.registry.registered owner ↔
        (s.registry.registered owner).Pairwise fun i k => s.registry.idOf i < s.registry.idOf k) := by
  have keyed := JobRegistry.keyed_reached reached
  refine ⟨fun spec now r frames started => (JobRegistry.start_keyed keyed started).2.2, fun owner => ?_⟩
  have perm := JobRegistry.listed_perm keyed owner
  have sorted := JobRegistry.listed_sorted keyed owner
  refine ⟨perm, fun same => same ▸ sorted, fun increasing => ?_⟩
  exact perm.eq_of_pairwise (fun a b _ _ before after => absurd (before.trans after) (lt_irrefl _)) sorted increasing

/-- A job of one kind and then one of another. -/
def twoKinds (first second : String) : List JobsAct :=
  [.call .attachController, .call (.start { kind := first, label := "sleep" } 0), .ret false {}, .step,
    .call (.start { kind := second, label := "wait" } 1), .ret false {}, .step]

theorem listed_registered_kinds : ∃ s : JobsRun, s.registry.listed none = s.registry.registered none := by
  have played : (System.follow JobsRun.next (fun _ _ => true) {} (twoKinds "agent" "bash")).any (fun s =>
      s.registry.registered none == [0, 1] && decide (s.registry.idOf 0 < s.registry.idOf 1)) = true := by decide +kernel
  obtain ⟨s, run, shape⟩ := (Option.any_eq_true _ _).mp played
  rw [Bool.and_eq_true, beq_iff_eq, decide_eq_true_eq] at shape
  have reached := System.follow_reached (S := jobsSystem) (P := fun _ _ => True) (fun _ _ _ h => h)
    (fun _ _ _ => trivial) run (.start ⟨rfl, 10, rfl⟩)
  refine ⟨s, ((listed_registered_iff reached).2 none).2.mpr ?_⟩
  rw [shape.1]
  exact List.pairwise_pair.mpr shape.2

/-- A kind after one that stands behind it. -/
theorem listed_disordered : ∃ s, jobsSystem.Reached (fun _ _ => True) s ∧ s.registry.registered none = [0, 1] ∧
    s.registry.listed none = [1, 0] := by
  have played : (System.follow JobsRun.next (fun _ _ => true) {} (twoKinds "bash" "agent")).any (fun s =>
      s.registry.registered none == [0, 1] && s.registry.listed none == [1, 0]) = true := by decide +kernel
  obtain ⟨s, run, shape⟩ := (Option.any_eq_true _ _).mp played
  rw [Bool.and_eq_true, beq_iff_eq, beq_iff_eq] at shape
  have reached := System.follow_reached (S := jobsSystem) (P := fun _ _ => True) (fun _ _ _ h => h)
    (fun _ _ _ => trivial) run (.start ⟨rfl, 10, rfl⟩)
  exact ⟨s, reached, shape⟩

end Araya.Jobs
