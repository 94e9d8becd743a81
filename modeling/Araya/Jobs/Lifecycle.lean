import Araya.Jobs.Registry

/-!
The life of a job. The producer's cancellation runs in the middle of a kill and of a stop,
before the status is written; unless it settles its own job there, a status is written at
most once after the job has settled, and its completion is announced once.
-/

namespace Araya.Jobs
open Sessions (ensure need)

/-- The statuses written: running, then stopping any number of times, then one that is terminal. -/
def Lifecycle (moves : List JobStatus) : Prop :=
  ∃ n, ∃ last : Option JobStatus, (∀ status ∈ last, isTerminal status = true) ∧
    moves = .running :: List.replicate n .stopping ++ last.toList

structure TrackedJob.Sound (j : TrackedJob) : Prop where
  moves : Lifecycle j.moves
  last : j.moves.getLast? = some j.status
  first : ∀ o ∈ j.outcome, j.status = o.status ∧ j.detail = some o.detail ∧ j.output = o.output
  settled : isTerminal j.status = j.outcome.isSome
  due : j.due.isSome = true → j.outcome.isSome = true

def Frame.announces : Frame → Option Nat
  | .settled i | .announce i _ _ => some i
  | _ => none

namespace JobRegistry

def outcomeOf (r : JobRegistry) (i : Nat) : Option JobOutcome := r.jobs[i]?.bind (·.outcome)

def dueOf (r : JobRegistry) (i : Nat) : Option Nat := r.jobs[i]?.bind (·.due)

/-- A terminal status that was handed out is that of the first settlement. -/
def Shows (r : JobRegistry) (i : Nat) (snapshot : JobSnapshot) : Prop :=
  isTerminal snapshot.status = true → ∃ o, r.outcomeOf i = some o ∧ snapshot.status = o.status ∧
    snapshot.detail = some o.detail

/-- The listener `token` is still to be called for the job. -/
def Awaited (pending : List Frame) (i token : Nat) : Prop :=
  .settled i ∈ pending ∨ ∃ settled after, .announce i settled after ∈ pending ∧ after < token

/-- What holds of the registry while the announcements `pending` are under way. -/
structure Sound (r : JobRegistry) (pending : List Frame) : Prop where
  jobs : ∀ j ∈ r.jobs, j.Sound
  seen : ∀ v ∈ r.seen, r.Shows v.job v.snapshot
  output : ∀ v ∈ r.seen, isTerminal v.snapshot.status = true → ∀ text ∈ v.output, ∀ o ∈ r.outcomeOf v.job,
    text = o.output
  frames : ∀ i settled after, .announce i settled after ∈ pending → r.Shows i settled
  announced : ∀ f ∈ pending, ∀ i ∈ f.announces, (r.outcomeOf i).isSome = true
  single : (pending.filterMap (·.announces)).Nodup
  nodup : r.completions.Nodup
  positive : 0 < r.nextListener
  called : ∀ token i, (token, i) ∈ r.completions → (r.outcomeOf i).isSome = true ∧ .settled i ∉ pending ∧
    ∀ settled after, .announce i settled after ∈ pending → token ≤ after
  tokens : ∀ token ∈ r.listeners, 0 < token ∧ token < r.nextListener
  dues : ∀ i n, r.dueOf i = some n → n ≤ r.nextListener
  done : r.listenersClosed = false → ∀ i n, r.dueOf i = some n → ∀ token ∈ r.listeners, token < n →
    (token, i) ∈ r.completions ∨ Awaited pending i token

end JobRegistry

namespace JobsRun

def pending (s : JobsRun) : List Frame := s.stack.filter (·.announces.isSome)

/-- A cancellation that a kill or a stop called has not settled its job. -/
def Defers (s : JobsRun) : JobsAct → Prop
  | .ret threw _ => ∀ i, (s.stack.head? = some (.kill i) ∧ threw = false ∨ s.stack.head? = some (.stop i)) →
      ∀ j ∈ s.registry.jobs[i]?, isTerminal j.status = false
  | _ => True

end JobsRun

/-! Writes -/

/-- A job that is not settled has only ever been running or stopping. -/
theorem Lifecycle.live {moves : List JobStatus} {status : JobStatus} (cycle : Lifecycle moves)
    (last : moves.getLast? = some status) (live : isTerminal status = false) :
    ∃ n, moves = .running :: List.replicate n .stopping := by
  obtain ⟨n, tail, terminal, rfl⟩ := cycle
  cases tail with
  | none => exact ⟨n, List.append_nil _⟩
  | some found =>
      rw [Option.toList_some, List.getLast?_concat] at last
      have ended := terminal found rfl
      rw [Option.some.inj last, live] at ended
      cases ended

theorem Lifecycle.stop {moves : List JobStatus} {status : JobStatus} (cycle : Lifecycle moves)
    (last : moves.getLast? = some status) (live : isTerminal status = false) : Lifecycle (moves ++ [.stopping]) := by
  obtain ⟨n, rfl⟩ := cycle.live last live
  refine ⟨n + 1, none, fun _ h => (by cases h), ?_⟩
  simp [List.replicate_succ']

theorem Lifecycle.settle {moves : List JobStatus} {status final : JobStatus} (cycle : Lifecycle moves)
    (last : moves.getLast? = some status) (live : isTerminal status = false) (terminal : isTerminal final = true) :
    Lifecycle (moves ++ [final]) := by
  obtain ⟨n, rfl⟩ := cycle.live last live
  exact ⟨n, some final, fun _ h => (by cases h; exact terminal), rfl⟩

theorem coerced_terminal (o : JobOutcome) : isTerminal o.coerced.status = true := by
  unfold JobOutcome.coerced
  split
  · assumption
  · rfl

/-- A write that leaves the status, the outcome and their histories as they are. -/
def Keeps (f : TrackedJob → TrackedJob) : Prop := ∀ j,
  (f j).moves = j.moves ∧ (f j).status = j.status ∧ (f j).detail = j.detail ∧ (f j).output = j.output ∧
    (f j).outcome = j.outcome ∧ (f j).due = j.due

theorem keeps_report : Keeps (·.report) := fun _ => ⟨rfl, rfl, rfl, rfl, rfl, rfl⟩

theorem keeps_reportTerminal : Keeps (·.reportTerminal) := fun j => by
  simp only [TrackedJob.reportTerminal]
  split <;> exact ⟨rfl, rfl, rfl, rfl, rfl, rfl⟩

namespace TrackedJob
variable {j : TrackedJob}

theorem Sound.keep (sound : j.Sound) {f : TrackedJob → TrackedJob} (keeps : Keeps f) : (f j).Sound := by
  obtain ⟨moves, status, detail, output, outcome, due⟩ := keeps j
  constructor
  · rw [moves]; exact sound.moves
  · rw [moves, status]; exact sound.last
  · rw [outcome, status, detail, output]; exact sound.first
  · rw [status, outcome]; exact sound.settled
  · rw [due, outcome]; exact sound.due

theorem Sound.unsettled (sound : j.Sound) (live : isTerminal j.status = false) : j.outcome = none := by
  have settled := sound.settled
  rw [live] at settled
  exact Option.isNone_iff_eq_none.mp (by simpa using settled.symm)

theorem Sound.stop (sound : j.Sound) (live : isTerminal j.status = false) : (j.moveTo .stopping).Sound := by
  have unsettled := sound.unsettled live
  constructor
  · exact sound.moves.stop sound.last live
  · simp [moveTo]
  · intro o ho
    rw [moveTo, Option.mem_def, unsettled] at ho
    cases ho
  · rw [moveTo, unsettled]
    rfl
  · exact sound.due

theorem Sound.fresh {j : TrackedJob} (status : j.status = .running) (moves : j.moves = [.running])
    (outcome : j.outcome = none) (due : j.due = none) : j.Sound := by
  constructor
  · exact ⟨0, none, fun _ h => (by cases h), by rw [moves]; rfl⟩
  · rw [moves, status]; rfl
  · rw [outcome]; exact fun _ h => by cases h
  · rw [status, outcome]; rfl
  · rw [due]; exact fun h => by cases h

end TrackedJob

namespace JobRegistry
variable {r r' : JobRegistry} {pending pending' : List Frame}

theorem outcomeOf_update {f : TrackedJob → TrackedJob} (same : ∀ j, (f j).outcome = j.outcome) (i k : Nat) :
    (r.update i f).outcomeOf k = r.outcomeOf k := by
  simp only [outcomeOf, update, List.getElem?_modify]
  cases r.jobs[k]? with
  | none => rfl
  | some j =>
      simp only [Option.bind_some]
      split
      · exact same j
      · rfl

theorem dueOf_update {f : TrackedJob → TrackedJob} (same : ∀ j, (f j).due = j.due) (i k : Nat) :
    (r.update i f).dueOf k = r.dueOf k := by
  simp only [dueOf, update, List.getElem?_modify]
  cases r.jobs[k]? with
  | none => rfl
  | some j =>
      simp only [Option.bind_some]
      split
      · exact same j
      · rfl

theorem mem_update {f : TrackedJob → TrackedJob} {i : Nat} {j : TrackedJob} (h : j ∈ (r.update i f).jobs) :
    j ∈ r.jobs ∨ ∃ j', r.jobs[i]? = some j' ∧ j = f j' := by
  obtain ⟨k, hk⟩ := List.mem_iff_getElem?.mp h
  simp only [update, List.getElem?_modify] at hk
  obtain ⟨j', hj', rfl⟩ := Option.map_eq_some_iff.mp hk
  split
  · next same => exact .inr ⟨j', same ▸ hj', rfl⟩
  · exact .inl (List.mem_of_getElem? hj')

theorem Shows.congr {i : Nat} {snapshot : JobSnapshot} (shows : r.Shows i snapshot)
    (same : r'.outcomeOf i = r.outcomeOf i) : r'.Shows i snapshot := by
  unfold Shows
  rw [same]
  exact shows

/-- Outcomes, listeners and announcements as before. -/
structure Alike (r r' : JobRegistry) : Prop where
  outcome : ∀ i, r'.outcomeOf i = r.outcomeOf i
  due : ∀ i, r'.dueOf i = r.dueOf i
  completions : r'.completions = r.completions
  listeners : ∀ token ∈ r'.listeners, token ∈ r.listeners
  next : r'.nextListener = r.nextListener
  closed : r'.listenersClosed = false → r.listenersClosed = false

theorem Alike.update {i : Nat} {f : TrackedJob → TrackedJob} (outcome : ∀ j, (f j).outcome = j.outcome)
    (due : ∀ j, (f j).due = j.due) : r.Alike (r.update i f) :=
  ⟨outcomeOf_update outcome i, dueOf_update due i, rfl, fun _ h => h, rfl, fun h => h⟩

theorem Sound.alike (sound : r.Sound pending) (alike : r.Alike r') (jobs : ∀ j ∈ r'.jobs, j.Sound)
    (seen : ∀ v ∈ r'.seen, v ∈ r.seen ∨ r.Shows v.job v.snapshot ∧
      (isTerminal v.snapshot.status = true → ∀ text ∈ v.output, ∀ o ∈ r.outcomeOf v.job, text = o.output)) :
    r'.Sound pending where
  jobs := jobs
  seen := fun v hv => ((seen v hv).elim (sound.seen v) (·.1)).congr (alike.outcome _)
  output := by
    intro v hv
    rw [alike.outcome]
    exact (seen v hv).elim (sound.output v) (·.2)
  frames := fun i settled after h => (sound.frames i settled after h).congr (alike.outcome i)
  announced := fun f hf i hi => by rw [alike.outcome]; exact sound.announced f hf i hi
  single := sound.single
  nodup := alike.completions ▸ sound.nodup
  positive := alike.next ▸ sound.positive
  called := by
    intro token i h
    rw [alike.completions] at h
    rw [alike.outcome]
    exact sound.called token i h
  tokens := by
    intro token h
    rw [alike.next]
    exact sound.tokens token (alike.listeners token h)
  dues := by
    intro i n h
    rw [alike.due] at h
    rw [alike.next]
    exact sound.dues i n h
  done := by
    intro closed i n h token ht
    rw [alike.due] at h
    rw [alike.completions]
    exact sound.done (alike.closed closed) i n h token (alike.listeners token ht)

/-- A write to one record. -/
theorem Sound.update (sound : r.Sound pending) {i : Nat} {f : TrackedJob → TrackedJob}
    (outcome : ∀ j, (f j).outcome = j.outcome) (due : ∀ j, (f j).due = j.due)
    (job : ∀ j, r.jobs[i]? = some j → (f j).Sound) : (r.update i f).Sound pending := by
  refine sound.alike (.update outcome due) (fun j hj => ?_) fun v hv => .inl hv
  rcases mem_update hj with old | ⟨j', hj', rfl⟩
  · exact sound.jobs j old
  · exact job j' hj'

theorem Sound.keep (sound : r.Sound pending) (i : Nat) {f : TrackedJob → TrackedJob} (keeps : Keeps f) :
    (r.update i f).Sound pending :=
  sound.update (fun j => (keeps j).2.2.2.2.1) (fun j => (keeps j).2.2.2.2.2) fun _ hj =>
    (sound.jobs _ (List.mem_of_getElem? hj)).keep keeps

theorem snapshot_shows (sound : r.Sound pending) {i : Nat} {j : TrackedJob} (hj : r.jobs[i]? = some j) :
    r.Shows i j.snapshot := by
  intro terminal
  have good := sound.jobs j (List.mem_of_getElem? hj)
  have settled := good.settled
  rw [show isTerminal j.status = true from terminal] at settled
  obtain ⟨o, ho⟩ := Option.isSome_iff_exists.mp settled.symm
  have first := good.first o ho
  exact ⟨o, by simp [outcomeOf, hj, ho], first.1, first.2.1⟩

/-- What is handed out is the record as it is. -/
theorem Sound.hand (sound : r.Sound pending) {i : Nat} {output : Option String}
    (text : ∀ j, r.jobs[i]? = some j → isTerminal j.status = true → ∀ t ∈ output, t = j.output) :
    (r.hand i output).Sound pending := by
  refine sound.alike ⟨fun _ => rfl, fun _ => rfl, rfl, fun _ h => h, rfl, fun h => h⟩ sound.jobs fun v hv => ?_
  rcases List.mem_append.mp hv with old | new
  · exact .inl old
  · obtain ⟨j, hj, rfl⟩ := Option.map_eq_some_iff.mp (Option.mem_toList.mp new)
    refine .inr ⟨snapshot_shows sound hj, fun terminal t ht o ho => ?_⟩
    have found : j.outcome = some o := by simpa [outcomeOf, hj] using ho
    rw [text j hj terminal t ht, ((sound.jobs j (List.mem_of_getElem? hj)).first o found).2.2]

theorem Sound.look (sound : r.Sound pending) (i : Nat) : (r.hand i none).Sound pending :=
  sound.hand fun _ _ _ _ ht => (by cases ht)

/-! Settlement -/

theorem Shows.grow {i : Nat} {snapshot : JobSnapshot} (shows : r.Shows i snapshot)
    (grows : ∀ o, r.outcomeOf i = some o → r'.outcomeOf i = some o) : r'.Shows i snapshot := by
  intro terminal
  obtain ⟨o, ho, status, detail⟩ := shows terminal
  exact ⟨o, grows o ho, status, detail⟩

theorem settled_sound {j : TrackedJob} (sound : j.Sound) (live : isTerminal j.status = false) {o : JobOutcome}
    (terminal : isTerminal o.status = true) {now : Int} {reported : Bool} {due : Option Nat} :
    TrackedJob.Sound { j.moveTo o.status with
      detail := some o.detail
      output := o.output
      finishedAtMs := some now
      reported
      waiters := []
      outcome := j.outcome <|> some o
      due } := by
  have unsettled := sound.unsettled live
  constructor
  · exact sound.moves.settle sound.last live terminal
  · simp [TrackedJob.moveTo]
  · intro o' ho
    simp only [unsettled, Option.mem_def, TrackedJob.moveTo] at ho ⊢
    cases ho
    exact ⟨rfl, rfl, rfl⟩
  · simp only [unsettled, TrackedJob.moveTo]
    exact terminal
  · intro _
    simp only [unsettled]
    rfl

/-- Job `i` settles: its completion is announced when it is in the store. -/
theorem Sound.record (sound : r.Sound pending) {i : Nat} {o : JobOutcome} {f : TrackedJob → TrackedJob}
    {inStore : Bool} (unsettled : r.outcomeOf i = none) (own : (r.update i f).outcomeOf i = some o)
    (date : (r.update i f).dueOf i = if inStore then some r.nextListener else none)
    (other : ∀ k, k ≠ i → (r.update i f).outcomeOf k = r.outcomeOf k ∧ (r.update i f).dueOf k = r.dueOf k)
    (job : ∀ j, r.jobs[i]? = some j → (f j).Sound) :
    (r.update i f).Sound ((if inStore then [.settled i] else []) ++ pending) := by
  have apart : ∀ k, (r.outcomeOf k).isSome = true → k ≠ i := by
    rintro k settled rfl
    rw [unsettled] at settled
    cases settled
  have grows : ∀ k o, r.outcomeOf k = some o → (r.update i f).outcomeOf k = some o := by
    intro k o ho
    rw [(other k (apart k (by rw [ho]; rfl))).1, ho]
  have settled : ∀ k, (r.outcomeOf k).isSome = true → ((r.update i f).outcomeOf k).isSome = true := by
    intro k hk
    rwa [(other k (apart k hk)).1]
  have fresh : ∀ g ∈ (if inStore then [Frame.settled i] else []), g = .settled i := by
    intro g hg
    split at hg
    · exact List.mem_singleton.mp hg
    · cases hg
  have announce : ∀ {k shown after}, .announce k shown after ∈ (if inStore then [Frame.settled i] else []) ++ pending →
      .announce k shown after ∈ pending := by
    intro k shown after h
    rcases List.mem_append.mp h with new | old
    · cases fresh _ new
    · exact old
  constructor
  · intro j hj
    rcases mem_update hj with old | ⟨j', hj', rfl⟩
    · exact sound.jobs j old
    · exact job j' hj'
  · exact fun v hv => (sound.seen v hv).grow (grows v.job)
  · intro v hv terminal text ht o' ho
    obtain ⟨shown, found, -⟩ := sound.seen v hv terminal
    rw [(other v.job (apart v.job (by rw [found]; rfl))).1] at ho
    exact sound.output v hv terminal text ht o' ho
  · exact fun k shown after h => (sound.frames k shown after (announce h)).grow (grows k)
  · intro g hg k hk
    rcases List.mem_append.mp hg with new | old
    · rw [fresh g new] at hk
      cases hk
      rw [own]
      rfl
    · exact settled k (sound.announced g old k hk)
  · rw [List.filterMap_append, List.nodup_append]
    refine ⟨?_, sound.single, ?_⟩
    · split <;> simp [Frame.announces]
    · intro k hk k' hk' same
      obtain ⟨g, hg, hgk⟩ := List.mem_filterMap.mp hk
      obtain ⟨g', hg', hgk'⟩ := List.mem_filterMap.mp hk'
      rw [fresh g hg] at hgk
      cases hgk
      exact apart k' (sound.announced g' hg' k' hgk') same.symm
  · exact sound.nodup
  · exact sound.positive
  · intro token k h
    obtain ⟨some, pend, after⟩ := sound.called token k h
    refine ⟨settled k some, fun h' => ?_, fun shown n h' => after shown n (announce h')⟩
    rcases List.mem_append.mp h' with new | old
    · cases fresh _ new
      exact apart i some rfl
    · exact pend old
  · exact sound.tokens
  · intro k n hn
    by_cases same : k = i
    · subst same
      rw [date] at hn
      split at hn
      · cases hn
        exact Nat.le_refl _
      · cases hn
    · rw [(other k same).2] at hn
      exact sound.dues k n hn
  · intro closed k n hn token ht lt
    by_cases same : k = i
    · subst same
      rw [date] at hn
      split at hn
      · next kept => exact .inr (.inl (by simp [kept]))
      · cases hn
    · rw [(other k same).2] at hn
      rcases sound.done closed k n hn token ht lt with done | awaited | ⟨shown, after, h, hlt⟩
      · exact .inl done
      · exact .inr (.inl (List.mem_append_right _ awaited))
      · exact .inr (.inr ⟨shown, after, List.mem_append_right _ h, hlt⟩)

theorem Sound.settle (sound : r.Sound pending) (i : Nat) (outcome : JobOutcome) (now : Int) :
    (r.settle i outcome now).1.Sound ((r.settle i outcome now).2.filter (·.announces.isSome) ++ pending) := by
  unfold JobRegistry.settle
  cases hj : r.jobs[i]? with
  | none => exact sound
  | some j =>
      cases live : isTerminal j.status with
      | true =>
          simp only [live, if_true]
          exact sound
      | false =>
          simp only [live, Bool.false_eq_true, if_false]
          have good := sound.jobs j (List.mem_of_getElem? hj)
          have unsettled := good.unsettled live
          have undue : j.due = none := by
            have due := good.due
            rw [unsettled] at due
            exact Option.not_isSome_iff_eq_none.mp fun h => by cases due h
          have frames : (if j.inStore = true then [Frame.change j.ownerSession 0, .settled i] else []).filter
              (·.announces.isSome) = if j.inStore = true then [.settled i] else [] := by
            split <;> rfl
          rw [frames]
          refine sound.record (o := outcome.coerced) ?_ ?_ ?_ (fun k hk => ?_) fun j' hj' => ?_
          · simp [outcomeOf, hj, unsettled]
          · simp [outcomeOf, JobRegistry.update, hj, TrackedJob.moveTo, unsettled]
          · simp [dueOf, JobRegistry.update, hj, undue]
          · simp [outcomeOf, dueOf, JobRegistry.update, Ne.symm hk]
          · cases hj.symm.trans hj'
            exact settled_sound good live (coerced_terminal outcome)

/-! Announcements -/

theorem Sound.listen (sound : r.Sound pending) : ({ r with
    listeners := r.listeners.insert r.nextListener, nextListener := r.nextListener + 1 } : JobRegistry).Sound pending := by
  constructor
  · exact sound.jobs
  · exact sound.seen
  · exact sound.output
  · exact sound.frames
  · exact sound.announced
  · exact sound.single
  · exact sound.nodup
  · exact Nat.succ_pos _
  · exact sound.called
  · intro token h
    rcases SortedSet.mem_insert.mp h with rfl | old
    · exact ⟨sound.positive, Nat.lt_succ_self _⟩
    · exact ⟨(sound.tokens token old).1, Nat.lt_succ_of_lt (sound.tokens token old).2⟩
  · exact fun i n h => Nat.le_succ_of_le (sound.dues i n h)
  · intro closed i n h token ht lt
    rcases SortedSet.mem_insert.mp ht with rfl | old
    · exact absurd (sound.dues i n h) (Nat.not_le.mpr lt)
    · exact sound.done closed i n h token old lt

theorem Sound.observe (sound : r.Sound pending) (tokens : SortedSet Nat) : ({ r with
    changed := tokens, nextListener := r.nextListener + 1 } : JobRegistry).Sound pending := by
  constructor
  · exact sound.jobs
  · exact sound.seen
  · exact sound.output
  · exact sound.frames
  · exact sound.announced
  · exact sound.single
  · exact sound.nodup
  · exact Nat.succ_pos _
  · exact sound.called
  · exact fun token h => ⟨(sound.tokens token h).1, Nat.lt_succ_of_lt (sound.tokens token h).2⟩
  · exact fun i n h => Nat.le_succ_of_le (sound.dues i n h)
  · exact sound.done

/-- An announcement ends: its listeners are closed, or all were called. -/
theorem Sound.drop {g : Frame} (sound : r.Sound (g :: pending))
    (ended : r.listenersClosed = false → ∃ i shown after, g = .announce i shown after ∧ ∀ token ∈ r.listeners, token ≤ after) :
    r.Sound pending := by
  have sub : ∀ {h}, h ∈ pending → h ∈ g :: pending := List.mem_cons_of_mem g
  constructor
  · exact sound.jobs
  · exact sound.seen
  · exact sound.output
  · exact fun i shown after h => sound.frames i shown after (sub h)
  · exact fun h hh => sound.announced h (sub hh)
  · exact sound.single.sublist ((List.sublist_cons_self g pending).filterMap _)
  · exact sound.nodup
  · exact sound.positive
  · intro token i h
    obtain ⟨settled, pend, after⟩ := sound.called token i h
    exact ⟨settled, fun h' => pend (sub h'), fun shown n h' => after shown n (sub h')⟩
  · exact sound.tokens
  · exact sound.dues
  · intro closed i n h token ht lt
    obtain ⟨i', shown', after', rfl, all⟩ := ended closed
    rcases sound.done closed i n h token ht lt with done | awaited | ⟨shown, after, h', hlt⟩
    · exact .inl done
    · exact .inr (.inl (List.mem_of_ne_of_mem (fun same => by cases same) awaited))
    · rcases List.mem_cons.mp h' with same | rest
      · cases same
        exact absurd (all token ht) (Nat.not_le.mpr hlt)
      · exact .inr (.inr ⟨shown, after, rest, hlt⟩)

/-- The listeners of a settled job are about to be called. -/
theorem Sound.announce {i : Nat} {shown : JobSnapshot} (sound : r.Sound (.settled i :: pending)) (shows : r.Shows i shown) :
    r.Sound (.announce i shown 0 :: pending) := by
  have others : ∀ {k g}, g ∈ pending → g.announces = some k → k ≠ i := by
    rintro k g hg hk rfl
    exact (List.nodup_cons.mp sound.single).1 (List.mem_filterMap.mpr ⟨g, hg, hk⟩)
  constructor
  · exact sound.jobs
  · exact sound.seen
  · exact sound.output
  · intro k shown' after h
    rcases List.mem_cons.mp h with same | rest
    · cases same
      exact shows
    · exact sound.frames k shown' after (List.mem_cons_of_mem _ rest)
  · intro g hg k hk
    rcases List.mem_cons.mp hg with rfl | rest
    · exact sound.announced (.settled i) List.mem_cons_self k hk
    · exact sound.announced g (List.mem_cons_of_mem _ rest) k hk
  · exact sound.single
  · exact sound.nodup
  · exact sound.positive
  · intro token k h
    obtain ⟨settled, pend, after⟩ := sound.called token k h
    refine ⟨settled, fun h' => ?_, fun shown' n h' => ?_⟩
    · exact pend (List.mem_cons_of_mem _ (List.mem_of_ne_of_mem (fun same => by cases same) h'))
    · rcases List.mem_cons.mp h' with same | rest
      · cases same
        exact absurd List.mem_cons_self pend
      · exact after shown' n (List.mem_cons_of_mem _ rest)
  · exact sound.tokens
  · exact sound.dues
  · intro closed k n h token ht lt
    rcases sound.done closed k n h token ht lt with done | awaited | ⟨shown', after, h', hlt⟩
    · exact .inl done
    · rcases List.mem_cons.mp awaited with same | rest
      · cases same
        exact .inr (.inr ⟨shown, 0, List.mem_cons_self, (sound.tokens token ht).1⟩)
      · exact .inr (.inl (List.mem_cons_of_mem _ rest))
    · rcases List.mem_cons.mp h' with same | rest
      · cases same
      · exact .inr (.inr ⟨shown', after, List.mem_cons_of_mem _ rest, hlt⟩)

/-- The next listener is called. -/
theorem Sound.callNext {i after token : Nat} {shown : JobSnapshot} (sound : r.Sound (.announce i shown after :: pending))
    (h : r.listeners.toList.find? (after < ·) = some token) :
    ({ r with completions := r.completions ++ [(token, i)], seen := r.seen ++ [{ job := i, snapshot := shown }] } :
      JobRegistry).Sound (.announce i shown token :: pending) := by
  obtain ⟨listens, picked, least⟩ := SortedSet.find?_least h
  have later : after < token := of_decide_eq_true picked
  have others : ∀ {k g}, g ∈ pending → g.announces = some k → k ≠ i := by
    rintro k g hg hk rfl
    exact (List.nodup_cons.mp sound.single).1 (List.mem_filterMap.mpr ⟨g, hg, hk⟩)
  have shows := sound.frames i shown after List.mem_cons_self
  constructor
  · exact sound.jobs
  · intro v hv
    rcases List.mem_append.mp hv with old | new
    · exact sound.seen v old
    · cases List.mem_singleton.mp new
      exact shows
  · intro v hv
    rcases List.mem_append.mp hv with old | new
    · exact sound.output v old
    · cases List.mem_singleton.mp new
      exact fun _ text ht => by cases ht
  · intro k shown' n h'
    rcases List.mem_cons.mp h' with same | rest
    · cases same
      exact shows
    · exact sound.frames k shown' n (List.mem_cons_of_mem _ rest)
  · intro g hg k hk
    rcases List.mem_cons.mp hg with rfl | rest
    · exact sound.announced (.announce i shown after) List.mem_cons_self k hk
    · exact sound.announced g (List.mem_cons_of_mem _ rest) k hk
  · exact sound.single
  · rw [List.nodup_append]
    refine ⟨sound.nodup, by simp, ?_⟩
    rintro _ old _ new rfl
    cases List.mem_singleton.mp new
    exact absurd ((sound.called token i old).2.2 shown after List.mem_cons_self) (Nat.not_le.mpr later)
  · exact sound.positive
  · intro token' k h'
    rcases List.mem_append.mp h' with old | new
    · obtain ⟨settled, pend, before⟩ := sound.called token' k old
      refine ⟨settled, fun h' => ?_, fun shown' n h' => ?_⟩
      · exact pend (List.mem_cons_of_mem _ (List.mem_of_ne_of_mem (fun same => by cases same) h'))
      · rcases List.mem_cons.mp h' with same | rest
        · cases same
          exact Nat.le_of_lt (Nat.lt_of_le_of_lt (before shown after List.mem_cons_self) later)
        · exact before shown' n (List.mem_cons_of_mem _ rest)
    · cases List.mem_singleton.mp new
      refine ⟨sound.announced _ List.mem_cons_self i rfl, fun h' => ?_, fun shown' n h' => ?_⟩
      · rcases List.mem_cons.mp h' with same | rest
        · cases same
        · exact others rest rfl rfl
      · rcases List.mem_cons.mp h' with same | rest
        · cases same
          exact Nat.le_refl _
        · exact absurd rfl (others rest rfl)
  · exact sound.tokens
  · exact sound.dues
  · intro closed k n h' token' ht lt
    rcases sound.done closed k n h' token' ht lt with done | awaited | ⟨shown', after', h', hlt⟩
    · exact .inl (List.mem_append_left _ done)
    · exact .inr (.inl (List.mem_cons_of_mem _ (List.mem_of_ne_of_mem (fun same => by cases same) awaited)))
    · rcases List.mem_cons.mp h' with same | rest
      · cases same
        rcases Nat.eq_or_lt_of_le (least token' ht (decide_eq_true hlt)) with rfl | more
        · exact .inl (List.mem_append_right _ (List.mem_singleton.mpr rfl))
        · exact .inr (.inr ⟨shown, token, List.mem_cons_self, more⟩)
      · exact .inr (.inr ⟨shown', after', List.mem_cons_of_mem _ rest, hlt⟩)

/-! Calls -/

theorem Sound.same (sound : r.Sound pending) (jobs : r'.jobs = r.jobs) (seen : r'.seen = r.seen)
    (completions : r'.completions = r.completions) (listeners : ∀ token ∈ r'.listeners, token ∈ r.listeners)
    (next : r'.nextListener = r.nextListener) (closed : r'.listenersClosed = false → r.listenersClosed = false) :
    r'.Sound pending := by
  refine sound.alike ⟨fun i => ?_, fun i => ?_, completions, listeners, next, closed⟩ (jobs ▸ sound.jobs)
    fun v hv => .inl (seen ▸ hv)
  · rw [outcomeOf, jobs, outcomeOf]
  · rw [dueOf, jobs, dueOf]

theorem Sound.stopped (sound : r.Sound pending) {i : Nat} (live : ∀ j ∈ r.jobs[i]?, isTerminal j.status = false) :
    (r.stopped i).Sound pending := by
  refine sound.update (fun _ => rfl) (fun _ => rfl) fun j hj => ?_
  have stopped := (sound.jobs j (List.mem_of_getElem? hj)).stop (live j hj)
  exact ⟨stopped.moves, stopped.last, stopped.first, stopped.settled, stopped.due⟩

theorem keeps_remove (reported : TrackedJob → Bool) :
    Keeps fun j => { j with reported := reported j, inStore := false } := fun _ => ⟨rfl, rfl, rfl, rfl, rfl, rfl⟩

theorem Sound.stopJob (sound : r.Sound pending) (i : Nat) :
    (r.stopJob i).1.Sound pending ∧ (r.stopJob i).2.filter (·.announces.isSome) = [] := by
  unfold JobRegistry.stopJob
  cases hj : r.jobs[i]? with
  | none => exact ⟨sound, rfl⟩
  | some j =>
      cases live : isTerminal j.status with
      | true =>
          simp only [live, if_true]
          exact ⟨sound, rfl⟩
      | false =>
          simp only [live, Bool.false_eq_true, if_false]
          have removed := sound.keep i (keeps_remove fun _ => true)
          split
          · exact ⟨removed, rfl⟩
          · refine ⟨removed.stopped fun j' hj' => ?_, rfl⟩
            rw [JobRegistry.update, List.getElem?_modify_eq, hj] at hj'
            cases hj'
            exact live

theorem Sound.start (sound : r.Sound pending) {spec : JobStart} {now : Int} {frames : List Frame}
    (h : r.start spec now = .ok (r', frames)) : r'.Sound pending ∧ frames.filter (·.announces.isSome) = [] := by
  simp only [JobRegistry.start, bind, Except.bind] at h
  split at h
  · cases h
  · cases h
    refine ⟨sound.alike ⟨fun k => ?_, fun k => ?_, rfl, fun _ h => h, rfl, fun h => h⟩ (fun j hj => ?_)
      fun v hv => .inl hv, rfl⟩
    · simp only [outcomeOf, List.getElem?_append, List.getElem?_singleton]
      split
      · rfl
      · next beyond =>
          rw [List.getElem?_eq_none (Nat.not_lt.mp beyond)]
          split <;> rfl
    · simp only [dueOf, List.getElem?_append, List.getElem?_singleton]
      split
      · rfl
      · next beyond =>
          rw [List.getElem?_eq_none (Nat.not_lt.mp beyond)]
          split <;> rfl
    · rcases List.mem_append.mp hj with old | new
      · exact sound.jobs j old
      · cases List.mem_singleton.mp new
        exact .fresh rfl rfl rfl rfl

theorem access_job {id : String} {owner : Option String} {i : Nat} {j : TrackedJob}
    (h : r.access id owner = .ok (i, j)) : r.jobs[i]? = some j := by
  simp only [access, need, ensure, bind, Except.bind] at h
  cases store : r.store.find? id with
  | none =>
      rw [store] at h
      cases h
  | some i' =>
      rw [store] at h
      cases job : r.jobs[i']? with
      | none =>
          simp only [job] at h
          cases h
      | some j' =>
          simp only [job] at h
          split at h
          · cases h
          · cases h
            exact job

theorem Sound.kill (sound : r.Sound pending) {id : String} {owner : Option String} {frames : List Frame}
    (h : r.kill id owner = .ok (r', frames)) : r'.Sound pending ∧ frames.filter (·.announces.isSome) = [] := by
  simp only [JobRegistry.kill, bind, Except.bind] at h
  split at h
  · cases h
  · next found =>
      have hj := access_job found
      split at h
      · cases h
        exact ⟨sound.keep _ keeps_report, rfl⟩
      · next live =>
          split at h
          · cases h
            exact ⟨sound, rfl⟩
          · cases h
            refine ⟨sound.update (fun _ => rfl) (fun _ => rfl) fun j' hj' => ?_, rfl⟩
            cases hj.symm.trans hj'
            exact ((sound.jobs _ (List.mem_of_getElem? hj)).stop (Bool.not_eq_true _ ▸ live)).keep keeps_report

theorem Sound.read (sound : r.Sound pending) {id : String} {owner : Option String} {frames : List Frame}
    (h : r.read id owner = .ok (r', frames)) : r'.Sound pending ∧ frames.filter (·.announces.isSome) = [] := by
  simp only [JobRegistry.read, bind, Except.bind] at h
  split at h
  · cases h
  · next found =>
      have hj := access_job found
      split at h
      · cases h
        exact ⟨sound, rfl⟩
      · cases h
        refine ⟨(sound.keep _ keeps_reportTerminal).hand fun j' hj' terminal text ht => ?_, rfl⟩
        rw [JobRegistry.update, List.getElem?_modify_eq, hj] at hj'
        cases hj'
        cases ht
        have keeps := keeps_reportTerminal
        rw [(keeps _).2.1] at terminal
        rw [if_pos terminal]
        exact ((keeps _).2.2.2.1).symm

theorem Sound.wait (sound : r.Sound pending) {id : String} {owner : Option String} {timeoutMs : Nat}
    {frames : List Frame} (h : r.wait id owner timeoutMs = .ok (r', frames)) :
    r'.Sound pending ∧ frames.filter (·.announces.isSome) = [] := by
  simp only [JobRegistry.wait, bind, Except.bind] at h
  split at h
  · cases h
  · split at h
    · cases h
    · split at h
      · cases h
        exact ⟨(sound.keep _ keeps_reportTerminal).look _, rfl⟩
      · cases h
        refine ⟨Sound.same (sound.keep _ (f := fun j => { j with waiters := j.waiters ++ [r.nextWait] })
          fun _ => ⟨rfl, rfl, rfl, rfl, rfl, rfl⟩) rfl rfl rfl (fun _ h => h) rfl (fun h => h), rfl⟩

theorem Sound.resume (sound : r.Sound pending) {token : Nat} (h : r.resume token = some r') : r'.Sound pending := by
  obtain ⟨⟨found, i⟩, -, rfl⟩ := Option.map_eq_some_iff.mp h
  have resumed : ({ r with waits := r.waits.filter (·.1 != token) } : JobRegistry).Sound pending :=
    sound.same rfl rfl rfl (fun _ h => h) rfl fun h => h
  have keeps : Keeps fun j => { j with waiters := j.waiters.filter (· != token) }.reportTerminal := fun j =>
    keeps_reportTerminal { j with waiters := j.waiters.filter (· != token) }
  exact (resumed.keep i keeps).look i

theorem Sound.list (sound : r.Sound pending) (owner : Option String) : (r.list owner).Sound pending := by
  unfold JobRegistry.list
  generalize r.store.toList = entries
  induction entries generalizing r with
  | nil => exact sound
  | cons entry entries ih =>
      rw [List.foldl_cons]
      split
      · exact ih (sound.look _)
      · exact ih sound

theorem Sound.get (sound : r.Sound pending) {id : String} {owner : Option String} (h : r.get id owner = .ok r') :
    r'.Sound pending := by
  unfold JobRegistry.get at h
  cases access : r.access id owner with
  | error message =>
      rw [access] at h
      cases h
  | ok found =>
      rw [access] at h
      cases h
      exact sound.look _

/-- A call that announces nothing. -/
theorem Sound.attempt {α : Type} (sound : r.Sound pending) {result : Except String α}
    {f : α → JobRegistry × List Frame}
    (go : ∀ a, result = .ok a → (f a).1.Sound pending ∧ (f a).2.filter (·.announces.isSome) = []) :
    (r.attempt result f).1.Sound ((r.attempt result f).2.filter (·.announces.isSome) ++ pending) := by
  cases result with
  | error message => exact sound
  | ok a =>
      obtain ⟨after, silent⟩ := go a rfl
      rw [JobRegistry.attempt, silent]
      exact after

theorem Sound.call (sound : r.Sound pending) (c : JobCall) :
    (r.call c).1.Sound ((r.call c).2.filter (·.announces.isSome) ++ pending) := by
  cases c with
  | start spec now => exact sound.attempt fun a h => sound.start h
  | list owner => exact sound.list owner
  | get name owner => exact sound.attempt fun a h => ⟨sound.get h, rfl⟩
  | read name owner => exact sound.attempt fun a h => sound.read h
  | kill name owner => exact sound.attempt fun a h => sound.kill h
  | wait name owner timeoutMs => exact sound.attempt fun a h => sound.wait h
  | settle job outcome now => exact sound.settle job outcome now
  | onJobDone => exact sound.listen
  | removeJobDone token =>
      exact sound.same rfl rfl rfl (fun _ h => (SortedSet.mem_erase.mp h).2) rfl fun h => h
  | onJobsChanged => exact sound.observe _
  | removeJobsChanged token | attachController | detachController | disposeOwner session =>
      exact sound.same rfl rfl rfl (fun _ h => h) rfl fun h => h
  | shutdown => exact sound.same rfl rfl rfl (fun _ h => h) rfl fun h => (by cases h)

theorem Sound.exec {frame : Frame} (internal : frame.isUser = false)
    (sound : r.Sound ([frame].filter (·.announces.isSome) ++ pending)) :
    (r.exec frame).1.Sound ((r.exec frame).2.filter (·.announces.isSome) ++ pending) := by
  cases frame with
  | run i | kill i | stop i | read i | listener => cases internal
  | change owner after =>
      simp only [JobRegistry.exec]
      split <;> exact sound
  | settled i =>
      simp only [JobRegistry.exec]
      split
      · next closed => exact sound.drop fun opened => (by rw [closed] at opened; cases opened)
      · have settled := sound.announced (.settled i) List.mem_cons_self i rfl
        cases hj : r.jobs[i]? with
        | none =>
            rw [outcomeOf, hj] at settled
            cases settled
        | some j => exact sound.announce (snapshot_shows sound hj)
  | announce i shown after =>
      simp only [JobRegistry.exec]
      split
      · next none =>
          refine sound.drop fun _ => ⟨i, shown, after, rfl, fun token ht => ?_⟩
          have skipped := List.find?_eq_none.mp none token ht
          exact Nat.not_lt.mp (by simpa using skipped)
      · next found => exact sound.callNext found
  | dispose session after removed =>
      simp only [JobRegistry.exec]
      split
      · split <;> exact sound
      · next id i _ =>
          obtain ⟨stopped, silent⟩ := sound.stopJob i
          rw [List.filter_append, silent]
          exact stopped
  | erase session id => exact sound.same rfl rfl rfl (fun _ h => h) rfl fun h => h
  | shut after =>
      simp only [JobRegistry.exec]
      split
      · exact sound.same rfl rfl rfl (fun _ h => h) rfl fun h => h
      · next id i _ =>
          obtain ⟨stopped, silent⟩ := sound.stopJob i
          rw [List.filter_append, silent]
          exact stopped

theorem Sound.ret {frame : Frame} (sound : r.Sound pending) {threw : Bool} {handle : JobHandle} (user : frame.isUser = true)
    (defers : ∀ i, (frame = .kill i ∧ threw = false ∨ frame = .stop i) → ∀ j ∈ r.jobs[i]?, isTerminal j.status = false) :
    (r.ret threw handle frame).1.Sound ((r.ret threw handle frame).2.filter (·.announces.isSome) ++ pending) := by
  cases frame with
  | run i =>
      simp only [JobRegistry.ret]
      split
      · refine Sound.same (sound.keep i (f := fun j => { j with inStore := false }) ?_) rfl rfl rfl (fun _ h => h) rfl
          fun h => h
        exact fun _ => ⟨rfl, rfl, rfl, rfl, rfl, rfl⟩
      · exact sound.keep i fun _ => ⟨rfl, rfl, rfl, rfl, rfl, rfl⟩
  | kill i =>
      simp only [JobRegistry.ret]
      split
      · exact sound
      · next returned =>
          refine sound.update (fun _ => rfl) (fun _ => rfl) fun j hj => ?_
          have live := defers i (.inl ⟨rfl, Bool.not_eq_true _ ▸ returned⟩) j hj
          exact ((sound.jobs j (List.mem_of_getElem? hj)).stop live).keep keeps_report
  | stop i => exact sound.stopped (defers i (.inr rfl))
  | read i =>
      simp only [JobRegistry.ret]
      split
      · exact sound
      · exact (sound.keep i keeps_reportTerminal).look i
  | listener => exact sound
  | _ => cases user

end JobRegistry

namespace JobsRun

/-- One step, as long as no cancellation settles its own job. -/
theorem sound_next {s s' : JobsRun} {a : JobsAct} (sound : s.registry.Sound s.pending) (defers : s.Defers a)
    (h : s.next a = some s') : s'.registry.Sound s'.pending := by
  obtain ⟨r, stack⟩ := s
  cases a with
  | call c =>
      simp only [next] at h
      split at h
      · cases h
        rw [pending, List.filter_append]
        exact sound.call c
      · cases h
  | step =>
      cases stack with
      | nil => cases h
      | cons frame rest =>
          simp only [next] at h
          split at h
          · cases h
          · next internal =>
              cases h
              rw [pending, List.filter_append]
              refine JobRegistry.Sound.exec (Bool.not_eq_true _ ▸ internal) ?_
              rw [← List.filter_append]
              exact sound
  | ret threw handle =>
      cases stack with
      | nil => cases h
      | cons frame rest =>
          simp only [next] at h
          split at h
          · next user =>
              cases h
              have kept : pending ⟨r, frame :: rest⟩ = rest.filter (·.announces.isSome) := by
                cases frame <;> first | rfl | cases user
              rw [kept] at sound
              rw [pending, List.filter_append]
              refine sound.ret user fun i mine j hj => defers i ?_ j hj
              rcases mine with ⟨rfl, returned⟩ | rfl
              · exact .inl ⟨rfl, returned⟩
              · exact .inr rfl
          · cases h
  | resume token =>
      simp only [next] at h
      split at h
      · obtain ⟨r', hr, rfl⟩ := Option.map_eq_some_iff.mp h
        exact sound.resume hr
      · cases h

theorem sound_start {s : JobsRun} (h : jobsSystem.start s) : s.registry.Sound s.pending := by
  obtain ⟨empty, maxConcurrent, fresh⟩ := h
  rw [pending, empty, fresh]
  constructor <;> simp [JobRegistry.dueOf]

end JobsRun

/-- While no cancellation that a kill, a disposal or the teardown calls settles its own job
before it returns: each job has run, been stopping and settled at most once, in this order;
whoever reads a settled job sees its first outcome; and each listener that was there when the
job settled is called for it exactly once. -/
theorem job_lifecycle {s : JobsRun} (reached : jobsSystem.Reached JobsRun.Defers s) :
    (∀ j ∈ s.registry.jobs, Lifecycle j.moves ∧ j.moves.getLast? = some j.status ∧
      (isTerminal j.status = true → ∃ o, j.outcome = some o ∧ j.status = o.status)) ∧
    (∀ v ∈ s.registry.seen, isTerminal v.snapshot.status = true → ∃ o, s.registry.outcomeOf v.job = some o ∧
      v.snapshot.status = o.status ∧ v.snapshot.detail = some o.detail ∧ ∀ text ∈ v.output, text = o.output) ∧
    s.registry.completions.Nodup ∧
    (∀ token i, (token, i) ∈ s.registry.completions → (s.registry.outcomeOf i).isSome = true) ∧
    (s.stack = [] → s.registry.listenersClosed = false → ∀ i n, s.registry.dueOf i = some n →
      ∀ token ∈ s.registry.listeners, token < n → (token, i) ∈ s.registry.completions) := by
  have sound : s.registry.Sound s.pending := by
    refine reached.invariant (I := fun s => s.registry.Sound s.pending) (fun _ h => JobsRun.sound_start h) ?_
    intro s a s' _ sound h defers
    exact JobsRun.sound_next sound defers h
  refine ⟨fun j hj => ?_, fun v hv terminal => ?_, sound.nodup, fun token i h => (sound.called token i h).1, ?_⟩
  · have good := sound.jobs j hj
    refine ⟨good.moves, good.last, fun terminal => ?_⟩
    have settled := good.settled
    rw [terminal] at settled
    obtain ⟨o, ho⟩ := Option.isSome_iff_exists.mp settled.symm
    exact ⟨o, ho, (good.first o ho).1⟩
  · obtain ⟨o, ho, status, detail⟩ := sound.seen v hv terminal
    exact ⟨o, ho, status, detail, fun text ht => sound.output v hv terminal text ht o ho⟩
  · intro idle closed i n due token ht lt
    have quiet : s.pending = [] := by rw [JobsRun.pending, idle]; rfl
    rcases sound.done closed i n due token ht lt with done | awaited | ⟨_, _, h, _⟩
    · exact done
    · rw [quiet] at awaited
      cases awaited
    · rw [quiet] at h
      cases h

/-- `Defers`, computed. -/
def defers? (s : JobsRun) : JobsAct → Bool
  | .ret threw _ =>
    let live := fun i => s.registry.jobs[i]?.all fun j => !isTerminal j.status
    match s.stack.head? with
    | some (.kill i) => threw || live i
    | some (.stop i) => live i
    | _ => true
  | _ => true

theorem defers_of_check {s : JobsRun} {a : JobsAct} (h : defers? s a = true) : s.Defers a := by
  cases a with
  | ret threw handle =>
      intro i mine j hj
      rcases mine with ⟨top, returned⟩ | top
      · rw [defers?, top, returned] at h
        simpa [Option.mem_def.mp hj] using h
      · rw [defers?, top] at h
        simpa [Option.mem_def.mp hj] using h
  | _ => trivial

/-- A job that can be cancelled, and a kill of it that waits for the cancellation. -/
def killing : List JobsAct :=
  [.call .attachController, .call .onJobDone, .call (.start { kind := "bash", label := "sleep" } 0),
    .ret false { cancels := true }, .step, .call (.kill "bash-1" none)]

/-- The settlement of the job, its observers and its listener. -/
def settling : List JobsAct := [.call (.settle 0 {} 1), .step, .step, .step, .ret false {}, .step]

/-- The producer settles after the kill: the listener is called. -/
theorem job_lifecycle_killed : ∃ s : JobsRun, s.registry.dueOf 0 = some 2 ∧ (1, 0) ∈ s.registry.completions := by
  have played : (System.follow JobsRun.next defers? {} (killing ++ [.ret false {}, .step] ++ settling)).any (fun s =>
      s.stack.isEmpty && !s.registry.listenersClosed && s.registry.dueOf 0 == some 2 &&
        decide (1 ∈ s.registry.listeners)) = true := by decide +kernel
  obtain ⟨s, hs, shape⟩ := (Option.any_eq_true _ _).mp played
  simp only [Bool.and_eq_true, List.isEmpty_iff, Bool.not_eq_true', beq_iff_eq, decide_eq_true_eq] at shape
  obtain ⟨⟨⟨idle, closed⟩, due⟩, listens⟩ := shape
  have reached := System.follow_reached (S := jobsSystem) (P := JobsRun.Defers) (fun _ _ _ h => h)
    (fun _ _ => defers_of_check) hs (.start ⟨rfl, 10, rfl⟩)
  exact ⟨s, due, (job_lifecycle reached).2.2.2.2 idle closed 0 2 due 1 listens (by decide)⟩

/-- The cancellation settles the job, and the kill writes `stopping` over it. -/
theorem job_revived : ¬ ∀ s, jobsSystem.Reached (fun _ _ => True) s → ∀ j ∈ s.registry.jobs, Lifecycle j.moves := by
  intro cycles
  have played : (System.follow JobsRun.next (fun _ _ => true) {} (killing ++ settling ++ [.ret false {}])).any (fun s =>
      s.registry.jobs.any fun j => j.moves == [.running, .completed, .stopping]) = true := by decide +kernel
  obtain ⟨s, hs, shape⟩ := (Option.any_eq_true _ _).mp played
  obtain ⟨j, hj, moves⟩ := List.any_eq_true.mp shape
  have reached := System.follow_reached (S := jobsSystem) (P := fun _ _ => True) (fun _ _ _ h => h)
    (fun _ _ _ => trivial) hs (.start ⟨rfl, 10, rfl⟩)
  have cycle := cycles s reached j hj
  rw [eq_of_beq moves] at cycle
  have last : [JobStatus.running, .completed, .stopping].getLast? = some .stopping := rfl
  obtain ⟨n, same⟩ := cycle.live last rfl
  have settled : JobStatus.completed ∈ JobStatus.running :: List.replicate n .stopping := same ▸ by decide
  simp [List.mem_replicate] at settled

end Araya.Jobs
