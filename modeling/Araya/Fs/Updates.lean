import Araya.Fs.Coreutil
import Araya.Util.Lists

/-!
No update is lost. A version the policy keeps for a session, or has given to one of its calls, was met at
the file; while it is still the version of the file, nobody has changed the file since the session saw it.
-/

namespace Araya.Fs

def Deed.observes (owner : String) (path : Path) : Deed → Bool
  | .observed o p _ => o = owner ∧ p = path
  | .wrote .. => false

def Deed.changes (path : Path) : Deed → Bool
  | .observed .. => false
  | .wrote _ p _ _ changed => p = path ∧ changed

def Deed.by? (owner : String) : Deed → Bool
  | .observed o .. | .wrote o .. => o = owner

def Deed.version? (path : Path) : Deed → Option String
  | .observed _ p version => if p = path then some version else none
  | .wrote _ p _ after _ => if p = path then some after else none

/-- What was done since the owner last saw the file. -/
def sinceObserved (owner : String) (path : Path) (history : List Deed) : List Deed :=
  history.takeWhile fun d => !d.observes owner path

/-- Another owner has created or changed the file since the owner last saw it. -/
def disturbed (owner : String) (path : Path) (history : List Deed) : Bool :=
  (sinceObserved owner path history).any fun d => d.changes path && !d.by? owner

/-- The versions met at a file. -/
def met (path : Path) (history : List Deed) : List String := history.filterMap (·.version? path)

/-- The version changes whenever the content does, and does not come back. -/
def timely : List Deed → Bool
  | [] => true
  | .observed .. :: older => timely older
  | .wrote _ path before after changed :: older =>
    timely older && if before = some after then !changed else !(met path older).contains after

def FileCall.target? : FileCall → Option FsTarget
  | .write target .. | .edit target .. => some target
  | .done _ => none

/-- A create-only write whose test found no file still finds none when it is resumed. -/
def Standing (s : FileTools) : FileOp → Prop
  | .finish q _ => ∀ target parent content intent, s.calls[q]? = some (.write target parent content false (some intent)) →
      intent.decision = .createIfAbsent → s.disk.isRegularFile target.pathKey = false
  | _ => True

/-- A call that ends over an existing file which another owner has created or changed since its own
owner saw it fails, and the file stays as it is. -/
def Guarded (s : FileTools) (op : FileOp) (s' : FileTools) : Prop :=
  ∀ q io call target, op = .finish q io → s.calls[q]? = some call → call.target? = some target →
    s.disk.isRegularFile target.pathKey = true → disturbed target.owner target.pathKey s.history = true →
    (∃ result, s'.calls[q]? = some (.done result) ∧ result.isError = true) ∧
      s'.disk target.pathKey = s.disk target.pathKey

/-! The disk -/

namespace Disk
variable {disk disk' : Disk} {path q : Path}

theorem file?_put (path : Path) (file : File) (q : Path) :
    (disk.put path (.file file)).file? q = if q = path then some file else disk.file? q := by
  unfold file? put
  by_cases same : q = path
  · rw [if_pos same, if_pos same]
  · rw [if_neg same, if_neg same]

theorem file?_createDirectories (made : disk.createDirectories path = some disk') : disk'.file? q = disk.file? q := by
  unfold createDirectories at made
  split at made <;> cases made
  unfold file?
  dsimp only
  by_cases absent : q ∈ path.inits ∧ disk q = none
  · rw [if_pos absent, absent.2]
  · rw [if_neg absent]

theorem eq_of_isRegularFile (made : disk.createDirectories path = some disk') (file : disk.isRegularFile q = true) :
    disk' q = disk q := by
  unfold createDirectories at made
  split at made <;> cases made
  refine if_neg fun absent => ?_
  unfold isRegularFile file? at file
  rw [absent.2] at file
  cases file

end Disk

/-! The versions of the policy -/

namespace FileTools
variable {s s' : FileTools} {owner version : String} {path : Path}

/-- The owner has this version of the file. -/
structure Known (s : FileTools) (owner : String) (path : Path) (version : String) : Prop where
  met : version ∈ Fs.met path s.history
  quiet : s.disk.readVersion path = some version → ∀ d ∈ sinceObserved owner path s.history, d.changes path = false

theorem Known.undisturbed (h : s.Known owner path version) (current : s.disk.readVersion path = some version) :
    disturbed owner path s.history = false := by
  refine List.any_eq_false.mpr fun d member => ?_
  rw [h.quiet current d member]
  exact Bool.false_ne_true

theorem sinceObserved_cons (d : Deed) (history : List Deed) : sinceObserved owner path (d :: history) =
    if d.observes owner path then [] else d :: sinceObserved owner path history := by
  unfold sinceObserved
  rw [List.takeWhile_cons]
  cases d.observes owner path <;> rfl

theorem met_cons {d : Deed} {history : List Deed} (member : version ∈ met path history) : version ∈ met path (d :: history) := by
  obtain ⟨e, there, same⟩ := List.mem_filterMap.mp member
  exact List.mem_filterMap.mpr ⟨e, List.mem_cons_of_mem _ there, same⟩

/-- A deed that changes nothing is added to the history. -/
theorem Known.add (h : s.Known owner path version) (d : Deed) (idle : d.changes path = false)
    (history : s'.history = d :: s.history)
    (disk : s'.disk.readVersion path = some version → s.disk.readVersion path = some version) : s'.Known owner path version := by
  refine ⟨history ▸ met_cons h.met, fun current e member => ?_⟩
  rw [history, sinceObserved_cons] at member
  split at member
  · cases member
  · rcases List.mem_cons.mp member with rfl | old
    · exact idle
    · exact h.quiet (disk current) e old

theorem Known.alike (h : s.Known owner path version) (history : s'.history = s.history)
    (disk : s'.disk.readVersion path = s.disk.readVersion path) : s'.Known owner path version :=
  ⟨history ▸ h.met, fun current => history ▸ h.quiet (disk ▸ current)⟩

theorem readVersion_rewrite (target : FsTarget) (file : File) (path : Path) : (s.rewrite target file).disk.readVersion path =
    if path = target.pathKey then some file.version else s.disk.readVersion path := by
  show ((s.disk.put target.pathKey (.file file)).file? path).map _ = _
  rw [Disk.file?_put]
  split <;> rfl

/-- A file is written: who knew another version of it still has that one, and it is not the current one. -/
theorem Known.rewrite (h : s.Known owner path version) (target : FsTarget) (file : File)
    (fresh : timely (s.rewrite target file).history = true) : (s.rewrite target file).Known owner path version := by
  by_cases here : path = target.pathKey
  · subst here
    have own : (s.rewrite target file).disk.readVersion target.pathKey = some file.version := by
      rw [readVersion_rewrite, if_pos rfl]
    simp only [FileTools.rewrite, timely, Bool.and_eq_true] at fresh
    by_cases same : version = file.version
    · subst same
      have before : s.disk.readVersion target.pathKey = some file.version := by
        by_contra other
        have unseen := fresh.2
        rw [if_neg other, List.contains_iff_mem.mpr h.met] at unseen
        cases unseen
      have kept := fresh.2
      rw [if_pos before] at kept
      refine h.add _ ?_ rfl fun _ => before
      refine decide_eq_false fun both => ?_
      rw [both.2] at kept
      cases kept
    · exact ⟨met_cons h.met, fun current => absurd (Option.some.inj (current.symm.trans own)) same⟩
  · refine h.add _ ?_ rfl fun current => ?_
    · exact decide_eq_false fun both => here both.1.symm
    · rwa [readVersion_rewrite, if_neg here] at current

theorem Known.emitObserved (h : s.Known owner path version) (target : FsTarget) (observation : FsObservation) :
    (s.emitObserved target observation).Known owner path version := by
  unfold FileTools.emitObserved
  obtain ⟨present, seen⟩ := observation
  cases present with
  | false => exact h.alike rfl rfl
  | true => exact h.add (.observed target.owner target.pathKey seen) rfl rfl id

/-- The owner sees the file. -/
theorem known_emitObserved (target : FsTarget) (version : String) :
    (s.emitObserved target { present := true, version }).Known target.owner target.pathKey version := by
  have latest : (s.emitObserved target { present := true, version }).history =
      .observed target.owner target.pathKey version :: s.history := rfl
  refine ⟨?_, fun _ d member => ?_⟩
  · rw [latest]
    exact List.mem_filterMap.mpr ⟨_, List.mem_cons_self, if_pos rfl⟩
  · have own : (Deed.observed target.owner target.pathKey version).observes target.owner target.pathKey = true :=
      decide_eq_true ⟨rfl, rfl⟩
    rw [latest, sinceObserved_cons, if_pos own] at member
    cases member

/-- What a call knows once the policy has decided. -/
def Informed (s : FileTools) : FileCall → Prop
  | .write target _ _ _ (some intent) => intent.decision = .createIfAbsent ∨
      intent.decision = .replaceIfVersion ∧ s.Known target.owner target.pathKey intent.version
  | .edit target _ _ _ (some intent) => intent.error ≠ "" ∨
      intent.decision = .replaceIfVersion ∧ s.Known target.owner target.pathKey intent.version
  | _ => True

/-- What the policy keeps and has decided is known. -/
structure Kept (s : FileTools) : Prop where
  seen : ∀ owner path version, s.gate.observed owner path = some { present := true, version } → s.Known owner path version
  informed : ∀ (q : Nat) (call : FileCall), s.calls[q]? = some call → s.Informed call

/-- What is known in one state is known in the other. -/
def Onward (s s' : FileTools) : Prop := ∀ owner path version, s.Known owner path version → s'.Known owner path version

theorem Informed.onward {call : FileCall} (h : s.Informed call) (onward : s.Onward s') : s'.Informed call := by
  cases call with
  | write target parent content existed intent =>
      cases intent with
      | none => trivial
      | some intent => exact h.imp_right fun replaces => ⟨replaces.1, onward _ _ _ replaces.2⟩
  | edit target oldString newString replaceAll intent =>
      cases intent with
      | none => trivial
      | some intent => exact h.imp_right fun replaces => ⟨replaces.1, onward _ _ _ replaces.2⟩
  | done result => trivial

theorem Onward.refl (s : FileTools) : s.Onward s := fun _ _ _ h => h

theorem onward_emitObserved (target : FsTarget) (observation : FsObservation) : s.Onward (s.emitObserved target observation) :=
  fun _ _ _ h => h.emitObserved target observation

/-- The calls stay as they were but for one. -/
theorem Kept.replace (h : s.Kept) {q : Nat} {call : FileCall} (informed : s.Informed call) :
    ({ s with calls := s.calls.set q call } : FileTools).Kept := by
  refine ⟨fun owner path version found => (h.seen owner path version found).alike rfl rfl, fun j other found => ?_⟩
  have onward : s.Onward { s with calls := s.calls.set q call } := fun _ _ _ known => known.alike rfl rfl
  rcases getElem?_set_cases found with ⟨-, rfl⟩ | old
  · exact informed.onward onward
  · exact (h.informed j other old).onward onward

theorem Kept.finished (h : s.Kept) (q : Nat) (result : Agent.ToolResult) : (s.finished q result).Kept :=
  h.replace (show s.Informed (.done result) from trivial)

theorem Kept.begins (h : s.Kept) {call : FileCall} (informed : s.Informed call) : (s.begins call).Kept := by
  have onward : s.Onward (s.begins call) := fun _ _ _ known => known.alike rfl rfl
  refine ⟨fun owner path version found => onward _ _ _ (h.seen owner path version found), fun j other found => ?_⟩
  rcases getElem?_concat found with old | ⟨-, rfl⟩
  · exact (h.informed j other old).onward onward
  · exact informed.onward onward

theorem Kept.emitObserved (h : s.Kept) (target : FsTarget) (observation : FsObservation) :
    (s.emitObserved target observation).Kept := by
  refine ⟨fun owner path version found => ?_, fun q call found => (h.informed q call found).onward (onward_emitObserved _ _)⟩
  by_cases anonymous : target.owner.isEmpty = true
  · have same : (s.emitObserved target observation).gate = s.gate := if_pos anonymous
    rw [same] at found
    exact (h.seen owner path version found).emitObserved _ _
  · have updated : (s.emitObserved target observation).gate.observed owner path =
        if owner = target.owner ∧ path = target.pathKey then some observation else s.gate.observed owner path :=
      congrArg (fun gate : ObservationGate => gate.observed owner path) (if_neg anonymous)
    rw [updated] at found
    split at found
    · next here =>
        obtain ⟨rfl, rfl⟩ := here
        cases found
        exact known_emitObserved target version
    · exact (h.seen owner path version found).emitObserved _ _

theorem Kept.rewrite (h : s.Kept) (target : FsTarget) (file : File) (fresh : timely (s.rewrite target file).history = true) :
    (s.rewrite target file).Kept :=
  ⟨fun owner path version found => (h.seen owner path version found).rewrite target file fresh,
    fun q call found => (h.informed q call found).onward fun _ _ _ known => known.rewrite target file fresh⟩

/-- A step adds to the history. -/
def Extends (s s' : FileTools) : Prop := ∃ deeds, s'.history = deeds ++ s.history

theorem timely_older {newer older : List Deed} (h : timely (newer ++ older) = true) : timely older = true := by
  induction newer with
  | nil => exact h
  | cons d newer ih =>
      cases d with
      | observed => exact ih h
      | wrote => exact ih (Bool.and_eq_true_iff.mp h).1

theorem Extends.timely (h : s.Extends s') (fresh : timely s'.history = true) : timely s.history = true := by
  obtain ⟨deeds, added⟩ := h
  exact timely_older (added ▸ fresh)

theorem extends_emitObserved (target : FsTarget) (observation : FsObservation) : s.Extends (s.emitObserved target observation) := by
  unfold FileTools.emitObserved Extends
  dsimp only
  split
  · exact ⟨[_], rfl⟩
  · exact ⟨[], rfl⟩

/-- What `overwrite` does: it is refused, breaks off in the file, or writes it and observes it. -/
theorem overwrite_cases (q : Nat) (target : FsTarget) (content : String) (io : Io) (broken text : String) :
    (∃ error, s.overwrite q target content io broken text = s.finished q (Agent.errorResult error)) ∨
      (∃ file error, s.overwrite q target content io broken text =
        (s.rewrite target file).finished q (Agent.errorResult error)) ∨
      ∃ file, s.overwrite q target content io broken text =
        ((s.rewrite target file).emitPresent target).finished q (textResult text) := by
  unfold overwrite
  dsimp only
  split
  · exact .inl ⟨_, rfl⟩
  · cases io with
    | broken kept mtime => exact .inr (.inl ⟨_, _, rfl⟩)
    | written mtime => exact .inr (.inr ⟨_, rfl⟩)
    | _ => exact .inl ⟨_, rfl⟩

theorem Kept.overwrite (h : s.Kept) {q : Nat} {target : FsTarget} {content : String} {io : Io} {broken text : String}
    (fresh : timely (s.overwrite q target content io broken text).history = true) :
    (s.overwrite q target content io broken text).Kept := by
  obtain ⟨error, refused⟩ | ⟨file, error, broke⟩ | ⟨file, wrote⟩ :=
    overwrite_cases (s := s) q target content io broken text
  · exact refused ▸ h.finished q _
  · rw [broke] at fresh ⊢
    exact (h.rewrite target file fresh).finished q _
  · rw [wrote] at fresh ⊢
    have added : (s.rewrite target file).Extends ((s.rewrite target file).emitPresent target) := extends_emitObserved ..
    have older : timely (s.rewrite target file).history = true := added.timely fresh
    exact ((h.rewrite target file older).emitObserved target _).finished q _

theorem extends_overwrite (q : Nat) (target : FsTarget) (content : String) (io : Io) (broken text : String) :
    s.Extends (s.overwrite q target content io broken text) := by
  obtain ⟨error, refused⟩ | ⟨file, error, broke⟩ | ⟨file, wrote⟩ :=
    overwrite_cases (s := s) q target content io broken text
  · rw [refused]
    exact ⟨[], rfl⟩
  · rw [broke]
    exact ⟨[_], rfl⟩
  · rw [wrote]
    exact ⟨[_, _], rfl⟩

theorem Kept.createDirectories (h : s.Kept) {disk : Disk} {path : Path} (made : s.disk.createDirectories path = some disk) :
    ({ s with disk } : FileTools).Kept := by
  have onward : s.Onward { s with disk } := fun owner p version known =>
    known.alike rfl (congrArg (Option.map File.version) (Disk.file?_createDirectories made))
  exact ⟨fun owner p version found => onward _ _ _ (h.seen owner p version found),
    fun q call found => (h.informed q call found).onward onward⟩

/-- What `finishWrite` does: it fails, or it overwrites the file of a disk with the directories. -/
theorem finishWrite_cases (q : Nat) (target : FsTarget) (parent content : String) (existed : Bool) (intent : FsWriteIntent)
    (io : Io) : (∃ text, s.finishWrite q target parent content existed intent io = s.finished q (Agent.errorResult text)) ∨
      ¬ (intent.decision = .createIfAbsent ∧ existed = true) ∧
      (intent.decision = .replaceIfVersion → s.disk.readVersion target.pathKey = some intent.version) ∧
      ∃ disk broken text, (disk = s.disk ∨ s.disk.createDirectories target.pathKey.dropLast = some disk) ∧
        s.finishWrite q target parent content existed intent io = { s with disk }.overwrite q target content io broken text := by
  unfold finishWrite
  dsimp only
  split
  · exact .inl ⟨_, rfl⟩
  · next create =>
      split
      · exact .inl ⟨_, rfl⟩
      · next replace =>
          have current (decided : intent.decision = .replaceIfVersion) : s.disk.readVersion target.pathKey = some intent.version := by
            by_contra other
            exact replace ⟨decided, other⟩
          split
          · exact .inl ⟨_, rfl⟩
          · exact .inl ⟨_, rfl⟩
          · next io disk made _ =>
              refine .inr ⟨create, current, disk, _, _, ?_, rfl⟩
              split at made
              · exact .inl (Option.some.inj made).symm
              · exact .inr made

theorem finishEdit_cases (q : Nat) (target : FsTarget) (oldString newString : String) (replaceAll : Bool) (intent : FsEditIntent)
    (io : Io) : (∃ text, s.finishEdit q target oldString newString replaceAll intent io = s.finished q (Agent.errorResult text)) ∨
      intent.error = "" ∧
      (intent.decision = .replaceIfVersion → s.disk.readVersion target.pathKey = some intent.version) ∧
      ∃ content broken text, s.finishEdit q target oldString newString replaceAll intent io =
        s.overwrite q target content io broken text := by
  unfold finishEdit
  dsimp only
  split
  · exact .inl ⟨_, rfl⟩
  · next clean =>
      split
      · exact .inl ⟨_, rfl⟩
      · next replace =>
          have current (decided : intent.decision = .replaceIfVersion) : s.disk.readVersion target.pathKey = some intent.version := by
            by_contra other
            exact replace ⟨decided, other⟩
          split
          · exact .inl ⟨_, rfl⟩
          · split
            · exact .inl ⟨_, rfl⟩
            · split
              · exact .inl ⟨_, rfl⟩
              · exact .inr ⟨not_not.mp clean, current, _, _, _, rfl⟩

theorem Kept.handleRead (h : s.Kept) (tools : Coreutil) (session : String) (arguments : Json) (opens : Bool) :
    (tools.handleRead s session arguments opens).1.Kept := by
  unfold Coreutil.handleRead
  dsimp only
  split
  · exact h
  · split
    · exact h
    · split
      · exact h
      · have looked : (if (s.disk (tools.target session (Coreutil.argument arguments "file_path")).pathKey).isNone then
            s.emitObserved (tools.target session (Coreutil.argument arguments "file_path")) {} else s).Kept := by
          split
          · exact h.emitObserved _ _
          · exact h
        split
        · exact looked
        · exact looked.emitObserved _ _

theorem extends_handleRead (tools : Coreutil) (session : String) (arguments : Json) (opens : Bool) :
    s.Extends (tools.handleRead s session arguments opens).1 := by
  unfold Coreutil.handleRead
  dsimp only
  split
  · exact ⟨[], rfl⟩
  · split
    · exact ⟨[], rfl⟩
    · split
      · exact ⟨[], rfl⟩
      · have looked : s.Extends (if (s.disk (tools.target session (Coreutil.argument arguments "file_path")).pathKey).isNone then
            s.emitObserved (tools.target session (Coreutil.argument arguments "file_path")) {} else s) := by
          split
          · exact extends_emitObserved _ _
          · exact ⟨[], rfl⟩
        obtain ⟨deeds, before⟩ := looked
        split
        · exact ⟨deeds, before⟩
        · exact ⟨_ :: deeds, congrArg (List.cons _) before⟩

theorem lookup_seen (h : s.Kept) {target : FsTarget} (found : s.gate.lookup target = some { present := true, version }) :
    s.Known target.owner target.pathKey version := by
  unfold ObservationGate.lookup at found
  split at found
  · cases found
  · exact h.seen _ _ _ found

theorem informed_decideWrite (h : s.Kept) (target : FsTarget) (parent content : String) (existed : Bool) :
    s.Informed (.write target parent content existed (s.gate.decideWrite { target })) := by
  unfold ObservationGate.decideWrite
  split
  · next version found => exact .inr ⟨rfl, lookup_seen h found⟩
  · exact .inl rfl

theorem append_ne_empty {opening : String} (given : opening ≠ "") (rest : String) : opening ++ rest ≠ "" :=
  fun empty => given (String.append_eq_empty_iff.mp empty).1

theorem informed_decideEdit (h : s.Kept) (target : FsTarget) (oldString newString : String) (replaceAll : Bool) :
    s.Informed (.edit target oldString newString replaceAll (s.gate.decideEdit { target })) := by
  have quoted : "cannot modify \"" ++ target.displayPath ≠ "" := append_ne_empty (by decide) _
  have missing : "cannot edit \"" ++ target.displayPath ≠ "" := append_ne_empty (by decide) _
  unfold ObservationGate.decideEdit
  split
  · exact .inl (append_ne_empty quoted _)
  · exact .inl (append_ne_empty missing _)
  · next version found => exact .inr ⟨rfl, lookup_seen h found⟩

theorem Kept.decides (h : s.Kept) {q : Nat} (step : s.decides q = some s') : s'.Kept := by
  unfold FileTools.decides at step
  split at step
  · cases step
    exact h.replace (informed_decideWrite h _ _ _ _)
  · cases step
    exact h.replace (informed_decideEdit h _ _ _ _)
  · cases step

theorem Kept.finishes (h : s.Kept) {q : Nat} {io : Io} (step : s.finishes q io = some s') (fresh : timely s'.history = true) :
    s'.Kept := by
  unfold FileTools.finishes at step
  split at step
  · cases step
    obtain ⟨text, failed⟩ | ⟨-, -, disk, broken, text, made, wrote⟩ := finishWrite_cases (s := s) q _ _ _ _ _ io
    · exact failed ▸ h.finished q _
    · rw [wrote] at fresh ⊢
      rcases made with rfl | made
      · exact h.overwrite fresh
      · exact (h.createDirectories made).overwrite fresh
  · cases step
    obtain ⟨text, failed⟩ | ⟨-, -, content, broken, text, wrote⟩ := finishEdit_cases (s := s) q _ _ _ _ _ io
    · exact failed ▸ h.finished q _
    · rw [wrote] at fresh ⊢
      exact h.overwrite fresh
  · cases step

theorem Kept.next (h : s.Kept) {tools : Coreutil} {op : FileOp} (step : s.next tools op = some s')
    (fresh : timely s'.history = true) : s'.Kept := by
  cases op with
  | read session arguments opens =>
      cases step
      exact h.handleRead tools session arguments opens
  | write session arguments =>
      cases step
      unfold Coreutil.handleWrite
      dsimp only
      split <;> exact h.begins trivial
  | edit session arguments =>
      cases step
      unfold Coreutil.handleEdit
      dsimp only
      split
      · exact h.begins trivial
      · split
        · exact h.begins trivial
        · split <;> exact h.begins trivial
  | decide q => exact h.decides step
  | finish q io => exact h.finishes step fresh

theorem extends_next {tools : Coreutil} {op : FileOp} (step : s.next tools op = some s') : s.Extends s' := by
  have here : s'.history = s.history → s.Extends s' := fun same => ⟨[], same⟩
  cases op with
  | read session arguments opens =>
      cases step
      exact extends_handleRead tools session arguments opens
  | write session arguments =>
      cases step
      refine here ?_
      unfold Coreutil.handleWrite
      dsimp only
      split <;> rfl
  | edit session arguments =>
      cases step
      refine here ?_
      unfold Coreutil.handleEdit
      dsimp only
      split
      · rfl
      · split
        · rfl
        · split <;> rfl
  | decide q =>
      simp only [next, decides] at step
      split at step
      · cases step
        exact here rfl
      · cases step
        exact here rfl
      · cases step
  | finish q io =>
      simp only [next, finishes] at step
      split at step
      · cases step
        obtain ⟨text, failed⟩ | ⟨-, -, disk, broken, text, made, wrote⟩ := finishWrite_cases (s := s) q _ _ _ _ _ io
        · exact here (by rw [failed]; rfl)
        · rw [wrote]
          exact extends_overwrite (s := { s with disk }) ..
      · cases step
        obtain ⟨text, failed⟩ | ⟨-, -, content, broken, text, wrote⟩ := finishEdit_cases (s := s) q _ _ _ _ _ io
        · exact here (by rw [failed]; rfl)
        · rw [wrote]
          exact extends_overwrite ..
      · cases step

theorem Kept.start (disk : Disk) : ({ disk } : FileTools).Kept :=
  ⟨fun _ _ _ found => (by cases found), fun _ _ found => (by cases found)⟩

/-- The call fails and leaves the disk alone. -/
theorem guarded_failed {q : Nat} {call : FileCall} {target : FsTarget} (found : s.calls[q]? = some call) {text : String} :
    (∃ result, (s.finished q (Agent.errorResult text)).calls[q]? = some (.done result) ∧ result.isError = true) ∧
      (s.finished q (Agent.errorResult text)).disk target.pathKey = s.disk target.pathKey := by
  have bound := (List.getElem?_eq_some_iff.mp found).1
  exact ⟨⟨Agent.errorResult text, List.getElem?_set_self bound, rfl⟩, rfl⟩

theorem Kept.guarded (h : s.Kept) {tools : Coreutil} {op : FileOp} (standing : Standing s op) (step : s.next tools op = some s') :
    Guarded s op s' := by
  rintro q io call target rfl found targeted file foreign
  have stale {version : String} (known : s.Known target.owner target.pathKey version)
      (current : s.disk.readVersion target.pathKey = some version) : False :=
    Bool.false_ne_true ((known.undisturbed current).symm.trans foreign)
  have informed := h.informed q call found
  simp only [FileTools.next, FileTools.finishes, found] at step
  split at step
  · next target' parent content existed intent same =>
      cases step
      cases same
      cases targeted
      obtain ⟨text, failed⟩ | ⟨create, current, -⟩ := finishWrite_cases (s := s) q target parent content existed intent io
      · rw [failed]
        exact guarded_failed found
      · rcases informed with absent | ⟨replace, known⟩
        · cases existed with
          | true => exact absurd ⟨absent, rfl⟩ create
          | false =>
              have none := standing target parent content intent found absent
              exact absurd (none.symm.trans file) Bool.false_ne_true
        · exact (stale known (current replace)).elim
  · next target' oldString newString replaceAll intent same =>
      cases step
      cases same
      cases targeted
      obtain ⟨text, failed⟩ | ⟨clean, current, -⟩ := finishEdit_cases (s := s) q target oldString newString replaceAll intent io
      · rw [failed]
        exact guarded_failed found
      · rcases informed with error | ⟨replace, known⟩
        · exact absurd clean error
        · exact (stale known (current replace)).elim
  · cases step

end FileTools

/-- In every run, a step that finds the test of a create-only write still true loses no update. -/
theorem updates_guarded {tools : Coreutil} {s s' : FileTools} {op : FileOp} (h : (fileTools tools).Reached (fun _ _ => True) s)
    (fresh : timely s.history = true) (standing : Standing s op) (step : s.next tools op = some s') : Guarded s op s' := by
  have kept : timely s.history = true → s.Kept := by
    refine h.invariant (I := fun s => timely s.history = true → s.Kept) ?_ fun s op s' _ kept step _ fresh =>
      (kept ((FileTools.extends_next step).timely fresh)).next step fresh
    rintro s ⟨disk, rfl⟩ -
    exact .start disk
  exact (kept fresh).guarded standing step

/-- Tools whose paths all lie in one directory. -/
def homeTools : Coreutil where
  resolve _ filePath := { key := ["home", filePath], parent := "/home" }

def fileArguments (content : String) : Json := .obj [("file_path", .str "notes"), ("content", .str content)]

def editArguments (oldString newString : String) : Json :=
  .obj [("file_path", .str "notes"), ("old_string", .str oldString), ("new_string", .str newString)]

/-- A write that was told to replace the version of its file. -/
def FileCall.replaces : FileCall → Bool
  | .write _ _ _ existed (some intent) => existed && intent.decision == .replaceIfVersion
  | _ => false

def FileCall.succeeded : FileCall → Bool
  | .done result => !result.isError
  | _ => false

/-- A session writes a file, another reads and edits it, and the first one's next write comes up against it. -/
theorem updates_guarded_edited : ∃ s s' : FileTools, disturbed "a" ["home", "notes"] s.history = true ∧
    s.next homeTools (.finish 2 (.written 7)) = some s' ∧ Guarded s (.finish 2 (.written 7)) s' := by
  have played : (System.follow (FileTools.next · homeTools) (fun _ _ => true) ({ disk := fun _ => none } : FileTools)
      [.write "a" (fileArguments "1"), .decide 0, .finish 0 (.written 5), .read "b" (fileArguments "") true,
        .edit "b" (editArguments "1" "2"), .write "a" (fileArguments "3"), .decide 1, .decide 2, .finish 1 (.written 6)]).any
      (fun s => timely s.history && disturbed "a" ["home", "notes"] s.history && s.calls[2]?.any FileCall.replaces &&
        (s.next homeTools (.finish 2 (.written 7))).isSome) = true := by decide +kernel
  obtain ⟨s, hs, shown⟩ := (Option.any_eq_true _ _).mp played
  have reached := System.follow_reached (S := fileTools homeTools) (P := fun _ _ => True) (fun _ _ _ h => h)
    (fun _ _ _ => trivial) hs (.start ⟨_, rfl⟩)
  simp only [Bool.and_eq_true] at shown
  obtain ⟨⟨⟨fresh, foreign⟩, replacing⟩, stepped⟩ := shown
  obtain ⟨s', step⟩ := Option.isSome_iff_exists.mp stepped
  refine ⟨s, s', foreign, step, updates_guarded reached fresh ?_ step⟩
  intro target parent content intent found decision
  rw [found] at replacing
  cases replacing

/-- Two sessions create the same file: both tests find none, and the second write overwrites the first. -/
theorem update_lost : ¬ ∀ (s s' : FileTools) (op : FileOp), (fileTools homeTools).Reached (fun _ _ => True) s →
    timely s.history = true → s.next homeTools op = some s' → Guarded s op s' := by
  intro guarded
  have played : (System.follow (FileTools.next · homeTools) (fun _ _ => true) ({ disk := fun _ => none } : FileTools)
      [.write "a" (fileArguments "1"), .write "b" (fileArguments "2"), .decide 0, .decide 1, .finish 0 (.written 5)]).any
      (fun s => timely s.history && disturbed "b" ["home", "notes"] s.history && s.disk.isRegularFile ["home", "notes"] &&
        (s.calls[1]?.any fun call => call.target? == some ⟨"b", ["home", "notes"], "notes"⟩) &&
        (s.next homeTools (.finish 1 (.written 6))).any fun s' => s'.calls[1]?.any FileCall.succeeded) = true := by decide +kernel
  obtain ⟨s, hs, shown⟩ := (Option.any_eq_true _ _).mp played
  have reached := System.follow_reached (S := fileTools homeTools) (P := fun _ _ => True) (fun _ _ _ h => h)
    (fun _ _ _ => trivial) hs (.start ⟨_, rfl⟩)
  simp only [Bool.and_eq_true] at shown
  obtain ⟨⟨⟨⟨fresh, foreign⟩, file⟩, called⟩, ended⟩ := shown
  obtain ⟨s', step, succeeded⟩ := (Option.any_eq_true _ _).mp ended
  obtain ⟨call, found, targeted⟩ := (Option.any_eq_true _ _).mp called
  obtain ⟨⟨result, done, failed⟩, -⟩ :=
    guarded s s' _ reached fresh step 1 _ call _ rfl found (eq_of_beq targeted) file foreign
  rw [done] at succeeded
  exact Bool.false_ne_true ((Bool.not_eq_true' _ ▸ succeeded : result.isError = false).symm.trans failed)

end Araya.Fs
