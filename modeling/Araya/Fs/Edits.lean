import Araya.Fs.Updates
import Araya.Util.Cut

/-!
What an edit does to a file. The tool counts the places of the old text from the left, and goes on behind each: a place
that overlaps the one before it is not counted.
-/

namespace Araya.Fs

/-! The text -/

section
variable {old new text front back : List Char} {all : Bool}

theorem occurrences_skip (k : Nat) (text : List Char) : occurrences old k text = occurrences old 0 (text.drop k) := by
  induction text generalizing k with
  | nil => rw [List.drop_nil]; cases k <;> rfl
  | cons c text ih =>
      cases k with
      | zero => rfl
      | succ k => exact ih k

theorem substitute_skip (k : Nat) (text : List Char) :
    substitute old new all k text = substitute old new all 0 (text.drop k) := by
  induction text generalizing k with
  | nil => rw [List.drop_nil]; cases k <;> rfl
  | cons c text ih =>
      cases k with
      | zero => rfl
      | succ k => exact ih k

theorem occurrences_none (found : cut old text = none) : occurrences old 0 text = 0 := by
  induction text with
  | nil => rfl
  | cons c text ih =>
      unfold cut at found
      split at found
      · cases found
      · rename_i away
        rw [occurrences, if_neg (fun here => away (List.isPrefixOf_iff_prefix.mp here))]
        exact ih (Option.map_eq_none_iff.mp found)

theorem occurrences_some (solid : old ≠ []) (found : cut old text = some (front, back)) :
    occurrences old 0 text = occurrences old 0 back + 1 := by
  induction text generalizing front with
  | nil => cases found
  | cons c text ih =>
      obtain ⟨a, old, rfl⟩ := List.exists_cons_of_ne_nil solid
      unfold cut at found
      split at found
      · rename_i here
        cases found
        rw [occurrences, if_pos (List.isPrefixOf_iff_prefix.mpr here), occurrences_skip]
        rfl
      · rename_i away
        obtain ⟨⟨head, tail⟩, later, same⟩ := Option.map_eq_some_iff.mp found
        cases same
        rw [occurrences, if_neg (fun here => away (List.isPrefixOf_iff_prefix.mp here))]
        exact ih later

theorem substitute_none (found : cut old text = none) : substitute old new all 0 text = text := by
  induction text with
  | nil => rfl
  | cons c text ih =>
      unfold cut at found
      split at found
      · cases found
      · rename_i away
        rw [substitute, if_neg (fun here => away (List.isPrefixOf_iff_prefix.mp here)),
          ih (Option.map_eq_none_iff.mp found)]

theorem substitute_some (solid : old ≠ []) (found : cut old text = some (front, back)) :
    substitute old new all 0 text = front ++ new ++ if all then substitute old new all 0 back else back := by
  induction text generalizing front with
  | nil => cases found
  | cons c text ih =>
      obtain ⟨a, old, rfl⟩ := List.exists_cons_of_ne_nil solid
      unfold cut at found
      split at found
      · rename_i here
        cases found
        rw [substitute, if_pos (List.isPrefixOf_iff_prefix.mpr here), substitute_skip]
        rfl
      · rename_i away
        obtain ⟨⟨head, tail⟩, later, same⟩ := Option.map_eq_some_iff.mp found
        cases same
        rw [substitute, if_neg (fun here => away (List.isPrefixOf_iff_prefix.mp here)), ih later]
        rfl

/-- All places: the leftmost first, and none in what was put in. -/
theorem substitute_all (solid : old ≠ []) (text : List Char) : Replaced old new text (substitute old new true 0 text) := by
  induction many : text.length using Nat.strong_induction_on generalizing text with
  | _ n ih =>
      subst many
      cases found : cut old text with
      | none =>
          rw [substitute_none found]
          exact .none found
      | some halves =>
          obtain ⟨front, back⟩ := halves
          rw [substitute_some solid found]
          refine .some found (ih back.length ?_ back rfl)
          have := cut_length found
          have := List.length_pos_iff.mpr solid
          omega

theorem occurrences_zero (solid : old ≠ []) : occurrences old 0 text = 0 ↔ ∀ i, ¬ Place old text i := by
  rw [← cut_none_places solid]
  refine ⟨fun none => ?_, occurrences_none⟩
  cases found : cut old text with
  | none => rfl
  | some halves =>
      obtain ⟨front, back⟩ := halves
      rw [occurrences_some solid found] at none
      cases none

theorem occurrences_many (solid : old ≠ []) : 1 < occurrences old 0 text ↔ Twice old text := by
  cases found : cut old text with
  | none =>
      rw [occurrences_none found]
      refine ⟨fun many => absurd many (by decide), fun ⟨i, _, here, _⟩ => ?_⟩
      exact absurd here ((cut_none_places solid).mp found i)
  | some halves =>
      obtain ⟨front, back⟩ := halves
      rw [occurrences_some solid found, twice_iff found, Nat.lt_add_left_iff_pos, Nat.pos_iff_ne_zero, Ne,
        occurrences_zero solid, not_forall]
      exact exists_congr fun i => not_not

end

/-! The tool -/

/-- The places of the old text are as the call asks: one or more for all, and else exactly one. -/
def Matches (old : String) (all : Bool) (data : String) : Prop :=
  if all then ∃ i, Place old.toList data.toList i else ∃ i, ∀ j, Place old.toList data.toList j ↔ j = i

/-- The new content: every place from the left replaced, or the only one. -/
def Edited (old new : String) (all : Bool) (data data' : String) : Prop :=
  if all then Replaced old.toList new.toList data.toList data'.toList
  else ∃ i, (∀ j, Place old.toList data.toList j ↔ j = i) ∧
    data'.toList = data.toList.take i ++ new.toList ++ data.toList.drop (i + old.length)

/-- The policy lets the call go on. -/
def FileTools.Passes (s : FileTools) (target : FsTarget) (intent : FsEditIntent) : Prop :=
  intent.error = "" ∧ (intent.decision = .replaceIfVersion → s.disk.readVersion target.pathKey = some intent.version)

def FileTools.Succeeded (s : FileTools) (q : Nat) : Prop := ∃ result, s.calls[q]? = some (.done result) ∧ result.isError = false

def Io.Writes (io : Io) : Prop := ∃ mtime, io = .written mtime

/-- The end of an edit as it is meant: it succeeds just when the old text is where it has to be and nothing else stands in
the way; then the file is edited, and else its content is as it was. -/
structure EditExact (s s' : FileTools) (q : Nat) (target : FsTarget) (old new : String) (all : Bool) (intent : FsEditIntent)
    (io : Io) : Prop where
  succeeds : s'.Succeeded q ↔ s.Passes target intent ∧ io.Writes ∧
    ∃ file, s.disk.file? target.pathKey = some file ∧ Matches old all file.content
  edited : s'.Succeeded q → ∃ file file', s.disk.file? target.pathKey = some file ∧
    s'.disk.file? target.pathKey = some file' ∧ Edited old new all file.content file'.content
  unchanged : ¬ s'.Succeeded q →
    (s'.disk.file? target.pathKey).map (·.content) = (s.disk.file? target.pathKey).map (·.content)

/-- The call gets to its write: the policy lets it pass, the old text occurs, and for a single edit not twice. -/
def FileTools.GoesOn (s : FileTools) (target : FsTarget) (old : String) (all : Bool) (intent : FsEditIntent) (file : File) : Prop :=
  s.Passes target intent ∧ s.disk.file? target.pathKey = some file ∧ (∃ i, Place old.toList file.content.toList i) ∧
    (all = false → ¬ Twice old.toList file.content.toList)

/-- A write that breaks off leaves the old content, and a single edit has one place, also among those that overlap. -/
def EditClear (s : FileTools) (target : FsTarget) (old : String) (all : Bool) (intent : FsEditIntent) (io : Io) : Prop :=
  ∀ file, s.GoesOn target old all intent file → (∀ kept mtime, io = .broken kept mtime → kept = file.content) ∧
    (all = false → io.Writes → ∀ i j, Place old.toList file.content.toList i → Place old.toList file.content.toList j → i = j)

section
variable {tools : Coreutil} {s s' : FileTools} {q : Nat} {target : FsTarget} {old new : String} {all : Bool}
  {intent : FsEditIntent} {io : Io} {file : File}

/-- The old text of a call is not empty, and not the new one. -/
def Asked (s : FileTools) : Prop :=
  ∀ (q : Nat) (target : FsTarget) (old new : String) (all : Bool) (intent : Option FsEditIntent),
    s.calls[q]? = some (.edit target old new all intent) → old ≠ "" ∧ old ≠ new

theorem Asked.set (h : Asked s) {call : FileCall} (same : ∀ target old new all intent, call = .edit target old new all intent →
    old ≠ "" ∧ old ≠ new) (q : Nat) : Asked { s with calls := s.calls.set q call } := by
  intro j target old new all intent found
  rcases getElem?_set_cases found with ⟨-, rfl⟩ | there
  · exact same target old new all intent rfl
  · exact h j target old new all intent there

theorem Asked.begins (h : Asked s) {call : FileCall} (same : ∀ target old new all intent, call = .edit target old new all intent →
    old ≠ "" ∧ old ≠ new) : Asked (s.begins call) := by
  intro j target old new all intent found
  rcases getElem?_concat found with there | ⟨-, rfl⟩
  · exact h j target old new all intent there
  · exact same target old new all intent rfl

theorem Asked.alike (h : Asked s) (same : s'.calls = s.calls) : Asked s' :=
  fun j target old new all intent found => h j target old new all intent (same ▸ found)

theorem Asked.finished (h : Asked s) (q : Nat) (result : Agent.ToolResult) : Asked (s.finished q result) :=
  h.set (fun _ _ _ _ _ other => by cases other) q

theorem Asked.overwrite (h : Asked s) (q : Nat) (target : FsTarget) (content : String) (io : Io) (broken text : String) :
    Asked (s.overwrite q target content io broken text) := by
  obtain ⟨error, refused⟩ | ⟨file, error, broke⟩ | ⟨file, wrote⟩ :=
    FileTools.overwrite_cases (s := s) q target content io broken text
  · exact refused ▸ h.finished q _
  · rw [broke]
    have kept : Asked (s.rewrite target file) := h.alike rfl
    exact kept.finished q _
  · rw [wrote]
    have kept : Asked ((s.rewrite target file).emitPresent target) := h.alike rfl
    exact kept.finished q _

theorem Asked.handleEdit (h : Asked s) (session : String) (arguments : Json) : Asked (tools.handleEdit s session arguments) := by
  unfold Coreutil.handleEdit
  dsimp only
  split
  · exact h.begins fun _ _ _ _ _ other => by cases other
  · split
    · exact h.begins fun _ _ _ _ _ other => by cases other
    · split
      · exact h.begins fun _ _ _ _ _ other => by cases other
      · rename_i solid differ
        refine h.begins fun _ _ _ _ _ same => ?_
        cases same
        exact ⟨fun none => solid (String.isEmpty_iff.mpr none), differ⟩

theorem asked_step {op : FileOp} (h : Asked s) (step : s.next tools op = some s') : Asked s' := by
  cases op with
  | read session arguments opens =>
      cases step
      refine h.alike ?_
      unfold Coreutil.handleRead
      dsimp only
      repeat' split
      all_goals rfl
  | write session arguments =>
      cases step
      unfold Coreutil.handleWrite
      dsimp only
      split
      · exact h.begins fun _ _ _ _ _ other => by cases other
      · exact h.begins fun _ _ _ _ _ other => by cases other
  | edit session arguments =>
      cases step
      exact h.handleEdit session arguments
  | decide q =>
      change s.decides q = some s' at step
      unfold FileTools.decides at step
      split at step
      · cases step
        exact h.set (fun _ _ _ _ _ other => by cases other) q
      · next found =>
          cases step
          refine h.set (fun _ _ _ _ _ same => ?_) q
          cases same
          exact h q _ _ _ _ _ found
      · cases step
  | finish q io =>
      change s.finishes q io = some s' at step
      unfold FileTools.finishes at step
      split at step
      · next target parent content existed intent found =>
          cases step
          obtain ⟨text, failed⟩ | ⟨-, -, disk, broken, text, -, wrote⟩ :=
            FileTools.finishWrite_cases (s := s) q target parent content existed intent io
          · exact failed ▸ h.finished q _
          · rw [wrote]
            have kept : Asked { s with disk } := h.alike rfl
            exact kept.overwrite _ _ _ _ _ _
      · next target old new all intent found =>
          cases step
          obtain ⟨text, failed⟩ | ⟨-, -, content, broken, text, wrote⟩ :=
            FileTools.finishEdit_cases (s := s) q target old new all intent io
          · exact failed ▸ h.finished q _
          · exact wrote ▸ h.overwrite _ _ _ _ _ _
      · cases step

theorem asked_reached (reached : (fileTools tools).Reached (fun _ _ => True) s) : Asked s := by
  refine reached.invariant (I := Asked) (fun s start => ?_) fun _ _ _ _ h step _ => asked_step h step
  obtain ⟨disk, rfl⟩ := start
  intro q target old new all intent found
  cases found

/-! The end of an edit -/

theorem readFile_ok {opens : Bool} {data : String} (read : s.readFile target opens = .ok data) :
    ∃ file, s.disk target.pathKey = some (.file file) ∧ file.content = data := by
  unfold FileTools.readFile at read
  split at read
  · cases read
  · cases read
  · rename_i file found
    split at read
    · cases read
      exact ⟨file, found, rfl⟩
    · cases read

/-- An edit is refused where it does not go on or the file cannot be opened; else the file is rewritten. -/
theorem finishEdit_outcome (solid : old ≠ "") (q : Nat) (target : FsTarget) (new : String) (all : Bool) (intent : FsEditIntent)
    (io : Io) : ((∃ text, s.finishEdit q target old new all intent io = s.finished q (Agent.errorResult text)) ∧
        ∀ file, s.GoesOn target old all intent file → ¬ io.Writes ∧ ∀ kept mtime, io ≠ .broken kept mtime) ∨
      ∃ file, s.GoesOn target old all intent file ∧
        ((∃ kept mtime text, io = .broken kept mtime ∧ s.finishEdit q target old new all intent io =
            (s.rewrite target { content := kept, mtime }).finished q (Agent.errorResult text)) ∨
          ∃ mtime text, io = .written mtime ∧ s.finishEdit q target old new all intent io =
            ((s.rewrite target { content := String.ofList (substitute old.toList new.toList all 0 file.content.toList), mtime }
              ).emitPresent target).finished q (textResult text)) := by
  have solid' : old.toList ≠ [] := fun none => solid (String.toList_eq_nil_iff.mp none)
  unfold FileTools.finishEdit
  dsimp only
  split
  · rename_i refused
    exact .inl ⟨⟨_, rfl⟩, fun file goes => absurd goes.1.1 refused⟩
  · rename_i clean
    split
    · rename_i stale
      exact .inl ⟨⟨_, rfl⟩, fun file goes => absurd (goes.1.2 stale.1) stale.2⟩
    · rename_i fresh
      have passes : s.Passes target intent := by
        refine ⟨not_not.mp clean, fun decided => ?_⟩
        by_contra other
        exact fresh ⟨decided, other⟩
      have opens (file : File) (there : s.disk.file? target.pathKey = some file) :
          s.disk target.pathKey = some (.file file) := by
        unfold Disk.file? at there
        split at there
        · rename_i found
          cases there
          exact found
        · cases there
      split
      · rename_i error unread
        refine .inl ⟨⟨_, rfl⟩, fun file goes => ?_⟩
        rw [FileTools.readFile, opens file goes.2.1] at unread
        cases io with
        | noRead =>
            refine ⟨?_, fun kept mtime same => by cases same⟩
            rintro ⟨mtime, same⟩
            cases same
        | _ => cases unread
      · rename_i data read
        obtain ⟨file, found, rfl⟩ := readFile_ok read
        have is_file : s.disk.file? target.pathKey = some file := by rw [Disk.file?, found]
        have only {other : File} (goes : s.GoesOn target old all intent other) : other = file :=
          Option.some.inj (goes.2.1.symm.trans is_file)
        split
        · rename_i none
          refine .inl ⟨⟨_, rfl⟩, fun other goes => ?_⟩
          obtain ⟨-, -, ⟨i, here⟩, -⟩ := only goes ▸ goes
          exact absurd here ((occurrences_zero solid').mp none i)
        · rename_i some
          split
          · rename_i many
            refine .inl ⟨⟨_, rfl⟩, fun other goes => ?_⟩
            obtain ⟨-, -, -, once⟩ := only goes ▸ goes
            exact absurd ((occurrences_many solid').mp many.1) (once (by simpa using many.2))
          · rename_i few
            have goes : s.GoesOn target old all intent file := by
              refine ⟨passes, is_file, ?_, fun single twice => ?_⟩
              · by_contra absent
                exact some ((occurrences_zero solid').mpr (not_exists.mp absent))
              · subst single
                exact few ⟨(occurrences_many solid').mpr twice, rfl⟩
            unfold FileTools.overwrite
            dsimp only
            rw [found, if_neg (by simp)]
            cases io with
            | broken kept mtime => exact .inr ⟨file, goes, .inl ⟨kept, mtime, _, rfl, rfl⟩⟩
            | written mtime => exact .inr ⟨file, goes, .inr ⟨mtime, _, rfl, rfl⟩⟩
            | _ =>
                refine .inl ⟨⟨_, rfl⟩, fun _ _ => ⟨?_, fun _ _ same => by cases same⟩⟩
                rintro ⟨mtime, same⟩
                cases same

theorem goesOn_of_matches (passes : s.Passes target intent) (there : s.disk.file? target.pathKey = some file)
    (good : Matches old all file.content) (solid : old ≠ "") : s.GoesOn target old all intent file := by
  have solid' : old.toList ≠ [] := fun none => solid (String.toList_eq_nil_iff.mp none)
  cases all with
  | true => exact ⟨passes, there, good, fun other => by cases other⟩
  | false =>
      obtain ⟨i, only⟩ := good
      refine ⟨passes, there, ⟨i, (only i).mpr rfl⟩, fun _ twice => ?_⟩
      obtain ⟨j, k, here, behind, apart⟩ := twice
      have := List.length_pos_iff.mpr solid'
      have := (only j).mp here
      have := (only k).mp behind
      omega

/-- The single place of the old text is where it is cut. -/
theorem substitute_once (solid : old ≠ "") {data : String} {i : Nat}
    (only : ∀ j, Place old.toList data.toList j ↔ j = i) : substitute old.toList new.toList false 0 data.toList =
      data.toList.take i ++ new.toList ++ data.toList.drop (i + old.length) := by
  have solid' : old.toList ≠ [] := fun none => solid (String.toList_eq_nil_iff.mp none)
  cases found : cut old.toList data.toList with
  | none => exact absurd ((only i).mpr rfl) ((cut_none_places solid').mp found i)
  | some halves =>
      obtain ⟨front, back⟩ := halves
      have first : front.length = i := (only _).mp (cut_place found)
      have whole := cut_eq found
      rw [substitute_some solid' found, ← first]
      have before : data.toList.take front.length = front := by rw [whole, List.take_left]
      have behind : data.toList.drop (front.length + old.length) = back := by
        rw [whole, ← List.append_assoc, ← String.length_toList, ← List.length_append, List.drop_left]
      rw [before, behind]
      rfl

theorem finished_succeeded {t : FileTools} (live : q < t.calls.length) (result : Agent.ToolResult) :
    (t.finished q result).Succeeded q ↔ result.isError = false := by
  have done : (t.finished q result).calls[q]? = some (.done result) := List.getElem?_set_self live
  refine ⟨fun ⟨other, there, good⟩ => ?_, fun good => ⟨result, done, good⟩⟩
  cases done.symm.trans there
  exact good

/-- A call of the edit tool ends as it should exactly where its write does not break off and, for a single edit, the old
text has no second place that overlaps the first. -/
theorem edit_exact_iff (reached : (fileTools tools).Reached (fun _ _ => True) s)
    (call : s.calls[q]? = some (.edit target old new all (some intent))) (step : s.next tools (.finish q io) = some s') :
    EditExact s s' q target old new all intent io ↔ EditClear s target old all intent io := by
  obtain ⟨solid, -⟩ := asked_reached reached q _ _ _ _ _ call
  have result : s' = s.finishEdit q target old new all intent io := by
    change s.finishes q io = some s' at step
    rw [FileTools.finishes, call] at step
    exact (Option.some.inj step).symm
  have live : q < s.calls.length := (List.getElem?_eq_some_iff.mp call).1
  subst result
  obtain ⟨⟨text, refused⟩, stays⟩ | ⟨file, goes, ⟨kept, mtime, text, rfl, broke⟩ | ⟨mtime, text, rfl, wrote⟩⟩ :=
    finishEdit_outcome (s := s) solid q target new all intent io
  · have failed : ¬ (s.finishEdit q target old new all intent io).Succeeded q := by
      rw [refused, finished_succeeded live]
      exact Bool.false_ne_true.symm
    refine iff_of_true ⟨iff_of_false failed ?_, fun good => absurd good failed, fun _ => ?_⟩ fun file goes => ?_
    · rintro ⟨passes, writes, file, there, good⟩
      exact (stays file (goesOn_of_matches passes there good solid)).1 writes
    · rw [refused]
      rfl
    · exact ⟨fun kept mtime broken => absurd broken ((stays file goes).2 kept mtime),
        fun _ writes => absurd writes (stays file goes).1⟩
  · have failed : ¬ (s.finishEdit q target old new all intent (.broken kept mtime)).Succeeded q := by
      rw [broke, finished_succeeded (t := s.rewrite target { content := kept, mtime }) live]
      exact Bool.false_ne_true.symm
    have left : (s.finishEdit q target old new all intent (.broken kept mtime)).disk.file? target.pathKey =
        some { content := kept, mtime } := by
      rw [broke]
      exact (Disk.file?_put ..).trans (if_pos rfl)
    constructor
    · intro exact_ other goes'
      cases Option.some.inj (goes'.2.1.symm.trans goes.2.1)
      refine ⟨fun kept' mtime' same => ?_, fun _ writes => ?_⟩
      · cases same
        have same := exact_.unchanged failed
        rw [left, goes.2.1] at same
        exact Option.some.inj same
      · obtain ⟨_, same⟩ := writes
        cases same
    · intro clear
      refine ⟨iff_of_false failed ?_, fun good => absurd good failed, fun _ => ?_⟩
      · rintro ⟨-, ⟨_, same⟩, -⟩
        cases same
      · rw [left, goes.2.1]
        exact congrArg some ((clear file goes).1 kept mtime rfl)
  · have good : (s.finishEdit q target old new all intent (.written mtime)).Succeeded q := by
      rw [wrote]
      refine (finished_succeeded ?_ _).mpr rfl
      exact live
    have left : (s.finishEdit q target old new all intent (.written mtime)).disk.file? target.pathKey =
        some { content := String.ofList (substitute old.toList new.toList all 0 file.content.toList), mtime } := by
      rw [wrote]
      exact (Disk.file?_put ..).trans (if_pos rfl)
    have writes : Io.Writes (.written mtime) := ⟨mtime, rfl⟩
    constructor
    · intro exact_ other goes'
      cases Option.some.inj (goes'.2.1.symm.trans goes.2.1)
      refine ⟨fun _ _ same => (by cases same), fun single _ i j here there => ?_⟩
      obtain ⟨-, -, other, is_file, good⟩ := exact_.succeeds.mp good
      cases Option.some.inj (is_file.symm.trans goes.2.1)
      subst single
      obtain ⟨k, only⟩ := good
      exact ((only i).mp here).trans ((only j).mp there).symm
    · intro clear
      have solid' : old.toList ≠ [] := fun none => solid (String.toList_eq_nil_iff.mp none)
      have parts := goes
      obtain ⟨passes, there, ⟨i, here⟩, -⟩ := parts
      have edited : Matches old all file.content ∧ Edited old new all file.content
          (String.ofList (substitute old.toList new.toList all 0 file.content.toList)) := by
        cases all with
        | true =>
            refine ⟨⟨i, here⟩, ?_⟩
            rw [Edited, if_pos rfl, String.toList_ofList]
            exact substitute_all solid' _
        | false =>
            have only (j : Nat) : Place old.toList file.content.toList j ↔ j = i :=
              ⟨fun behind => (clear file goes).2 rfl writes j i behind here, fun same => same ▸ here⟩
            refine ⟨⟨i, only⟩, i, only, ?_⟩
            rw [String.toList_ofList]
            exact substitute_once solid only
      exact ⟨iff_of_true good ⟨passes, writes, file, there, edited.1⟩, fun _ => ⟨file, _, there, left, edited.2⟩,
        fun failed => absurd good failed⟩

end

/-! Two edits -/

def noteDisk (content : String) : Disk := fun path => if path = ["home", "notes"] then some (.file { content, mtime := 1 }) else none

/-- The call of an edit that the policy lets pass. -/
def FileCall.ready (oldString newString : String) : FileCall → Bool
  | .edit target old new all (some _) =>
    target == ⟨"b", ["home", "notes"], "notes"⟩ && old == oldString && new == newString && !all
  | _ => false

theorem ready_iff {call : FileCall} {old new : String} (h : call.ready old new = true) : ∃ intent : FsEditIntent,
    call = .edit ⟨"b", ["home", "notes"], "notes"⟩ old new false (some intent) := by
  unfold FileCall.ready at h
  split at h
  · rename_i target oldString newString all intent
    simp only [Bool.and_eq_true, beq_iff_eq, Bool.not_eq_true'] at h
    obtain ⟨⟨⟨rfl, rfl⟩, rfl⟩, rfl⟩ := h
    exact ⟨intent, rfl⟩
  · cases h

/-- A file is read and edited, and the edit succeeds. -/
theorem played_edit {content old new : String}
    (played : (System.follow (FileTools.next · homeTools) (fun _ _ => true) ({ disk := noteDisk content } : FileTools)
      [.read "b" (fileArguments "") true, .edit "b" (editArguments old new), .decide 0]).any
      (fun s => s.calls[0]?.any (·.ready old new) && (s.disk.file? ["home", "notes"]).any (·.content == content) &&
        (s.next homeTools (.finish 0 (.written 6))).any fun s' => s'.calls[0]?.any FileCall.succeeded) = true) :
    ∃ (s s' : FileTools) (intent : FsEditIntent) (file : File), (fileTools homeTools).Reached (fun _ _ => True) s ∧
      s.calls[0]? = some (.edit ⟨"b", ["home", "notes"], "notes"⟩ old new false (some intent)) ∧
      s.next homeTools (.finish 0 (.written 6)) = some s' ∧ s.disk.file? ["home", "notes"] = some file ∧
      file.content = content ∧ s'.Succeeded 0 := by
  obtain ⟨s, hs, shown⟩ := (Option.any_eq_true _ _).mp played
  have reached := System.follow_reached (S := fileTools homeTools) (P := fun _ _ => True) (fun _ _ _ h => h)
    (fun _ _ _ => trivial) hs (.start ⟨_, rfl⟩)
  simp only [Bool.and_eq_true] at shown
  obtain ⟨⟨called, file⟩, ended⟩ := shown
  obtain ⟨call, found, ready⟩ := (Option.any_eq_true _ _).mp called
  obtain ⟨intent, rfl⟩ := ready_iff ready
  obtain ⟨s', step, succeeded⟩ := (Option.any_eq_true _ _).mp ended
  obtain ⟨file, there, kept⟩ := (Option.any_eq_true _ _).mp file
  refine ⟨s, s', intent, file, reached, found, step, there, beq_iff_eq.mp kept, ?_⟩
  obtain ⟨call, done, good⟩ := (Option.any_eq_true _ _).mp succeeded
  cases call with
  | done result => exact ⟨result, done, by simpa [FileCall.succeeded] using good⟩
  | _ => cases good

/-- A file is read and then edited in its only place. -/
theorem edit_exact_once : ∃ (s s' : FileTools) (intent : FsEditIntent), s'.Succeeded 0 ∧
    EditExact s s' 0 ⟨"b", ["home", "notes"], "notes"⟩ "a" "c" false intent (.written 6) := by
  have played : (System.follow (FileTools.next · homeTools) (fun _ _ => true) ({ disk := noteDisk "ab" } : FileTools)
      [.read "b" (fileArguments "") true, .edit "b" (editArguments "a" "c"), .decide 0]).any
      (fun s => s.calls[0]?.any (·.ready "a" "c") && (s.disk.file? ["home", "notes"]).any (·.content == "ab") &&
        (s.next homeTools (.finish 0 (.written 6))).any fun s' => s'.calls[0]?.any FileCall.succeeded) = true := by
    decide +kernel
  obtain ⟨s, s', intent, file, reached, found, step, there, content, succeeded⟩ := played_edit played
  have exact_ := (edit_exact_iff reached found step).mpr fun other goes => by
    cases Option.some.inj (goes.2.1.symm.trans there)
    refine ⟨fun _ _ same => (by cases same), fun _ _ i j here behind => ?_⟩
    rw [content] at here behind
    have first (k : Nat) (at_ : Place "a".toList "ab".toList k) : k = 0 := by
      rcases k with _ | _ | k
      · rfl
      · exact absurd at_ (by decide)
      · exact absurd at_ (by simp [Place])
    rw [first i here, first j behind]
  exact ⟨s, s', intent, succeeded, exact_⟩

/-- The old text stands twice in the file, overlapping itself, and the edit takes the first. -/
theorem edit_ambiguous : ¬ ∀ (s s' : FileTools) (target : FsTarget) (old new : String) (intent : FsEditIntent) (io : Io),
    (fileTools homeTools).Reached (fun _ _ => True) s →
    s.calls[0]? = some (.edit target old new false (some intent)) → s.next homeTools (.finish 0 io) = some s' →
    EditExact s s' 0 target old new false intent io := by
  intro exact_
  have played : (System.follow (FileTools.next · homeTools) (fun _ _ => true) ({ disk := noteDisk "aaa" } : FileTools)
      [.read "b" (fileArguments "") true, .edit "b" (editArguments "aa" "c"), .decide 0]).any
      (fun s => s.calls[0]?.any (·.ready "aa" "c") && (s.disk.file? ["home", "notes"]).any (·.content == "aaa") &&
        (s.next homeTools (.finish 0 (.written 6))).any fun s' => s'.calls[0]?.any FileCall.succeeded) = true := by
    decide +kernel
  obtain ⟨s, s', intent, file, reached, found, step, there, content, succeeded⟩ := played_edit played
  obtain ⟨-, -, other, is_file, i, only⟩ := (exact_ s s' _ _ _ _ _ reached found step).succeeds.mp succeeded
  cases Option.some.inj (is_file.symm.trans there)
  rw [content] at only
  have first : 0 = i := (only 0).mp (by decide)
  have second : 1 = i := (only 1).mp (by decide)
  exact absurd (first.trans second.symm) (by decide)

end Araya.Fs
