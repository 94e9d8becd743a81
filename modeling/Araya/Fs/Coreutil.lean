import Araya.Fs.Observation

/-!
The file tools. `read` does not suspend; `write` and `edit` suspend once, while the policy is asked, and
check and replace the file in one go when they are resumed.
-/

namespace Araya.Fs

open Agent (ToolResult errorResult)

def textResult (text : String) : ToolResult where
  content := Llm.textContent text

structure CoreutilConfig where
  readLimit : Nat := 2000
  readMaxLine : Nat := 2000

/-- The path of a call: its key, and the parent directory as it is rendered. -/
structure Resolved where
  key : Path
  parent : String
  deriving DecidableEq

/-- A deed of the tools: a file was seen, or written with or without a change of its content. -/
inductive Deed where
  | observed (owner : String) (path : Path) (version : String)
  | wrote (owner : String) (path : Path) (before : Option String) (after : String) (changed : Bool)
  deriving DecidableEq

/-- A call of `write` or `edit`; the intent is there once the policy has decided. -/
inductive FileCall where
  | write (target : FsTarget) (parent content : String) (existed : Bool) (intent : Option FsWriteIntent)
  | edit (target : FsTarget) (oldString newString : String) (replaceAll : Bool) (intent : Option FsEditIntent)
  | done (result : ToolResult)

/-- How the file system takes what a resumed call does: what fails first, or the time stamp of the file. -/
inductive Io where
  | noRead
  | noDirectory
  | noOpen
  | broken (kept : String) (mtime : Int)
  | written (mtime : Int)

/-- The disk, the policy, the calls, and what was done, the latest first. -/
structure FileTools where
  disk : Disk
  gate : ObservationGate := {}
  calls : List FileCall := []
  history : List Deed := []

/-! The text of a file -/

def splitLines : List Char → List Char → List String
  | line, [] => if line.isEmpty then [] else [lineText line]
  | line, '\n' :: rest => lineText line :: splitLines [] rest
  | line, c :: rest => splitLines (c :: line) rest
where
  /-- The line was read backwards. -/
  lineText (line : List Char) : String :=
    String.ofList (match line with | '\r' :: line => line.reverse | line => line.reverse)

/-- The occurrences of a text, after those that overlap an earlier one are skipped. -/
def occurrences (old : List Char) : Nat → List Char → Nat
  | _, [] => 0
  | k + 1, _ :: rest => occurrences old k rest
  | 0, c :: rest => if old.isPrefixOf (c :: rest) then occurrences old (old.length - 1) rest + 1 else occurrences old 0 rest

def substitute (old new : List Char) (all : Bool) : Nat → List Char → List Char
  | _, [] => []
  | k + 1, _ :: rest => substitute old new all k rest
  | 0, c :: rest =>
    if old.isPrefixOf (c :: rest) then
      new ++ (if all then substitute old new all (old.length - 1) rest else rest.drop (old.length - 1))
    else c :: substitute old new all 0 rest

/-- The lines a read shows, numbered from `start + 1`. -/
def readBody (config : CoreutilConfig) (lines : List String) (start limit : Nat) : String :=
  "\n".intercalate (((lines.drop start).take limit).mapIdx fun i text =>
    toString (start + i + 1) ++ ": " ++ String.ofList (text.toList.take config.readMaxLine))

def readFooter (start stop total : Nat) : String :=
  if stop < total then
    "(Showing lines " ++ toString (start + 1) ++ "-" ++ toString stop ++ " of " ++ toString total ++ ". Use offset=" ++
      toString (stop + 1) ++ " to continue.)"
  else "(End of file - total " ++ toString total ++ " lines)"

def readContent (config : CoreutilConfig) (filePath data : String) (offset limit : Nat) : String :=
  let lines := splitLines [] data.toList
  let start := offset - 1
  let body := readBody config lines start limit
  let footer := readFooter start (min lines.length (start + limit)) lines.length
  "<path>" ++ filePath ++ "</path>\n<type>file</type>\n<content>\n" ++
    (if body.isEmpty then footer else body ++ "\n\n" ++ footer) ++ "\n</content>"

namespace FileTools
variable (s : FileTools)

def finished (q : Nat) (result : ToolResult) : FileTools := { s with calls := s.calls.set q (.done result) }

def begins (call : FileCall) : FileTools := { s with calls := s.calls ++ [call] }

def emitObserved (target : FsTarget) (observation : FsObservation) : FileTools :=
  { s with
    gate := s.gate.observe target observation
    history := if observation.present then .observed target.owner target.pathKey observation.version :: s.history else s.history }

/-- The presence of a file is observed, with its version. -/
def emitPresent (target : FsTarget) : FileTools :=
  s.emitObserved target { present := true, version := (s.disk.readVersion target.pathKey).getD "" }

/-- The file is replaced. -/
def rewrite (target : FsTarget) (file : File) : FileTools :=
  { s with
    disk := s.disk.put target.pathKey (.file file)
    history := .wrote target.owner target.pathKey (s.disk.readVersion target.pathKey) file.version
      ((s.disk.file? target.pathKey).map (·.content) ≠ some file.content) :: s.history }

def readFile (target : FsTarget) (opens : Bool) : Except String String :=
  match s.disk target.pathKey with
  | none => .error ("Error: file not found: " ++ target.displayPath)
  | some .directory => .error ("Error: path is a directory, not a file: " ++ target.displayPath)
  | some (.file file) => if opens then .ok file.content else .error ("Error: cannot open file: " ++ target.displayPath)

/-- The content goes into the file and the call ends. -/
def overwrite (q : Nat) (target : FsTarget) (content : String) (io : Io) (broken text : String) : FileTools :=
  let refused := s.finished q (errorResult ("Error: cannot write file: " ++ target.displayPath))
  if s.disk target.pathKey = some .directory then refused
  else match io with
    | .broken kept mtime =>
      (s.rewrite target { content := kept, mtime }).finished q (errorResult (broken ++ target.displayPath))
    | .written mtime => ((s.rewrite target { content, mtime }).emitPresent target).finished q (textResult text)
    | _ => refused

/-- `handle_write` after the policy has decided. -/
def finishWrite (q : Nat) (target : FsTarget) (parent content : String) (existed : Bool) (intent : FsWriteIntent)
    (io : Io) : FileTools :=
  if intent.decision = .createIfAbsent ∧ existed then
    s.finished q (errorResult ("cannot modify \"" ++ target.displayPath ++
      "\": file has not been read — read the file, then retry"))
  else if intent.decision = .replaceIfVersion ∧ s.disk.readVersion target.pathKey ≠ some intent.version then
    s.finished q (errorResult ("cannot write \"" ++ target.displayPath ++
      "\": the file changed on disk — re-read the file, then retry"))
  else
    let refused := s.finished q (errorResult ("Error: cannot create directory: " ++ parent))
    match if parent.isEmpty then some s.disk else s.disk.createDirectories target.pathKey.dropLast, io with
    | none, _ | _, .noDirectory => refused
    | some disk, io =>
      { s with disk }.overwrite q target content io "Error: write failed: "
        ("<path>" ++ target.displayPath ++ "</path>\n<type>file</type>\n<content>\n" ++
          (if existed then "Updated file" else "Created file") ++ "\n</content>")

/-- `handle_edit` after the policy has decided. -/
def finishEdit (q : Nat) (target : FsTarget) (oldString newString : String) (replaceAll : Bool) (intent : FsEditIntent)
    (io : Io) : FileTools :=
  let fails (text : String) := s.finished q (errorResult text)
  if intent.error ≠ "" then fails intent.error
  else if intent.decision = .replaceIfVersion ∧ s.disk.readVersion target.pathKey ≠ some intent.version then
    fails ("cannot edit \"" ++ target.displayPath ++ "\": the file changed on disk — re-read the file, then retry")
  else match s.readFile target (match io with | .noRead => false | _ => true) with
    | .error error => fails error
    | .ok data =>
      let count := occurrences oldString.toList 0 data.toList
      if count = 0 then fails ("Error: 'old_string' was not found in " ++ target.displayPath)
      else if 1 < count ∧ !replaceAll then
        fails ("Error: 'old_string' appears " ++ toString count ++ " times in " ++ target.displayPath ++
          "; provide a more specific old_string or set replace_all to true")
      else
        s.overwrite q target (String.ofList (substitute oldString.toList newString.toList replaceAll 0 data.toList)) io
          "Error: edit failed: "
          (if replaceAll then
            "The file " ++ target.displayPath ++ " has been updated. All occurrences were successfully replaced."
          else "The file " ++ target.displayPath ++ " has been updated successfully.")

end FileTools

/-- What the tools are configured with; `resolve` gives the path of a session's argument. -/
structure Coreutil where
  config : CoreutilConfig := {}
  resolve : String → String → Resolved

namespace Coreutil
variable (tools : Coreutil) (s : FileTools)

def target (session filePath : String) : FsTarget where
  owner := session
  pathKey := (tools.resolve session filePath).key
  displayPath := filePath

/-- The string under a key, empty when there is none. -/
def argument (arguments : Json) (key : String) : String := (arguments.ifObject.bind (Json.stringField · key)).getD ""

def handleRead (session : String) (arguments : Json) (opens : Bool) : FileTools × ToolResult :=
  let filePath := argument arguments "file_path"
  let option (key : String) := arguments.ifObject.bind (Json.optIntField · key)
  let offset := (option "offset").getD 1
  let limit := (option "limit").getD tools.config.readLimit
  if filePath.isEmpty then (s, errorResult "Error: read requires a non-empty 'file_path'")
  else if offset < 1 ∨ limit < 1 then (s, errorResult "Error: 'offset' and 'limit' must be positive integers")
  else if tools.config.readLimit < limit.toNat then
    (s, errorResult ("Error: 'limit' must be at most " ++ toString tools.config.readLimit))
  else
    let target := tools.target session filePath
    let s := if (s.disk target.pathKey).isNone then s.emitObserved target {} else s
    match s.readFile target opens with
    | .error error => (s, errorResult error)
    | .ok data => (s.emitPresent target, textResult (readContent tools.config filePath data offset.toNat limit.toNat))

/-- `handle_write` up to its suspension. -/
def handleWrite (session : String) (arguments : Json) : FileTools :=
  let filePath := argument arguments "file_path"
  if filePath.isEmpty then s.begins (.done (errorResult "Error: write requires a non-empty 'file_path'"))
  else
    let target := tools.target session filePath
    s.begins (.write target (tools.resolve session filePath).parent (argument arguments "content")
      (s.disk.isRegularFile target.pathKey) none)

/-- `handle_edit` up to its suspension. -/
def handleEdit (session : String) (arguments : Json) : FileTools :=
  let filePath := argument arguments "file_path"
  let oldString := argument arguments "old_string"
  let newString := argument arguments "new_string"
  let replaceAll := (arguments.ifObject.bind fun o => (Json.find? o "replace_all").bind Json.ifBool).getD false
  let fails (text : String) := s.begins (.done (errorResult text))
  if filePath.isEmpty then fails "Error: edit requires a non-empty 'file_path'"
  else if oldString.isEmpty then fails "Error: 'old_string' must be a non-empty string"
  else if oldString = newString then fails "Error: 'old_string' and 'new_string' must differ"
  else s.begins (.edit (tools.target session filePath) oldString newString replaceAll none)

end Coreutil

/-- What happens next: a call comes in, the policy decides for a suspended one, or one is resumed. -/
inductive FileOp where
  | read (session : String) (arguments : Json) (opens : Bool)
  | write (session : String) (arguments : Json)
  | edit (session : String) (arguments : Json)
  | decide (q : Nat)
  | finish (q : Nat) (io : Io)

namespace FileTools
variable (s : FileTools)

/-- The policy answers the intent of a suspended call. -/
def decides (q : Nat) : Option FileTools :=
  match s.calls[q]? with
  | some (.write target parent content existed none) =>
    some { s with calls := s.calls.set q (.write target parent content existed (s.gate.decideWrite { target })) }
  | some (.edit target oldString newString replaceAll none) =>
    some { s with calls := s.calls.set q (.edit target oldString newString replaceAll (s.gate.decideEdit { target })) }
  | _ => none

def finishes (q : Nat) (io : Io) : Option FileTools :=
  match s.calls[q]? with
  | some (.write target parent content existed (some intent)) =>
    some (s.finishWrite q target parent content existed intent io)
  | some (.edit target oldString newString replaceAll (some intent)) =>
    some (s.finishEdit q target oldString newString replaceAll intent io)
  | _ => none

def next (tools : Coreutil) : FileOp → Option FileTools
  | .read session arguments opens => some (tools.handleRead s session arguments opens).1
  | .write session arguments => some (tools.handleWrite s session arguments)
  | .edit session arguments => some (tools.handleEdit s session arguments)
  | .decide q => s.decides q
  | .finish q io => s.finishes q io

end FileTools

/-- The tools under the policy, from any disk. -/
def fileTools (tools : Coreutil) : System FileTools FileOp where
  start s := ∃ disk, s = { disk }
  step s op s' := s.next tools op = some s'

end Araya.Fs
