import Araya.Agent.Loop

/-!
The files under the tools, and the policy that keeps what each session has observed of them. A file is
what its normalised path names; a string stands for its bytes, one character each.
-/

namespace Araya.Fs

abbrev Path := List String

structure File where
  content : String
  mtime : Int
  deriving DecidableEq

/-- `<mtime>:<size>`. -/
def File.version (f : File) : String := toString f.mtime ++ ":" ++ toString f.content.length

inductive Node where
  | file (file : File)
  | directory
  deriving DecidableEq

abbrev Disk := Path → Option Node

namespace Disk
variable (disk : Disk)

def put (path : Path) (node : Node) : Disk := fun q => if q = path then some node else disk q

def file? (path : Path) : Option File :=
  match disk path with
  | some (.file file) => some file
  | _ => none

def isRegularFile (path : Path) : Bool := (disk.file? path).isSome

def readVersion (path : Path) : Option String := (disk.file? path).map (·.version)

def createDirectories (path : Path) : Option Disk :=
  if path.inits.any disk.isRegularFile then none
  else some fun q => if q ∈ path.inits ∧ disk q = none then some .directory else disk q

end Disk

structure FsTarget where
  owner : String
  pathKey : Path
  displayPath : String
  deriving DecidableEq

structure FsObservation where
  present : Bool := false
  version : String := ""
  deriving DecidableEq

inductive FsWriteDecision where
  | unconstrained
  | createIfAbsent
  | replaceIfVersion
  deriving DecidableEq

structure FsWriteIntent where
  target : FsTarget
  decision : FsWriteDecision := .unconstrained
  version : String := ""
  deriving DecidableEq

inductive FsEditDecision where
  | unconstrained
  | replaceIfVersion
  deriving DecidableEq

structure FsEditIntent where
  target : FsTarget
  decision : FsEditDecision := .unconstrained
  version : String := ""
  error : String := ""
  deriving DecidableEq

def editNotReadMessage (path : String) : String :=
  "cannot modify \"" ++ path ++ "\": file has not been read — read the file, then retry"

/-- What each owner has observed at each path. -/
structure ObservationGate where
  observed : String → Path → Option FsObservation := fun _ _ => none

namespace ObservationGate
variable (gate : ObservationGate)

def lookup (target : FsTarget) : Option FsObservation :=
  if target.owner.isEmpty then none else gate.observed target.owner target.pathKey

def decideWrite (intent : FsWriteIntent) : FsWriteIntent :=
  match gate.lookup intent.target with
  | some { present := true, version } => { intent with decision := .replaceIfVersion, version }
  | _ => { intent with decision := .createIfAbsent }

def decideEdit (intent : FsEditIntent) : FsEditIntent :=
  match gate.lookup intent.target with
  | none => { intent with error := editNotReadMessage intent.target.displayPath }
  | some { present := false, .. } =>
    { intent with error := "cannot edit \"" ++ intent.target.displayPath ++ "\": not found" }
  | some { present := true, version } => { intent with decision := .replaceIfVersion, version }

def observe (target : FsTarget) (observation : FsObservation) : ObservationGate :=
  if target.owner.isEmpty then gate
  else { observed := fun owner path =>
    if owner = target.owner ∧ path = target.pathKey then some observation else gate.observed owner path }

end ObservationGate

end Araya.Fs
