import Araya.Lsp.Provider

/-!
The write queue of a connection. Writers append a frame and wait on its channel; one coroutine at
a time drains the queue into the pipe and sends each channel the outcome of its write.
-/

namespace Araya.Lsp

universe u

/-- A queued frame, with what its channel was sent: the failure of its write, or none. -/
structure WriteItem (μ : Type u) where
  frame : μ
  done : List (Option String) := []

/-- Where `drain_writes` is: not spawned, spawned, or on the write of an item. -/
inductive DrainPoint where
  | idle
  | spawned
  | writing (item : Nat)
  deriving DecidableEq

/-- A connection with its queue. The items stay when they leave the queue; `written` are those whose
bytes are in the pipe. -/
structure Wire (μ : Type u) extends LspConnection where
  failure : String := ""
  items : List (WriteItem μ) := []
  writes : List Nat := []
  writing : Bool := false
  drain : DrainPoint := .idle
  written : List Nat := []

namespace Wire
variable {μ : Type u} (w : Wire μ)

/-- `write` up to its wait, and the answers to the server, which do not wait. -/
def enqueue (frame : μ) : Wire μ :=
  let w := { w with items := w.items ++ [{ frame := frame }], writes := w.writes ++ [w.items.length] }
  if w.writing then w else { w with writing := true, drain := .spawned }

def fail (reason : String) : Wire μ := if w.failed then w else { w with failed := true, failure := reason }

def close : Wire μ := { w with toLspConnection := w.toLspConnection.close }

def signal (k : Nat) (failure : Option String) : Wire μ :=
  { w with items := w.items.modify k fun item => { item with done := item.done ++ [failure] } }

/-- The end of `drain_writes`. -/
def drained : Wire μ := { w with drain := .idle, writing := false }

/-- The head of the loop of `drain_writes`. -/
def drainNext : Wire μ :=
  match w.writes with
  | [] => w.drained
  | k :: writes => { w with writes, drain := .writing k }

/-- The write of an item is over. -/
def wrote (k : Nat) : Option String → Wire μ
  | none => ({ w with written := w.written ++ [k] }.signal k none).drainNext
  | some failure => ((w.signal k (some failure)).fail "lsp-stdio: write to the language server failed").drained

/-- What resumes the drain: it begins, or the pipe has taken or refused the bytes. -/
def drains (failure : Option String) : Option (Wire μ) :=
  match w.drain with
  | .idle => none
  | .spawned => some w.drainNext
  | .writing k => some (w.wrote k failure)

end Wire

inductive WireOp (μ : Type u) where
  | write (frame : μ)
  | drain (failure : Option String)
  | fail (reason : String)
  | close

def Wire.next {μ : Type u} (w : Wire μ) : WireOp μ → Option (Wire μ)
  | .write frame => some (w.enqueue frame)
  | .drain failure => w.drains failure
  | .fail reason => some (w.fail reason)
  | .close => some w.close

end Araya.Lsp
