import Mathlib.Data.List.Basic

/-!
The framing of server-sent events. Bytes arrive in pieces of any size; a line ends at a
newline, and an event at a blank line.
-/

namespace Araya.Llm

abbrev Bytes := List UInt8

def ascii (s : String) : Bytes := s.toList.map fun c => UInt8.ofNat c.toNat

def newline : UInt8 := 10
def carriageReturn : UInt8 := 13
def colon : UInt8 := 58
def space : UInt8 := 32

/-- `buffer` is the line that has not ended yet. -/
structure SseParser where
  buffer : Bytes := []
  event : Bytes := []
  data : Bytes := []
  hasData : Bool := false
  first : Bool := true

structure SseEvent where
  event : Bytes
  data : Bytes

namespace SseParser
variable (p : SseParser)

/-- A line without its carriage return. -/
def trimmed (line : Bytes) : Bytes := if line.getLast? = some carriageReturn then line.dropLast else line

def fieldOf (line : Bytes) : Bytes := line.takeWhile (· != colon)

/-- The value behind the first colon, without one leading space. -/
def valueOf (line : Bytes) : Bytes :=
  match line.dropWhile (· != colon) with
  | [] => []
  | _ :: value => if value.head? = some space then value.tail else value

/-- A line that is not blank; a comment, or a field of another name, changes nothing. -/
def takeLine (line : Bytes) : SseParser :=
  if line.head? = some colon then p
  else if fieldOf line = ascii "data" then
    { p with data := (if p.hasData then p.data ++ [newline] else p.data) ++ valueOf line, hasData := true }
  else if fieldOf line = ascii "event" then { p with event := valueOf line }
  else p

/-- `dispatch`. -/
def dispatch : SseParser × List SseEvent :=
  ({ p with event := [], data := [], hasData := false },
    if p.hasData then [{ event := p.event, data := p.data }] else [])

/-- The buffered line ends. -/
def endLine : SseParser × List SseEvent :=
  let line := trimmed p.buffer
  let p := { p with buffer := [] }
  if line.isEmpty then p.dispatch else (p.takeLine line, [])

/-- The lines of the buffer, as the bytes of a piece complete them. -/
def scan : SseParser → Bytes → SseParser × List SseEvent
  | p, [] => (p, [])
  | p, b :: bytes =>
    if b = newline then
      let (p, events) := p.endLine
      let (p, later) := p.scan bytes
      (p, events ++ later)
    else { p with buffer := p.buffer ++ [b] }.scan bytes

def byteOrderMark : Bytes := [0xEF, 0xBB, 0xBF]

/-- `feed`: the byte order mark is skipped where the first piece starts with it. -/
def feed (bytes : Bytes) : SseParser × List SseEvent :=
  let start := if p.first ∧ byteOrderMark <+: bytes then bytes.drop 3 else bytes
  { p with first := false }.scan start

end SseParser
end Araya.Llm
