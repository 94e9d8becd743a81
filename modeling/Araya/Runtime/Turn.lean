import Araya.Runtime.Deeds
import Araya.Runtime.Ledger

/-!
The moves of the ledger. `Turn` lists what executing one frame does, `Entry`
what an operation does; the engine makes no other move, provided every binding
names a fiber that already exists.
-/

namespace Araya

/-- Frames without a part in the withdrawal of a fiber or in the wait for it. -/
def Frame.Plain : Frame → Prop
  | .evaluate _ | .beginUnload .. | .notifyProvided .. | .notify .. | .notifyLoop .. => True
  | .reactivate _ | .transitionFinished | .forgetPath _ | .recordPath .. => True
  | .reassign .. | .reassignNotify .. | .reassignTail .. | .reconcileMount _ | .childMounted .. => True
  | _ => False

/-- Frames whose execution may come to nothing. -/
def Frame.Light : Frame → Prop
  | .beginUnload .. | .releaseProviders _ (_ :: _) => False
  | _ => True

open Ledger (Same)

inductive Turn : Ledger → Frame → Ledger → List Frame → Prop
  | quiet {l l' : Ledger} {f : Frame} {fs : List Frame} : f.Light → Same l l' →
      (∀ g ∈ fs, g.Plain) → Turn l f l' fs
  | load {l : Ledger} {id : FiberId} {g : Guard} {names : SortedMap ServiceId FiberId} :
      l.guards id = some g → g.phase = .inactive → g.retired = false →
      (∀ k p, names.find? k = some p → p < l.nextId) →
      Turn l (.evaluate id)
        { l.set id { g with phase := .loading, committed := names } with
          nextId := l.nextId + 1, applies := id :: l.applies } []
  | lapse {l : Ledger} {id : FiberId} {g : Guard} : l.guards id = some g → g.phase = .inactive →
      Turn l (.evaluate id)
        { l.set id g.parked with nextId := l.nextId + 1 } []
  | passed {l : Ledger} {id : FiberId} {b : Bool} :
      (∀ g, l.guards id = some g → g.phase ≠ .loading ∧ g.phase ≠ .active) →
      Turn l (.beginUnload id b) l []
  | divert {l : Ledger} {id : FiberId} {b : Bool} {g : Guard} : l.guards id = some g →
      g.phase = .loading →
      Turn l (.beginUnload id b) (l.set id { g with phase := .diverted, done := g.done.close }) []
  | leave {l : Ledger} {id : FiberId} {b : Bool} {g : Guard} : l.guards id = some g →
      g.phase = .active →
      Turn l (.beginUnload id b)
        (l.set id { g with
          phase := .withdrawing, done := g.done.close, remaining := l.countInstalled g.consumers })
        (g.consumers.toList.map (.beginUnload · true) ++ [.requestStop id])
  | stop {l : Ledger} {id : FiberId} : Turn l (.requestStop id) l [.maybeFinishUnload id]
  | finish {l : Ledger} {id : FiberId} {g : Guard} {fs : List Frame} : l.guards id = some g →
      g.phase = .withdrawing ∨ g.phase = .diverted → g.remaining = 0 → (∀ h ∈ fs, h.Plain) →
      Turn l (.maybeFinishUnload id) (l.set id g.parked)
        (.releaseProviders id g.committed.toList :: .openDone id :: fs)
  | release {l : Ledger} {id : FiberId} {e : ServiceId × FiberId} {es : List (ServiceId × FiberId)}
      {p : Guard} : l.guards e.2 = some p →
      Turn l (.releaseProviders id (e :: es)) (l.set e.2 (p.released id))
        [.maybeFinishUnload e.2, .releaseProviders id es]
  | skip {l : Ledger} {id : FiberId} {e : ServiceId × FiberId} {es : List (ServiceId × FiberId)} :
      l.guards e.2 = none → Turn l (.releaseProviders id (e :: es)) l [.releaseProviders id es]
  | opened {l : Ledger} {id : FiberId} {g : Guard} : l.guards id = some g →
      Turn l (.openDone id) (l.set id { g with done := {} }) (g.done.waiters.map .resume)
  | waits {l : Ledger} {id : FiberId} {w : Waiter} {g : Guard} : l.guards id = some g →
      g.done.isOpen = false →
      Turn l (.awaitDone id w)
        (l.set id { g with done := { g.done with waiters := g.done.waiters ++ [w] } }) []
  | through {l : Ledger} {id : FiberId} {w : Waiter} :
      (∀ g, l.guards id = some g → g.done.isOpen = true) →
      Turn l (.awaitDone id w) l [.resume w]
  | erased {l : Ledger} {w : Waiter} {id : FiberId} : w.erases = some id →
      Turn l (.resume w) (l.erase id) []
  | resumed {l : Ledger} {job : ReconcileJob} :
      Turn l (.resume (.reconcile job)) l [.reconcileAwait job]
  | childErased {l : Ledger} {id : FiberId} {g : Guard} : l.guards id = some g →
      g.phase = .inactive → Turn l (.retireChildTail id) (l.erase id) []
  | childWaits {l : Ledger} {id : FiberId} :
      Turn l (.retireChildTail id) l [.awaitDone id (.retireChild id)]
  | dropEntry {l l' : Ledger} {id : FiberId} {g : Guard} {desired : List DesiredComponent}
      {es es' : List (String × FiberId)} {path : String} {toAwait : List FiberId} :
      Same l l' → l.guards id = some g →
      Turn l (.reconcileDiff desired es toAwait) (l'.set id { g with retired := true })
        [.beginUnload id false, .forgetPath path, .reconcileDiff desired es' (toAwait ++ [id])]
  | keepEntry {l l' : Ledger} {desired : List DesiredComponent} {es es' : List (String × FiberId)}
      {toAwait : List FiberId} {fs : List Frame} : Same l l' → (∀ g ∈ fs, g.Plain) →
      Turn l (.reconcileDiff desired es toAwait) l' (fs ++ [.reconcileDiff desired es' toAwait])
  | diffDone {l : Ledger} {desired : List DesiredComponent} {toAwait : List FiberId} :
      Turn l (.reconcileDiff desired [] toAwait) l [.reconcileAwait ⟨desired, toAwait, toAwait⟩]
  | awaitNext {l : Ledger} {desired : List DesiredComponent} {id : FiberId}
      {ids retired : List FiberId} :
      Turn l (.reconcileAwait ⟨desired, id :: ids, retired⟩) l
        [.awaitDone id (.reconcile ⟨desired, ids, retired⟩)]
  | erasedAll {l : Ledger} {desired : List DesiredComponent} {retired : List FiberId} :
      Turn l (.reconcileAwait ⟨desired, [], retired⟩) (l.eraseAll retired)
        [.reconcileMount desired]

/-- A throwing factory: the fiber stays loading and every pending call is lost. -/
inductive Unwound : Ledger → Frame → Ledger → Prop
  | load {l : Ledger} {id : FiberId} {g : Guard} {names : SortedMap ServiceId FiberId} :
      l.guards id = some g → g.phase = .inactive → g.retired = false →
      (∀ k p, names.find? k = some p → p < l.nextId) →
      Unwound l (.evaluate id)
        { l.set id { g with phase := .loading, committed := names } with nextId := l.nextId + 1 }

/-- `pub` tells which completions are published. -/
inductive Entry (pub : FiberId → Option String → Prop) :
    Ledger → Op → Ledger → List Frame → Prop
  | quiet {l l' : Ledger} {o : Op} {fs : List Frame} : Same l l' → (∀ g ∈ fs, g.Plain) →
      (o.nested = true → fs = []) → Entry pub l o l' fs
  | mounted {l : Ledger} {o : Op} {fs : List Frame} : o.nested = false → (∀ g ∈ fs, g.Plain) →
      Entry pub l o { l.set l.nextId {} with nextId := l.nextId + 1 } fs
  | retireInactive {l : Ledger} {id : FiberId} {g : Guard} : l.guards id = some g →
      g.phase = .inactive → Entry pub l (.retire id) (l.erase id) []
  | retire {l : Ledger} {id : FiberId} {g : Guard} : l.guards id = some g →
      Entry pub l (.retire id) (l.set id { g with retired := true })
        [.beginUnload id false, .awaitDone id (.retire id)]
  | retireChild {l : Ledger} {n : Nat} {id : FiberId} {g : Guard} : l.guards id = some g →
      Entry pub l (.deliver n) (l.set id { g with retired := true })
        [.beginUnload id false, .retireChildTail id]
  | reconcile {l : Ledger} {desired : List DesiredComponent} {es : List (String × FiberId)} :
      Entry pub l (.reconcile desired) l [.reconcileDiff desired es []]
  | ignored {l : Ledger} {id : FiberId} {ep : Option String} : id ∈ l.applies →
      Entry pub l (.complete id ep) { l with applies := l.applies.erase id } []
  | dropped {l : Ledger} {id : FiberId} {ep : Option String} {g : Guard} {fs : List Frame} :
      id ∈ l.applies → l.guards id = some g → (∀ h ∈ fs, h.Plain) →
      Entry pub l (.complete id ep) { l.set id g.parked with applies := l.applies.erase id }
        (.openDone id :: fs)
  | published {l : Ledger} {id : FiberId} {ep : Option String} {g : Guard} {fs : List Frame} :
      id ∈ l.applies → l.guards id = some g → g.phase = .loading → pub id ep →
      (∀ h ∈ fs, h.Plain) →
      Entry pub l (.complete id ep)
        { (l.set id { g with phase := .active }).enroll id (g.committed.toList.map Prod.snd) with
          applies := l.applies.erase id } fs

end Araya
