import Mathlib.Data.Prod.Lex
import Mathlib.Data.String.Basic
import Araya.Util.Sorted

/-!
Services, bindings and the scoped binding tree. Every context of a runtime is a
node of one tree; the bindings and the realm tags of all contexts are kept in
two maps keyed by the context that holds them. Interception metadata is left
out: no lifecycle decision reads it.
-/

namespace Araya

/-! Identities -/

abbrev FiberId := Nat
abbrev ScopeId := Nat
abbrev Realm := String

structure ServiceId where
  name : String
  version : Nat := 1
  deriving DecidableEq, Repr

/-- The order of `transparent_id_less`: by name, then by version. -/
def ServiceId.lexKey (k : ServiceId) : String ×ₗ Nat := toLex (k.name, k.version)

theorem ServiceId.lexKey_injective : Function.Injective ServiceId.lexKey := by
  intro a b h
  cases a
  cases b
  cases h
  rfl

instance : LinearOrder ServiceId := LinearOrder.lift' ServiceId.lexKey ServiceId.lexKey_injective

/-! Bindings -/

inductive ProviderState where
  | loading
  | active
  | retiring
  deriving DecidableEq, Repr

/-- The identity of a service object, what a `shared_ptr` to it compares by. -/
abbrev Value := Nat

structure Binding where
  value : Option Value
  provider : FiberId
  state : ProviderState := .active
  available : Bool := true
  deriving DecidableEq, Repr

/-! The tree of contexts -/

structure ScopeNode where
  parent : Option ScopeId := none
  passThroughBind : Bool := false
  deriving DecidableEq, Repr

/-- The contexts created so far. A context is created after its parent. -/
structure ScopeTree where
  nodes : List ScopeNode
  parent_lt : ∀ (i : Nat) (n : ScopeNode) (p : ScopeId), nodes[i]? = some n → n.parent = some p → p < i

namespace ScopeTree

/-- `context::root()`. -/
def root : ScopeTree := ⟨[{}], by
  intro i n p hn hp
  cases i with
  | zero => simp at hn; subst hn; cases hp
  | succ i => simp at hn⟩

def node (t : ScopeTree) (s : ScopeId) : ScopeNode := t.nodes[s]?.getD {}

def parent (t : ScopeTree) (s : ScopeId) : Option ScopeId := (t.node s).parent

def passThroughBind (t : ScopeTree) (s : ScopeId) : Bool := (t.node s).passThroughBind

theorem parent_lt_of (t : ScopeTree) {s p : ScopeId} (h : t.parent s = some p) : p < s := by
  unfold parent node at h
  cases hn : t.nodes[s]? with
  | none => simp [hn] at h
  | some n => rw [hn] at h; exact t.parent_lt s n p hn h

def childNode (t : ScopeTree) (parent : ScopeId) (passThroughBind : Bool) : ScopeNode :=
  if parent < t.nodes.length then ⟨some parent, passThroughBind⟩ else {}

theorem childNode_parent_lt (t : ScopeTree) {parent p : ScopeId} {passThroughBind : Bool}
    (h : (t.childNode parent passThroughBind).parent = some p) : p < t.nodes.length := by
  unfold childNode at h
  split at h
  · next hlt => cases h; exact hlt
  · cases h

theorem added_parent_lt (t : ScopeTree) (parent : ScopeId) (passThroughBind : Bool) (i : Nat)
    (n : ScopeNode) (p : ScopeId) (hn : (t.nodes ++ [t.childNode parent passThroughBind])[i]? = some n)
    (hp : n.parent = some p) : p < i := by
  rcases Nat.lt_trichotomy i t.nodes.length with hi | hi | hi
  · rw [List.getElem?_append_left hi] at hn
    exact t.parent_lt i n p hn hp
  · subst hi
    rw [List.getElem?_concat_length, Option.some.injEq] at hn
    exact t.childNode_parent_lt (hn ▸ hp)
  · rw [List.getElem?_eq_none (by simp; omega)] at hn
    cases hn

/-- Makes a context below `parent`; its identity is the next index. -/
def add (t : ScopeTree) (parent : ScopeId) (passThroughBind : Bool) : ScopeTree :=
  ⟨t.nodes ++ [t.childNode parent passThroughBind], t.added_parent_lt parent passThroughBind⟩

def chainFrom (t : ScopeTree) : Nat → ScopeId → List ScopeId
  | 0, _ => []
  | n + 1, s => s :: (match t.parent s with
    | none => []
    | some p => chainFrom t n p)

/-- The context and its ancestors, nearest first. -/
def chain (t : ScopeTree) (s : ScopeId) : List ScopeId := t.chainFrom (s + 1) s

theorem chainFrom_eq (t : ScopeTree) {n m s : Nat} (hn : s < n) (hm : s < m) :
    t.chainFrom n s = t.chainFrom m s := by
  induction n generalizing m s with
  | zero => omega
  | succ n ih =>
      cases m with
      | zero => omega
      | succ m =>
          simp only [chainFrom]
          cases hp : t.parent s with
          | none => rfl
          | some p =>
              have hlt := t.parent_lt_of hp
              exact congrArg (s :: ·) (ih (Nat.lt_of_lt_of_le hlt (Nat.le_of_lt_succ hn))
                (Nat.lt_of_lt_of_le hlt (Nat.le_of_lt_succ hm)))

theorem chain_eq (t : ScopeTree) (s : ScopeId) :
    t.chain s = s :: (match t.parent s with | none => [] | some p => t.chain p) := by
  unfold chain
  rw [chainFrom]
  cases hp : t.parent s with
  | none => rfl
  | some p =>
      have hlt := t.parent_lt_of hp
      simp only [chainFrom_eq t hlt (Nat.lt_succ_self p)]

theorem self_mem_chain (t : ScopeTree) (s : ScopeId) : s ∈ t.chain s := by
  rw [chain_eq]
  exact List.mem_cons_self

/-- The context a binding made in `s` is stored in: pass-through contexts hand
it to their parent. -/
def bindTarget (t : ScopeTree) (s : ScopeId) : Option ScopeId :=
  (t.chain s).find? fun c => !t.passThroughBind c

/-- `scope_on_chain`: whether `probe` is `from` or an ancestor of it. -/
def onChain (t : ScopeTree) (probe : ScopeId) (start : ScopeId) : Bool :=
  decide (probe ∈ t.chain start)

end ScopeTree

/-- One entry of a context's binding map. -/
abbrev Slot := ScopeId ×ₗ (ServiceId ×ₗ Realm)

def slot (s : ScopeId) (k : ServiceId) (r : Realm) : Slot := toLex (s, toLex (k, r))

@[simp] theorem slot_inj {s s' : ScopeId} {k k' : ServiceId} {r r' : Realm} :
    slot s k r = slot s' k' r' ↔ s = s' ∧ k = k' ∧ r = r' := by
  constructor
  · intro h
    cases h
    exact ⟨rfl, rfl, rfl⟩
  · rintro ⟨rfl, rfl, rfl⟩
    rfl

structure Contexts where
  tree : ScopeTree := ScopeTree.root
  bindings : SortedMap Slot Binding := ∅
  realms : SortedMap (ScopeId ×ₗ ServiceId) Realm := ∅

namespace Contexts

def isolate (c : Contexts) (s : ScopeId) (k : ServiceId) (r : Realm) : Contexts :=
  { c with realms := c.realms.insert (toLex (s, k)) r }

def unisolate (c : Contexts) (s : ScopeId) (k : ServiceId) : Contexts :=
  { c with realms := c.realms.erase (toLex (s, k)) }

def realmFor (c : Contexts) (s : ScopeId) (k : ServiceId) : Realm :=
  ((c.tree.chain s).findSome? fun d => c.realms.find? (toLex (d, k))).getD ""

def bindRealm (c : Contexts) (s : ScopeId) (k : ServiceId) (r : Realm) (b : Binding) : Contexts :=
  match c.tree.bindTarget s with
  | none => c
  | some t => { c with bindings := c.bindings.insert (slot t k r) b }

def bind (c : Contexts) (s : ScopeId) (k : ServiceId) (b : Binding) : Contexts :=
  c.bindRealm s k (c.realmFor s k) b

def unbindRealm (c : Contexts) (s : ScopeId) (k : ServiceId) (r : Realm) : Contexts :=
  match c.tree.bindTarget s with
  | none => c
  | some t => { c with bindings := c.bindings.erase (slot t k r) }

def unbind (c : Contexts) (s : ScopeId) (k : ServiceId) : Contexts :=
  c.unbindRealm s k (c.realmFor s k)

/-- The nearest context on a chain holding the key in a realm, with its binding. -/
def findOn (c : Contexts) (k : ServiceId) (r : Realm) : List ScopeId → Option (ScopeId × Binding)
  | [] => none
  | d :: ds =>
    match c.bindings.find? (slot d k r) with
    | some b => some (d, b)
    | none => findOn c k r ds

def lookupRealm (c : Contexts) (s : ScopeId) (k : ServiceId) (r : Realm) : Option Binding :=
  (c.findOn k r (c.tree.chain s)).map Prod.snd

def lookup (c : Contexts) (s : ScopeId) (k : ServiceId) : Option Binding :=
  c.lookupRealm s k (c.realmFor s k)

/-- What writing through the pointer of `lookup_mutable` does. -/
def modifyLookup (c : Contexts) (s : ScopeId) (k : ServiceId) (f : Binding → Binding) : Contexts :=
  match c.findOn k (c.realmFor s k) (c.tree.chain s) with
  | none => c
  | some (d, b) => { c with bindings := c.bindings.insert (slot d k (c.realmFor s k)) (f b) }

theorem findOn_some {c : Contexts} {k : ServiceId} {r : Realm} {ds : List ScopeId} {d : ScopeId}
    {b : Binding} (h : c.findOn k r ds = some (d, b)) :
    d ∈ ds ∧ c.bindings.find? (slot d k r) = some b := by
  induction ds with
  | nil => simp [findOn] at h
  | cons e es ih =>
      simp only [findOn] at h
      split at h
      · next b' hb =>
          cases h
          exact ⟨List.mem_cons_self, hb⟩
      · exact ⟨List.mem_cons_of_mem _ (ih h).1, (ih h).2⟩

/-- A lookup reads some context's own slot for the key in its realm. -/
theorem lookup_some {c : Contexts} {s : ScopeId} {k : ServiceId} {b : Binding}
    (h : c.lookup s k = some b) :
    ∃ d ∈ c.tree.chain s, c.bindings.find? (slot d k (c.realmFor s k)) = some b := by
  obtain ⟨⟨d, b'⟩, hf, rfl⟩ := Option.map_eq_some_iff.mp h
  exact ⟨d, findOn_some hf⟩

@[simp] theorem bind_tree (c : Contexts) (s : ScopeId) (k : ServiceId) (b : Binding) :
    (c.bind s k b).tree = c.tree := by
  unfold bind bindRealm; split <;> rfl

@[simp] theorem bind_realms (c : Contexts) (s : ScopeId) (k : ServiceId) (b : Binding) :
    (c.bind s k b).realms = c.realms := by
  unfold bind bindRealm; split <;> rfl

@[simp] theorem unbind_tree (c : Contexts) (s : ScopeId) (k : ServiceId) :
    (c.unbind s k).tree = c.tree := by
  unfold unbind unbindRealm; split <;> rfl

@[simp] theorem unbind_realms (c : Contexts) (s : ScopeId) (k : ServiceId) :
    (c.unbind s k).realms = c.realms := by
  unfold unbind unbindRealm; split <;> rfl

@[simp] theorem modifyLookup_tree (c : Contexts) (s : ScopeId) (k : ServiceId)
    (f : Binding → Binding) : (c.modifyLookup s k f).tree = c.tree := by
  unfold modifyLookup; split <;> rfl

@[simp] theorem modifyLookup_realms (c : Contexts) (s : ScopeId) (k : ServiceId)
    (f : Binding → Binding) : (c.modifyLookup s k f).realms = c.realms := by
  unfold modifyLookup; split <;> rfl

end Contexts
end Araya
