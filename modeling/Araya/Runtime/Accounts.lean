import Araya.Runtime.Moves

/-!
The accounts of a ledger. An unload keeps a counter of the consumers it waits
for; the accounts say that the counter of a withdrawing fiber is the size of its
consumer set, that a fiber without a published activation has no consumers, and
which calls about a fiber can be pending in which phase. They hold in every run
whose calls are orderly.
-/

namespace Araya

/-! Orderly calls -/

/-- The fiber whose unload a call belongs to. -/
def Frame.unloads : Frame → Option FiberId
  | .requestStop id | .maybeFinishUnload id | .openDone id | .releaseProviders id _ => some id
  | _ => none

/-- A fiber whose unload has begun. -/
def Guard.Unloading (g : Guard) : Prop := g.phase = .withdrawing ∨ g.phase = .diverted

/-- What the accounts ask of a call before it runs. A release that reaches an
unloading provider comes from a registered consumer. A provider that begins to
unload has no consumer that is inactive already, and no cancelled load names it.
A load is not cancelled inside the unload that restarted it, nor while a
provider it names withdraws. -/
def Frame.Orderly (l : Ledger) (rest : List Frame) : Frame → Prop
  | .releaseProviders id (e :: _) => ∀ p, l.guards e.2 = some p → p.Unloading → id ∈ p.consumers
  | .beginUnload id _ => ∀ g, l.guards id = some g →
      (g.phase = .active → l.countInstalled g.consumers = g.consumers.card ∧
        ∀ j d, l.guards j = some d → d.phase = .diverted → ¬ d.Names id) ∧
      (g.phase = .loading → (∀ f ∈ rest, f.unloads ≠ some id) ∧
        ∀ p d, g.Names p → l.guards p = some d → d.phase ≠ .withdrawing)
  | _ => True

/-- A published fiber finds every mounted provider it names active. -/
def Op.Orderly (l : Ledger) (pub : FiberId → Option String → Prop) : Op → Prop
  | .complete id ep => pub id ep → ∀ g, l.guards id = some g →
      ∀ p d, g.Names p → l.guards p = some d → d.phase = .active
  | _ => True

/-! Books -/

/-- The counter, the consumers and the gate that go with a phase. -/
def Guard.Balanced (g : Guard) : Prop :=
  match g.phase with
  | .active => g.remaining = 0
  | .withdrawing => g.remaining = g.consumers.card ∧ g.done.isOpen = false
  | .diverted => g.remaining = 0 ∧ g.consumers = ∅ ∧ g.done.isOpen = false
  | .inactive | .loading => g.remaining = 0 ∧ g.consumers = ∅

namespace Guard
variable {g : Guard}

theorem balanced_dormant (hp : g.phase = .inactive ∨ g.phase = .loading) :
    g.Balanced ↔ g.remaining = 0 ∧ g.consumers = ∅ := by
  unfold Balanced
  rcases hp with hp | hp <;> rw [hp]

theorem balanced_active (hp : g.phase = .active) : g.Balanced ↔ g.remaining = 0 := by
  unfold Balanced
  rw [hp]

theorem balanced_withdrawing (hp : g.phase = .withdrawing) :
    g.Balanced ↔ g.remaining = g.consumers.card ∧ g.done.isOpen = false := by
  unfold Balanced
  rw [hp]

theorem balanced_diverted (hp : g.phase = .diverted) :
    g.Balanced ↔ g.remaining = 0 ∧ g.consumers = ∅ ∧ g.done.isOpen = false := by
  unfold Balanced
  rw [hp]

theorem Balanced.no_consumers (h : g.Balanced) (hp : ¬ g.Published) : g.consumers = ∅ := by
  cases hph : g.phase with
  | inactive => exact ((balanced_dormant (.inl hph)).mp h).2
  | loading => exact ((balanced_dormant (.inr hph)).mp h).2
  | active => exact absurd (.inl hph) hp
  | withdrawing => exact absurd (.inr hph) hp
  | diverted => exact ((balanced_diverted hph).mp h).2.1

theorem Balanced.closed (h : g.Balanced) (hp : g.Unloading) : g.done.isOpen = false := by
  rcases hp with hp | hp
  · exact ((balanced_withdrawing hp).mp h).2
  · exact ((balanced_diverted hp).mp h).2.2

/-- The books balance when the parts they read are unchanged. -/
theorem Balanced.congr {g' : Guard} (h : g.Balanced) (hp : g'.phase = g.phase)
    (hr : g'.remaining = g.remaining) (hc : g'.consumers = g.consumers)
    (hd : g'.done.isOpen = g.done.isOpen) : g'.Balanced := by
  unfold Balanced at h ⊢
  rw [hp, hr, hc, hd]
  exact h

end Guard

structure Books (l : Ledger) : Prop where
  fresh : ∀ j g, l.guards j = some g → j < l.nextId
  balanced : ∀ j g, l.guards j = some g → g.Balanced
  applying : ∀ j g, j ∈ l.applies → l.guards j = some g → g.phase = .loading ∨ g.phase = .diverted
  once : l.applies.Nodup
  known : ∀ j ∈ l.applies, j < l.nextId

namespace Books
variable {l l' : Ledger} {id : FiberId} {g g' : Guard}

theorem same (h : Books l) (hs : l.Same l') : Books l' where
  fresh j g hg := Nat.lt_of_lt_of_le (h.fresh j g (hs.guards ▸ hg)) hs.nextId
  balanced j g hg := h.balanced j g (hs.guards ▸ hg)
  applying j g hj hg := h.applying j g (hs.applies ▸ hj) (hs.guards ▸ hg)
  once := hs.applies ▸ h.once
  known j hj := Nat.lt_of_lt_of_le (h.known j (hs.applies ▸ hj)) hs.nextId

/-- One fiber's guard changes. -/
theorem set (h : Books l) (hg : l.guards id = some g) (bal : g'.Balanced)
    (app : id ∈ l.applies → g'.phase = .loading ∨ g'.phase = .diverted) : Books (l.set id g') where
  fresh := by
    intro j x hx
    rw [Ledger.set_guards] at hx
    split at hx
    · next hj => exact hj ▸ h.fresh id g hg
    · exact h.fresh j x hx
  balanced := by
    intro j x hx
    rw [Ledger.set_guards] at hx
    split at hx
    · cases hx; exact bal
    · exact h.balanced j x hx
  applying := by
    intro j x hj hx
    rw [Ledger.set_guards] at hx
    split at hx
    · next he => cases hx; exact app (he ▸ hj)
    · exact h.applying j x hj hx
  once := h.once
  known := h.known

theorem erase (h : Books l) (id : FiberId) : Books (l.erase id) where
  fresh := by
    intro j x hx
    rw [Ledger.erase_guards] at hx
    split at hx
    · cases hx
    · exact h.fresh j x hx
  balanced := by
    intro j x hx
    rw [Ledger.erase_guards] at hx
    split at hx
    · cases hx
    · exact h.balanced j x hx
  applying := by
    intro j x hj hx
    rw [Ledger.erase_guards] at hx
    split at hx
    · cases hx
    · exact h.applying j x hj hx
  once := h.once
  known := h.known

theorem eraseAll (h : Books l) (ids : List FiberId) : Books (l.eraseAll ids) := by
  induction ids generalizing l with
  | nil => exact h
  | cons i is ih => exact ih (h.erase i)

theorem grow (h : Books l) (n : Nat) (hn : l.nextId ≤ n) : Books { l with nextId := n } :=
  h.same ⟨rfl, rfl, hn⟩

/-- An apply is spawned for a loading fiber. -/
theorem spawn (h : Books l) (hid : id ∉ l.applies) (hn : id < l.nextId)
    (hl : ∀ g, l.guards id = some g → g.phase = .loading) :
    Books { l with applies := id :: l.applies } where
  fresh := h.fresh
  balanced := h.balanced
  applying := by
    intro j x hj hx
    rcases List.mem_cons.mp hj with rfl | hj
    · exact .inl (hl x hx)
    · exact h.applying j x hj hx
  once := List.nodup_cons.mpr ⟨hid, h.once⟩
  known := List.forall_mem_cons.mpr ⟨hn, h.known⟩

theorem not_applying (h : Books l) (hg : l.guards id = some g)
    (hp : g.phase ≠ .loading ∧ g.phase ≠ .diverted) : id ∉ l.applies := by
  intro hin
  rcases h.applying id g hin hg with hl | hd
  · exact hp.1 hl
  · exact hp.2 hd

end Books

/-! Calls -/

/-- The guards a pending call may find the fiber it unloads with. -/
def Frame.Admits (f : Frame) (g : Guard) : Prop :=
  match f with
  | .releaseProviders .. => (g.phase = .inactive ∨ g.phase = .loading) ∧ g.done.isOpen = false
  | .openDone _ => g.phase = .inactive ∨ g.phase = .loading
  | .requestStop _ | .maybeFinishUnload _ => g.phase ≠ .diverted
  | _ => True

def Frame.Tolerates (f : Frame) (guards : FiberId → Option Guard) : Prop :=
  ∀ j g, f.unloads = some j → guards j = some g → f.Admits g

/-- A fiber's gate opens after its providers were released. -/
def Frame.InOrder (a b : Frame) : Prop := ∀ j es, a = .openDone j → b ≠ .releaseProviders j es

theorem Frame.Plain.unloads {f : Frame} (h : f.Plain) : f.unloads = none := by
  cases f <;> first | rfl | exact False.elim h

theorem Frame.tolerates_of_inert {f : Frame} (h : f.unloads = none) (guards : FiberId → Option Guard) :
    f.Tolerates guards := by
  intro j g hj
  rw [h] at hj
  cases hj

theorem Frame.inOrder_of_ne {f : Frame} (h : ∀ j, f ≠ .openDone j) (g : Frame) : f.InOrder g :=
  fun j _ hf => absurd hf (h j)

theorem Frame.inOrder_of_inert {f : Frame} (h : f.unloads = none) (g : Frame) : f.InOrder g :=
  Frame.inOrder_of_ne (fun j hf => by rw [hf] at h; cases h) g

section
variable {l : Ledger} {id : FiberId} {x g : Guard} {f : Frame}

theorem Frame.Tolerates.set (h : f.Tolerates l.guards) (hid : f.unloads = some id → f.Admits x) :
    f.Tolerates (l.set id x).guards := by
  intro j y hj hy
  rw [Ledger.set_guards] at hy
  split at hy
  · next he => cases hy; exact hid (he ▸ hj)
  · exact h j y hj hy

theorem Frame.Admits.congr (h : f.Admits g) (hp : x.phase = g.phase)
    (hd : x.done.isOpen = g.done.isOpen) : f.Admits x := by
  unfold Frame.Admits at h ⊢
  rw [hp, hd]
  exact h

/-- An inactive or loading fiber is admitted by every call that admitted it before. -/
theorem Frame.Admits.dormant (h : f.Admits g) (hp : x.phase = .inactive ∨ x.phase = .loading)
    (hd : x.done.isOpen = g.done.isOpen) : f.Admits x := by
  cases f with
  | releaseProviders id es => exact ⟨hp, hd.trans h.2⟩
  | openDone id => exact hp
  | requestStop id | maybeFinishUnload id =>
      intro hx
      simp [hx] at hp
  | _ => trivial

/-- Only the end of its own unload is pending about an active fiber. -/
theorem Frame.Admits.leave (h : f.Admits g) (hg : g.phase = .active) (hx : x.phase = .withdrawing) :
    f.Admits x := by
  cases f with
  | releaseProviders id es => exact absurd h.1 (by simp [hg])
  | openDone id =>
      have hi : g.phase = .inactive ∨ g.phase = .loading := h
      simp [hg] at hi
  | requestStop id | maybeFinishUnload id =>
      intro hd
      rw [hx] at hd
      cases hd
  | _ => trivial

/-- A gate that opens is no matter to the calls other than releases. -/
theorem Frame.Admits.reopen (h : f.Admits g) (hp : x.phase = g.phase)
    (hf : ∀ es, f ≠ .releaseProviders id es) (hu : f.unloads = some id) : f.Admits x := by
  cases f with
  | releaseProviders j es =>
      cases hu
      exact absurd rfl (hf es)
  | openDone _ | requestStop _ | maybeFinishUnload _ =>
      unfold Frame.Admits at h ⊢
      rwa [hp]
  | _ => trivial

theorem Frame.Tolerates.set_same (h : f.Tolerates l.guards) (hg : l.guards id = some g)
    (hp : x.phase = g.phase) (hd : x.done.isOpen = g.done.isOpen) :
    f.Tolerates (l.set id x).guards :=
  h.set fun hu => (h id g hu hg).congr hp hd

theorem Frame.Tolerates.erase (h : f.Tolerates l.guards) (id : FiberId) :
    f.Tolerates (l.erase id).guards := by
  intro j y hj hy
  rw [Ledger.erase_guards] at hy
  split at hy
  · cases hy
  · exact h j y hj hy

theorem Frame.Tolerates.eraseAll (h : f.Tolerates l.guards) (ids : List FiberId) :
    f.Tolerates (l.eraseAll ids).guards := by
  induction ids generalizing l with
  | nil => exact h
  | cons i is ih => exact ih (h.erase i)

end

structure Calls (l : Ledger) (st : List Frame) : Prop where
  tolerates : ∀ f ∈ st, f.Tolerates l.guards
  ordered : st.Pairwise Frame.InOrder

namespace Calls
variable {l l' : Ledger} {f : Frame} {rest fs : List Frame}

theorem head (h : Calls l (f :: rest)) : f.Tolerates l.guards := h.tolerates f List.mem_cons_self

/-- The top call is replaced by calls that open no gate. -/
theorem replace (h : Calls l (f :: rest)) (new : ∀ g ∈ fs, g.Tolerates l'.guards)
    (keep : ∀ g ∈ rest, g.Tolerates l.guards → g.Tolerates l'.guards)
    (opens : ∀ g ∈ fs, ∀ b, g.InOrder b) : Calls l' (fs ++ rest) where
  tolerates := by
    intro g hg
    rcases List.mem_append.mp hg with hg | hg
    · exact new g hg
    · exact keep g hg (h.tolerates g (List.mem_cons_of_mem _ hg))
  ordered := by
    refine List.pairwise_append.mpr ⟨?_, (List.pairwise_cons.mp h.ordered).2, ?_⟩
    · exact List.Pairwise.imp_of_mem (fun ha _ _ => opens _ ha _) (List.pairwise_of_forall (R := fun _ _ => True) (by simp))
    · exact fun a ha b _ => opens a ha b

theorem replace_inert (h : Calls l (f :: rest)) (inert : ∀ g ∈ fs, g.unloads = none)
    (keep : ∀ g ∈ rest, g.Tolerates l.guards → g.Tolerates l'.guards) : Calls l' (fs ++ rest) :=
  h.replace (fun g hg => Frame.tolerates_of_inert (inert g hg) _) keep
    fun g hg => Frame.inOrder_of_inert (inert g hg)

theorem cons {st : List Frame} (h : Calls l st) (tol : f.Tolerates l.guards)
    (ord : ∀ b ∈ st, f.InOrder b) : Calls l (f :: st) where
  tolerates := List.forall_mem_cons.mpr ⟨tol, h.tolerates⟩
  ordered := List.pairwise_cons.mpr ⟨ord, h.ordered⟩

end Calls

structure Accounts (l : Ledger) (st : List Frame) : Prop where
  books : Books l
  calls : Calls l st

namespace Accounts
variable {l l' : Ledger} {f : Frame} {rest fs : List Frame} {id : FiberId} {g : Guard}

/-- A pending call about a fiber admits its guard. -/
theorem admits {st : List Frame} (h : Accounts l st) (hf : f ∈ st) (hu : f.unloads = some id)
    (hg : l.guards id = some g) : f.Admits g :=
  h.calls.tolerates f hf id g hu hg

/-- The frames an unload pushes to cascade into its consumers. -/
theorem cascade_inert (c : SortedSet FiberId) :
    ∀ h ∈ c.toList.map (Frame.beginUnload · true), h.unloads = none := by
  intro h hh
  obtain ⟨_, _, rfl⟩ := List.mem_map.mp hh
  rfl

theorem released_balanced {p : Guard} (hb : p.Balanced) (hu : p.Unloading → id ∈ p.consumers) :
    (p.released id).Balanced := by
  cases hp : p.phase with
  | inactive | loading =>
      have hz := (Guard.balanced_dormant (by simp [hp])).mp hb
      refine (Guard.balanced_dormant (g := p.released id) (by simp [Guard.released, hp])).mpr ⟨?_, ?_⟩
      · simp [Guard.released, hz.1]
      · simp only [Guard.released, hz.2]
        rfl
  | active =>
      refine (Guard.balanced_active (g := p.released id) hp).mpr ?_
      simp [Guard.released, (Guard.balanced_active hp).mp hb]
  | withdrawing =>
      have hw := (Guard.balanced_withdrawing hp).mp hb
      refine (Guard.balanced_withdrawing (g := p.released id) hp).mpr ⟨?_, hw.2⟩
      have hcard := SortedSet.card_erase_of_mem (hu (.inl hp))
      simp only [Guard.released, hw.1]
      omega
  | diverted =>
      have hd := (Guard.balanced_diverted hp).mp hb
      have hin := hu (.inr hp)
      rw [hd.2.1] at hin
      exact absurd hin (SortedSet.not_mem_empty id)

/-- A withdrawing fiber that waits for nobody has no consumers. -/
theorem no_consumers_of_remaining (hb : g.Balanced) (hp : g.phase = .withdrawing)
    (hr : g.remaining = 0) : g.consumers = ∅ := by
  have hw := (Guard.balanced_withdrawing hp).mp hb
  apply SortedSet.ext_mem
  intro a
  have none := SortedSet.card_eq_zero.mp (hw.1.symm.trans hr) a
  exact ⟨fun ha => absurd ha none, fun ha => absurd ha (SortedSet.not_mem_empty a)⟩

theorem parked_balanced (hr : g.remaining = 0) (hc : g.consumers = ∅) : g.parked.Balanced :=
  (Guard.balanced_dormant (.inl rfl)).mpr ⟨hr, hc⟩

theorem turn (h : Accounts l (f :: rest)) (ok : f.Orderly l rest) (t : Turn l f l' fs) :
    Accounts l' (fs ++ rest) := by
  have kept : ∀ {l' : Ledger}, l'.guards = l.guards →
      ∀ h ∈ rest, h.Tolerates l.guards → h.Tolerates l'.guards := fun he _ _ ht => by rwa [he]
  have below : ∀ {k : Frame} {x : FiberId} {y : Guard}, k ∈ rest → k.unloads = some x →
      l.guards x = some y → k.Admits y := fun hk => h.admits (List.mem_cons_of_mem _ hk)
  cases t with
  | quiet _ same plain =>
      exact ⟨h.books.same same, h.calls.replace_inert (fun k hk => (plain k hk).unloads) (kept same.guards)⟩
  | @load id g names hg hp hr names_lt =>
      have hb := (Guard.balanced_dormant (.inl hp)).mp (h.books.balanced id g hg)
      have happ : id ∉ l.applies := h.books.not_applying hg (by simp [hp])
      have loaded := h.books.set hg ((Guard.balanced_dormant (.inr rfl)).mpr hb :
        Guard.Balanced { g with phase := .loading, committed := names }) fun _ => .inl rfl
      constructor
      · refine (loaded.grow (l.nextId + 1) (Nat.le_succ _)).spawn happ
          (Nat.lt_succ_of_lt (h.books.fresh id g hg)) ?_
        intro y hy
        rw [Ledger.set_guards, if_pos rfl] at hy
        cases hy
        rfl
      · exact h.calls.replace_inert (by simp) fun k hk ht => ht.set fun hu =>
          (below hk hu hg).dormant (.inr rfl) rfl
  | @lapse id g hg hp =>
      have hb := (Guard.balanced_dormant (.inl hp)).mp (h.books.balanced id g hg)
      have happ : id ∉ l.applies := h.books.not_applying hg (by simp [hp])
      exact ⟨(h.books.set hg (parked_balanced hb.1 hb.2) fun hin => absurd hin happ).grow _ (Nat.le_succ _),
        h.calls.replace_inert (by simp) fun k hk ht => ht.set fun hu =>
          (below hk hu hg).dormant (.inl rfl) rfl⟩
  | passed _ => exact ⟨h.books, h.calls.replace_inert (by simp) (kept rfl)⟩
  | @divert id b g hg hp =>
      have hb := (Guard.balanced_dormant (.inr hp)).mp (h.books.balanced id g hg)
      have clear := ((ok g hg).2 hp).1
      exact ⟨h.books.set hg ((Guard.balanced_diverted rfl).mpr ⟨hb.1, hb.2, rfl⟩) fun _ => .inr rfl,
        h.calls.replace_inert (by simp) fun k hk ht => ht.set fun hu => absurd hu (clear k hk)⟩
  | @leave id b g hg hp =>
      have counted := ((ok g hg).1 hp).1
      have happ : id ∉ l.applies := h.books.not_applying hg (by simp [hp])
      refine ⟨h.books.set hg ((Guard.balanced_withdrawing rfl).mpr ⟨counted, rfl⟩) fun hin =>
        absurd hin happ, h.calls.replace ?_ ?_ ?_⟩
      · intro k hk
        rcases List.mem_append.mp hk with hk | hk
        · exact Frame.tolerates_of_inert (cascade_inert _ k hk) _
        · rw [List.mem_singleton.mp hk]
          intro j y hj hy
          cases hj
          rw [Ledger.set_guards, if_pos rfl] at hy
          cases hy
          simp [Frame.Admits]
      · exact fun k hk ht => ht.set fun hu => (below hk hu hg).leave hp rfl
      · intro k hk
        rcases List.mem_append.mp hk with hk | hk
        · exact Frame.inOrder_of_inert (cascade_inert _ k hk)
        · exact Frame.inOrder_of_ne (by rw [List.mem_singleton.mp hk]; simp)
  | @stop id =>
      refine ⟨h.books, h.calls.replace ?_ (kept rfl) ?_⟩
      · intro k hk j y hj hy
        rw [List.mem_singleton.mp hk] at hj ⊢
        exact h.calls.head j y hj hy
      · exact fun k hk => Frame.inOrder_of_ne (by rw [List.mem_singleton.mp hk]; simp)
  | @finish id g fs hg hp hr plain =>
      have hw : g.phase = .withdrawing := hp.resolve_right (h.calls.head id g rfl hg)
      have happ : id ∉ l.applies := h.books.not_applying hg (by simp [hw])
      have bal := h.books.balanced id g hg
      refine ⟨h.books.set hg (parked_balanced hr (no_consumers_of_remaining bal hw hr)) fun hin =>
        absurd hin happ, Calls.cons (Calls.cons ?_ ?_ ?_) ?_ ?_⟩
      · exact h.calls.replace_inert (fun k hk => (plain k hk).unloads) fun k hk ht => ht.set fun hu =>
          (below hk hu hg).dormant (.inl rfl) rfl
      · intro j y hj hy
        cases hj
        rw [Ledger.set_guards, if_pos rfl] at hy
        cases hy
        exact .inl rfl
      · intro b hb j es he hrel
        cases he
        rw [hrel] at hb
        rcases List.mem_append.mp hb with hb | hb
        · exact plain _ hb
        · have adm := below hb rfl hg
          simp [Frame.Admits, hw] at adm
      · intro j y hj hy
        cases hj
        rw [Ledger.set_guards, if_pos rfl] at hy
        cases hy
        exact ⟨.inl rfl, bal.closed (.inl hw)⟩
      · exact fun b _ => Frame.inOrder_of_ne (by simp) b
  | @release id e es p hp =>
      have bal := released_balanced (h.books.balanced _ p hp) (ok p hp)
      refine ⟨h.books.set hp bal fun hin => h.books.applying _ p hin hp, h.calls.replace ?_ ?_ ?_⟩
      · intro k hk
        rcases List.mem_cons.mp hk with rfl | hk
        · intro j y hj hy
          cases hj
          rw [Ledger.set_guards, if_pos rfl] at hy
          cases hy
          intro hd
          have hin := ok p hp (.inr hd)
          rw [((Guard.balanced_diverted (g := p) hd).mp (h.books.balanced _ p hp)).2.1] at hin
          exact SortedSet.not_mem_empty id hin
        · rw [List.mem_singleton.mp hk]
          exact Frame.Tolerates.set_same (fun j y hj hy => h.calls.head j y hj hy) hp rfl rfl
      · exact fun k _ ht => ht.set_same hp rfl rfl
      · intro k hk
        refine Frame.inOrder_of_ne ?_
        rcases List.mem_cons.mp hk with rfl | hk
        · simp
        · rw [List.mem_singleton.mp hk]; simp
  | @skip id e es hn =>
      refine ⟨h.books, h.calls.replace ?_ (kept rfl) ?_⟩
      · intro k hk
        rw [List.mem_singleton.mp hk]
        exact fun j y hj hy => h.calls.head j y hj hy
      · exact fun k hk => Frame.inOrder_of_ne (by rw [List.mem_singleton.mp hk]; simp)
  | @opened id g hg =>
      have hd : g.phase = .inactive ∨ g.phase = .loading := h.calls.head id g rfl hg
      have hb := (Guard.balanced_dormant hd).mp (h.books.balanced id g hg)
      refine ⟨h.books.set hg ((Guard.balanced_dormant (g := { g with done := {} }) hd).mpr hb) fun hin =>
        h.books.applying id g hin hg, h.calls.replace_inert ?_ fun k hk ht => ht.set fun hu => ?_⟩
      · intro k hk
        obtain ⟨_, _, rfl⟩ := List.mem_map.mp hk
        rfl
      · exact (below hk hu hg).reopen rfl
          (fun es => (List.pairwise_cons.mp h.calls.ordered).1 k hk id es rfl) hu
  | @waits id w g hg ho =>
      exact ⟨h.books.set hg ((h.books.balanced id g hg).congr rfl rfl rfl rfl) fun hin =>
        h.books.applying id g hin hg,
        h.calls.replace_inert (by simp) fun k _ ht => ht.set_same hg rfl rfl⟩
  | through _ => exact ⟨h.books, h.calls.replace_inert (by simp [Frame.unloads]) (kept rfl)⟩
  | erased _ => exact ⟨h.books.erase _, h.calls.replace_inert (by simp) fun k _ ht => ht.erase _⟩
  | resumed => exact ⟨h.books, h.calls.replace_inert (by simp [Frame.unloads]) (kept rfl)⟩
  | childErased hg hp => exact ⟨h.books.erase _, h.calls.replace_inert (by simp) fun k _ ht => ht.erase _⟩
  | childWaits => exact ⟨h.books, h.calls.replace_inert (by simp [Frame.unloads]) (kept rfl)⟩
  | @dropEntry l' id g desired es es' path toAwait same hg =>
      have hg' : l'.guards id = some g := same.guards ▸ hg
      have moved := h.books.same same
      refine ⟨moved.set hg' ((moved.balanced id g hg').congr rfl rfl rfl rfl) fun hin =>
        moved.applying id g hin hg', h.calls.replace_inert (by simp [Frame.unloads]) fun k hk ht => ?_⟩
      exact (kept same.guards k hk ht).set_same hg' rfl rfl
  | keepEntry same plain =>
      refine ⟨h.books.same same, h.calls.replace_inert ?_ (kept same.guards)⟩
      intro k hk
      rcases List.mem_append.mp hk with hk | hk
      · exact (plain k hk).unloads
      · rw [List.mem_singleton.mp hk]; rfl
  | diffDone => exact ⟨h.books, h.calls.replace_inert (by simp [Frame.unloads]) (kept rfl)⟩
  | awaitNext => exact ⟨h.books, h.calls.replace_inert (by simp [Frame.unloads]) (kept rfl)⟩
  | erasedAll =>
      exact ⟨h.books.eraseAll _, h.calls.replace_inert (by simp [Frame.unloads]) fun k _ ht => ht.eraseAll _⟩

theorem unwound (h : Accounts l (f :: rest)) (t : Unwound l f l') : Accounts l' [] := by
  cases t with
  | @load id g names hg hp hr names_lt =>
      have hb := (Guard.balanced_dormant (.inl hp)).mp (h.books.balanced id g hg)
      have loaded := h.books.set hg ((Guard.balanced_dormant (.inr rfl)).mpr hb :
        Guard.Balanced { g with phase := .loading, committed := names }) fun _ => .inl rfl
      exact ⟨loaded.grow (l.nextId + 1) (Nat.le_succ _), ⟨by simp, .nil⟩⟩

/-- Joining a provider's consumers unbalances its books only if it is not active. -/
theorem enrolled (h : Books l) {ps : List FiberId}
    (act : ∀ p ∈ ps, ∀ d, l.guards p = some d → d.phase = .active) : Books (l.enroll id ps) where
  fresh := by
    intro j y hy
    obtain ⟨d, hd, rfl⟩ := Option.map_eq_some_iff.mp hy
    exact h.fresh j d hd
  balanced := by
    intro j y hy
    obtain ⟨d, hd, rfl⟩ := Option.map_eq_some_iff.mp hy
    split
    · next hj =>
        have ha := act j hj d hd
        exact (Guard.balanced_active (g := { d with consumers := d.consumers.insert id }) ha).mpr
          ((Guard.balanced_active ha).mp (h.balanced j d hd))
    · exact h.balanced j d hd
  applying := by
    intro j y hj hy
    obtain ⟨d, hd, rfl⟩ := Option.map_eq_some_iff.mp hy
    have happ := h.applying j d hj hd
    split <;> exact happ
  once := h.once
  known := h.known

theorem unapplied (h : Books l) (id : FiberId) : Books { l with applies := l.applies.erase id } where
  fresh := h.fresh
  balanced := h.balanced
  applying j y hj hy := h.applying j y (List.mem_of_mem_erase hj) hy
  once := h.once.erase id
  known j hj := h.known j (List.mem_of_mem_erase hj)

/-- A fresh fiber has a balanced guard, and no apply was spawned for it before. -/
theorem mounted (h : Books l) : Books { l.set l.nextId {} with nextId := l.nextId + 1 } where
  fresh := by
    intro j y hy
    have hy' : (l.set l.nextId {}).guards j = some y := hy
    rw [Ledger.set_guards] at hy'
    split at hy'
    · next he => exact he ▸ Nat.lt_succ_self _
    · exact Nat.lt_succ_of_lt (h.fresh j y hy')
  balanced := by
    intro j y hy
    have hy' : (l.set l.nextId {}).guards j = some y := hy
    rw [Ledger.set_guards] at hy'
    split at hy'
    · cases hy'
      exact (Guard.balanced_dormant (.inl rfl)).mpr ⟨rfl, rfl⟩
    · exact h.balanced j y hy'
  applying := by
    intro j y hj hy
    have hy' : (l.set l.nextId {}).guards j = some y := hy
    rw [Ledger.set_guards, if_neg (Nat.ne_of_lt (h.known j hj))] at hy'
    exact h.applying j y hj hy'
  once := h.once
  known j hj := Nat.lt_succ_of_lt (h.known j hj)

theorem entry {pub : FiberId → Option String → Prop} {o : Op} {st : List Frame} (h : Accounts l st)
    (hst : st = [] ∨ o.nested = true) (ok : o.Orderly l pub) (t : Entry pub l o l' fs) :
    Accounts l' (fs ++ st) := by
  have idle : ∀ {l' : Ledger} {fs : List Frame}, (∀ f ∈ fs, f.unloads = none) → Calls l' (fs ++ []) := by
    intro l' fs inert
    refine Calls.replace_inert (l := l') (f := .transitionFinished) ⟨?_, by simp⟩ inert (by simp)
    intro k hk
    rw [List.mem_singleton.mp hk]
    exact Frame.tolerates_of_inert rfl _
  have atop : o.nested = false → st = [] := fun hn => hst.resolve_right (by simp [hn])
  cases t with
  | quiet same plain quiet =>
      refine ⟨h.books.same same, ?_⟩
      rcases hst with rfl | hn
      · exact idle fun k hk => (plain k hk).unloads
      · rw [quiet hn]
        exact ⟨fun k hk => same.guards ▸ h.calls.tolerates k hk, h.calls.ordered⟩
  | mounted hn plain =>
      rw [atop hn]
      exact ⟨mounted h.books, idle fun k hk => (plain k hk).unloads⟩
  | @retireInactive id g hg hp =>
      rw [atop rfl]
      exact ⟨h.books.erase id, idle (by simp)⟩
  | @retire id g hg =>
      rw [atop rfl]
      exact ⟨h.books.set hg ((h.books.balanced id g hg).congr rfl rfl rfl rfl) fun hin =>
        h.books.applying id g hin hg, idle (by simp [Frame.unloads])⟩
  | @retireChild n id g hg =>
      rw [atop rfl]
      exact ⟨h.books.set hg ((h.books.balanced id g hg).congr rfl rfl rfl rfl) fun hin =>
        h.books.applying id g hin hg, idle (by simp [Frame.unloads])⟩
  | reconcile =>
      rw [atop rfl]
      exact ⟨h.books, idle (by simp [Frame.unloads])⟩
  | @ignored id ep hin =>
      rw [atop rfl]
      exact ⟨unapplied h.books id, idle (by simp)⟩
  | @dropped id ep g fs hin hg plain =>
      rw [atop rfl]
      have phase := h.books.applying id g hin hg
      have spent : id ∉ l.applies.erase id := h.books.once.not_mem_erase
      refine ⟨?_, Calls.cons (idle fun k hk => (plain k hk).unloads) ?_ ?_⟩
      · have empty : g.remaining = 0 ∧ g.consumers = ∅ := by
          rcases phase with hp | hp
          · exact (Guard.balanced_dormant (.inr hp)).mp (h.books.balanced id g hg)
          · have hd := (Guard.balanced_diverted hp).mp (h.books.balanced id g hg)
            exact ⟨hd.1, hd.2.1⟩
        exact (unapplied h.books id).set hg (parked_balanced empty.1 empty.2) fun hin => absurd hin spent
      · intro j y hj hy
        cases hj
        rw [Ledger.set_guards, if_pos rfl] at hy
        cases hy
        exact .inl rfl
      · intro b hb j es _ hrel
        have hin : b ∈ fs ++ [] := hb
        rw [List.append_nil] at hin
        exact absurd (plain b hin).unloads (by simp [hrel, Frame.unloads])
  | @published id ep g fs hin hg hp hpub plain =>
      rw [atop rfl]
      have bal := (Guard.balanced_dormant (.inr hp)).mp (h.books.balanced id g hg)
      have spent : id ∉ l.applies.erase id := h.books.once.not_mem_erase
      have act := (unapplied h.books id).set hg
        ((Guard.balanced_active rfl).mpr bal.1 : Guard.Balanced { g with phase := .active }) fun hin => absurd hin spent
      refine ⟨enrolled act ?_, idle fun k hk => (plain k hk).unloads⟩
      intro p hpin d hd
      rw [Ledger.set_guards] at hd
      split at hd
      · cases hd; rfl
      · obtain ⟨e, he, rfl⟩ := List.mem_map.mp hpin
        exact ok hpub g hg e.2 d (Guard.names_iff.mpr ⟨e, he, rfl⟩) hd

end Accounts
end Araya
