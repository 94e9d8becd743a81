import Mathlib.Data.List.Basic
import Mathlib.Data.List.Perm.Subperm
import Mathlib.Order.Lattice
import Mathlib.Tactic.Common

/-!
Ordered sets and maps kept as strictly sorted lists, the value types behind
every ordered container of the runtime. The order is a field, so an iteration
is deterministic and a key occurs at most once by construction.
-/

namespace Araya

universe u v
variable {α : Type u} {β : Type v} [LinearOrder α]

/-! Ordered sets -/

structure SortedSet (α : Type u) [LinearOrder α] where
  toList : List α
  sorted : toList.Pairwise (· < ·)

namespace SortedSet

instance : Membership α (SortedSet α) := ⟨fun s a => a ∈ s.toList⟩

instance (s : SortedSet α) (a : α) : Decidable (a ∈ s) :=
  inferInstanceAs (Decidable (a ∈ s.toList))

theorem mem_def {s : SortedSet α} {a : α} : a ∈ s ↔ a ∈ s.toList := Iff.rfl

def empty : SortedSet α := ⟨[], List.Pairwise.nil⟩

instance : EmptyCollection (SortedSet α) := ⟨empty⟩
instance : Inhabited (SortedSet α) := ⟨empty⟩

@[simp] theorem not_mem_empty (a : α) : a ∉ (∅ : SortedSet α) := List.not_mem_nil

def insertList (a : α) : List α → List α
  | [] => [a]
  | b :: bs => if a < b then a :: b :: bs else if a = b then b :: bs else b :: insertList a bs

theorem mem_insertList {a b : α} {l : List α} : b ∈ insertList a l ↔ b = a ∨ b ∈ l := by
  induction l with
  | nil => simp [insertList]
  | cons c cs ih =>
      simp only [insertList]
      split_ifs with hlt heq
      · simp
      · subst heq; simp
      · simp [ih, or_left_comm]

theorem insertList_sorted {a : α} {l : List α} (h : l.Pairwise (· < ·)) :
    (insertList a l).Pairwise (· < ·) := by
  induction l with
  | nil => simp [insertList]
  | cons c cs ih =>
      have hc := List.pairwise_cons.mp h
      simp only [insertList]
      split_ifs with hlt heq
      · refine List.pairwise_cons.mpr ⟨?_, h⟩
        intro b hb
        rcases List.mem_cons.mp hb with rfl | hb
        · exact hlt
        · exact hlt.trans (hc.1 b hb)
      · exact h
      · refine List.pairwise_cons.mpr ⟨?_, ih hc.2⟩
        intro b hb
        rcases mem_insertList.mp hb with rfl | hb
        · exact lt_of_le_of_ne (not_lt.mp hlt) (Ne.symm heq)
        · exact hc.1 b hb

def insert (s : SortedSet α) (a : α) : SortedSet α := ⟨insertList a s.toList, insertList_sorted s.sorted⟩

@[simp] theorem mem_insert {s : SortedSet α} {a b : α} : b ∈ s.insert a ↔ b = a ∨ b ∈ s :=
  mem_insertList

def erase (s : SortedSet α) (a : α) : SortedSet α :=
  ⟨s.toList.erase a, s.sorted.sublist List.erase_sublist⟩

theorem nodup (s : SortedSet α) : s.toList.Nodup := s.sorted.imp ne_of_lt

@[simp] theorem mem_erase {s : SortedSet α} {a b : α} : b ∈ s.erase a ↔ b ≠ a ∧ b ∈ s :=
  s.nodup.mem_erase_iff

def card (s : SortedSet α) : Nat := s.toList.length

@[simp] theorem card_empty : (∅ : SortedSet α).card = 0 := rfl

theorem card_erase_of_mem {s : SortedSet α} {a : α} (h : a ∈ s) :
    (s.erase a).card + 1 = s.card := by
  have hlen := List.length_erase_of_mem (a := a) (l := s.toList) h
  have hpos : 0 < s.toList.length := List.length_pos_of_mem h
  simp only [card, erase]
  omega

theorem card_erase_of_not_mem {s : SortedSet α} {a : α} (h : a ∉ s) :
    (s.erase a).card = s.card := by
  have hlist : s.toList.erase a = s.toList := List.erase_of_not_mem h
  simp only [card, erase, hlist]

theorem card_eq_zero {s : SortedSet α} : s.card = 0 ↔ ∀ a, a ∉ s := by
  simp only [card, List.length_eq_zero_iff, mem_def]
  exact List.eq_nil_iff_forall_not_mem

theorem exists_mem_of_card_pos {s : SortedSet α} (h : 0 < s.card) : ∃ a, a ∈ s := by
  by_contra none
  have hz : s.card = 0 := card_eq_zero.mpr fun a ha => none ⟨a, ha⟩
  omega

theorem ext_mem {s t : SortedSet α} (h : ∀ a, a ∈ s ↔ a ∈ t) : s = t := by
  obtain ⟨l, hl⟩ := s
  obtain ⟨k, hk⟩ := t
  have perm : l.Perm k :=
    (List.perm_ext_iff_of_nodup (hl.imp ne_of_lt) (hk.imp ne_of_lt)).mpr h
  have same : l = k :=
    perm.eq_of_pairwise (fun a b _ _ hab hba => absurd (hab.trans hba) (lt_irrefl _)) hl hk
  subst same
  rfl

theorem insert_of_mem {s : SortedSet α} {a : α} (h : a ∈ s) : s.insert a = s := by
  apply ext_mem
  intro b
  rw [mem_insert]
  exact ⟨fun hb => hb.elim (fun he => he ▸ h) id, .inr⟩

/-- How many members satisfy a decidable predicate. -/
def count (s : SortedSet α) (p : α → Bool) : Nat := (s.toList.filter p).length

theorem count_eq_card {s : SortedSet α} {p : α → Bool} (h : ∀ a ∈ s, p a = true) :
    s.count p = s.card := by
  simp only [count, card]
  rw [List.filter_eq_self.mpr h]

theorem count_congr {s : SortedSet α} {p q : α → Bool} (h : ∀ a ∈ s, p a = q a) :
    s.count p = s.count q := by
  simp only [count]
  rw [List.filter_congr h]

/-- The first member that a test picks has all that it picks behind it. -/
theorem find?_least {s : SortedSet α} {p : α → Bool} {a : α} (h : s.toList.find? p = some a) :
    a ∈ s ∧ p a = true ∧ ∀ b ∈ s, p b = true → a ≤ b := by
  obtain ⟨picked, front, back, split, none⟩ := List.find?_eq_some_iff_append.mp h
  have sorted := s.sorted
  rw [split] at sorted
  refine ⟨List.mem_of_find?_eq_some h, picked, fun b hb hp => ?_⟩
  rw [mem_def, split] at hb
  rcases List.mem_append.mp hb with before | after
  · have passed := none b before
    rw [hp] at passed
    cases passed
  · rcases List.mem_cons.mp after with rfl | rest
    · exact le_rfl
    · exact le_of_lt (List.rel_of_pairwise_cons (List.pairwise_append.mp sorted).2.1 rest)

end SortedSet

/-! Ordered maps -/

structure SortedMap (α : Type u) (β : Type v) [LinearOrder α] where
  toList : List (α × β)
  sorted : toList.Pairwise (fun x y => x.1 < y.1)

namespace SortedMap

def empty : SortedMap α β := ⟨[], List.Pairwise.nil⟩

instance : EmptyCollection (SortedMap α β) := ⟨empty⟩
instance : Inhabited (SortedMap α β) := ⟨empty⟩

def findList (a : α) : List (α × β) → Option β
  | [] => none
  | (b, y) :: rest => if a = b then some y else findList a rest

def find? (m : SortedMap α β) (a : α) : Option β := findList a m.toList

def contains (m : SortedMap α β) (a : α) : Bool := (m.find? a).isSome

def size (m : SortedMap α β) : Nat := m.toList.length

@[simp] theorem find?_empty (a : α) : (∅ : SortedMap α β).find? a = none := rfl

def insertList (a : α) (x : β) : List (α × β) → List (α × β)
  | [] => [(a, x)]
  | (b, y) :: rest =>
    if a < b then (a, x) :: (b, y) :: rest
    else if a = b then (a, x) :: rest
    else (b, y) :: insertList a x rest

theorem mem_insertList {a : α} {x : β} {e : α × β} {l : List (α × β)}
    (h : e ∈ insertList a x l) : e = (a, x) ∨ e ∈ l := by
  induction l with
  | nil => simpa [insertList] using h
  | cons c cs ih =>
      obtain ⟨b, y⟩ := c
      simp only [insertList] at h
      split_ifs at h with hlt heq
      · simpa using h
      · rcases List.mem_cons.mp h with h | h
        · exact .inl h
        · exact .inr (List.mem_cons_of_mem _ h)
      · rcases List.mem_cons.mp h with h | h
        · exact .inr (h ▸ List.mem_cons_self)
        · exact (ih h).imp_right (List.mem_cons_of_mem _)

theorem insertList_sorted {a : α} {x : β} {l : List (α × β)}
    (h : l.Pairwise (fun e f => e.1 < f.1)) :
    (insertList a x l).Pairwise (fun e f => e.1 < f.1) := by
  induction l with
  | nil => simp [insertList]
  | cons c cs ih =>
      obtain ⟨b, y⟩ := c
      have hc := List.pairwise_cons.mp h
      simp only [insertList]
      split_ifs with hlt heq
      · refine List.pairwise_cons.mpr ⟨?_, h⟩
        intro e he
        rcases List.mem_cons.mp he with rfl | he
        · exact hlt
        · exact hlt.trans (hc.1 e he)
      · exact List.pairwise_cons.mpr ⟨fun e he => heq ▸ hc.1 e he, hc.2⟩
      · refine List.pairwise_cons.mpr ⟨?_, ih hc.2⟩
        intro e he
        rcases mem_insertList he with rfl | he
        · exact lt_of_le_of_ne (not_lt.mp hlt) (Ne.symm heq)
        · exact hc.1 e he

def insert (m : SortedMap α β) (a : α) (x : β) : SortedMap α β :=
  ⟨insertList a x m.toList, insertList_sorted m.sorted⟩

theorem findList_insertList (a b : α) (x : β) (l : List (α × β)) :
    findList b (insertList a x l) = if b = a then some x else findList b l := by
  induction l with
  | nil => simp [insertList, findList]
  | cons c cs ih =>
      obtain ⟨k, y⟩ := c
      by_cases hlt : a < k
      · by_cases hba : b = a <;> simp [insertList, findList, hlt, hba]
      · by_cases hak : a = k
        · subst hak
          by_cases hba : b = a <;> simp [insertList, findList, hba]
        · by_cases hba : b = a
          · subst hba
            simp [insertList, findList, hlt, hak, ih]
          · simp [insertList, findList, hlt, hak, ih, hba]

@[simp] theorem find?_insert (m : SortedMap α β) (a b : α) (x : β) :
    (m.insert a x).find? b = if b = a then some x else m.find? b :=
  findList_insertList a b x m.toList

/-- Entries with keys of their own, each inserted where `p` lets it. -/
theorem find?_foldl_insert {γ : Type*} (key : γ → α) (p : γ → Bool) {l : List γ} (m : SortedMap α γ)
    (distinct : l.Pairwise fun c d => p c = true → p d = true → key c ≠ key d) (a : α) (c : γ) :
    (l.foldl (fun m c => if p c then m.insert (key c) c else m) m).find? a = some c ↔
      (c ∈ l ∧ p c = true ∧ key c = a) ∨ ((∀ d ∈ l, p d = true → key d ≠ a) ∧ m.find? a = some c) := by
  induction l generalizing m with
  | nil => simp
  | cons d l ih =>
      obtain ⟨apart, distinct⟩ := List.pairwise_cons.mp distinct
      rw [List.foldl_cons, ih _ distinct]
      cases hd : p d with
      | false =>
          have head : ¬ (c = d ∧ p c = true) := fun h => by rw [h.1, hd] at h; exact absurd h.2 (by simp)
          rw [List.forall_mem_cons, List.mem_cons]
          simp only [hd, Bool.false_eq_true, false_implies, true_and, if_false]
          refine or_congr_left (Iff.intro (fun h => ⟨.inr h.1, h.2⟩) fun h => ?_)
          exact ⟨h.1.resolve_left fun hc => head ⟨hc, h.2.1⟩, h.2⟩
      | true =>
          by_cases same : a = key d
          · subst same
            have fresh : ∀ d' ∈ l, p d' = true → key d' ≠ key d := fun d' hd' hp => (apart d' hd' hd hp).symm
            have later : ¬ (c ∈ l ∧ p c = true ∧ key c = key d) := fun h => fresh c h.1 h.2.1 h.2.2
            simp only [if_true, find?_insert, later, false_or]
            constructor
            · rintro ⟨_, found⟩
              cases found
              exact .inl ⟨List.mem_cons_self, hd, rfl⟩
            · rintro (⟨hc, hp, hk⟩ | ⟨none, _⟩)
              · rcases List.mem_cons.mp hc with rfl | hc
                · exact ⟨fresh, rfl⟩
                · exact absurd hk (fresh c hc hp)
              · exact absurd rfl (none d List.mem_cons_self hd)
          · have other : key d ≠ a := Ne.symm same
            have head : c = d → key c ≠ a := fun h => h ▸ other
            rw [List.forall_mem_cons, List.mem_cons]
            simp only [if_true, find?_insert, same, if_false, hd, true_implies, ne_eq, other, not_false_eq_true,
              true_and]
            refine or_congr_left (Iff.intro (fun h => ⟨.inr h.1, h.2⟩) fun h => ?_)
            exact ⟨h.1.resolve_left fun hc => head hc h.2.2, h.2⟩

theorem mem_of_findList {a : α} {x : β} {l : List (α × β)} (h : findList a l = some x) :
    (a, x) ∈ l := by
  induction l with
  | nil => simp [findList] at h
  | cons c cs ih =>
      obtain ⟨b, y⟩ := c
      simp only [findList] at h
      split_ifs at h with heq
      · cases h; subst heq; exact List.mem_cons_self
      · exact List.mem_cons_of_mem _ (ih h)

theorem findList_of_mem {a : α} {x : β} {l : List (α × β)}
    (sorted : l.Pairwise (fun e f => e.1 < f.1)) (h : (a, x) ∈ l) : findList a l = some x := by
  induction l with
  | nil => simp at h
  | cons c cs ih =>
      obtain ⟨b, y⟩ := c
      have hc := List.pairwise_cons.mp sorted
      rcases List.mem_cons.mp h with heq | h
      · cases heq; simp [findList]
      · have hne : a ≠ b := (ne_of_lt (hc.1 _ h)).symm
        simp [findList, hne, ih hc.2 h]

theorem mem_toList {m : SortedMap α β} {a : α} {x : β} :
    (a, x) ∈ m.toList ↔ m.find? a = some x :=
  ⟨findList_of_mem m.sorted, mem_of_findList⟩

/-- A fold over the entries whose every step changes one view only, that of its own key. -/
theorem foldl_view {τ ν : Type*} (view : τ → α → ν) (step : τ → α × β → τ) (act : α → β → ν → ν)
    (own : ∀ t e k, view (step t e) k = if k = e.1 then act e.1 e.2 (view t k) else view t k)
    (m : SortedMap α β) (t : τ) (k : α) :
    view (m.toList.foldl step t) k = (m.find? k).elim (view t k) fun x => act k x (view t k) := by
  have list : ∀ l : List (α × β), l.Pairwise (fun x y => x.1 < y.1) → ∀ t,
      view (l.foldl step t) k = (findList k l).elim (view t k) fun x => act k x (view t k) := by
    intro l sorted
    induction l with
    | nil => exact fun t => rfl
    | cons e l ih =>
        intro t
        obtain ⟨apart, sorted⟩ := List.pairwise_cons.mp sorted
        rw [List.foldl_cons, ih sorted, own, findList]
        by_cases same : k = e.1
        · have fresh : findList k l = none := Option.eq_none_iff_forall_not_mem.mpr fun x found =>
            ne_of_gt (apart (k, x) (mem_of_findList found)) same
          rw [fresh, if_pos same, if_pos same, ← same]
          rfl
        · rw [if_neg same, if_neg same]
  exact list m.toList m.sorted t

def erase (m : SortedMap α β) (a : α) : SortedMap α β :=
  ⟨m.toList.filter (fun e => e.1 ≠ a), m.sorted.filter _⟩

@[simp] theorem find?_erase (m : SortedMap α β) (a b : α) :
    (m.erase a).find? b = if b = a then none else m.find? b := by
  cases h : (m.erase a).find? b with
  | some x =>
      have hmem := mem_toList.mpr h
      simp only [erase, List.mem_filter, decide_eq_true_eq, ne_eq] at hmem
      rw [if_neg hmem.2, mem_toList.mp hmem.1]
  | none =>
      split_ifs with hba
      · rfl
      · cases hm : m.find? b with
        | none => rfl
        | some x =>
            have hmem : (b, x) ∈ (m.erase a).toList := by
              simp only [erase, List.mem_filter, decide_eq_true_eq, ne_eq]
              exact ⟨mem_toList.mpr hm, hba⟩
            rw [mem_toList.mp hmem] at h
            cases h

theorem contains_iff {m : SortedMap α β} {a : α} :
    m.contains a = true ↔ ∃ x, m.find? a = some x := Option.isSome_iff_exists

/-- The entries are determined by the lookups. -/
theorem ext_find? {m n : SortedMap α β} (h : ∀ a, m.find? a = n.find? a) : m = n := by
  obtain ⟨l, hl⟩ := m
  obtain ⟨k, hk⟩ := n
  have same : l = k := by
    have hmem : ∀ e, e ∈ l ↔ e ∈ k := by
      intro e
      have he := h e.1
      constructor
      · intro hin
        exact mem_of_findList (he.symm.trans (findList_of_mem hl hin) : findList e.1 k = some e.2)
      · intro hin
        exact mem_of_findList (he.trans (findList_of_mem hk hin) : findList e.1 l = some e.2)
    have nl : l.Nodup := hl.imp fun hlt heq => absurd (congrArg Prod.fst heq) (ne_of_lt hlt)
    have nk : k.Nodup := hk.imp fun hlt heq => absurd (congrArg Prod.fst heq) (ne_of_lt hlt)
    have perm : l.Perm k := (List.perm_ext_iff_of_nodup nl nk).mpr hmem
    exact perm.eq_of_pairwise (fun a b _ _ hab hba => absurd (hab.trans hba) (lt_irrefl _)) hl hk
  subst same
  rfl

instance [DecidableEq β] : DecidableEq (SortedMap α β) := fun m n =>
  decidable_of_iff (m.toList = n.toList) ⟨fun h => by cases m; cases n; cases h; rfl,
    fun h => h ▸ rfl⟩

/-- The same function on every value; entries it maps to `none` are dropped. -/
def filterMap (m : SortedMap α β) (f : β → Option β) : SortedMap α β :=
  ⟨m.toList.filterMap fun e => (f e.2).map (e.1, ·), by
    refine List.Pairwise.filterMap _ (R := fun x y => x.1 < y.1) ?_ m.sorted
    intro x y hxy x' hx y' hy
    obtain ⟨_, _, rfl⟩ := Option.map_eq_some_iff.mp hx
    obtain ⟨_, _, rfl⟩ := Option.map_eq_some_iff.mp hy
    exact hxy⟩

@[simp] theorem find?_filterMap (m : SortedMap α β) (f : β → Option β) (a : α) :
    (m.filterMap f).find? a = (m.find? a).bind f := by
  have key : ∀ x, (m.filterMap f).find? a = some x ↔ ∃ y, m.find? a = some y ∧ f y = some x := by
    intro x
    rw [← mem_toList]
    simp only [filterMap, List.mem_filterMap, Option.map_eq_some_iff, Prod.mk.injEq, Prod.exists]
    constructor
    · rintro ⟨b, y, hmem, z, hz, rfl, rfl⟩
      exact ⟨y, mem_toList.mp hmem, hz⟩
    · rintro ⟨y, hy, hx⟩
      exact ⟨a, y, mem_toList.mpr hy, x, hx, rfl, rfl⟩
  apply Option.ext
  intro x
  rw [key, Option.bind_eq_some_iff]

theorem nodup_toList (m : SortedMap α β) : m.toList.Nodup :=
  m.sorted.imp fun hlt heq => absurd (congrArg Prod.fst heq) (ne_of_lt hlt)

/-- A map contained in one of the same size is that map. -/
theorem eq_of_subset_of_size {m n : SortedMap α β} (hsub : ∀ a x, m.find? a = some x → n.find? a = some x)
    (hsize : m.size = n.size) : m = n := by
  have nm : m.toList.Nodup := nodup_toList m
  have sub : m.toList ⊆ n.toList := by
    intro e he
    exact mem_toList.mpr (hsub e.1 e.2 (mem_toList.mp he))
  have perm : m.toList.Perm n.toList :=
    (List.subperm_of_subset nm sub).perm_of_length_le (Nat.le_of_eq hsize.symm)
  apply ext_find?
  intro a
  cases hm : m.find? a with
  | some x => exact (hsub a x hm).symm
  | none =>
      cases hn : n.find? a with
      | none => rfl
      | some x =>
          have hmem : (a, x) ∈ m.toList := perm.mem_iff.mpr (mem_toList.mpr hn)
          rw [mem_toList.mp hmem] at hm
          cases hm

/-! Counting -/

/-- How many values satisfy a predicate. -/
def count (m : SortedMap α β) (p : β → Bool) : Nat := m.toList.countP (p ·.2)

/-- An insertion adds the new value to what is left without the key. -/
theorem count_insert (m : SortedMap α β) (a : α) (x : β) (p : β → Bool) :
    (m.insert a x).count p = (m.erase a).count p + (p x).toNat := by
  have fresh : (a, x) ∉ (m.erase a).toList := by
    intro h
    simpa using mem_toList.mp h
  have perm : (m.insert a x).toList.Perm ((a, x) :: (m.erase a).toList) := by
    refine (List.perm_ext_iff_of_nodup (nodup_toList _) (List.nodup_cons.mpr ⟨fresh, nodup_toList _⟩)).mpr ?_
    rintro ⟨b, y⟩
    rw [List.mem_cons, mem_toList, mem_toList, find?_insert, find?_erase, Prod.mk.injEq]
    by_cases hba : b = a
    · simp only [hba, if_pos, true_and, Option.some.injEq, reduceCtorEq, or_false]
      exact eq_comm
    · simp [hba]
  have counted := perm.countP_eq (p ·.2)
  rw [List.countP_cons] at counted
  unfold count
  rw [counted]
  cases p x <;> rfl

theorem count_erase {m : SortedMap α β} {a : α} {x : β} (h : m.find? a = some x) (p : β → Bool) :
    m.count p = (m.erase a).count p + (p x).toNat := by
  have same : m.insert a x = m := by
    apply ext_find?
    intro b
    rw [find?_insert]
    split
    · next hb => rw [hb, h]
    · rfl
  have counted := count_insert m a x p
  rwa [same] at counted

theorem erase_of_none {m : SortedMap α β} {a : α} (h : m.find? a = none) : m.erase a = m := by
  apply ext_find?
  intro b
  rw [find?_erase]
  split
  · next hb => rw [hb, h]
  · rfl

/-! Maps from positions -/

theorem zipIdx_sorted {γ : Type*} (l : List γ) (k : Nat) : (l.zipIdx k).Pairwise (fun x y => x.2 < y.2) := by
  induction l generalizing k with
  | nil => exact List.Pairwise.nil
  | cons a l ih =>
      rw [List.zipIdx_cons]
      refine List.Pairwise.cons (fun e he => ?_) (ih (k + 1))
      exact Nat.lt_of_succ_le (List.le_snd_of_mem_zipIdx he)

/-- A map from the positions of a list holds their values in its order. -/
theorem values_of_positions {γ : Type*} {m : SortedMap Nat β} {l : List γ} {f : γ → Option β}
    (h : ∀ i, m.find? i = l[i]?.bind f) : m.toList.map Prod.snd = l.filterMap f := by
  let entries := l.zipIdx.filterMap fun e => (f e.1).map fun x => (e.2, x)
  have sorted : entries.Pairwise (fun x y => x.1 < y.1) := by
    refine List.pairwise_filterMap.mpr ((zipIdx_sorted l 0).imp fun lt x hx y hy => ?_)
    obtain ⟨_, _, rfl⟩ := Option.map_eq_some_iff.mp hx
    obtain ⟨_, _, rfl⟩ := Option.map_eq_some_iff.mp hy
    exact lt
  have same : m = ⟨entries, sorted⟩ := by
    refine ext_find? fun i => Option.ext fun x => ?_
    rw [h, ← mem_toList (m := ⟨entries, sorted⟩)]
    simp only [Option.bind_eq_some_iff, entries, List.mem_filterMap, Option.map_eq_some_iff, Prod.mk.injEq]
    constructor
    · rintro ⟨a, ha, hx⟩
      exact ⟨(a, i), List.mem_zipIdx_iff_getElem?.mpr ha, x, hx, rfl, rfl⟩
    · rintro ⟨⟨a, k⟩, ha, y, hy, rfl, rfl⟩
      exact ⟨a, List.mem_zipIdx_iff_getElem?.mp ha, hy⟩
  rw [same, List.map_filterMap]
  conv_rhs => rw [← List.zipIdx_map_fst 0 l, List.filterMap_map]
  refine List.filterMap_congr fun e _ => ?_
  simp [Function.comp_def]

end SortedMap
end Araya
