import Mathlib.Data.List.Infix
import Mathlib.Data.List.TakeWhile
import Mathlib.Tactic.SplitIfs

/-!
A tree of files, and the paths that a text spells in it: the text ends at its first null character, the parts between
the separators are followed one by one, and each needs a directory to start from. Links are left out.
-/

namespace Araya.Files
universe u
variable {β : Type u}

abbrev Name := List Char
abbrev Path := List Name

inductive Node (β : Type u) where
  | directory
  | file (content : β)

abbrev Disk (β : Type u) := Path → Option (Node β)

/-- A name that leads into the directory it is looked up in, and nowhere else. -/
structure Plain (name : Name) : Prop where
  filled : name ≠ []
  not_dot : name ≠ ['.']
  not_dots : name ≠ ['.', '.']
  no_separator : '/' ∉ name
  no_null : '\x00' ∉ name

theorem plain_iff {name : Name} : Plain name ↔
    name ≠ [] ∧ name ≠ ['.'] ∧ name ≠ ['.', '.'] ∧ '/' ∉ name ∧ '\x00' ∉ name :=
  ⟨fun ⟨a, b, c, d, e⟩ => ⟨a, b, c, d, e⟩, fun ⟨a, b, c, d, e⟩ => ⟨a, b, c, d, e⟩⟩

instance (name : Name) : Decidable (Plain name) := decidable_of_iff' _ plain_iff

def isDirectory (disk : Disk β) (path : Path) : Bool :=
  match disk path with
  | some .directory => true
  | some (.file _) => false
  | none => false

def isFile (disk : Disk β) (path : Path) : Bool :=
  match disk path with
  | some .directory => false
  | some (.file _) => true
  | none => false

/-- Where the names lead from a place. The last of them need not exist. -/
def walk (disk : Disk β) : Path → List Name → Option Path
  | here, [] => some here
  | here, name :: names =>
    if isDirectory disk here then
      if name = [] ∨ name = ['.'] then walk disk here names
      else if name = ['.', '.'] then walk disk here.dropLast names
      else walk disk (here ++ [name]) names
    else none

def components (text : Name) : List Name := text.splitOn '/'

/-- The path of a text below a directory; an absolute one is its own. -/
def located (disk : Disk β) (root : Path) (text : Name) : Option Path :=
  let spelled := text.takeWhile (· ≠ '\x00')
  if spelled.head? = some '/' then walk disk [] (components spelled)
  else walk disk [] (root ++ components spelled)

/-- Makes the missing directories down to a path. A file in the way ends it. -/
def createDirectories (disk : Disk β) (root : Path) : Option (Disk β) :=
  if root.inits.any (isFile disk) then none
  else some fun path => if path <+: root then some .directory else disk path

section
variable {disk disk' : Disk β} {here root path : Path} {name text : Name} {names : List Name}

theorem walk_cons_plain (plain : Plain name) : walk disk here (name :: names) =
    if isDirectory disk here then walk disk (here ++ [name]) names else none := by
  rw [walk, if_neg (not_or.mpr ⟨plain.filled, plain.not_dot⟩), if_neg plain.not_dots]

theorem walk_plain (plain : ∀ name ∈ names, Plain name) (found : walk disk here names = some path) :
    path = here ++ names := by
  induction names generalizing here with
  | nil =>
      rw [walk, Option.some.injEq] at found
      rw [List.append_nil, found]
  | cons name names ih =>
      rw [walk_cons_plain (plain name List.mem_cons_self)] at found
      split_ifs at found
      have rest := ih (fun other there => plain other (List.mem_cons_of_mem _ there)) found
      rw [rest, List.append_assoc, List.singleton_append]

theorem walk_directories (plain : ∀ name ∈ names, Plain name)
    (opened : ∀ before, before <+: names → before ≠ names → isDirectory disk (here ++ before) = true) :
    walk disk here names = some (here ++ names) := by
  induction names generalizing here with
  | nil => rw [walk, List.append_nil]
  | cons name names ih =>
      have first := opened [] List.nil_prefix (List.cons_ne_nil _ _).symm
      rw [List.append_nil] at first
      rw [walk_cons_plain (plain name List.mem_cons_self), if_pos first,
        ih (fun other there => plain other (List.mem_cons_of_mem _ there)), List.append_assoc, List.singleton_append]
      intro before below short
      rw [List.append_assoc, List.singleton_append]
      apply opened (name :: before)
      · exact (List.cons_prefix_cons).mpr ⟨rfl, below⟩
      · intro same
        exact short (List.cons_injective same)

theorem components_plain (plain : Plain text) : components text = [text] := by
  exact List.splitOn_eq_singleton plain.no_separator

theorem located_eq_walk (plain : Plain text) : located disk root text = walk disk [] (root ++ [text]) := by
  have whole : text.takeWhile (· ≠ '\x00') = text := by
    rw [List.takeWhile_eq_self_iff]
    intro c there
    rw [decide_eq_true_eq]
    intro null
    exact plain.no_null (null ▸ there)
  have relative : text.head? ≠ some '/' := fun absolute => plain.no_separator (List.mem_of_head? absolute)
  unfold located
  simp only [whole]
  rw [if_neg relative, components_plain plain]

theorem located_plain (known : ∀ name ∈ root, Plain name) (plain : Plain text)
    (found : located disk root text = some path) : path = root ++ [text] := by
  rw [located_eq_walk plain] at found
  rw [← List.nil_append (root ++ [text])]
  refine walk_plain ?_ found
  intro name there
  rcases List.mem_append.mp there with up | last
  · exact known name up
  · rw [List.mem_singleton.mp last]
    exact plain

theorem located_below (known : ∀ name ∈ root, Plain name) (plain : Plain text)
    (opened : ∀ path, path <+: root → isDirectory disk path = true) :
    located disk root text = some (root ++ [text]) := by
  rw [located_eq_walk plain]
  apply walk_directories
  · intro name there
    rcases List.mem_append.mp there with up | last
    · exact known name up
    · rw [List.mem_singleton.mp last]
      exact plain
  · intro before below short
    apply opened
    rcases List.prefix_concat_iff.mp below with same | above
    · exact absurd same short
    · exact above

theorem createDirectories_open (made : createDirectories disk root = some disk') (below : path <+: root) :
    isDirectory disk' path = true := by
  unfold createDirectories at made
  split_ifs at made
  obtain rfl := Option.some.inj made
  simp only [isDirectory, if_pos below]

theorem createDirectories_rest (made : createDirectories disk root = some disk') (outside : ¬ path <+: root) :
    disk' path = disk path := by
  unfold createDirectories at made
  split_ifs at made
  obtain rfl := Option.some.inj made
  simp only [if_neg outside]

end

end Araya.Files
