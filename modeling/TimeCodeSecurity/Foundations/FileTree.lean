import TimeCodeSecurity.Foundations.Tables

/-! # A tree of files

Directories, files and symbolic links by their absolute paths. Files are told apart by inode numbers, so
that one file can have several names. What a path shows is the node with the file it names, its text
and its stamp; an operation is described by what each path shows after it.
-/
namespace TimeCodeSecurity
set_option autoImplicit false

abbrev FilePath := List String

inductive TreeNode
  | dir
  | file (ino : ℕ)
  | link (absolute : Bool) (dest : FilePath)
deriving DecidableEq, Repr

inductive NodeKind
  | dir
  | file
  | link (absolute : Bool) (dest : FilePath)
deriving DecidableEq, Repr

def TreeNode.kind : TreeNode → NodeKind
  | .dir => .dir
  | .file _ => .file
  | .link absolute dest => .link absolute dest

/-- A text that cannot be decoded is `none`. Every write changes the stamp. -/
structure Inode where
  text : Option (List Char)
  mode : ℕ
  stamp : ℕ
deriving DecidableEq, Repr

structure FileTree where
  nodes : DictOf FilePath TreeNode
  inodes : ℕ → Inode
  next : ℕ
  /-- Inode numbers from `next` on are free. -/
  below : ∀ p i, nodes.lookup p = some (.file i) → i < next

/-- Goes from the directory `done` along `todo`, with the place reached and whether a link was met on
the way. Where a step leads to no directory the way ends if it is strict, and goes on by the names if it
is not; with too many steps no place is reached. -/
def resolveFrom (strict : Bool) (kinds : FilePath → Option NodeKind) :
    ℕ → FilePath → FilePath → Bool → Option (FilePath × Bool)
  | _, done, [], met => some (done, met)
  | 0, _, _ :: _, _ => none
  | fuel + 1, done, c :: rest, met =>
    if c = ".." then resolveFrom strict kinds fuel done.dropLast rest met
    else if c = "." then resolveFrom strict kinds fuel done rest met
    else
      match kinds (done ++ [c]) with
      | some (.link true dest) => resolveFrom strict kinds fuel [] (dest ++ rest) true
      | some (.link false dest) => resolveFrom strict kinds fuel done (dest ++ rest) true
      | some .dir => resolveFrom strict kinds fuel (done ++ [c]) rest met
      | _ =>
        if strict ∧ rest ≠ [] then none
        else resolveFrom strict kinds fuel (done ++ [c]) rest met

namespace FileTree

variable (d : FileTree)

def node (p : FilePath) : Option TreeNode := d.nodes.lookup p

def kindAt (p : FilePath) : Option NodeKind := (d.node p).map TreeNode.kind

def nlink (i : ℕ) : ℕ := (d.nodes.items.filter fun e => e.2 = .file i).length

/-- `os.path.realpath` with whether a link was met. -/
def resolve (steps : ℕ) (p : FilePath) : Option (FilePath × Bool) :=
  resolveFrom false d.kindAt steps [] p false

/-- Where the entry `name` of a resolved directory leads. -/
def reach (steps : ℕ) (dir : FilePath) (name : String) : Option FilePath :=
  (resolveFrom true d.kindAt (steps + 1) dir [name] false).map (·.1)

def existsAt (steps : ℕ) (dir : FilePath) (name : String) : Bool :=
  match d.reach steps dir name with
  | some p => (d.node p).isSome
  | none => false

def create (q : FilePath) (text : List Char) (mode : ℕ) : FileTree where
  nodes := d.nodes.insert q (.file d.next)
  inodes := Function.update d.inodes d.next ⟨some text, mode, 0⟩
  next := d.next + 1
  below p i h := by
    rw [DictOf.lookup_insert_eq] at h
    split at h
    · cases h
      exact Nat.lt_succ_self _
    · exact Nat.lt_succ_of_lt (d.below p i h)

def overwrite (i : ℕ) (text : List Char) : FileTree :=
  { d with
    inodes := Function.update d.inodes i
      { d.inodes i with text := some text, stamp := (d.inodes i).stamp + 1 } }

def chmod (i : ℕ) (mode : ℕ) : FileTree :=
  { d with inodes := Function.update d.inodes i { d.inodes i with mode } }

def unlink (p : FilePath) : FileTree where
  nodes := d.nodes.erase p
  inodes := d.inodes
  next := d.next
  below q i h := by
    by_cases hq : q = p
    · rw [hq, AList.lookup_erase] at h
      cases h
    · rw [AList.lookup_erase_ne hq] at h
      exact d.below q i h

/-- `src` takes the place of `dst`. -/
def rename (src dst : FilePath) : FileTree where
  nodes :=
    match d.nodes.lookup src with
    | some n => (d.nodes.erase src).insert dst n
    | none => d.nodes
  inodes := d.inodes
  next := d.next
  below q i h := by
    cases hsrc : d.nodes.lookup src with
    | none =>
      rw [hsrc] at h
      exact d.below q i h
    | some n =>
      rw [hsrc, DictOf.lookup_insert_eq] at h
      split at h
      · cases h
        exact d.below src i hsrc
      · by_cases hq : q = src
        · rw [hq, AList.lookup_erase] at h
          cases h
        · rw [AList.lookup_erase_ne hq] at h
          exact d.below q i h

/-! ## What the paths show after an operation -/

inductive View
  | dir
  | file (ino : Inode)
  | link (absolute : Bool) (dest : FilePath)

def View.kind : View → NodeKind
  | .dir => .dir
  | .file _ => .file
  | .link absolute dest => .link absolute dest

def view (p : FilePath) : Option View :=
  (d.node p).map fun
    | .dir => .dir
    | .file i => .file (d.inodes i)
    | .link absolute dest => .link absolute dest

theorem kindAt_eq (p : FilePath) : d.kindAt p = (d.view p).map View.kind := by
  rw [kindAt, view]
  cases d.node p with
  | none => rfl
  | some n => cases n <;> rfl

theorem view_of_file {p : FilePath} {i : ℕ} (h : d.node p = some (.file i)) :
    d.view p = some (.file (d.inodes i)) := by
  rw [view, h]
  rfl

theorem view_eq_none {p : FilePath} (h : d.node p = none) : d.view p = none := by
  rw [view, h]
  rfl

theorem view_ne_none {p : FilePath} (h : d.node p ≠ none) : d.view p ≠ none := by
  rw [view]
  simpa using h

theorem view_create {q : FilePath} (text : List Char) (mode : ℕ) (p : FilePath) :
    (d.create q text mode).view p = if p = q then some (.file ⟨some text, mode, 0⟩) else d.view p := by
  rw [view, node, create, DictOf.lookup_insert_eq]
  split_ifs with hp
  · simp
  · rw [view, node]
    cases hnode : d.nodes.lookup p with
    | none => rfl
    | some n =>
      cases n with
      | file i =>
        have hi : i ≠ d.next := Nat.ne_of_lt (d.below p i hnode)
        simp only [Option.map_some, Function.update_of_ne hi]
      | _ => rfl

theorem view_unlink (q p : FilePath) :
    (d.unlink q).view p = if p = q then none else d.view p := by
  rw [view, node, unlink]
  split_ifs with hp
  · rw [hp, AList.lookup_erase]
    rfl
  · rw [AList.lookup_erase_ne hp]
    rfl

theorem view_rename {src dst : FilePath} {n : TreeNode} (hsrc : d.node src = some n) (p : FilePath) :
    (d.rename src dst).view p =
      if p = dst then d.view src else if p = src then none else d.view p := by
  have hlookup : d.nodes.lookup src = some n := hsrc
  rw [view, node, rename]
  simp only [hlookup]
  rw [DictOf.lookup_insert_eq]
  split_ifs with hdst hp
  · rw [view, hsrc]
  · rw [hp, AList.lookup_erase]
    rfl
  · rw [AList.lookup_erase_ne hp]
    rfl

theorem view_overwrite_ne {p : FilePath} {i : ℕ} (h : d.node p = some (.file i)) (text : List Char) :
    (d.overwrite i text).view p ≠ d.view p := by
  rw [view_of_file _ h, view_of_file (d.overwrite i text) h]
  intro heq
  have hstamp := congrArg Inode.stamp (View.file.inj (Option.some.inj heq))
  simp [overwrite] at hstamp

theorem view_overwrite_chmod_ne {p : FilePath} {i : ℕ} (h : d.node p = some (.file i))
    (text : List Char) (mode : ℕ) : ((d.overwrite i text).chmod i mode).view p ≠ d.view p := by
  rw [view_of_file _ h, view_of_file ((d.overwrite i text).chmod i mode) h]
  intro heq
  have hstamp := congrArg Inode.stamp (View.file.inj (Option.some.inj heq))
  simp [overwrite, chmod] at hstamp

theorem reach_of_not_link {steps : ℕ} {dir : FilePath} {name : String} (hup : name ≠ "..")
    (hself : name ≠ ".") (h : ∀ absolute dest, d.kindAt (dir ++ [name]) ≠ some (.link absolute dest)) :
    d.reach steps dir name = some (dir ++ [name]) := by
  rw [reach, resolveFrom, if_neg hup, if_neg hself]
  split
  next habs => exact absurd habs (h true _)
  next hrel => exact absurd hrel (h false _)
  next => simp [resolveFrom]
  next => simp [resolveFrom]

end FileTree
end TimeCodeSecurity
