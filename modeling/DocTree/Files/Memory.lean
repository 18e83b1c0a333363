import DocTree.Files

/-!
# Files in memory

A file system as a value: texts by the places they are at, and directories. A place is the parts of
a name as they lead from the working directory, without detours. The root and what is above the
working directory are directories of which nothing more is known. A name leads through directories
up to its last part.
-/

namespace DocTree

structure MemoryFiles where
  files : List (List String × String) := []
  /-- The directories below the working directory. -/
  directories : List (List String) := []
deriving DecidableEq, Repr, Inhabited

namespace MemoryFiles

/-! ## Places -/

/-- The place of the root; no part of a name has a slash. -/
def root : List String := ["/"]

/-- The working directory, and what parents of it there are. -/
def isAbove (place : List String) : Bool := place.all (· = "..")

def isDirectory (d : MemoryFiles) (place : List String) : Bool :=
  place = root || isAbove place || d.directories.contains place

/-- The place that a part of a name leads to from a directory. The root is its own parent. -/
def enter (place : List String) (part : String) : List String :=
  if part = "" || part = "." then place
  else if part = ".." then
    if place = root then root else if isAbove place then ".." :: place else place.dropLast
  else place ++ [part]

/-- The place that the parts of a name lead to from a directory. -/
def walk (d : MemoryFiles) (place : List String) : List String → Option (List String)
  | [] => some place
  | s :: ss => if d.isDirectory place then d.walk (enter place s) ss else none

/-- Whether a name is one that a file may have: within the usual limits of 255 bytes for a part and
4095 bytes in all, and without a NUL. -/
def isName (name : String) : Bool :=
  name ≠ "" && name.utf8ByteSize ≤ 4095 && !name.toList.contains '\x00'
    && (name.splitOn "/").all (·.utf8ByteSize ≤ 255)

/-- The place of a name; whether there is something at it is another matter. -/
def resolve? (d : MemoryFiles) (name : String) : Option (List String) :=
  if isName name then d.walk (if name.startsWith "/" then root else []) (name.splitOn "/") else none

/-! ## Reading and writing -/

def read? (d : MemoryFiles) (name : String) : Option String :=
  (d.resolve? name).bind fun place => d.files.lookup place

def isPresent (d : MemoryFiles) (name : String) : Bool :=
  match d.resolve? name with
  | none => false
  | some place => d.isDirectory place || (d.files.lookup place).isSome

/-- The files after a text has been written; no directory is written over. -/
def write? (d : MemoryFiles) (name text : String) : Option MemoryFiles :=
  match d.resolve? name with
  | none => none
  | some place =>
    if d.isDirectory place then none
    else some { d with files := (place, text) :: d.files.filter (·.1 ≠ place) }

/-- Where a name leads depends on the directories only. -/
theorem walk_with_files (d : MemoryFiles) (files : List (List String × String))
    (place parts : List String) : walk { d with files } place parts = d.walk place parts := by
  induction parts generalizing place with
  | nil => rfl
  | cons s ss ih =>
    simp only [walk, ih]
    rfl

/-- What has been written is read back. -/
theorem read?_of_write? {d e : MemoryFiles} {name text : String} (h : d.write? name text = some e) :
    e.read? name = some text := by
  unfold write? at h
  split at h
  · cases h
  · rename_i place hp
    split at h
    · cases h
    · cases h
      simp only [resolve?, read?, walk_with_files] at hp ⊢
      rw [hp, Option.bind_some, List.lookup_cons, beq_self_eq_true]

/-! ## Setting up -/

/-- The places that the parts of a name lead through, in order. -/
def trail (place : List String) : List String → List (List String)
  | [] => []
  | s :: ss => enter place s :: trail (enter place s) ss

/-- Add a directory and all those that lead to it. -/
def addDirectory (d : MemoryFiles) (name : String) : MemoryFiles :=
  { d with directories := d.directories ++ trail [] (name.splitOn "/") }

/-- Add a file and the directories that lead to it. -/
def addFile (d : MemoryFiles) (name text : String) : MemoryFiles :=
  let parts := name.splitOn "/"
  { files := d.files ++ [(parts.foldl enter [], text)]
    directories := d.directories ++ trail [] parts.dropLast }

/-! ## Access -/

/-- The operations on files in memory, as steps over them. -/
def access : FileAccess (StateM MemoryFiles) where
  isPresent name := do return (← get).isPresent name
  read? name := do return (← get).read? name
  write name text := do
    match (← get).write? name text with
    | none => return false
    | some d =>
      set d
      return true

end MemoryFiles

end DocTree
