/-!
# Files

What the commands ask of a file system, and the parts of path names. The file system may be the real
one or a value in memory: `FileAccess` leaves open in which monad its operations run.
-/

namespace DocTree

/-- The operations on files, in a monad. -/
structure FileAccess (m : Type → Type) where
  /-- There is a file or a directory of that name. -/
  isPresent : String → m Bool
  /-- The text of a file; `none` if it cannot be read or is no text. -/
  read? : String → m (Option String)
  /-- Write a file anew; `false` if that fails. -/
  write : String → String → m Bool

namespace FilePath

/-! ## Parts of a name

A name is cut at its slashes. Empty parts and dots have no meaning, apart from a dot in front of a
name that does not start at the root. -/

/-- Whether the part at an index has a meaning of its own. -/
def isMeaningful (index : Nat) (part : String) : Bool :=
  part ≠ "" && (part ≠ "." || index = 0)

/-- The parts up to and with the last one that has a meaning. -/
def trimmed (parts : List String) : List String :=
  let kept := (parts.zipIdx.reverse.dropWhile fun p => !isMeaningful p.2 p.1).reverse
  kept.map (·.1)

/-- The directory that a name leads through; `none` for a name without parts. -/
def parent? (name : String) : Option String :=
  let parts := trimmed (name.splitOn "/")
  if parts.isEmpty then none
  else
    let above := "/".intercalate (trimmed parts.dropLast)
    some (if above.isEmpty && name.startsWith "/" then "/" else above)

/-- The directory of a file; a bare name stands for a file of the current directory. -/
def directory (name : String) : String :=
  match parent? name with
  | none | some "" => "."
  | some dir => dir

/-- The name of a file in a directory. -/
def join (dir file : String) : String :=
  if dir.isEmpty || dir.endsWith "/" then dir ++ file else dir ++ "/" ++ file

end FilePath

end DocTree
