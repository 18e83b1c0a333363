import DocTree.Arguments

/-!
# The program

A run of the program: the command line is read, its command runs on a file system, and what is left
to do is to print texts and to end with an exit code.
-/

namespace DocTree

/-- What a run prints, and how it ends. -/
structure Report where
  /-- 0 for success, 1 for a command that failed, 2 for a command line that cannot be read. -/
  code : UInt32 := 0
  output : String := ""
  /-- Messages for the user: an error and its causes, outermost first. -/
  messages : List String := []
deriving DecidableEq, Repr

namespace Program

def name : String := "rendition"

def version : String := "1.0.0"

def usage : String :=
  "Usage: " ++ name ++ " [-v] <COMMAND>\n\n"
    ++ "  events <INPUT> [-t] [-c <FILE>] [-o <FILE>]          write the events of a tree\n"
    ++ "  reference <RAW> [--image] [--no-wiki] [-c <FILE>]    resolve a reference\n"
    ++ "  syntax <ID>                                          describe a dialect\n"

variable {m : Type → Type} [Monad m]

/-- Run the program on the words of a command line. -/
def run (fs : FileAccess m) (words : List String) : m Report := do
  match Command.read words with
  | .error .help => return { output := usage }
  | .error .version => return { output := name ++ " " ++ version ++ "\n" }
  | .error (.misuse e) => return { code := 2, messages := [e.message] }
  | .ok command =>
    match ← command.run fs with
    | .ok text => return { output := text }
    | .error e => return { code := 1, messages := e.messages }

end Program

end DocTree
