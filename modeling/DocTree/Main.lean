import DocTree.Program

/-!
# Entry point

Runs the program on the real file system and prints its report.
-/

namespace DocTree

/-- The files of the system. -/
def FileAccess.system : FileAccess IO where
  isPresent path := do
    try
      let _ ← IO.FS.realPath path
      return true
    catch _ => return false
  read? path := do
    try
      return String.fromUTF8? (← IO.FS.readBinFile path)
    catch _ => return none
  write path text := do
    try
      IO.FS.writeFile path text
      return true
    catch _ => return false

end DocTree

def main (args : List String) : IO UInt32 := do
  let report ← DocTree.Program.run DocTree.FileAccess.system args
  IO.print report.output
  match report.messages with
  | [] => pure ()
  | m :: causes =>
    IO.eprintln ("Error: " ++ m)
    for c in causes do IO.eprintln ("  caused by: " ++ c)
  return report.code
