import Std.Time.DateTime.Timestamp
import AnalysisCache.Command.Run

/-!
# The program

The files that the program is to see are listed on standard input, one name in a line, as seen from
the working directory. A name that ends in a slash is that of a directory. The command is run on the
tree of these files, and then the files that it removed are removed.
-/

namespace AnalysisCache

def usage : String := String.intercalate "\n" [
  "Usage: sift [-q] [-v] [--config FILE] COMMAND",
  "",
  "Commands:",
  "  clear-result-cache                 Delete the result cache file",
  "  cache-status [--debug] [-f FORMAT] Show which files the next run would reanalyse",
  "  cache-dump [-f FORMAT]             Summarise the stored result cache",
  "",
  "Formats: text, json",
  ""]

/-- How many names are read at most. -/
def maxNames : Nat := 10000000

/-- The names on standard input. -/
def readNames : IO (List String) := do
  let input ← IO.getStdin
  let mut names := []
  for _ in [0:maxNames] do
    let line ← input.getLine
    if line.isEmpty then break
    names := String.ofList (line.toList.takeWhile (· ≠ '\n')) :: names
  return names.reverse

/-- Puts a listed file into the tree with its content, or a listed directory. A file that cannot be
read is left out. -/
def addListed (t : FileTree) (name : String) : IO FileTree := do
  let p := Path.ofText name
  if name.toList.getLast? = some '/' then return (t.makeDirectories p).1
  try
    let content ← IO.FS.readBinFile name
    let t := (t.makeDirectories (p.parent?.getD ⟨[]⟩)).1
    return (t.write p content.data.toList).1
  catch _ => return t

/-- Nothing but the working directory, if it is known. -/
def emptyTree (directory : Option String) : FileTree :=
  match directory with
  | none => .empty
  | some s =>
    let d := Path.ofText s
    match (FileTree.empty.makeDirectories d).1.enter d with
    | .ok t => t
    | .error _ => .empty

/-- Seconds since 1970. -/
def readClock : IO UInt64 := do
  return UInt64.ofNat (← Std.Time.Timestamp.now).toSecondsSinceUnixEpoch.val.toNat

def runInvocation (i : Invocation) : IO UInt32 := do
  let names ← readNames
  let before ← names.foldlM addListed (emptyTree (← IO.getEnv "PWD"))
  let (after, outcome) := i.run before (← readClock)
  for name in names do
    let p := Path.ofText name
    if before.isFile p && !after.isFile p then IO.FS.removeFile name
  match outcome with
  | .error e =>
    IO.eprintln ("error: " ++ e.message)
    return 1
  | .ok o =>
    IO.eprint o.stderr
    IO.print o.stdout
    return UInt32.ofNat o.code

end AnalysisCache

open AnalysisCache in
def main (args : List String) : IO UInt32 := do
  match Invocation.ofWords args with
  | .ok i => runInvocation i
  | .error .version =>
    IO.println ("sift " ++ Project.toolVersion)
    return 0
  | .error e =>
    if e.exitCode = 0 then IO.print usage else IO.eprint usage
    return UInt32.ofNat e.exitCode
