import AnalysisCache.Files.Tree

/-!
# Finding what a path names

A path is walked part by part from the root or the working directory. Every part before the last
must lead to a directory, and so must the last if a slash follows it, so that nothing new can come
about under a name with a slash after it. Symbolic links are followed, up to forty of them, and what
a link says is walked by the same rules. Names have at most 255 bytes and paths fewer than 4096.

So two spellings with the same components need not name the same file: `a` may be a file, and then
`a/` names nothing.
-/

namespace AnalysisCache

namespace FileTree

/-- What a walk does with the last part of a path. -/
inductive LastPart where
  /-- It must exist, and a link is followed. -/
  | existing
  /-- It must exist, and a link is what is looked for. -/
  | existingLink
  /-- It may be missing, and a link is followed. -/
  | new
deriving DecidableEq

def maxNameLength : Nat := 255

def pathLimit : Nat := 4096

def maxLinks : Nat := 40

/-- The parts to walk through. A slash at the end leaves an empty part after it, which leads to the
directory before it. -/
def steps (p : Path) : List Bytes :=
  let parts := (Path.parts p.bytes).filter fun part => !part.isEmpty
  if parts ≠ [] ∧ p.bytes.getLast? = some Path.slash then parts ++ [[]] else parts

/-- Where the walk along a path starts. -/
def origin (base : Location) (p : Path) : Location := if p.isAbsolute then [] else base

/-- Walks from a directory, and hands over to `follow` where it comes to a link. -/
def walkWith (t : FileTree) (last : LastPart)
    (follow : Location → List Bytes → Except FileError Location) :
    Location → List Bytes → Except FileError Location
  | l, [] => .ok l
  | l, part :: rest =>
    match t.node? l with
    | none => .error .notFound
    | some .directory =>
      if part = [] ∨ part = [0x2E] then walkWith t last follow l rest
      else if part = [0x2E, 0x2E] then walkWith t last follow l.dropLast rest
      else if rest = [[]] ∧ last = .new then .error .isADirectory
      else if maxNameLength < part.length then .error .nameTooLong
      else
        match t.node? (l ++ [part]) with
        | none =>
          if rest = [] ∧ last = .new then .ok (l ++ [part]) else .error .notFound
        | some (.link target) =>
          if rest = [] ∧ last = .existingLink then .ok (l ++ [part])
          else follow (origin l target) (steps target ++ rest)
        | some _ => walkWith t last follow (l ++ [part]) rest
    | some _ => .error .notADirectory

/-- Walks from a directory through at most the given number of links. -/
def walk (t : FileTree) (last : LastPart) : Nat → Location → List Bytes → Except FileError Location
  | 0 => walkWith t last fun _ _ => .error .tooManyLinks
  | links + 1 => walkWith t last (walk t last links)

/-- What is wrong with a path whatever the files are. -/
def pathError? (p : Path) : Option FileError :=
  if p.bytes.contains 0 then some .nulInName
  else if p.bytes = [] then some .notFound
  else if pathLimit ≤ p.bytes.length then some .nameTooLong
  else none

/-- The location that a path leads to. -/
def locate (t : FileTree) (last : LastPart) (p : Path) : Except FileError Location :=
  match pathError? p with
  | some e => .error e
  | none => t.walk last maxLinks (origin t.current p) (steps p)

/-- What a path names, after links. -/
def lookup? (t : FileTree) (p : Path) : Option Node :=
  match t.locate .existing p with
  | .ok l => t.node? l
  | .error _ => none

def isFile (t : FileTree) (p : Path) : Bool :=
  match t.lookup? p with
  | some (.file _) => true
  | _ => false

def isDirectory (t : FileTree) (p : Path) : Bool :=
  match t.lookup? p with
  | some .directory => true
  | _ => false

def isThere (t : FileTree) (p : Path) : Bool := (t.lookup? p).isSome

end FileTree

end AnalysisCache
