import AnalysisCache.Files.Resolve

/-!
# Operations on files

Reading leaves the tree as it is. A change gives the tree after it together with the outcome, since
one that fails may have been made in part: directories that were missing may have been created.
-/

namespace AnalysisCache

namespace FileTree

/-- The content of the file that a path names. -/
def read (t : FileTree) (p : Path) : Except FileError Bytes :=
  match t.locate .existing p with
  | .error e => .error e
  | .ok l =>
    match t.node? l with
    | some (.file content) => .ok content
    | some .directory => .error .isADirectory
    | some (.link _) => .error .tooManyLinks
    | none => .error .notFound

/-- The content of a file that holds a text. -/
def readText (t : FileTree) (p : Path) : Except FileError String := do
  let content ← t.read p
  match content.text? with
  | some s => .ok s
  | none => .error .notText

/-- The last part of a path that is to be created, and the parts before it. -/
def splitLast (p : Path) : List Bytes × Option Bytes :=
  let parts := (Path.parts p.bytes).filter fun part => !part.isEmpty
  (parts.dropLast, parts.getLast?)

def endsInSlash (p : Path) : Bool := p.bytes.getLast? == some Path.slash

/-- The directory that a path's parent names. -/
def locateParent (t : FileTree) (p : Path) : Except FileError Location :=
  match pathError? p with
  | some e => .error e
  | none => do
    let l ← t.walk .existing maxLinks (origin t.current p) (splitLast p).1
    match t.node? l with
    | some .directory => .ok l
    | some _ => .error .notADirectory
    | none => .error .notFound

/-- Where writing to a path puts the content. -/
def locateTarget (t : FileTree) (p : Path) : Except FileError Location := do
  let l ← t.locate .new p
  match t.node? l with
  | some .directory => .error .isADirectory
  | _ => .ok l

/-- Writes a file, all of it or nothing. -/
def write (t : FileTree) (p : Path) (content : Bytes) : FileTree × Except FileError Unit :=
  match t.locateTarget p with
  | .ok l => (t.set l (.file content), .ok ())
  | .error e => (t, .error e)

/-- The location at which a path asks for a new node, which must be free. -/
def locateFree (t : FileTree) (p : Path) : Except FileError Location := do
  let l ← t.locateParent p
  match (splitLast p).2 with
  | none => .error .exists
  | some part =>
    if part = [0x2E] ∨ part = [0x2E, 0x2E] then .error .exists
    else if maxNameLength < part.length then .error .nameTooLong
    else
      match t.node? (l ++ [part]) with
      | some _ => .error .exists
      | none => .ok (l ++ [part])

def makeDirectory (t : FileTree) (p : Path) : FileTree × Except FileError Unit :=
  match t.locateFree p with
  | .ok l => (t.set l .directory, .ok ())
  | .error e => (t, .error e)

/-- Makes the first of some paths a directory, if need be after the others, each of which is the
parent of the one before. -/
def makeDirectoriesOf : List Path → FileTree → FileTree × Except FileError Unit
  | [], t => (t, .ok ())
  | p :: outer, t =>
    match t.makeDirectory p with
    | (t, .ok ()) => (t, .ok ())
    | (t, .error e) =>
      if e = .notFound then
        match makeDirectoriesOf outer t with
        | (t, .error e) => (t, .error e)
        | (t, .ok ()) =>
          match t.makeDirectory p with
          | (t, .ok ()) => (t, .ok ())
          | (t, .error e) => if t.isDirectory p then (t, .ok ()) else (t, .error e)
      else if t.isDirectory p then (t, .ok ())
      else (t, .error e)

/-- Makes a path a directory together with what leads to it. -/
def makeDirectories (t : FileTree) (p : Path) : FileTree × Except FileError Unit :=
  makeDirectoriesOf (p.ancestors.filter fun q => !q.bytes.isEmpty) t

/-- Removes a file or a link. A link's target stays. -/
def removeFile (t : FileTree) (p : Path) : FileTree × Except FileError Unit :=
  match t.locate .existingLink p with
  | .error e => (t, .error e)
  | .ok l =>
    match t.node? l with
    | some .directory => (t, .error .isADirectory)
    | _ => (t.remove l, .ok ())

/-- Removes a file, a link, or a directory with all in it. -/
def removeTree (t : FileTree) (p : Path) : FileTree × Except FileError Unit :=
  match t.locate .existingLink p with
  | .error e => (t, .error e)
  | .ok l => (t.removeAll l, .ok ())

def makeLink (t : FileTree) (p target : Path) : FileTree × Except FileError Unit :=
  match pathError? target with
  | some e => (t, .error e)
  | none =>
    match t.locateFree p with
    | .error e => (t, .error e)
    | .ok l => if endsInSlash p then (t, .error .notFound) else (t.set l (.link target), .ok ())

/-- The names in a directory. -/
def readDirectory (t : FileTree) (p : Path) : Except FileError (List Bytes) := do
  let l ← t.locate .existing p
  match t.node? l with
  | some .directory => .ok (t.children l)
  | some _ => .error .notADirectory
  | none => .error .notFound

/-- Goes to a directory. -/
def enter (t : FileTree) (p : Path) : Except FileError FileTree := do
  let l ← t.locate .existing p
  match t.node? l with
  | some .directory => .ok { t with current := l }
  | some _ => .error .notADirectory
  | none => .error .notFound

/-- The absolute path of a location. -/
def pathOf (l : Location) : Path := ⟨Path.slash :: Path.joinParts l⟩

def currentPath (t : FileTree) : Path := pathOf t.current

end FileTree

end AnalysisCache
