import AnalysisCache.Path.Basic

/-!
# Taking paths apart and putting them together

A path's parent is spelled as the path is, up to the end of the component before the last. Joining
puts a relative path below a directory, and an absolute path takes the directory's place.
-/

namespace AnalysisCache

namespace Path

/-- Whether a part of a path's body stands for no component. -/
def isIdle (part : Bytes) : Bool := (Component.ofPart? part).isNone

/-- Leaves out the idle parts at the end. -/
def trimEnd (body : List Bytes) : List Bytes := (body.reverse.dropWhile isIdle).reverse

/-- The path without its last component. The root and the empty path have none. -/
def parent? (p : Path) : Option Path :=
  match p.split.2.reverse.dropWhile isIdle, p.split.1 with
  | _ :: before, lead => some ⟨lead.bytes ++ joinParts (before.dropWhile isIdle).reverse⟩
  | [], .here => some ⟨[]⟩
  | [], _ => none

/-- The first of the path and its parents, innermost first. -/
def ancestorsOf : Nat → Path → List Path
  | 0, _ => []
  | fuel + 1, p =>
    p ::
      match p.parent? with
      | some q => ancestorsOf fuel q
      | none => []

/-- The path and its parents, innermost first. Each has fewer components than the one before. -/
def ancestors (p : Path) : List Path := ancestorsOf (p.components.length + 1) p

/-- The last component, if it is a name. -/
def fileName? (p : Path) : Option Bytes :=
  match p.components.getLast? with
  | some (.name n) => some n
  | _ => none

/-- Whether the path is nothing but the name of a file. -/
def isPlainName (p : Path) : Bool := p.fileName? == some p.bytes

/-- What follows the last dot of the file name, unless that dot begins the name. -/
def extension? (p : Path) : Option Bytes := do
  let name ← p.fileName?
  let ending := name.reverse.takeWhile (· ≠ 0x2E)
  if ending.length + 1 < name.length then some ending.reverse else none

def isAbsolute (p : Path) : Bool := p.bytes.head? == some slash

/-- The path `q` seen from the directory `p`. -/
def join (p q : Path) : Path :=
  if q.isAbsolute then q
  else if p.bytes.getLast? = none ∨ p.bytes.getLast? = some slash then ⟨p.bytes ++ q.bytes⟩
  else ⟨p.bytes ++ slash :: q.bytes⟩

/-- Drops the parts up to the `n`th that stands for a component. -/
def dropComponents : Nat → List Bytes → List Bytes
  | 0, body => body
  | _, [] => []
  | n + 1, part :: body =>
    if isIdle part then dropComponents (n + 1) body else dropComponents n body

/-- The rest of `p` below `base`, if the components of `p` begin with those of `base`. -/
def relativeTo? (p base : Path) : Option Path :=
  let taken := base.components.length
  if p.components.take taken ≠ base.components then none
  else if taken = 0 then some ⟨p.split.1.bytes ++ joinParts (trimEnd p.split.2)⟩
  else
    let rest := dropComponents (taken - p.split.1.components.length) p.split.2
    some ⟨joinParts (trimEnd (rest.dropWhile isIdle))⟩

@[simp] theorem join_empty (q : Path) : join ⟨[]⟩ q = q := by
  simp [join]

theorem join_of_isAbsolute {p q : Path} (h : q.isAbsolute = true) : join p q = q := by
  simp [join, h]

end Path

end AnalysisCache
