import AnalysisCache.Files.Trie
import AnalysisCache.Path.Parts

/-!
# The tree of files

Files, directories and symbolic links, each at a location: the names that lead to it from the root.
The root itself is always a directory. Relative paths start from the working directory.

A file in a tree can be read. What keeps a file that is there from being read, such as a missing
permission, is not in the tree: what only looks at files takes what it sees of them, that is which
paths name a file and what comes of reading one, and a tree is one such view of files.

* `FileTree.node?_set`, `FileTree.node?_remove`: what a tree holds after a change at a location.
* `FileTree.mem_children_iff`: which names a directory lists.
-/

namespace AnalysisCache

/-- The names that lead to a node from the root, outermost first. -/
abbrev Location := List Bytes

inductive Node where
  | file (content : Bytes)
  | directory
  | link (target : Path)
deriving DecidableEq

structure FileTree where
  nodes : Trie Node
  current : Location

/-- Why an operation on files failed. -/
inductive FileError where
  | notFound
  | notADirectory
  | isADirectory
  | exists
  | nameTooLong
  | tooManyLinks
  | nulInName
  | notText
  /-- What else the operating system may say, in its words. -/
  | other (reason : String)
deriving DecidableEq

namespace FileError

def message : FileError → String
  | .notFound => "No such file or directory (os error 2)"
  | .notADirectory => "Not a directory (os error 20)"
  | .isADirectory => "Is a directory (os error 21)"
  | .exists => "File exists (os error 17)"
  | .nameTooLong => "File name too long (os error 36)"
  | .tooManyLinks => "Too many levels of symbolic links (os error 40)"
  | .nulInName => "file name contained an unexpected NUL byte"
  | .notText => "stream did not contain valid UTF-8"
  | .other reason => reason

end FileError

namespace FileTree

/-- Nothing but the root, which is the working directory. -/
def empty : FileTree := ⟨.empty, []⟩

/-- What is at a location. -/
def node? (t : FileTree) (l : Location) : Option Node :=
  if l = [] then some .directory else t.nodes.get? l

/-- Puts a node at a location, in the place of what was there. -/
def set (t : FileTree) (l : Location) (n : Node) : FileTree := { t with nodes := t.nodes.set l n }

/-- Takes away the node at a location. -/
def remove (t : FileTree) (l : Location) : FileTree := { t with nodes := t.nodes.erase l }

/-- Takes away the node at a location and all below it. -/
def removeAll (t : FileTree) (l : Location) : FileTree := { t with nodes := t.nodes.eraseFrom l }

/-- The names in the directory at a location. -/
def children (t : FileTree) (l : Location) : List Bytes := t.nodes.names l

theorem node?_set (t : FileTree) {l : Location} (m : Location) (n : Node) (hl : l ≠ []) :
    (t.set l n).node? m = if m = l then some n else t.node? m := by
  by_cases hm : m = []
  · subst hm
    simp [node?, Ne.symm hl]
  · simp only [node?, hm, if_false, set, Trie.get?_set]

theorem node?_remove (t : FileTree) {l : Location} (m : Location) (hl : l ≠ []) :
    (t.remove l).node? m = if m = l then none else t.node? m := by
  by_cases hm : m = []
  · subst hm
    simp [node?, Ne.symm hl]
  · simp only [node?, hm, if_false, remove, Trie.get?_erase]

theorem mem_children_iff {t : FileTree} {l : Location} {name : Bytes} :
    name ∈ t.children l ↔ (t.node? (l ++ [name])).isSome = true := by
  rw [children, Trie.mem_names_iff, node?, if_neg (by simp)]

@[simp] theorem current_set (t : FileTree) (l : Location) (n : Node) :
    (t.set l n).current = t.current := rfl

@[simp] theorem current_remove (t : FileTree) (l : Location) :
    (t.remove l).current = t.current := rfl

end FileTree

end AnalysisCache
