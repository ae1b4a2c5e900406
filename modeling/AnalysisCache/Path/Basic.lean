import AnalysisCache.Text.Lossy

/-!
# Paths

A path is the name of a file as it is spelled, any sequence of bytes. What it names is given by its
components: repeated and trailing slashes do not count, nor does a `.` that is not the first
component of a relative path. A `..` stays, since what it leads to depends on the files.

Paths are compared by their components: the root comes first, then `.`, then `..`, then names by
their bytes. So `a/b` comes before `a.b`, and `a//b` and `a/b` are one path in two spellings.

* `Path.same_iff`: two paths are the same exactly if their components are equal.
* `Path.compare_eq_iff_same`: this is also what the order says.
-/

namespace AnalysisCache

/-- A path as it is spelled. -/
structure Path where
  bytes : Bytes
deriving DecidableEq, Inhabited

/-- A step of a path. -/
inductive Component where
  | root
  | here
  | up
  | name (n : Bytes)
deriving DecidableEq

namespace Component

/-- The kind of a component, and then the bytes of its name. -/
def rank : Component → List Nat
  | .root => [0]
  | .here => [1]
  | .up => [2]
  | .name n => 3 :: n.map UInt8.toNat

theorem rank_inj {a b : Component} : a.rank = b.rank ↔ a = b := by
  refine ⟨fun h => ?_, fun h => h ▸ rfl⟩
  cases a <;> cases b <;> simp [rank] at h ⊢
  exact (List.map_inj_right (fun x y hxy => UInt8.toNat_inj.1 hxy)).1 h

instance : Ord Component := ⟨fun a b => compare a.rank b.rank⟩

theorem compare_def (a b : Component) : compare a b = compare a.rank b.rank := rfl

instance : Std.LawfulEqOrd Component where
  eq_of_compare h := rank_inj.1 (Std.LawfulEqOrd.eq_of_compare h)
  compare_self := Std.ReflOrd.compare_self (α := List Nat)

instance : Std.OrientedOrd Component where
  eq_swap := Std.OrientedOrd.eq_swap (α := List Nat)

instance : Std.TransOrd Component where
  isLE_trans := Std.TransOrd.isLE_trans (α := List Nat)

/-- The component that a part between slashes stands for, apart from the first part. -/
def ofPart? (part : Bytes) : Option Component :=
  if part = [] ∨ part = [0x2E] then none
  else if part = [0x2E, 0x2E] then some .up
  else some (.name part)

end Component

namespace Path

def slash : UInt8 := 0x2F

def ofText (s : String) : Path := ⟨Bytes.ofText s⟩

def text? (p : Path) : Option String := p.bytes.text?

/-- The path as text, with U+FFFD for what is no UTF-8. -/
def display (p : Path) : String := p.bytes.lossy

/-- The parts between slashes: one more than there are slashes. -/
def parts : Bytes → List Bytes
  | [] => [[]]
  | b :: rest =>
    if b = slash then [] :: parts rest
    else
      match parts rest with
      | [] => [[b]]
      | part :: more => (b :: part) :: more

theorem parts_ne_nil (b : Bytes) : parts b ≠ [] := by
  cases b with
  | nil => simp [parts]
  | cons x rest =>
    simp only [parts]
    split
    · simp
    · split <;> simp

/-- Lays parts end to end with a slash between them. -/
def joinParts : List Bytes → Bytes
  | [] => []
  | [part] => part
  | part :: more => part ++ slash :: joinParts more

@[simp] theorem joinParts_parts (b : Bytes) : joinParts (parts b) = b := by
  induction b with
  | nil => rfl
  | cons x rest ih =>
    simp only [parts]
    split
    · rename_i hx
      cases h : parts rest with
      | nil => exact absurd h (parts_ne_nil rest)
      | cons part more => simp [joinParts, ← h, ih, hx]
    · cases h : parts rest with
      | nil => exact absurd h (parts_ne_nil rest)
      | cons part more =>
        rw [h] at ih
        cases more <;> simp [joinParts, ← ih]

/-- What a path starts with, before the parts that are its body. -/
inductive Lead where
  | root
  | here
  | none
deriving DecidableEq

namespace Lead

def bytes : Lead → Bytes
  | .root => [slash]
  | .here => [0x2E]
  | .none => []

def components : Lead → List Component
  | .root => [.root]
  | .here => [.here]
  | .none => []

end Lead

/-- Splits a path into what it starts with and its body. A leading `.` must be a whole part. -/
def split (p : Path) : Lead × List Bytes :=
  match p.bytes with
  | [] => (.none, parts [])
  | [b] =>
    if b = slash then (.root, parts [])
    else if b = 0x2E then (.here, parts [])
    else (.none, parts [b])
  | b :: c :: rest =>
    if b = slash then (.root, parts (c :: rest))
    else if b = 0x2E ∧ c = slash then (.here, parts (c :: rest))
    else (.none, parts (b :: c :: rest))

theorem split_bytes (p : Path) : p.split.1.bytes ++ joinParts p.split.2 = p.bytes := by
  obtain ⟨b⟩ := p
  simp only [split]
  split
  · simp [Lead.bytes]
  · split
    · simp_all [Lead.bytes]
    · split <;> simp_all [Lead.bytes]
  · split
    · simp_all [Lead.bytes]
    · split <;> simp_all [Lead.bytes]

/-- The components of a path, outermost first. -/
def components (p : Path) : List Component :=
  p.split.1.components ++ p.split.2.filterMap Component.ofPart?

/-- Whether two spellings have the same components. -/
def same (p q : Path) : Bool := p.components == q.components

instance : Ord Path := ⟨fun p q => compare p.components q.components⟩

theorem compare_def (p q : Path) : compare p q = compare p.components q.components := rfl

instance : Std.OrientedOrd Path where
  eq_swap := Std.OrientedOrd.eq_swap (α := List Component)

instance : Std.TransOrd Path where
  isLE_trans := Std.TransOrd.isLE_trans (α := List Component)

theorem same_iff {p q : Path} : p.same q = true ↔ p.components = q.components := by
  simp [same]

theorem compare_eq_iff_same {p q : Path} : compare p q = .eq ↔ p.same q = true := by
  rw [same_iff, compare_def, Std.compare_eq_iff_eq]

@[simp] theorem same_self (p : Path) : p.same p = true := same_iff.2 rfl

theorem same_comm {p q : Path} : p.same q = q.same p := by
  simp [same, Bool.beq_comm (a := p.components)]

theorem same_trans {p q r : Path} (h : p.same q = true) (k : q.same r = true) :
    p.same r = true :=
  same_iff.2 ((same_iff.1 h).trans (same_iff.1 k))

end Path

end AnalysisCache
