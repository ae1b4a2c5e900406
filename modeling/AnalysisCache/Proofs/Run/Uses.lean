import AnalysisCache.Dependencies.Invert
import AnalysisCache.Fingerprint.Basic
import AnalysisCache.Plan.Basic
import AnalysisCache.Proofs.Dependencies.Outcome
import AnalysisCache.Proofs.Digest.Inquiry

/-!
# The uses of a memo

One memo serves a whole run: the fingerprint, the plan and the dependents all take their digests
from it. Each of them is an inquiry, so its questions are calls like any other. However the files
change between two of them, the memo goes on answering for each path what was read first. If the
files do not change, it does not matter in which order the memo is put to its uses.

* `Fingerprint.on_inquiry`, `Plan.on_inquiry`, `DependencyGraph.on_inquiry`: each of them is what
  its inquiry comes to on files that do not change.
* `Use.on_eq_on_empty`: what was read before does not matter then.
* `Memo.answers_first_read`: what a memo answers after any calls, and how much it knows.
-/

namespace AnalysisCache

open Inquiry (ask see)

/-! ## Fingerprints -/

namespace Fingerprint

/-- Adds the digest of a file to those found, if there is one. -/
def look (found : PathMap Digest) (p : Path) : Inquiry (PathMap Digest) := do
  match ← ask p with
  | .ok d => return found.insert p d
  | .error _ => return found

def lookIfFile (found : PathMap Digest) (p : Path) : Inquiry (PathMap Digest) := do
  if ← see p then look found p else return found

/-- Asks for all that a fingerprint is made of. -/
def inquiry (s : Settings) : Inquiry Fingerprint := do
  let configDigests ← s.configFiles.foldlM look .empty
  let lockDigests ← s.lockFiles.foldlM lookIfFile .empty
  let stubDigests ← s.stubFiles.foldlM look .empty
  return {
    cacheVersion := formatVersion
    toolVersion := versionOf s.toolVersion
    runtimeVersion := s.runtimeVersion
    configDigests
    analysedPaths := s.analysedPaths
    lockDigests
    extensions := sortedNames s.extensions
    stubDigests
    level := s.level }

theorem on_look (t : FileTree) (m : Memo) (found : PathMap Digest) (p : Path) :
    (look found p).on t m = digests t.read [p] m found := by
  rw [look, Inquiry.on_bind, Inquiry.on_ask, Memo.digest, digests]
  rcases m.digestFrom t.read p with ⟨m', answer⟩
  cases answer <;> rfl

theorem digests_cons (t : FileTree) (m : Memo) (found : PathMap Digest) (p : Path)
    (rest : List Path) : digests t.read (p :: rest) m found =
      digests t.read rest (digests t.read [p] m found).1 (digests t.read [p] m found).2 := by
  rw [digests, digests]
  rcases m.digestFrom t.read p with ⟨m', answer⟩
  cases answer <;> rfl

theorem on_foldlM_look (t : FileTree) (ps : List Path) (m : Memo) (found : PathMap Digest) :
    (ps.foldlM look found).on t m = digests t.read ps m found := by
  induction ps generalizing m found with
  | nil => rfl
  | cons p rest ih => rw [List.foldlM_cons, Inquiry.on_bind, on_look, ih, ← digests_cons]

theorem on_foldlM_lookIfFile (t : FileTree) (ps : List Path) (m : Memo) (found : PathMap Digest) :
    (ps.foldlM lookIfFile found).on t m = digests t.read (ps.filter t.isFile) m found := by
  induction ps generalizing m found with
  | nil => rfl
  | cons p rest ih =>
    rw [List.foldlM_cons, Inquiry.on_bind, lookIfFile, Inquiry.on_bind, Inquiry.on_see,
      List.filter_cons]
    cases t.isFile p with
    | true => simp only [if_true, on_look, ih, ← digests_cons]
    | false => exact ih m found

theorem on_inquiry (t : FileTree) (m : Memo) (s : Settings) :
    (inquiry s).on t m = ofSettings t m s := by
  simp only [inquiry, Inquiry.on_bind, on_foldlM_look, on_foldlM_lookIfFile]
  rfl

end Fingerprint

/-! ## Plans -/

namespace Plan

/-- Asks whether a file's content is not the one with the given digest. -/
def askChanged (f : Path) (d : Digest) : Inquiry Bool := do
  match ← ask f with
  | .ok current => return current ≠ d
  | .error _ => return true

/-- Looks which files are there. -/
def seeFiles : List Path → Inquiry (List Path)
  | [] => return []
  | p :: rest => do
    let found ← see p
    let more ← seeFiles rest
    return if found then p :: more else more

def askChanges (g : DependentGraph) : List Path → Inquiry (List Path)
  | [] => return []
  | f :: rest =>
    match g.get? f with
    | none => do
      let more ← askChanges g rest
      return f :: more
    | some d => do
      if ← askChanged f d.digest then
        let dependents ← seeFiles d.files
        let more ← askChanges g rest
        return f :: (dependents ++ more)
      else askChanges g rest

def askOrphans (files : List Path) : List (Path × Dependents) → Inquiry (List Path)
  | [] => return []
  | e :: rest =>
    if files.any fun f => f.same e.1 then askOrphans files rest
    else do
      let dependents ← seeFiles e.2.files
      let more ← askOrphans files rest
      return dependents ++ more

def askReuse (s : Snapshot) (files : List Path) : Inquiry Plan := do
  let changed ← askChanges s.dependents files
  let left ← askOrphans files s.dependents.entries
  let errors := errorsOf s.errors files
  let suspects := if hasNew s.dependents files then errors.keys else []
  return {
    schedule := firsts (changed ++ left ++ suspects)
    fullReason := none
    lastFull := s.lastFull
    errors
    dependents := DependentGraph.restrict s.dependents files }

/-- Asks for all that a plan is made of. -/
def inquiry (previous : Option Snapshot) (f : Fingerprint) (files : List Path) (debug : Bool)
    (now : UInt64) : Inquiry Plan :=
  if debug then return full files .debugMode now
  else
    match previous with
    | none => return full files .noCache now
    | some s =>
      if !s.fingerprint.same f then return full files .fingerprintChanged now
      else if isStale s.lastFull now then return full files .stale now
      else askReuse s files

theorem on_askChanged (t : FileTree) (m : Memo) (f : Path) (d : Digest) :
    (askChanged f d).on t m = hasChanged t.read m f d := by
  rw [askChanged, Inquiry.on_bind, Inquiry.on_ask, Memo.digest, hasChanged]
  rcases m.digestFrom t.read f with ⟨m', answer⟩
  cases answer <;> rfl

theorem on_seeFiles (t : FileTree) (ps : List Path) (m : Memo) :
    (seeFiles ps).on t m = (m, ps.filter t.isFile) := by
  induction ps with
  | nil => rfl
  | cons p rest ih => simp only [seeFiles, Inquiry.on_bind, Inquiry.on_see, ih, Inquiry.on_pure,
      List.filter_cons]

theorem on_askChanges (t : FileTree) (g : DependentGraph) (files : List Path) (m : Memo) :
    (askChanges g files).on t m = changes t.isFile t.read g files m := by
  induction files generalizing m with
  | nil => rfl
  | cons f rest ih =>
    rw [askChanges, changes]
    cases g.get? f with
    | none =>
      rw [Inquiry.on_bind, ih]
      rfl
    | some d =>
      simp only [Inquiry.on_bind, on_askChanged]
      cases (hasChanged t.read m f d.digest).2 with
      | true => simp only [if_true, Inquiry.on_bind, on_seeFiles, ih, Inquiry.on_pure]
      | false => exact ih _

theorem on_askOrphans (t : FileTree) (g : DependentGraph) (files : List Path) (m : Memo) :
    (askOrphans files g.entries).on t m = (m, orphans t.isFile g files) := by
  rw [orphans]
  induction g.entries with
  | nil => rfl
  | cons e rest ih =>
    rw [askOrphans, List.flatMap_cons]
    split
    · exact ih
    · rw [Inquiry.on_bind, on_seeFiles, Inquiry.on_bind, ih]
      rfl

theorem on_inquiry (t : FileTree) (m : Memo) (previous : Option Snapshot) (f : Fingerprint)
    (files : List Path) (debug : Bool) (now : UInt64) :
    (inquiry previous f files debug now).on t m = ofSnapshot t m previous f files debug now := by
  unfold inquiry ofSnapshot ofSnapshotFrom
  split
  · rfl
  · cases previous with
    | none => rfl
    | some s =>
      dsimp only
      split
      · rfl
      · split
        · rfl
        · simp only [askReuse, Inquiry.on_bind, on_askChanges, on_askOrphans]
          rfl

end Plan

/-! ## Dependents -/

namespace DependencyGraph

def askEdges : List (Path × Path) → DependentGraph → Inquiry (Except CacheError DependentGraph)
  | [], g => return .ok g
  | (file, target) :: rest, g =>
    if g.contains target then askEdges rest (g.addDependent file target)
    else do
      match ← ask target with
      | .error e => return .error e
      | .ok d => askEdges rest (DependentGraph.addDependent (g.insert target ⟨d, []⟩) file target)

def askIndependent : List Path → DependentGraph → Inquiry (Except CacheError DependentGraph)
  | [], g => return .ok g
  | f :: rest, g =>
    if g.contains f then
      return .error (.internal ("'" ++ f.display ++
        "' is a dependency target but was not removed from the independent set"))
    else do
      if ← see f then
        match ← ask f with
        | .error e => return .error e
        | .ok d => askIndependent rest (g.insert f ⟨d, []⟩)
      else askIndependent rest g

/-- Asks for all that the dependents are made of. -/
def inquiry (g : DependencyGraph) : Inquiry (Except CacheError DependentGraph) := do
  match ← askEdges g.edges .empty with
  | .error e => return .error e
  | .ok found =>
    match ← askIndependent (g.keys.filter fun f => !g.edges.any fun e => e.2.same f) found with
    | .error e => return .error e
    | .ok all => return .ok (all.map fun d => { d with files := sortedPaths d.files })

theorem on_askEdges (t : FileTree) (edges : List (Path × Path)) (m : Memo) (g : DependentGraph) :
    (askEdges edges g).on t m = addEdges t.read edges m g := by
  induction edges generalizing m g with
  | nil => rfl
  | cons e rest ih =>
    obtain ⟨file, target⟩ := e
    rw [askEdges, addEdges]
    split
    · exact ih m _
    · rw [Inquiry.on_bind, Inquiry.on_ask, Memo.digest]
      rcases m.digestFrom t.read target with ⟨m', answer⟩
      cases answer with
      | error e => rfl
      | ok d => exact ih m' _

theorem on_askIndependent (t : FileTree) (fs : List Path) (m : Memo) (g : DependentGraph) :
    (askIndependent fs g).on t m = addIndependent t.isFile t.read fs m g := by
  induction fs generalizing m g with
  | nil => rfl
  | cons f rest ih =>
    rw [askIndependent, addIndependent]
    split
    · rfl
    · rw [Inquiry.on_bind, Inquiry.on_see]
      dsimp only
      split
      · rw [Inquiry.on_bind, Inquiry.on_ask, Memo.digest]
        rcases m.digestFrom t.read f with ⟨m', answer⟩
        cases answer with
        | error e => rfl
        | ok d => exact ih m' _
      · exact ih m g

theorem on_inquiry (t : FileTree) (m : Memo) (g : DependencyGraph) :
    g.inquiry.on t m = g.dependents t m := by
  rw [inquiry, dependents, dependentsFrom, Inquiry.on_bind, on_askEdges]
  rcases addEdges t.read g.edges m .empty with ⟨m', found⟩
  cases found with
  | error e => rfl
  | ok found =>
    dsimp only
    rw [Inquiry.on_bind, on_askIndependent]
    generalize addIndependent t.isFile t.read _ m' found = outcome
    rcases outcome with ⟨m'', all⟩
    cases all <;> rfl

end DependencyGraph

/-! ## Any use -/

/-- What a memo is used for. -/
inductive Use where
  | digest (p : Path)
  | fingerprint (s : Settings)
  | plan (previous : Option Snapshot) (f : Fingerprint) (files : List Path) (debug : Bool)
      (now : UInt64)
  | dependents (g : DependencyGraph)

namespace Use

def Result : Use → Type
  | .digest _ => Except CacheError Digest
  | .fingerprint _ => Fingerprint
  | .plan .. => Plan
  | .dependents _ => Except CacheError DependentGraph

/-- What is had from a memo on files that do not change meanwhile. -/
def on (t : FileTree) (m : Memo) : (use : Use) → Memo × use.Result
  | .digest p => m.digest t p
  | .fingerprint s => Fingerprint.ofSettings t m s
  | .plan previous f files debug now => Plan.ofSnapshot t m previous f files debug now
  | .dependents g => g.dependents t m

def inquiry : (use : Use) → Inquiry use.Result
  | .digest p => ask p
  | .fingerprint s => Fingerprint.inquiry s
  | .plan previous f files debug now => Plan.inquiry previous f files debug now
  | .dependents g => g.inquiry

theorem on_inquiry (t : FileTree) (m : Memo) (use : Use) : use.inquiry.on t m = use.on t m := by
  cases use with
  | digest p => rfl
  | fingerprint s => exact Fingerprint.on_inquiry t m s
  | plan previous f files debug now => exact Plan.on_inquiry t m previous f files debug now
  | dependents g => exact g.on_inquiry t m

theorem exists_runs_on (use : Use) (t : FileTree) (m : Memo) :
    ∃ calls, use.inquiry.Runs m calls (use.on t m).1 (use.on t m).2 ∧ ∀ c ∈ calls, c.files = t := by
  rw [← on_inquiry]
  exact use.inquiry.exists_runs_on t m

/-- On files that are still as they were, a use comes to the same as with a new memo. -/
theorem on_eq_on_empty {m : Memo} {calls : List Call} (h : Memo.empty.Answers calls m)
    {t : FileTree} (hRead : ∀ c ∈ calls, c.files.read c.path = t.read c.path) {use : Use}
    (hAlike : t.ReadAlike (calls.map (·.path) ++ use.inquiry.asked t)) :
    (use.on t m).2 = (use.on t .empty).2 := by
  rw [← on_inquiry, ← on_inquiry]
  refine Inquiry.on_congr hAlike ?_ .refl fun p hp => List.mem_append_right _ hp
  exact (h.reaches hRead).mono fun p hp => List.mem_append_left _ hp

end Use

namespace Memo

/-- After any calls, between which files may have changed in any way, a memo answers for each path
the digest of what the first successful call on it has read, whatever the files are now. If there
was no such call, the file is read. A failure leaves the memo as it is, so the file can be read
later. There are as many digests known as there are paths with a successful call. The calls of a use
go on from there, also if files change while it is made. If no file has changed, a use comes to the
same as with a new memo. -/
theorem answers_first_read {m : Memo} {calls : List Call} (h : empty.Answers calls m) :
    (∀ p,
      (∀ c, calls.find? (·.gives p) = some c → ∃ content, c.files.read c.path = .ok content ∧
        ∀ t, m.digest t p = (m, .ok (.ofSource content))) ∧
      (calls.find? (·.gives p) = none →
        ∀ t, (m.digest t p).2 = (t.digestOf p).mapError (.files p))) ∧
    (∀ t p e, (m.digest t p).2 = .error e → (m.digest t p).1 = m ∧
      ∀ u content, u.read p = .ok content → (m.digest u p).2 = .ok (.ofSource content)) ∧
    m.size = ((calls.filter (·.answer.isOk)).map (·.path.components)).toFinset.card ∧
    (∀ (use : Use) m' more x, use.inquiry.Runs m more m' x → empty.Answers (calls ++ more) m') ∧
    (∀ (use : Use) t, ∃ more, use.inquiry.Runs m more (use.on t m).1 (use.on t m).2 ∧
      ∀ c ∈ more, c.files = t) ∧
    ∀ t, (∀ c ∈ calls, c.files.read c.path = t.read c.path) →
      ∀ use : Use, t.ReadAlike (calls.map (·.path) ++ use.inquiry.asked t) →
        (use.on t m).2 = (use.on t .empty).2 := by
  have hRemembers := h.remembers_of_empty
  refine ⟨fun p => ⟨fun c hFirst => hRemembers.digest_of_first hFirst,
    fun hNone t => hRemembers.digest_of_none hNone t⟩, fun t p e hError => ?_, hRemembers.size_eq,
    fun use m' more x hRuns => h.append hRuns.answers, fun use t => use.exists_runs_on t m,
    fun t hRead use hAlike => Use.on_eq_on_empty h hRead hAlike⟩
  refine ⟨digest_error hError, fun u content hRead => ?_⟩
  obtain ⟨hNew, _⟩ := digestFrom_eq_error_iff.1 hError
  rw [digest_eq_digestOf, hNew, FileTree.digestOf, hRead]
  rfl

/-! ## A file that is edited -/

namespace Edited

def file : Path := .ofText "d/b"

def file' : Path := .ofText "d//b"

def files (content : Bytes) : FileTree :=
  (FileTree.empty.set [[0x64]] .directory).set [[0x64], [0x62]] (.file content)

def graph : DependencyGraph := PathMap.empty.insert (.ofText "e") [file, file']

/-- The file is asked for before it is there, when it is there, and when it has been edited. -/
def calls : List Call := [
  ⟨.empty, file, .error (.files file .notFound)⟩,
  ⟨files [1], file', .ok (.ofSource [1])⟩,
  ⟨files [2], file, .ok (.ofSource [1])⟩]

def memo : Memo := ⟨PathMap.empty.insert file' (.ofSource [1])⟩

theorem answers : empty.Answers calls memo :=
  .cons rfl (.cons rfl (.cons rfl (.nil _)))

theorem answers_second : empty.Answers [⟨files [1], file', .ok (.ofSource [1])⟩] memo :=
  .cons rfl (.nil _)

theorem readAlike :
    (files [1]).ReadAlike ([file'] ++ (Use.dependents graph).inquiry.asked (files [1])) := by
  have hAddressable : ∀ p ∈ [file'] ++ (Use.dependents graph).inquiry.asked (files [1]),
      FileTree.Addressable p := by decide +kernel
  exact (openAlike_of_plain fun p hp => FileTree.plain_of_addressable (hAddressable p hp)).read

/-- What was read first stays the answer in every spelling, and a new memo is as good as the one
that read it as long as nothing is edited. -/
theorem answers_first_read_edited :
    empty.Answers calls memo ∧ (∀ t, memo.digest t file = (memo, .ok (.ofSource [1]))) ∧
      memo.size = 1 ∧
      ((Use.dependents graph).on (files [1]) memo).2 =
        ((Use.dependents graph).on (files [1]) .empty).2 := by
  obtain ⟨hFirst, -, hSize, -, -, -⟩ := answers_first_read answers
  obtain ⟨-, -, -, -, -, hUnchanged⟩ := answers_first_read answers_second
  obtain ⟨content, hRead, hAnswer⟩ := (hFirst file).1
    ⟨files [1], file', .ok (.ofSource [1])⟩ (by rfl)
  have hContent : (files [1]).read file' = .ok [1] := by decide +kernel
  rw [hContent] at hRead
  cases hRead
  refine ⟨answers, hAnswer, hSize.trans (by decide +kernel), hUnchanged (files [1]) ?_ _ readAlike⟩
  exact List.forall_mem_singleton.2 rfl

end Edited

end Memo

end AnalysisCache
