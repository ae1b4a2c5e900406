import AnalysisCache.Proofs.Digest.History

/-!
# Inquiries

A run learns about files by asking for digests and by looking whether a file is there. An inquiry
asks such questions one at a time, and the answers decide how it goes on. It may be made while files
change, and then each call of it has its own files.

* `Inquiry.Runs.answers`: its calls are calls of the memo, whatever happens to the files meanwhile.
* `Inquiry.exists_runs_on`: it can be made on files that stay as they are.
* `Inquiry.on_congr`: it comes to the same with every memo that is made of reads of such files, if
  the spellings of one path open the same file.
-/

namespace AnalysisCache

/-- Questions about files, asked one after another. -/
inductive Inquiry (α : Type) where
  | done (a : α)
  | digest (p : Path) (next : Except CacheError Digest → Inquiry α)
  | isFile (p : Path) (next : Bool → Inquiry α)

namespace Inquiry

variable {α β : Type}

def bind : Inquiry α → (α → Inquiry β) → Inquiry β
  | .done a, f => f a
  | .digest p next, f => .digest p fun answer => (next answer).bind f
  | .isFile p next, f => .isFile p fun found => (next found).bind f

instance : Monad Inquiry where
  pure := .done
  bind := .bind

/-- Asks for the digest of a file. -/
def ask (p : Path) : Inquiry (Except CacheError Digest) := .digest p .done

/-- Looks whether a file is there. -/
def see (p : Path) : Inquiry Bool := .isFile p .done

/-- Makes an inquiry on files that do not change meanwhile. -/
def on (t : FileTree) : Inquiry α → Memo → Memo × α
  | .done a, m => (m, a)
  | .digest p next, m => (next (m.digest t p).2).on t (m.digest t p).1
  | .isFile p next, m => (next (t.isFile p)).on t m

@[simp] theorem on_pure (t : FileTree) (a : α) (m : Memo) :
    (pure a : Inquiry α).on t m = (m, a) := rfl

@[simp] theorem on_ask (t : FileTree) (p : Path) (m : Memo) : (ask p).on t m = m.digest t p := rfl

@[simp] theorem on_see (t : FileTree) (p : Path) (m : Memo) :
    (see p).on t m = (m, t.isFile p) := rfl

@[simp] theorem on_bind (t : FileTree) (x : Inquiry α) (f : α → Inquiry β) (m : Memo) :
    (x >>= f).on t m = (f (x.on t m).2).on t (x.on t m).1 := by
  change (x.bind f).on t m = _
  induction x generalizing m with
  | done a => rfl
  | digest p next ih => exact ih _ _
  | isFile p next ih => exact ih _ m

/-- The paths that are asked about on files that do not change, if every question is answered by
reading them. -/
def asked (t : FileTree) : Inquiry α → List Path
  | .done _ => []
  | .digest p next => p :: (next (Memo.empty.digest t p).2).asked t
  | .isFile p next => (next (t.isFile p)).asked t

/-! ## The calls of an inquiry -/

/-- What an inquiry may come to, and the calls it makes. The files are others at each question. -/
inductive Runs : Inquiry α → Memo → List Call → Memo → α → Prop
  | done (a : α) (m : Memo) : Runs (.done a) m [] m a
  | digest {t : FileTree} {p : Path} {next : Except CacheError Digest → Inquiry α}
      {m m' m'' : Memo} {answer : Except CacheError Digest} {calls : List Call} {a : α}
      (h : m.digest t p = (m', answer)) (rest : Runs (next answer) m' calls m'' a) :
      Runs (.digest p next) m (⟨t, p, answer⟩ :: calls) m'' a
  | isFile {t : FileTree} {p : Path} {next : Bool → Inquiry α} {m m' : Memo} {calls : List Call}
      {a : α} (rest : Runs (next (t.isFile p)) m calls m' a) :
      Runs (.isFile p next) m calls m' a

theorem Runs.answers {x : Inquiry α} {m m' : Memo} {calls : List Call} {a : α}
    (h : x.Runs m calls m' a) : m.Answers calls m' := by
  induction h with
  | done a m => exact .nil m
  | digest hCall _ ih => exact .cons hCall ih
  | isFile _ ih => exact ih

theorem exists_runs_on (x : Inquiry α) (t : FileTree) (m : Memo) :
    ∃ calls, x.Runs m calls (x.on t m).1 (x.on t m).2 ∧ ∀ c ∈ calls, c.files = t := by
  induction x generalizing m with
  | done a => exact ⟨[], .done a m, List.forall_mem_nil _⟩
  | digest p next ih =>
    obtain ⟨calls, hRuns, hFiles⟩ := ih (m.digest t p).2 (m.digest t p).1
    exact ⟨_, .digest rfl hRuns, List.forall_mem_cons.2 ⟨rfl, hFiles⟩⟩
  | isFile p next ih =>
    obtain ⟨calls, hRuns, hFiles⟩ := ih (t.isFile p) m
    exact ⟨calls, .isFile hRuns, hFiles⟩

end Inquiry

/-! ## Files that do not change -/

/-- A memo that has answered calls is made of the reads of one tree, if the files that were asked
for are as they are there. -/
theorem Memo.Answers.reaches {m m' : Memo} {calls : List Call} {t : FileTree}
    (h : m.Answers calls m') (hRead : ∀ c ∈ calls, c.files.read c.path = t.read c.path) :
    Reaches t.read (calls.map (·.path)) m m' := by
  induction h with
  | nil m => exact .refl
  | @cons m m' m'' c calls hCall _ ih =>
    obtain ⟨hFirst, hRest⟩ := List.forall_mem_cons.1 hRead
    rw [digest_congr (FileTree.digestOf_congr hFirst)] at hCall
    have hStep : Reaches t.read (c.path :: calls.map (·.path)) m m' := by
      rw [show m' = (m.digest t c.path).1 by rw [hCall]]
      exact Reaches.refl.digest List.mem_cons_self
    exact hStep.trans ((ih hRest).mono fun p => List.mem_cons_of_mem c.path)

/-- Whether a file that can be read in one spelling can be read in another one, of some paths. -/
def FileTree.ReadAlike (t : FileTree) (ps : List Path) : Prop :=
  ∀ p ∈ ps, ∀ q ∈ ps, p.same q = true → ∀ content, t.read p = .ok content → t.read q = .ok content

/-- What was read before does not bear on an inquiry. -/
theorem Inquiry.on_congr {α : Type} {t : FileTree} {ps : List Path} (hAlike : t.ReadAlike ps)
    {m n : Memo} (hm : Memo.Reaches t.read ps .empty m) (hn : Memo.Reaches t.read ps .empty n)
    {x : Inquiry α} (hAsked : ∀ p ∈ x.asked t, p ∈ ps) : (x.on t m).2 = (x.on t n).2 := by
  induction x generalizing m n with
  | done a => rfl
  | digest p next ih =>
    obtain ⟨hp, hNext⟩ := List.forall_mem_cons.1 hAsked
    have hAnswer : ∀ {k : Memo}, Memo.Reaches t.read ps .empty k →
        (k.digest t p).2 = (Memo.empty.digest t p).2 :=
      fun hk => hk.digestFrom_eq fun q hq => hAlike q hq p hp
    -- Both memos answer as an empty one does, so the inquiry goes on alike with both.
    rw [on, on, hAnswer hm, hAnswer hn]
    exact ih _ (hm.digest hp) (hn.digest hp) hNext
  | isFile p next ih => exact ih _ hm hn hAsked

end AnalysisCache
