import Mathlib.Data.List.Nodup
import Mathlib.Data.List.Perm.Basic
import AnalysisCache.Json.Shape
import AnalysisCache.Proofs.Json.Value
import AnalysisCache.Proofs.Path.Map

/-!
# Shapes read back

What is written in some shape is read back in it. The members of an object may come in any order,
since a map from paths does not keep the order in which it was made.

* `Json.field?_canonical`: of several members with one name the last is the field.
* `Json.reads_ofPathMap`: a map from paths is read back from its object.
-/

namespace AnalysisCache

namespace Json

variable {α β ε : Type}

/-! ## Members by their names -/

theorem find?_insertMember (name other : String) (v : Json) (members : List (String × Json)) :
    ((insertMember name v members).find? fun m => m.1 == other) =
      if name = other then some (name, v) else members.find? fun m => m.1 == other := by
  induction members with
  | nil => by_cases h : name = other <;> simp [insertMember, h]
  | cons m rest ih =>
    rw [insertMember]
    split
    · by_cases h : name = other <;> simp [h]
    · split
      · rename_i hName
        by_cases h : name = other <;> simp [← hName, h]
      · rename_i hName
        by_cases hm : m.1 = other
        · have hOther : ¬ name = other := fun h => hName (h.trans hm.symm)
          simp [hm, hOther]
        · simp [hm, ih]

theorem find?_foldl_insertMember (name : String) (members sorted : List (String × Json)) :
    ((members.foldl (fun sorted m => insertMember m.1 m.2 sorted) sorted).find?
        fun m => m.1 == name) =
      (members.reverse ++ sorted).find? fun m => m.1 == name := by
  induction members generalizing sorted with
  | nil => rfl
  | cons m rest ih =>
    rw [List.foldl_cons, ih, List.reverse_cons, List.append_assoc, List.find?_append,
      List.find?_append, find?_insertMember, List.singleton_append]
    by_cases h : m.1 = name
    · rw [if_pos h, List.find?_cons_of_pos (by simp [h])]
    · rw [if_neg h, List.find?_cons_of_neg (by simp [h])]

theorem field?_canonical (members : List (String × Json)) (name : String) (place : Nat) :
    (Record.named (canonical members)).field? name place =
      (members.reverse.find? fun m => m.1 == name).map (·.2) := by
  rw [Record.field?, canonical, find?_foldl_insertMember, List.append_nil]

/-- If no name comes twice, a field has the value that goes with its name. -/
theorem field?_canonical_of_mem {members : List (String × Json)}
    (h : (members.map (·.1)).Nodup) {name : String} {v : Json} (hMem : (name, v) ∈ members)
    (place : Nat) : (Record.named (canonical members)).field? name place = some v := by
  rw [field?_canonical]
  cases hFind : members.reverse.find? fun m => m.1 == name with
  | none =>
    rw [List.find?_eq_none] at hFind
    exact absurd (beq_self_eq_true name) (hFind _ (List.mem_reverse.2 hMem))
  | some m =>
    have hName : m.1 = name := by simpa using List.find?_some hFind
    have hm : m ∈ members := List.mem_reverse.1 (List.mem_of_find?_eq_some hFind)
    rw [List.inj_on_of_nodup_map h hm hMem hName]
    rfl

theorem mem_of_mem_insertMember {name : String} {v : Json} {members : List (String × Json)}
    {m : String × Json} (h : m ∈ insertMember name v members) : m = (name, v) ∨ m ∈ members := by
  induction members with
  | nil => exact .inl (List.mem_singleton.1 h)
  | cons first rest ih =>
    rw [insertMember] at h
    split at h
    · exact List.mem_cons.1 h
    · split at h
      · rcases List.mem_cons.1 h with h | h
        · exact .inl h
        · exact .inr (List.mem_cons_of_mem first h)
      · rcases List.mem_cons.1 h with rfl | h
        · exact .inr List.mem_cons_self
        · rcases ih h with h | h
          · exact .inl h
          · exact .inr (List.mem_cons_of_mem first h)

theorem mem_of_mem_canonical {members : List (String × Json)} {m : String × Json}
    (h : m ∈ canonical members) : m ∈ members := by
  have aux : ∀ rows sorted : List (String × Json),
      m ∈ rows.foldl (fun sorted m => insertMember m.1 m.2 sorted) sorted →
        m ∈ rows ∨ m ∈ sorted := by
    intro rows
    induction rows with
    | nil => exact fun _ hm => .inr hm
    | cons row rest ih =>
      intro sorted hm
      rcases ih _ hm with hm | hm
      · exact .inl (List.mem_cons_of_mem row hm)
      · rcases mem_of_mem_insertMember hm with rfl | hm
        · exact .inl List.mem_cons_self
        · exact .inr hm
  rcases aux members [] h with h | h
  · exact h
  · cases h

theorem perm_insertMember {name : String} (v : Json) {members : List (String × Json)}
    (h : ∀ m ∈ members, name ≠ m.1) : (insertMember name v members).Perm ((name, v) :: members) := by
  induction members with
  | nil => exact .refl _
  | cons first rest ih =>
    rw [insertMember]
    split
    · exact .refl _
    · rw [if_neg (h first List.mem_cons_self)]
      exact ((ih fun m hm => h m (List.mem_cons_of_mem first hm)).cons first).trans (.swap _ _ _)

theorem perm_canonical {members : List (String × Json)}
    (h : members.Pairwise fun x y => x.1 ≠ y.1) : (canonical members).Perm members := by
  have aux : ∀ rows sorted : List (String × Json), rows.Pairwise (fun x y => x.1 ≠ y.1) →
      (∀ x ∈ rows, ∀ y ∈ sorted, x.1 ≠ y.1) →
        (rows.foldl (fun sorted m => insertMember m.1 m.2 sorted) sorted).Perm
          (rows ++ sorted) := by
    intro rows
    induction rows with
    | nil => exact fun _ _ _ => .refl _
    | cons row rest ih =>
      intro sorted hRows hNew
      rw [List.pairwise_cons] at hRows
      have hFirst := perm_insertMember row.2 (hNew row List.mem_cons_self)
      have hRest : ∀ x ∈ rest, ∀ y ∈ insertMember row.1 row.2 sorted, x.1 ≠ y.1 := by
        intro x hx y hy
        rcases List.mem_cons.1 (hFirst.mem_iff.1 hy) with rfl | hy
        · exact fun hEq => hRows.1 x hx hEq.symm
        · exact hNew x (List.mem_cons_of_mem row hx) y hy
      exact (ih _ hRows.2 hRest).trans ((hFirst.append_left rest).trans List.perm_middle)
  have hPerm := aux members [] h fun _ _ y hy => by cases hy
  rw [List.append_nil] at hPerm
  exact hPerm

/-! ## Lists item by item -/

theorem bind_eq_ok_iff {x : Except ε α} {f : α → Except ε β} {b : β} :
    (x >>= f) = .ok b ↔ ∃ a, x = .ok a ∧ f a = .ok b := by
  cases x with
  | error e => simp [bind, Except.bind]
  | ok a => simp [bind, Except.bind]

theorem forall₂_of_mapM_ok {f : α → Except ε β} {l : List α} {r : List β}
    (h : l.mapM f = .ok r) : List.Forall₂ (fun a b => f a = .ok b) l r := by
  induction l generalizing r with
  | nil =>
    cases h
    exact .nil
  | cons a rest ih =>
    rw [List.mapM_cons] at h
    obtain ⟨b, hFirst, h⟩ := bind_eq_ok_iff.1 h
    obtain ⟨bs, hRest, h⟩ := bind_eq_ok_iff.1 h
    cases h
    exact .cons hFirst (ih hRest)

theorem mapM_some_of_forall₂ {f : α → Option β} {l : List α} {r : List β}
    (h : List.Forall₂ (fun a b => f a = some b) l r) : l.mapM f = some r := by
  induction h with
  | nil => rfl
  | cons hFirst _ ih =>
    rw [List.mapM_cons, hFirst, ih]
    rfl

/-- Whether all that is written is read as what it was written for. -/
def Reads (write : α → Except EncodeError Json) (read? : Json → Option α) : Prop :=
  ∀ a v, write a = .ok v → read? v = some a

theorem asList?_of_mapM {write : α → Except EncodeError Json} {read? : Json → Option α}
    (h : Reads write read?) {l : List α} {vs : List Json} (hWrite : l.mapM write = .ok vs) :
    asList? read? (.array vs) = some l := by
  rw [asList?]
  exact mapM_some_of_forall₂ (((forall₂_of_mapM_ok hWrite).imp fun a v hv => h a v hv).flip)

theorem asList?_map (f : α → Json) {read? : Json → Option α} (h : ∀ a, read? (f a) = some a)
    (l : List α) : asList? read? (.array (l.map f)) = some l := by
  refine mapM_some_of_forall₂ ?_
  induction l with
  | nil => exact .nil
  | cons a rest ih => exact .cons (h a) ih

theorem fitsItems_iff {depth : Nat} {vs : List Json} :
    FitsItems depth vs ↔ ∀ v ∈ vs, Fits depth v := by
  induction vs with
  | nil => simp [FitsItems]
  | cons v rest ih => rw [FitsItems, ih, List.forall_mem_cons]

theorem fitsMembers_iff {depth : Nat} {members : List (String × Json)} :
    FitsMembers depth members ↔ ∀ m ∈ members, Fits depth m.2 := by
  induction members with
  | nil => simp [FitsMembers]
  | cons m rest ih => rw [FitsMembers, ih, List.forall_mem_cons]

theorem fits_array {depth : Nat} {vs : List Json} (h : ∀ v ∈ vs, Fits depth v) :
    Fits (depth + 1) (.array vs) := by
  rw [Fits]
  exact ⟨depth, rfl, fitsItems_iff.2 h⟩

theorem fits_object {depth : Nat} {members : List (String × Json)}
    (h : ∀ m ∈ members, Fits depth m.2) : Fits (depth + 1) (.object members) := by
  rw [Fits]
  exact ⟨depth, rfl, fitsMembers_iff.2 h⟩

theorem fits_of_mapM {write : α → Except EncodeError Json} {depth : Nat}
    (h : ∀ a v, write a = .ok v → Fits depth v) {l : List α} {vs : List Json}
    (hWrite : l.mapM write = .ok vs) : Fits (depth + 1) (.array vs) := by
  refine fits_array fun v hv => ?_
  obtain ⟨a, _, ha⟩ := exists_of_mem_of_forall₂ (forall₂_of_mapM_ok hWrite) hv
  exact h a v ha

/-! ## Paths and digests -/

theorem reads_ofPath : Reads ofPath asPath? := by
  intro p v h
  rw [ofPath] at h
  cases hText : p.text? with
  | none => rw [hText] at h; cases h
  | some s =>
    rw [hText] at h
    cases h
    show some (Path.ofText s) = some p
    rw [Path.ofText, Bytes.ofText_of_text? hText]

theorem fits_ofPath {p : Path} {v : Json} (h : ofPath p = .ok v) (depth : Nat) : Fits depth v := by
  rw [ofPath] at h
  cases hText : p.text? with
  | none => rw [hText] at h; cases h
  | some s =>
    rw [hText] at h
    cases h
    rw [Fits]
    trivial

theorem ofPaths_eq_ok_iff {ps : List Path} {v : Json} :
    ofPaths ps = .ok v ↔ ∃ vs, ps.mapM ofPath = .ok vs ∧ v = .array vs := by
  rw [ofPaths, bind_eq_ok_iff]
  simp only [pure, Except.pure, Except.ok.injEq, eq_comm]

theorem reads_ofPaths : Reads ofPaths (asList? asPath?) := by
  intro ps v h
  obtain ⟨vs, hWrite, rfl⟩ := ofPaths_eq_ok_iff.1 h
  exact asList?_of_mapM reads_ofPath hWrite

theorem fits_ofPaths {ps : List Path} {v : Json} (h : ofPaths ps = .ok v) (depth : Nat) :
    Fits (depth + 1) v := by
  obtain ⟨vs, hWrite, rfl⟩ := ofPaths_eq_ok_iff.1 h
  exact fits_of_mapM (fun _ _ hv => fits_ofPath hv depth) hWrite

theorem asDigest?_ofDigest (d : Digest) : asDigest? (ofDigest d) = some d := by
  show (Digest.parse d.toText).toOption = some d
  rw [Digest.parse_toText]
  rfl

/-! ## Maps from paths -/

/-- The member that an entry is written as. -/
def IsMember (write : α → Except EncodeError Json) (e : Path × α) (m : String × Json) : Prop :=
  e.1 = Path.ofText m.1 ∧ write e.2 = .ok m.2

theorem ofPathMap_eq_ok_iff {write : α → Except EncodeError Json} {map : PathMap α} {v : Json}
    (h : ofPathMap write map = .ok v) :
    ∃ members, List.Forall₂ (IsMember write) map.entries members ∧ v = .object members := by
  rw [ofPathMap] at h
  obtain ⟨members, hWrite, h⟩ := bind_eq_ok_iff.1 h
  cases h
  refine ⟨members, (forall₂_of_mapM_ok hWrite).imp fun e m hm => ?_, rfl⟩
  cases hText : e.1.text? with
  | none => rw [hText] at hm; cases hm
  | some s =>
    rw [hText] at hm
    cases hValue : write e.2 with
    | error x => rw [hValue] at hm; cases hm
    | ok w =>
      rw [hValue] at hm
      cases hm
      refine ⟨?_, hValue⟩
      show e.1 = Path.ofText s
      rw [Path.ofText, Bytes.ofText_of_text? hText]

theorem reads_ofPathMap {write : α → Except EncodeError Json} {read? : Json → Option α}
    (h : Reads write read?) : Reads (ofPathMap write) (asPathMap? read?) := by
  intro map v hWrite
  obtain ⟨members, hMembers, rfl⟩ := ofPathMap_eq_ok_iff hWrite
  -- Reading the members as they were written gives the entries, one for one.
  have hRead : List.Forall₂
      (fun m e => ((read? m.2).map fun v => (Path.ofText m.1, v)) = some e) members map.entries := by
    refine (hMembers.imp fun e m hm => ?_).flip
    show ((read? m.2).map fun v => (Path.ofText m.1, v)) = some e
    rw [h e.2 m.2 hm.2, Option.map_some, ← hm.1]
  have hApart : members.Pairwise fun x y => x.1 ≠ y.1 := by
    refine List.pairwise_iff_getElem.2 fun i j hi hj hij hName => ?_
    have hLength := hMembers.length_eq
    have hFirst := (hMembers.get (by omega) hi).1
    have hSecond := (hMembers.get (by omega) hj).1
    have hLt := List.pairwise_iff_getElem.1 map.sorted i j (by omega) (by omega) hij
    have hSame : map.entries[i].1 = map.entries[j].1 :=
      hFirst.trans ((congrArg Path.ofText hName).trans hSecond.symm)
    have hNot := Path.not_same_of_lt hLt
    rw [hSame, Path.same_self] at hNot
    cases hNot
  obtain ⟨rows, hRows, hPerm⟩ := List.perm_comp_forall₂ (perm_canonical hApart) hRead
  rw [asPathMap?, mapM_some_of_forall₂ hRows, Option.map_some, PathMap.ofList_of_perm hPerm]

theorem fits_ofPathMap {write : α → Except EncodeError Json} {depth : Nat}
    (h : ∀ a v, write a = .ok v → Fits depth v) {map : PathMap α} {v : Json}
    (hWrite : ofPathMap write map = .ok v) : Fits (depth + 1) v := by
  obtain ⟨members, hMembers, rfl⟩ := ofPathMap_eq_ok_iff hWrite
  refine fits_object fun m hm => ?_
  obtain ⟨e, _, he⟩ := exists_of_mem_of_forall₂ hMembers hm
  exact h e.2 m.2 he.2

end Json

end AnalysisCache
