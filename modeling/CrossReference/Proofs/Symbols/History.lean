import CrossReference.Proofs.Workspace.Table
import CrossReference.Symbols.Declarations
import Mathlib.Data.List.Dedup
import Mathlib.Data.List.Induction

namespace CrossReference

open Source (Node)

namespace Declarations

inductive Change where
  | add (file : FileId) (root : Node)
  | remove (file : FileId)

namespace Change

def file : Change → FileId
  | .add file _ => file
  | .remove file => file

def apply (index : Declarations) : Change → Declarations
  | .add file root => index.addFile file root
  | .remove file => index.removeFile file

end Change

def after (history : List Change) : Declarations := history.foldl Change.apply empty

/-- A file is there when it is added and not touched again, at the place of that addition. -/
def current : List Change → Table FileId Node
  | [] => []
  | .add file root :: later =>
    if file ∈ later.map Change.file then current later else (file, root) :: current later
  | .remove _ :: later => current later

def listed (files : Table FileId Node) (name : String) : List Located :=
  files.flatMap fun (file, root) => (root.topLevelDecls.filter (·.isNamed name)).map (⟨file, ·⟩)

def declaredNames (files : Table FileId Node) : List String :=
  files.flatMap fun (_, root) => root.topLevelDecls.filterMap Node.declName?

section Listed

variable {files : Table FileId Node} {name : String}

theorem mem_listed {l : Located} :
    l ∈ listed files name ↔
      ∃ root, (l.file, root) ∈ files ∧ l.node ∈ root.topLevelDecls ∧ l.node.isNamed name := by
  constructor
  · intro h
    obtain ⟨⟨file, root⟩, hfile, h⟩ := List.mem_flatMap.1 h
    obtain ⟨decl, hdecl, rfl⟩ := List.mem_map.1 h
    obtain ⟨hmem, hnamed⟩ := List.mem_filter.1 hdecl
    exact ⟨root, hfile, hmem, hnamed⟩
  · rintro ⟨root, hfile, hmem, hnamed⟩
    apply List.mem_flatMap.2
    refine ⟨(l.file, root), hfile, ?_⟩
    exact List.mem_map.2 ⟨l.node, List.mem_filter.2 ⟨hmem, hnamed⟩, rfl⟩

theorem listed_append (xs ys : Table FileId Node) :
    listed (xs ++ ys) name = listed xs name ++ listed ys name :=
  List.flatMap_append

theorem mem_declaredNames : name ∈ declaredNames files ↔ listed files name ≠ [] := by
  constructor
  · intro h
    obtain ⟨⟨file, root⟩, hfile, h⟩ := List.mem_flatMap.1 h
    obtain ⟨decl, hdecl, hname⟩ := List.mem_filterMap.1 h
    have hl : ⟨file, decl⟩ ∈ listed files name :=
      mem_listed.2 ⟨root, hfile, hdecl, by simp [Node.isNamed, hname]⟩
    exact List.ne_nil_of_mem hl
  · intro h
    obtain ⟨l, hl⟩ := List.exists_mem_of_ne_nil _ h
    obtain ⟨root, hfile, hmem, hnamed⟩ := mem_listed.1 hl
    apply List.mem_flatMap.2
    refine ⟨(l.file, root), hfile, List.mem_filterMap.2 ⟨l.node, hmem, ?_⟩⟩
    simpa [Node.isNamed] using hnamed

theorem listed_filter (file : FileId) :
    (listed files name).filter (·.file ≠ file) = listed (files.erase file) name := by
  induction files with
  | nil => rfl
  | cons e rest ih =>
    obtain ⟨other, root⟩ := e
    have hcons (table : Table FileId Node) :
        listed ((other, root) :: table) name =
          (root.topLevelDecls.filter (·.isNamed name)).map (⟨other, ·⟩) ++ listed table name := rfl
    rw [hcons, List.filter_append, ih]
    by_cases ho : other = file
    · subst ho
      simp [Table.erase, List.filter_map, Function.comp_def]
    · have hkeep : Table.erase ((other, root) :: rest) file =
          (other, root) :: Table.erase rest file := by
        simp [Table.erase, ho]
      rw [hkeep, hcons]
      simp [List.filter_map, Function.comp_def, ho]

end Listed

section Adding

variable {byName : Table String (List Located)}

theorem get?_addName (entry : String × Located) (name : String) :
    ((addName byName entry).get? name).getD [] =
      (byName.get? name).getD [] ++ if entry.1 = name then [entry.2] else [] := by
  by_cases h : entry.1 = name
  · subst h
    simp [addName, Table.get?_put_self]
  · rw [addName, Table.get?_put_of_ne _ _ (Ne.symm h)]
    simp [h]

theorem get?_addNames (entries : List (String × Located)) (name : String) :
    ((entries.foldl addName byName).get? name).getD [] =
      (byName.get? name).getD [] ++ (entries.filter (·.1 = name)).map Prod.snd := by
  induction entries generalizing byName with
  | nil => simp
  | cons entry entries ih =>
    rw [List.foldl_cons, ih, get?_addName]
    by_cases h : entry.1 = name <;> simp [h]

theorem declared_filter (file : FileId) (root : Node) (name : String) :
    ((declared file root).filter (·.1 = name)).map Prod.snd =
      (root.topLevelDecls.filter (·.isNamed name)).map (⟨file, ·⟩) := by
  unfold declared
  induction root.topLevelDecls with
  | nil => rfl
  | cons decl decls ih =>
    cases hd : decl.declName? with
    | none => simpa [Node.isNamed, hd] using ih
    | some other =>
      by_cases h : other = name
      · simpa [Node.isNamed, hd, h] using ih
      · simpa [Node.isNamed, hd, h] using ih

structure Tidy (byName : Table String (List Located)) : Prop where
  nodup : byName.keys.Nodup
  nonempty : ∀ e ∈ byName, e.2 ≠ []

theorem Tidy.put (h : Tidy byName) (name : String) {decls : List Located} (hd : decls ≠ []) :
    Tidy (byName.put name decls) where
  nodup := Table.nodup_put h.nodup _ _
  nonempty e he := by
    rcases Table.mem_put h.nodup he with rfl | ⟨he, _⟩
    · exact hd
    · exact h.nonempty e he

theorem Tidy.erase (h : Tidy byName) (name : String) : Tidy (byName.erase name) where
  nodup := Table.nodup_erase h.nodup _
  nonempty e he := h.nonempty e (Table.mem_erase.1 he).1

theorem Tidy.addNames (h : Tidy byName) (entries : List (String × Located)) :
    Tidy (entries.foldl addName byName) := by
  induction entries generalizing byName with
  | nil => exact h
  | cons entry entries ih =>
    apply ih
    exact h.put _ (by simp)

theorem Tidy.mem_keys_iff (h : Tidy byName) {name : String} :
    name ∈ byName.keys ↔ (byName.get? name).getD [] ≠ [] := by
  constructor
  · intro hk
    obtain ⟨e, he, rfl⟩ := List.mem_map.1 hk
    rw [Table.get?_of_mem h.nodup he]
    exact h.nonempty e he
  · intro hne
    by_contra hk
    rw [Table.get?_eq_none_iff.2 hk] at hne
    exact hne rfl

end Adding

section Removing

variable {byName : Table String (List Located)} {file : FileId}

theorem get?_dropName (name other : String) :
    ((dropName file byName name).get? other).getD [] =
      if name = other then ((byName.get? other).getD []).filter (·.file ≠ file)
      else (byName.get? other).getD [] := by
  unfold dropName
  cases hg : byName.get? name with
  | none =>
    by_cases h : name = other
    · subst h
      simp [hg]
    · simp [h]
  | some decls =>
    dsimp only
    split
    · next hempty =>
      by_cases h : name = other
      · subst h
        rw [Table.get?_erase_self, if_pos rfl, hg]
        exact (List.isEmpty_iff.1 hempty).symm
      · rw [Table.get?_erase_of_ne _ (Ne.symm h), if_neg h]
    · by_cases h : name = other
      · subst h
        rw [Table.get?_put_self, if_pos rfl, hg]
        rfl
      · rw [Table.get?_put_of_ne _ _ (Ne.symm h), if_neg h]

theorem get?_dropNames (names : List String) (other : String) :
    ((names.foldl (dropName file) byName).get? other).getD [] =
      if other ∈ names then ((byName.get? other).getD []).filter (·.file ≠ file)
      else (byName.get? other).getD [] := by
  induction names generalizing byName with
  | nil => simp
  | cons name names ih =>
    rw [List.foldl_cons, ih, get?_dropName]
    by_cases h : name = other
    · subst h
      simp
    · have h' : other ≠ name := Ne.symm h
      simp [h, h']

theorem Tidy.dropName (h : Tidy byName) (name : String) :
    Tidy (dropName file byName name) := by
  unfold Declarations.dropName
  cases byName.get? name with
  | none => exact h
  | some decls =>
    dsimp only
    split
    · exact h.erase name
    · next hne => exact h.put name (by simpa using hne)

theorem Tidy.dropNames (h : Tidy byName) (names : List String) :
    Tidy (names.foldl (Declarations.dropName file) byName) := by
  induction names generalizing byName with
  | nil => exact h
  | cons name names ih => exact ih (h.dropName name)

end Removing

structure Holds (index : Declarations) (files : Table FileId Node) : Prop where
  roots : index.roots = files
  nodup : files.keys.Nodup
  tidy : Tidy index.byName
  lookup : ∀ name, index.lookup name = listed files name
  names : ∀ file root, (file, root) ∈ files →
    index.names.get? file = some ((declared file root).map Prod.fst)

theorem holds_empty : empty.Holds [] where
  roots := rfl
  nodup := List.nodup_nil
  tidy := ⟨List.nodup_nil, by simp [empty]⟩
  lookup _ := rfl
  names _ _ h := absurd h List.not_mem_nil

variable {index : Declarations} {files : Table FileId Node}

theorem mem_names_of_listed {file : FileId} {root : Node} {name : String}
    {l : Located} (hf : (file, root) ∈ files) (hd : files.keys.Nodup)
    (hl : l ∈ listed files name) (hfile : l.file = file) :
    name ∈ (declared file root).map Prod.fst := by
  obtain ⟨other, hother, hmem, hnamed⟩ := mem_listed.1 hl
  rw [hfile] at hother
  have hroot : other = root :=
    Option.some.inj ((Table.get?_of_mem hd hother).symm.trans (Table.get?_of_mem hd hf))
  subst hroot
  have hname : l.node.declName? = some name := by simpa [Node.isNamed] using hnamed
  refine List.mem_map.2 ⟨(name, ⟨file, l.node⟩), ?_, rfl⟩
  exact List.mem_filterMap.2 ⟨l.node, hmem, by simp [hname]⟩

theorem Holds.removeFile (h : index.Holds files) (file : FileId) :
    (index.removeFile file).Holds (files.erase file) := by
  by_cases hk : file ∈ files.keys
  · have hc : index.roots.contains file = true := by
      rw [h.roots]
      exact Table.contains_iff.2 hk
    obtain ⟨e, hf, rfl⟩ := List.mem_map.1 hk
    obtain ⟨file, root⟩ := e
    have hnames := h.names file root hf
    rw [Declarations.removeFile, if_pos hc, hnames, Option.getD_some]
    constructor
    · exact congrArg (Table.erase · file) h.roots
    · exact Table.nodup_erase h.nodup file
    · exact h.tidy.dropNames _
    · intro name
      rw [← listed_filter, ← h.lookup]
      refine (get?_dropNames _ name).trans ?_
      split
      · rfl
      · next hname =>
        refine (List.filter_eq_self.2 fun l hl => ?_).symm
        have hne : l.file ≠ file := by
          intro hfile
          exact hname (mem_names_of_listed hf h.nodup (h.lookup name ▸ hl) hfile)
        simpa using hne
    · intro other tree hother
      obtain ⟨hother, hne⟩ := Table.mem_erase.1 hother
      exact (Table.get?_erase_of_ne _ hne).trans (h.names other tree hother)
  · have hc : index.roots.contains file ≠ true := by
      rw [h.roots]
      exact fun hc => hk (Table.contains_iff.1 hc)
    rw [Declarations.removeFile, if_neg hc, Table.erase_of_not_mem hk]
    exact h

theorem Holds.addFile (h : index.Holds files) (file : FileId) (root : Node) :
    (index.addFile file root).Holds (files.erase file ++ [(file, root)]) := by
  have hrest := h.removeFile file
  have hnew : file ∉ (files.erase file).keys := by
    intro hk
    obtain ⟨e, he, hfile⟩ := List.mem_map.1 hk
    exact (Table.mem_erase.1 he).2 hfile
  constructor
  · exact congrArg (· ++ [(file, root)]) hrest.roots
  · rw [Table.keys, List.map_append]
    refine List.nodup_append.2 ⟨hrest.nodup, by simp, ?_⟩
    rintro other hother last hlast rfl
    obtain rfl : other = file := by simpa using hlast
    exact hnew hother
  · exact hrest.tidy.addNames _
  · intro name
    rw [listed_append, ← hrest.lookup]
    refine (get?_addNames _ name).trans ?_
    rw [declared_filter]
    simp [listed, Declarations.lookup]
  · intro other tree hother
    rcases List.mem_append.1 hother with hother | hother
    · have hne : other ≠ file := by
        rintro rfl
        exact hnew (Table.mem_keys_of_mem hother)
      exact (Table.get?_put_of_ne _ _ hne).trans (hrest.names other tree hother)
    · obtain ⟨rfl, rfl⟩ := Prod.mk.inj (List.mem_singleton.1 hother)
      exact Table.get?_put_self ..

theorem Holds.size (h : index.Holds files) : index.size = (declaredNames files).dedup.length := by
  have hperm : index.byName.keys.Perm (declaredNames files).dedup := by
    apply (List.perm_ext_iff_of_nodup h.tidy.nodup (List.nodup_dedup _)).2
    intro name
    rw [List.mem_dedup, mem_declaredNames, ← h.lookup]
    exact h.tidy.mem_keys_iff
  rw [← hperm.length_eq]
  exact (List.length_map _).symm

theorem Holds.fileOf? (h : index.Holds files) {l : Located} {root : Node}
    (hf : (l.file, root) ∈ files) : index.fileOf? l = some l.file := by
  have hc : index.roots.contains l.file = true := by
    rw [h.roots]
    exact Table.contains_iff.2 (Table.mem_keys_of_mem hf)
  rw [Declarations.fileOf?, if_pos hc]

theorem current_snoc (history : List Change) (change : Change) :
    current (history ++ [change]) =
      (current history).erase change.file ++ current [change] := by
  induction history with
  | nil => simp [current, Table.erase]
  | cons first later ih =>
    cases first with
    | remove file => exact ih
    | add file root =>
      rw [List.cons_append, current, current, ih]
      by_cases hlater : file ∈ later.map Change.file
      · simp [hlater]
      · by_cases hc : file = change.file
        · subst hc
          simp only [hlater, List.map_append, List.mem_append, List.map_singleton,
            List.mem_singleton, or_true, if_true, if_false]
          simp [Table.erase]
        · simp [hlater, hc, Table.erase]

theorem holds_after (history : List Change) : (after history).Holds (current history) := by
  induction history using List.reverseRecOn with
  | nil => exact holds_empty
  | append_singleton history change ih =>
    have hstep : after (history ++ [change]) = change.apply (after history) := by
      simp [after]
    rw [hstep, current_snoc]
    cases change with
    | add file root => exact ih.addFile file root
    | remove file =>
      rw [current, current, List.append_nil]
      exact ih.removeFile file

theorem lookup_after (history : List Change) :
    (∀ name, (after history).lookup name =
      (current history).flatMap fun (file, root) =>
        (root.topLevelDecls.filter (·.isNamed name)).map (⟨file, ·⟩)) ∧
    (∀ name, ∀ l ∈ (after history).lookup name,
      ∃ root, (l.file, root) ∈ current history ∧ l.node ∈ root.topLevelDecls ∧
        (after history).fileOf? l = some l.file) ∧
    (after history).size =
      ((current history).flatMap fun (_, root) =>
        root.topLevelDecls.filterMap Node.declName?).dedup.length ∧
    ∀ entry ∈ (after history).byName, entry.2 ≠ [] := by
  have h := holds_after history
  refine ⟨h.lookup, ?_, h.size, h.tidy.nonempty⟩
  intro name l hl
  rw [h.lookup] at hl
  obtain ⟨root, hfile, hmem, _⟩ := mem_listed.1 hl
  exact ⟨root, hfile, hmem, h.fileOf? hfile⟩

end Declarations

end CrossReference
