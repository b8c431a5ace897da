import CrossReference.Disk
import CrossReference.Proofs.Path.Components
import CrossReference.Proofs.Text.Bytes
import Mathlib.Data.List.Nodup

namespace CrossReference

open CrossReference.Path (IsFileName)
open Text (bytes)

def Component.bytes : Component → List UInt8
  | .root => Text.bytes "/"
  | .current => Text.bytes "."
  | .up => Text.bytes ".."
  | .name text => Text.bytes text

namespace Entry

inductive At : Entry → List String → Entry → Prop
  | here (e : Entry) : At e [] e
  | inside {entries : List (String × Entry)} {name : String} {e found : Entry}
      {place : List String} :
      (name, e) ∈ entries → At e place found → At (.directory entries) (name :: place) found

inductive WellNamed : Entry → Prop
  | file (bytes : ByteArray) : WellNamed (.file bytes)
  | directory {entries : List (String × Entry)} : (entries.map Prod.fst).Nodup →
      (∀ x ∈ entries, IsFileName x.1) → (∀ x ∈ entries, WellNamed x.2) →
      WellNamed (.directory entries)

@[simp] theorem wellNamed_file (bytes : ByteArray) : (file bytes).WellNamed := .file bytes

@[simp] theorem wellNamed_directory {entries : List (String × Entry)} :
    (directory entries).WellNamed ↔ (entries.map Prod.fst).Nodup ∧
      (∀ x ∈ entries, IsFileName x.1) ∧ ∀ x ∈ entries, x.2.WellNamed := by
  constructor
  · rintro ⟨⟩
    exact ⟨‹_›, ‹_›, ‹_›⟩
  · rintro ⟨hd, hnames, hall⟩
    exact .directory hd hnames hall

def IsPruned (name : String) : Prop := name.toList.head? = some '.' ∨ name ∈ skippedNames

/-- A place in directories that are all kept; the file itself may have any name. -/
def Kept (place : List String) : Prop := ∀ name ∈ place.dropLast, ¬ IsPruned name

variable {e found : Entry} {entries : List (String × Entry)} {name : String} {place : List String}

theorem isSkipped_iff : e.isSkipped name = true ↔ e.isDirectory = true ∧ IsPruned name := by
  simp [isSkipped, IsPruned]

theorem At.isDirectory_iff {bytes : ByteArray} (h : e.At place (.file bytes)) :
    e.isDirectory = true ↔ place ≠ [] := by
  cases h with
  | here => simp [isDirectory]
  | inside => simp [isDirectory]

theorem kept_cons {bytes : ByteArray} (h : e.At place (.file bytes)) :
    Kept (name :: place) ↔ e.isSkipped name = false ∧ Kept place := by
  rw [← Bool.not_eq_true, isSkipped_iff, h.isDirectory_iff]
  cases place with
  | nil => simp [Kept]
  | cons next place => simp [Kept]

theorem walkAll_eq (entries : List (String × Entry)) :
    walkAll entries =
      entries.map fun x => (x.1, if x.2.isSkipped x.1 then [] else x.2.walk) := by
  induction entries with
  | nil => rfl
  | cons x entries ih => rw [walkAll, ih, List.map_cons]

theorem mem_gather {found : List (String × List (List String))} {place : List String} :
    place ∈ gather found ↔ ∃ x ∈ found, ∃ rest ∈ x.2, x.1 :: rest = place := by
  simp [gather]

theorem mem_walk_directory :
    place ∈ (directory entries).walk ↔
      ∃ x ∈ entries, x.2.isSkipped x.1 = false ∧ ∃ rest ∈ x.2.walk, x.1 :: rest = place := by
  rw [walk, mem_gather, walkAll_eq]
  constructor
  · rintro ⟨y, hy, rest, hrest, rfl⟩
    obtain ⟨x, hx, rfl⟩ := List.mem_map.1 hy
    dsimp only at hrest
    split at hrest
    · cases hrest
    · next hskip => exact ⟨x, hx, Bool.eq_false_iff.2 hskip, rest, hrest, rfl⟩
  · rintro ⟨x, hx, hskip, rest, hrest, rfl⟩
    refine ⟨_, List.mem_map_of_mem hx, rest, ?_, rfl⟩
    simpa [hskip] using hrest

theorem WellNamed.mem_walk_iff (h : e.WellNamed) :
    place ∈ e.walk ↔ ∃ bytes, e.At place (.file bytes) ∧ Kept place := by
  induction h generalizing place with
  | file bytes =>
    rw [walk, List.mem_singleton]
    constructor
    · rintro rfl
      exact ⟨bytes, .here _, by simp [Kept]⟩
    · rintro ⟨_, hat, -⟩
      cases hat
      rfl
  | directory _ _ _ ih =>
    rw [mem_walk_directory]
    constructor
    · rintro ⟨x, hx, hskip, rest, hrest, rfl⟩
      obtain ⟨bytes, hat, hkept⟩ := (ih x hx).1 hrest
      exact ⟨bytes, .inside hx hat, (kept_cons hat).2 ⟨hskip, hkept⟩⟩
    · rintro ⟨bytes, hat, hkept⟩
      cases hat with
      | inside hx hat =>
        obtain ⟨hskip, hkept⟩ := (kept_cons hat).1 hkept
        exact ⟨_, hx, hskip, _, (ih _ hx).2 ⟨bytes, hat, hkept⟩, rfl⟩

def Before (place other : List String) : Prop := place.map bytes < other.map bytes

theorem before_cons_of_lt {name other : String} (h : name < other) (place rest : List String) :
    Before (name :: place) (other :: rest) :=
  List.Lex.rel (Text.bytes_lt h)

theorem Before.cons {place rest : List String} (h : Before place rest) (name : String) :
    Before (name :: place) (name :: rest) :=
  List.Lex.cons h

theorem pairwise_mergeSort_names {found : List (String × List (List String))}
    (hd : (found.map Prod.fst).Nodup) :
    (found.mergeSort fun a b => a.1 ≤ b.1).Pairwise fun a b => a.1 < b.1 := by
  have hperm := List.mergeSort_perm found fun a b => a.1 ≤ b.1
  have hsorted : (found.mergeSort fun a b => a.1 ≤ b.1).Pairwise fun a b =>
      decide (a.1 ≤ b.1) = true := by
    refine List.pairwise_mergeSort (fun a b c hab hbc => ?_) (fun a b => ?_) found
    · exact decide_eq_true (String.le_trans (of_decide_eq_true hab) (of_decide_eq_true hbc))
    · simpa using String.le_total a.1 b.1
  have hdistinct : (found.mergeSort fun a b => a.1 ≤ b.1).Pairwise fun a b => a.1 ≠ b.1 :=
    List.pairwise_map.1 ((hperm.map Prod.fst).nodup_iff.2 hd)
  refine (hsorted.and hdistinct).imp fun {a b} hab => String.not_le.1 fun hle => hab.2 ?_
  exact String.le_antisymm (of_decide_eq_true hab.1) hle

theorem pairwise_gather {found : List (String × List (List String))}
    (hd : (found.map Prod.fst).Nodup) (hpaths : ∀ x ∈ found, x.2.Pairwise Before) :
    (gather found).Pairwise Before := by
  rw [gather, List.pairwise_flatMap]
  constructor
  · rintro ⟨name, paths⟩ hx
    have hpaths := hpaths _ (List.mem_mergeSort.1 hx)
    exact List.pairwise_map.2 (hpaths.imp fun h => h.cons name)
  · refine (pairwise_mergeSort_names hd).imp fun {a b} hab => ?_
    intro p hp q hq
    obtain ⟨place, -, rfl⟩ := List.mem_map.1 hp
    obtain ⟨rest, -, rfl⟩ := List.mem_map.1 hq
    exact before_cons_of_lt hab place rest

theorem WellNamed.pairwise_walk (h : e.WellNamed) : e.walk.Pairwise Before := by
  induction h with
  | file bytes => exact List.pairwise_singleton _ _
  | directory hd _ _ ih =>
    rw [walk, walkAll_eq]
    refine pairwise_gather ?_ fun y hy => ?_
    · rw [List.map_map]
      exact hd
    · obtain ⟨x, hx, rfl⟩ := List.mem_map.1 hy
      dsimp only
      split
      · exact .nil
      · exact ih x hx

def pathTo (root : Path) (place : List String) : Path :=
  place.foldl (fun path name => path.join ⟨name⟩) root

theorem components_pathTo {root : Path} (hroot : root.isAbsolute = true)
    (h : ∀ name ∈ place, IsFileName name) :
    (pathTo root place).components = root.components ++ place.map .name := by
  induction place generalizing root with
  | nil => simp [pathTo]
  | cons name place ih =>
    obtain ⟨habsolute, hjoined⟩ := Path.components_join_name hroot (h name List.mem_cons_self)
    have hrest := ih habsolute fun n hn => h n (List.mem_cons_of_mem _ hn)
    rw [pathTo, List.foldl_cons, ← pathTo, hrest, hjoined]
    simp

theorem WellNamed.isFileName_of_at (h : e.WellNamed) (hat : e.At place found) :
    ∀ name ∈ place, IsFileName name := by
  induction hat with
  | here => exact fun _ hn => absurd hn List.not_mem_nil
  | inside hx _ ih =>
    cases h with
    | directory _ hnames hall =>
      intro n hn
      rcases List.mem_cons.1 hn with rfl | hn
      · exact hnames _ hx
      · exact ih (hall _ hx) n hn

theorem isAbsolute_of_find? {disk : Entry} {root : Path} (h : disk.find? root = some e) :
    root.isAbsolute = true := by
  rw [find?] at h
  split at h
  · assumption
  · cases h

theorem projectFiles_exact {disk : Entry} {root : Path} (hroot : disk.find? root = some e)
    (h : e.WellNamed) :
    (∀ p, p ∈ disk.projectFiles root ↔
      ∃ place bytes, e.At place (.file bytes) ∧ Kept place ∧ p = pathTo root place) ∧
    (∀ place bytes, e.At place (.file bytes) →
      (pathTo root place).components = root.components ++ place.map .name) ∧
    (disk.projectFiles root).Nodup ∧
    (disk.projectFiles root).Pairwise fun p q =>
      p.components.map Component.bytes < q.components.map Component.bytes := by
  have hfiles : disk.projectFiles root = e.walk.map (pathTo root) := by
    rw [projectFiles, hroot]
    rfl
  have hcomponents (place : List String) (bytes : ByteArray) (hat : e.At place (.file bytes)) :
      (pathTo root place).components = root.components ++ place.map .name :=
    components_pathTo (isAbsolute_of_find? hroot) (h.isFileName_of_at hat)
  have horder : (disk.projectFiles root).Pairwise fun p q =>
      p.components.map Component.bytes < q.components.map Component.bytes := by
    rw [hfiles, List.pairwise_map]
    refine h.pairwise_walk.imp_of_mem fun {place rest} hplace hrest hbefore => ?_
    obtain ⟨_, hplace, -⟩ := h.mem_walk_iff.1 hplace
    obtain ⟨_, hrest, -⟩ := h.mem_walk_iff.1 hrest
    rw [hcomponents _ _ hplace, hcomponents _ _ hrest, List.map_append, List.map_append]
    apply List.append_left_lt
    rw [List.map_map, List.map_map]
    exact hbefore
  refine ⟨fun p => ?_, hcomponents, horder.imp fun hlt heq => ?_, horder⟩
  · rw [hfiles, List.mem_map]
    simp only [h.mem_walk_iff]
    constructor
    · rintro ⟨place, ⟨bytes, hat, hkept⟩, rfl⟩
      exact ⟨place, bytes, hat, hkept, rfl⟩
    · rintro ⟨place, bytes, hat, hkept, rfl⟩
      exact ⟨place, ⟨bytes, hat, hkept⟩, rfl⟩
  · rw [heq] at hlt
    exact List.lt_irrefl _ hlt

theorem projectFiles_exact_pruned :
    let file : Entry := .file .empty
    let inLib := [("b.dart", file), (".a.dart", file), ("build", .directory [("c", file)])]
    let inApp := [("lib.dart", file), (".git", .directory [("d", file)]), ("lib", .directory inLib)]
    let app : Entry := .directory inApp
    let disk : Entry := .directory [("app", app)]
    disk.find? ⟨"/app/"⟩ = some app ∧ app.WellNamed ∧
      app.At ["lib", ".a.dart"] file ∧ Kept ["lib", ".a.dart"] ∧
      ⟨"/app/lib/.a.dart"⟩ ∈ disk.projectFiles ⟨"/app/"⟩ ∧
      (disk.projectFiles ⟨"/app/"⟩).Pairwise fun p q =>
        p.components.map Component.bytes < q.components.map Component.bytes := by
  intro file inLib inApp app disk
  have hroot : disk.find? ⟨"/app/"⟩ = some app := by rfl
  have hnames : app.WellNamed := by
    simp [app, inApp, inLib, file]
    decide
  have hat : app.At ["lib", ".a.dart"] file := by
    have hlib : ("lib", .directory inLib) ∈ inApp := by simp [inApp]
    have hfile : (".a.dart", file) ∈ inLib := by simp [inLib]
    exact .inside hlib (.inside hfile (.here _))
  have hkept : Kept ["lib", ".a.dart"] := by simp [Kept, IsPruned, skippedNames]
  obtain ⟨hmem, -, -, horder⟩ := projectFiles_exact hroot hnames
  refine ⟨hroot, hnames, hat, hkept, ?_, horder⟩
  exact (hmem _).2 ⟨_, _, hat, hkept, by decide +kernel⟩

end Entry

end CrossReference
