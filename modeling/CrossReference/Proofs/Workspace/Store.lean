import CrossReference.FileStore
import CrossReference.Proofs.Path.Components
import CrossReference.Proofs.Workspace.Table
import Mathlib.Data.List.Induction
import Mathlib.Data.List.Nodup

namespace CrossReference.FileStore

variable {store : FileStore}

theorem perm_swapRemove {entries : Table FileId Path} (hd : entries.keys.Nodup) (file : FileId) :
    (swapRemove file entries).Perm (entries.erase file) := by
  induction entries with
  | nil => exact .nil
  | cons e rest ih =>
    obtain ⟨he, hrest⟩ := List.nodup_cons.1 hd
    rw [swapRemove]
    split
    · next hfile =>
      subst hfile
      have herase : Table.erase (e :: rest) e.1 = rest := by
        rw [Table.erase, List.filter_cons_of_neg (by simp)]
        exact Table.erase_of_not_mem he
      rw [herase]
      cases hl : rest.getLast? with
      | none => rw [List.getLast?_eq_none_iff.1 hl]
      | some last =>
        obtain ⟨init, rfl⟩ := List.getLast?_eq_some_iff.1 hl
        simpa using (List.perm_append_singleton last init).symm
    · next hfile =>
      have herase : Table.erase (e :: rest) file = e :: Table.erase rest file := by
        rw [Table.erase, List.filter_cons_of_pos (by simpa using hfile)]
        rfl
      rw [herase]
      exact (ih hrest).cons e

theorem register_cases (store : FileStore) (path : Path) :
    (store.lookup? path = some (store.register path).1 ∧ (store.register path).2 = store) ∨
    (store.lookup? path = none ∧ (store.register path).1 = ⟨store.next⟩ ∧
      (store.register path).2 =
        ⟨store.entries.put ⟨store.next⟩ path, store.ids.put path.components ⟨store.next⟩,
          store.texts, store.next + 1⟩) := by
  rw [register]
  cases h : store.lookup? path <;> simp

theorem unregister_cases (store : FileStore) (file : FileId) :
    (store.path? file = none ∧ store.unregister file = store) ∨
    ∃ path, store.path? file = some path ∧
      store.unregister file =
        { store with
          entries := swapRemove file store.entries
          ids := store.ids.erase path.components } := by
  rw [unregister]
  cases h : store.path? file <;> simp

theorem mem_files_iff {file : FileId} :
    file ∈ store.files ↔ ∃ path, store.path? file = some path := by
  have hnone : store.path? file = none ↔ file ∉ store.files := Table.get?_eq_none_iff
  rw [← Option.isSome_iff_exists, Option.isSome_iff_ne_none, Ne, hnone, not_not]

structure Paired (store : FileStore) : Prop where
  files_nodup : store.files.Nodup
  paths_nodup : store.ids.keys.Nodup
  mem_iff : ∀ parts file, (parts, file) ∈ store.ids ↔
    ∃ path, (file, path) ∈ store.entries ∧ path.components = parts
  index_lt : ∀ file ∈ store.files, file.index < store.next

theorem paired_empty : empty.Paired where
  files_nodup := List.nodup_nil
  paths_nodup := List.nodup_nil
  mem_iff _ _ := by simp [empty]
  index_lt _ h := absurd h List.not_mem_nil

namespace Paired

theorem mem_entries_iff (h : store.Paired) {file : FileId} {path : Path} :
    (file, path) ∈ store.entries ↔ store.path? file = some path :=
  ⟨Table.get?_of_mem h.files_nodup, Table.mem_of_get?⟩

theorem lookup?_iff (h : store.Paired) {file : FileId} {path : Path} :
    store.lookup? path = some file ↔
      ∃ known, store.path? file = some known ∧ known.components = path.components := by
  have hids : store.lookup? path = some file ↔ (path.components, file) ∈ store.ids :=
    ⟨Table.mem_of_get?, Table.get?_of_mem h.paths_nodup⟩
  rw [hids, h.mem_iff]
  simp only [h.mem_entries_iff]

theorem lookup?_path (h : store.Paired) {file : FileId} {path : Path}
    (hp : store.path? file = some path) : store.lookup? path = some file :=
  h.lookup?_iff.2 ⟨path, hp, rfl⟩

theorem mem_files_of_lookup? (h : store.Paired) {path : Path} {file : FileId}
    (hl : store.lookup? path = some file) : file ∈ store.files := by
  obtain ⟨known, hknown, _⟩ := h.lookup?_iff.1 hl
  exact Table.mem_keys_of_mem (h.mem_entries_iff.2 hknown)

theorem eq_iff (h : store.Paired) {file other : FileId} {path known : Path}
    (hp : (file, path) ∈ store.entries) (hk : (other, known) ∈ store.entries) :
    file = other ↔ path.components = known.components := by
  rw [h.mem_entries_iff] at hp hk
  constructor
  · rintro rfl
    rw [Option.some.inj (hp.symm.trans hk)]
  · intro heq
    have hl := h.lookup?_iff.2 ⟨path, hp, heq⟩
    exact Option.some.inj (hl.symm.trans (h.lookup?_path hk))

theorem size_eq (h : store.Paired) : store.size = store.files.length := by
  have hperm : store.ids.Perm (store.entries.map fun e => (e.2.components, e.1)) := by
    apply (List.perm_ext_iff_of_nodup (.of_map Prod.fst h.paths_nodup) ?_).2
    · rintro ⟨parts, file⟩
      rw [h.mem_iff, List.mem_map]
      constructor
      · rintro ⟨path, hpath, rfl⟩
        exact ⟨(file, path), hpath, rfl⟩
      · rintro ⟨⟨other, path⟩, hpath, heq⟩
        obtain ⟨rfl, rfl⟩ := Prod.mk.inj heq
        exact ⟨path, hpath, rfl⟩
    · apply List.Nodup.of_map Prod.snd
      rw [List.map_map]
      exact h.files_nodup
  rw [size, hperm.length_eq, List.length_map, files, List.length_map]

theorem not_mem_next (h : store.Paired) : (⟨store.next⟩ : FileId) ∉ store.files :=
  fun hf => Nat.lt_irrefl _ (h.index_lt _ hf)

theorem register (h : store.Paired) (path : Path) : (store.register path).2.Paired := by
  rcases store.register_cases path with ⟨_, hstore⟩ | ⟨hl, _, hstore⟩
  · rwa [hstore]
  · have hparts : path.components ∉ store.ids.keys := Table.get?_eq_none_iff.1 hl
    rw [hstore]
    constructor
    · exact Table.nodup_put h.files_nodup _ path
    · exact Table.nodup_put h.paths_nodup _ _
    · intro parts file
      rw [Table.put_of_not_mem h.not_mem_next, Table.put_of_not_mem hparts]
      simp only [List.mem_append, List.mem_singleton, Prod.mk.injEq, h.mem_iff]
      constructor
      · rintro (⟨known, hknown, rfl⟩ | ⟨rfl, rfl⟩)
        · exact ⟨known, .inl hknown, rfl⟩
        · exact ⟨path, .inr ⟨rfl, rfl⟩, rfl⟩
      · rintro ⟨known, hknown | ⟨rfl, rfl⟩, rfl⟩
        · exact .inl ⟨known, hknown, rfl⟩
        · exact .inr ⟨rfl, rfl⟩
    · intro file hf
      rcases Table.mem_keys_put hf with rfl | hf
      · exact Nat.lt_succ_self _
      · exact Nat.lt_succ_of_lt (h.index_lt file hf)

theorem mem_files_register (h : store.Paired) (path : Path) :
    (store.register path).1 ∈ (store.register path).2.files := by
  rcases store.register_cases path with ⟨hl, hstore⟩ | ⟨_, hfile, hstore⟩
  · rw [hstore]
    exact h.mem_files_of_lookup? hl
  · rw [hfile, hstore]
    exact List.mem_map_of_mem (Table.mem_put_self _ _ path)

theorem mem_entries_unregister (h : store.Paired) {file other : FileId} {path : Path} :
    (other, path) ∈ (store.unregister file).entries ↔
      (other, path) ∈ store.entries ∧ other ≠ file := by
  rcases store.unregister_cases file with ⟨hp, hstore⟩ | ⟨known, _, hstore⟩
  · rw [hstore]
    refine ⟨fun he => ⟨he, ?_⟩, And.left⟩
    rintro rfl
    exact Table.get?_eq_none_iff.1 hp (Table.mem_keys_of_mem he)
  · rw [hstore]
    exact (perm_swapRemove h.files_nodup file).mem_iff.trans Table.mem_erase

theorem unregister (h : store.Paired) (file : FileId) : (store.unregister file).Paired := by
  have hentries {other : FileId} {path : Path} :
      (other, path) ∈ (store.unregister file).entries ↔
        (other, path) ∈ store.entries ∧ other ≠ file :=
    h.mem_entries_unregister
  rcases store.unregister_cases file with ⟨_, hstore⟩ | ⟨path, hp, hstore⟩
  · rwa [hstore]
  · rw [hstore] at hentries ⊢
    have hpath := h.mem_entries_iff.2 hp
    constructor
    · have hperm := (perm_swapRemove h.files_nodup file).map Prod.fst
      exact hperm.nodup_iff.2 (Table.nodup_erase h.files_nodup file)
    · exact Table.nodup_erase h.paths_nodup _
    · intro parts other
      rw [Table.mem_erase, h.mem_iff]
      constructor
      · rintro ⟨⟨known, hknown, rfl⟩, hne⟩
        exact ⟨known, hentries.2 ⟨hknown, fun heq => hne ((h.eq_iff hknown hpath).1 heq)⟩, rfl⟩
      · rintro ⟨known, hknown, rfl⟩
        obtain ⟨hknown, hne⟩ := hentries.1 hknown
        exact ⟨⟨known, hknown, rfl⟩, fun heq => hne ((h.eq_iff hknown hpath).2 heq)⟩
    · intro other hother
      obtain ⟨e, he, rfl⟩ := List.mem_map.1 hother
      exact h.index_lt _ (Table.mem_keys_of_mem (hentries.1 he).1)

theorem of_texts (h : store.Paired) (texts : Table FileId String) :
    ({ store with texts } : FileStore).Paired :=
  ⟨h.files_nodup, h.paths_nodup, h.mem_iff, h.index_lt⟩

theorem setContents (h : store.Paired) (file : FileId) (text : String) :
    (store.setContents file text).Paired :=
  h.of_texts _

theorem insert (h : store.Paired) (path : Path) (text : String) :
    (store.insert path text).2.Paired :=
  (h.register path).setContents _ text

theorem remove (h : store.Paired) (file : FileId) : (store.remove file).Paired :=
  (h.unregister file).of_texts _

end Paired

section Lookups

variable {path other : Path} {file : FileId}

theorem lookup?_of_isSame (store : FileStore) (h : path.isSame other = true) :
    store.lookup? path = store.lookup? other := by
  rw [lookup?, lookup?, Path.isSame_iff.1 h]

theorem register_of_lookup? (h : store.lookup? path = some file) :
    store.register path = (file, store) := by
  rw [register, h]

theorem lookup?_register_self (store : FileStore) (path : Path) :
    (store.register path).2.lookup? path = some (store.register path).1 := by
  rcases store.register_cases path with ⟨hl, hstore⟩ | ⟨_, hfile, hstore⟩
  · rw [hstore, hl]
  · rw [hstore, hfile]
    exact Table.get?_put_self ..

theorem lookup?_insert_self (store : FileStore) (path : Path) (text : String) :
    (store.insert path text).2.lookup? path = some (store.insert path text).1 :=
  store.lookup?_register_self path

theorem lookup?_insert_of_ne (text : String) (h : other.components ≠ path.components) :
    (store.insert path text).2.lookup? other = store.lookup? other := by
  change (store.register path).2.lookup? other = store.lookup? other
  rcases store.register_cases path with ⟨_, hstore⟩ | ⟨_, _, hstore⟩
  · rw [hstore]
  · rw [hstore]
    exact Table.get?_put_of_ne _ _ h

namespace Paired

theorem path?_register (h : store.Paired) {known : Path} (hp : store.path? file = some known)
    (path : Path) : (store.register path).2.path? file = some known := by
  rcases store.register_cases path with ⟨_, hstore⟩ | ⟨_, _, hstore⟩
  · rwa [hstore]
  · have hne : file ≠ ⟨store.next⟩ := by
      rintro rfl
      exact h.not_mem_next (mem_files_iff.2 ⟨known, hp⟩)
    rw [hstore]
    exact (Table.get?_put_of_ne _ _ hne).trans hp

theorem mem_files_register_of_mem (h : store.Paired) (hf : file ∈ store.files) (path : Path) :
    file ∈ (store.register path).2.files := by
  obtain ⟨known, hknown⟩ := mem_files_iff.1 hf
  exact mem_files_iff.2 ⟨known, h.path?_register hknown path⟩

theorem path?_unregister (h : store.Paired) {gone : FileId} :
    (store.unregister gone).path? file = some path ↔
      store.path? file = some path ∧ file ≠ gone := by
  rw [← (h.unregister gone).mem_entries_iff, h.mem_entries_unregister, h.mem_entries_iff]

theorem components_of_lookup? (hs : store.Paired)
    (hp : store.lookup? path = some file) (ho : store.lookup? other = some file) :
    path.components = other.components := by
  obtain ⟨known, hknown, hparts⟩ := hs.lookup?_iff.1 hp
  obtain ⟨same, hsame, hother⟩ := hs.lookup?_iff.1 ho
  obtain rfl := Option.some.inj (hknown.symm.trans hsame)
  exact hparts.symm.trans hother

theorem ne_insert (hs : store.Paired) (text : String)
    (h : other.components ≠ path.components) {file : FileId}
    (hl : store.lookup? other = some file) : file ≠ (store.insert path text).1 := by
  rintro rfl
  rcases store.register_cases path with ⟨hpath, _⟩ | ⟨_, hnew, _⟩
  · exact h (hs.components_of_lookup? hl hpath)
  · have hmem := hs.mem_files_of_lookup? hl
    rw [show (store.insert path text).1 = ⟨store.next⟩ from hnew] at hmem
    exact hs.not_mem_next hmem

theorem lookup?_remove (hs : store.Paired) (file : FileId) (path : Path) :
    (store.remove file).lookup? path =
      if store.lookup? path = some file then none else store.lookup? path := by
  change (store.unregister file).lookup? path = _
  rcases store.unregister_cases file with ⟨hnone, hstore⟩ | ⟨known, hknown, hstore⟩
  · have hne : store.lookup? path ≠ some file := by
      intro hl
      obtain ⟨known, hknown, _⟩ := hs.lookup?_iff.1 hl
      simp [hnone] at hknown
    rw [hstore, if_neg hne]
  · rw [hstore]
    change (store.ids.erase known.components).get? path.components = _
    split
    · next hl =>
      obtain ⟨same, hsame, hparts⟩ := hs.lookup?_iff.1 hl
      obtain rfl := Option.some.inj (hknown.symm.trans hsame)
      rw [← hparts]
      exact Table.get?_erase_self ..
    · next hl =>
      have hne : path.components ≠ known.components := by
        intro heq
        exact hl (hs.lookup?_iff.2 ⟨known, hknown, heq.symm⟩)
      exact Table.get?_erase_of_ne _ hne

end Paired

end Lookups

theorem contents?_setContents_self (file : FileId) (text : String) :
    (store.setContents file text).contents? file = some text :=
  Table.get?_put_self ..

theorem contents?_setContents_of_ne {file other : FileId} (text : String) (h : other ≠ file) :
    (store.setContents file text).contents? other = store.contents? other :=
  Table.get?_put_of_ne _ _ h

theorem contents?_register (path : Path) (file : FileId) :
    (store.register path).2.contents? file = store.contents? file := by
  rcases store.register_cases path with ⟨_, h⟩ | ⟨_, _, h⟩
  · rw [h]
  · rw [h]
    rfl

theorem contents?_insert_self (store : FileStore) (path : Path) (text : String) :
    (store.insert path text).2.contents? (store.insert path text).1 = some text :=
  contents?_setContents_self ..

theorem contents?_insert_of_ne {path : Path} {file : FileId} (text : String)
    (h : file ≠ (store.insert path text).1) :
    (store.insert path text).2.contents? file = store.contents? file :=
  (contents?_setContents_of_ne text h).trans (contents?_register path file)

theorem lookup?_insert {path : Path} {file : FileId} (text : String)
    (h : store.lookup? path = some file) : (store.insert path text).1 = file := by
  rcases store.register_cases path with ⟨hl, _⟩ | ⟨hn, _⟩
  · exact Option.some.inj (hl.symm.trans h)
  · simp [h] at hn

theorem contents?_unregister (file other : FileId) :
    (store.unregister file).contents? other = store.contents? other := by
  rcases store.unregister_cases file with ⟨_, h⟩ | ⟨_, _, h⟩
  · rw [h]
  · rw [h]
    rfl

theorem contents?_remove_self (store : FileStore) (file : FileId) :
    (store.remove file).contents? file = none :=
  Table.get?_erase_self ..

theorem contents?_remove_of_ne {file other : FileId} (h : other ≠ file) :
    (store.remove file).contents? other = store.contents? other :=
  (Table.get?_erase_of_ne _ h).trans (contents?_unregister file other)

def Owned (store : FileStore) (file : FileId) : Prop :=
  ∀ text, store.contents? file = some text → file ∈ store.files

namespace Owned

variable {file : FileId}

theorem setContents (ho : store.Owned file) {target : FileId} (text : String)
    (ht : file = target → file ∈ store.files) : (store.setContents target text).Owned file := by
  intro stored h
  by_cases heq : file = target
  · exact ht heq
  · rw [contents?_setContents_of_ne text heq] at h
    exact ho stored h

theorem register (ho : store.Owned file) (h : store.Paired) (path : Path) :
    (store.register path).2.Owned file := by
  intro text htext
  rw [contents?_register] at htext
  exact h.mem_files_register_of_mem (ho text htext) path

theorem insert (ho : store.Owned file) (h : store.Paired) (path : Path) (text : String) :
    (store.insert path text).2.Owned file :=
  (ho.register h path).setContents text fun heq => heq ▸ h.mem_files_register path

theorem remove (ho : store.Owned file) (h : store.Paired) (target : FileId) :
    (store.remove target).Owned file := by
  intro text htext
  have hne : file ≠ target := by
    rintro rfl
    simp [contents?_remove_self] at htext
  rw [contents?_remove_of_ne hne] at htext
  obtain ⟨e, he, rfl⟩ := List.mem_map.1 (ho text htext)
  exact Table.mem_keys_of_mem (h.mem_entries_unregister.2 ⟨he, hne⟩)

end Owned

structure Sound (store : FileStore) : Prop extends Paired store where
  mem_of_contents : ∀ file, store.Owned file

namespace Sound

theorem setContents (hs : store.Sound) {file : FileId} (hf : file ∈ store.files)
    (text : String) : (store.setContents file text).Sound where
  toPaired := hs.toPaired.setContents file text
  mem_of_contents other := (hs.mem_of_contents other).setContents text fun heq => heq ▸ hf

theorem insert (hs : store.Sound) (path : Path) (text : String) :
    (store.insert path text).2.Sound where
  toPaired := hs.toPaired.insert path text
  mem_of_contents file := (hs.mem_of_contents file).insert hs.toPaired path text

theorem remove (hs : store.Sound) (file : FileId) : (store.remove file).Sound where
  toPaired := hs.toPaired.remove file
  mem_of_contents other := (hs.mem_of_contents other).remove hs.toPaired file

theorem not_mem_files_of_insert (hs : store.Sound) {path : Path} (text : String)
    (h : store.lookup? path = none) : (store.insert path text).1 ∉ store.files := by
  rcases store.register_cases path with ⟨hl, _⟩ | ⟨_, hn, _⟩
  · simp [h] at hl
  · have hfile : (store.insert path text).1 = ⟨store.next⟩ := hn
    rw [hfile]
    exact hs.not_mem_next

end Sound

inductive Change where
  | register (path : Path)
  | insert (path : Path) (text : String)
  | setContents (file : FileId) (text : String)
  | edit (file : FileId) (change : String → Option String)
  | remove (file : FileId)

namespace Change

def apply (store : FileStore) : Change → FileStore
  | .register path => (store.register path).2
  | .insert path text => (store.insert path text).2
  | .setContents file text => store.setContents file text
  | .edit file change => (store.edit? file change).getD store
  | .remove file => store.remove file

def named? : Change → Option Path
  | .register path | .insert path _ => some path
  | _ => none

def given? (store : FileStore) : Change → Option FileId
  | .register path => some (store.register path).1
  | .insert path text => some (store.insert path text).1
  | _ => none

end Change

def after (history : List Change) : FileStore := history.foldl Change.apply empty

def WasGiven (history : List Change) (file : FileId) : Prop :=
  ∃ before change later, history = before ++ change :: later ∧
    change.given? (after before) = some file

structure Consistent (store : FileStore) : Prop where
  lookup?_path : ∀ file path, store.path? file = some path → store.lookup? path = some file
  path?_lookup : ∀ path file, store.lookup? path = some file →
    ∃ known, store.path? file = some known ∧ known.isSame path = true
  mem_files : ∀ file, file ∈ store.files ↔ ∃ path, store.path? file = some path
  nodup : store.files.Nodup
  length : store.files.length = store.size

/-- A named path has the id that is given for it, however it is spelled, and is given it again. No
other path gets an id, and none loses it but by removal. -/
structure Change.Recorded (change : Change) (store : FileStore) : Prop where
  named : ∀ path, change.named? = some path → ∃ file, change.given? store = some file ∧
    ∀ other, path.isSame other = true →
      (change.apply store).lookup? other = some file ∧
      (change.apply store).register other = (file, change.apply store)
  new : ∀ file path, (change.apply store).path? file = some path →
    store.path? file = some path ∨
      change.named? = some path ∧ change.given? store = some file
  kept : ∀ file path, store.path? file = some path → change ≠ .remove file →
    (change.apply store).path? file = some path
  removed : ∀ file, change = .remove file → (change.apply store).path? file = none ∧
    ∀ path, store.lookup? path = some file → (change.apply store).lookup? path = none

theorem apply_cases (store : FileStore) (change : Change) :
    ∃ base texts, change.apply store = { base with texts } ∧
      (change.named? = none ∧ (∀ file, change ≠ .remove file) ∧ base = store ∨
        (∃ path, change.named? = some path ∧
          change.given? store = some (store.register path).1 ∧
          base = (store.register path).2) ∨
        ∃ file, change = .remove file ∧ base = store.unregister file) := by
  cases change with
  | register path => exact ⟨_, _, rfl, .inr (.inl ⟨path, rfl, rfl, rfl⟩)⟩
  | insert path text =>
    exact ⟨(store.register path).2, _, rfl, .inr (.inl ⟨path, rfl, rfl, rfl⟩)⟩
  | setContents file text => exact ⟨store, _, rfl, .inl ⟨rfl, by simp, rfl⟩⟩
  | edit file change =>
    refine ⟨store, ((store.edit? file change).getD store).texts, ?_, .inl ⟨rfl, by simp, rfl⟩⟩
    rw [Change.apply]
    cases h : store.edit? file change with
    | none => rfl
    | some changed =>
      obtain ⟨text, _, h⟩ := Option.bind_eq_some_iff.1 h
      obtain ⟨new, _, h⟩ := Option.bind_eq_some_iff.1 h
      cases h
      rfl
  | remove file => exact ⟨store.unregister file, _, rfl, .inr (.inr ⟨file, rfl, rfl⟩)⟩

theorem Paired.apply (h : store.Paired) (change : Change) : (change.apply store).Paired := by
  obtain ⟨base, texts, hstore, hbase⟩ := apply_cases store change
  rw [hstore]
  apply Paired.of_texts
  rcases hbase with ⟨_, _, rfl⟩ | ⟨path, _, _, rfl⟩ | ⟨file, _, rfl⟩
  · exact h
  · exact h.register path
  · exact h.unregister file

theorem next_apply (store : FileStore) (change : Change) :
    store.next ≤ (change.apply store).next ∧ (change.apply store).next ≤ store.next + 1 := by
  obtain ⟨base, texts, hstore, hbase⟩ := apply_cases store change
  rw [hstore]
  rcases hbase with ⟨_, _, rfl⟩ | ⟨path, _, _, rfl⟩ | ⟨file, _, rfl⟩
  · exact ⟨Nat.le_refl _, Nat.le_succ _⟩
  · rcases store.register_cases path with ⟨_, h⟩ | ⟨_, _, h⟩
    · simp [h]
    · simp [h]
  · rcases store.unregister_cases file with ⟨_, h⟩ | ⟨_, _, h⟩
    · simp [h]
    · simp [h]

theorem path?_register_cases {path known : Path} {file : FileId}
    (hp : (store.register path).2.path? file = some known) :
    store.path? file = some known ∨
      known = path ∧ (store.register path).1 = file ∧ file = ⟨store.next⟩ := by
  rcases store.register_cases path with ⟨_, hstore⟩ | ⟨_, hnew, hstore⟩
  · exact .inl (hstore ▸ hp)
  · rw [hstore] at hp
    by_cases hfile : file = ⟨store.next⟩
    · subst hfile
      have hput := (Table.get?_put_self store.entries ⟨store.next⟩ path).symm.trans hp
      exact .inr ⟨(Option.some.inj hput).symm, hnew, rfl⟩
    · exact .inl ((Table.get?_put_of_ne _ _ hfile).symm.trans hp)

theorem Paired.path?_apply (h : store.Paired) {change : Change} {file : FileId} {path : Path}
    (hp : (change.apply store).path? file = some path) :
    store.path? file = some path ∨
      change.named? = some path ∧ change.given? store = some file ∧ file = ⟨store.next⟩ := by
  obtain ⟨base, texts, hstore, hbase⟩ := apply_cases store change
  rw [hstore] at hp
  change base.path? file = some path at hp
  rcases hbase with ⟨_, _, rfl⟩ | ⟨named, hnamed, hgiven, rfl⟩ | ⟨gone, _, rfl⟩
  · exact .inl hp
  · rcases path?_register_cases hp with hp | ⟨rfl, rfl, hnext⟩
    · exact .inl hp
    · exact .inr ⟨hnamed, hgiven, hnext⟩
  · exact .inl (h.path?_unregister.1 hp).1

theorem Paired.consistent (h : store.Paired) : store.Consistent where
  lookup?_path _ _ := h.lookup?_path
  path?_lookup path file hl := by
    obtain ⟨known, hknown, hsame⟩ := h.lookup?_iff.1 hl
    exact ⟨known, hknown, Path.isSame_iff.2 hsame⟩
  mem_files _ := mem_files_iff
  nodup := h.files_nodup
  length := h.size_eq.symm

theorem Paired.recorded (h : store.Paired) (change : Change) : change.Recorded store where
  named path hnamed := by
    obtain ⟨base, texts, hstore, hbase⟩ := apply_cases store change
    rcases hbase with ⟨hnone, _⟩ | ⟨known, hknown, hgiven, rfl⟩ | ⟨file, rfl, _⟩
    · rw [hnone] at hnamed
      cases hnamed
    · obtain rfl := Option.some.inj (hknown.symm.trans hnamed)
      refine ⟨_, hgiven, fun other hsame => ?_⟩
      have hl : (change.apply store).lookup? other = some (store.register known).1 := by
        rw [← lookup?_of_isSame _ hsame, hstore]
        exact store.lookup?_register_self known
      exact ⟨hl, register_of_lookup? hl⟩
    · cases hnamed
  new file path hp := (h.path?_apply hp).imp_right fun ⟨hnamed, hgiven, _⟩ => ⟨hnamed, hgiven⟩
  kept file path hp hne := by
    obtain ⟨base, texts, hstore, hbase⟩ := apply_cases store change
    rw [hstore]
    change base.path? file = some path
    rcases hbase with ⟨_, _, rfl⟩ | ⟨named, _, _, rfl⟩ | ⟨gone, rfl, rfl⟩
    · exact hp
    · exact h.path?_register hp named
    · exact h.path?_unregister.2 ⟨hp, fun heq => hne (heq ▸ rfl)⟩
  removed file hchange := by
    subst hchange
    constructor
    · refine Option.eq_none_iff_forall_ne_some.2 fun path hp => ?_
      exact (h.path?_unregister.1 hp).2 rfl
    · intro path hl
      exact (h.lookup?_remove file path).trans (if_pos hl)

theorem Paired.mem_files_of_given (h : store.Paired) {change : Change} {file : FileId}
    (hg : change.given? store = some file) : file ∈ (change.apply store).files := by
  cases change with
  | register path =>
    cases hg
    exact h.mem_files_register path
  | insert path text =>
    cases hg
    exact h.mem_files_register path
  | setContents | edit | remove => cases hg

theorem Paired.foldl (h : store.Paired) (changes : List Change) :
    (changes.foldl Change.apply store).Paired := by
  induction changes generalizing store with
  | nil => exact h
  | cons change changes ih => exact ih (h.apply change)

theorem next_le_foldl (store : FileStore) (changes : List Change) :
    store.next ≤ (changes.foldl Change.apply store).next := by
  induction changes generalizing store with
  | nil => exact Nat.le_refl _
  | cons change changes ih => exact Nat.le_trans (next_apply store change).1 (ih _)

theorem next_foldl_le (store : FileStore) (changes : List Change) :
    (changes.foldl Change.apply store).next ≤ store.next + changes.length := by
  induction changes generalizing store with
  | nil => exact Nat.le_refl _
  | cons change changes ih =>
    have hstep := (next_apply store change).2
    have hrest := ih (change.apply store)
    rw [List.foldl_cons, List.length_cons]
    omega

theorem Paired.path?_foldl (h : store.Paired) {file : FileId} {path other : Path}
    (hp : store.path? file = some path) (changes : List Change)
    (hlater : (changes.foldl Change.apply store).path? file = some other) : other = path := by
  have hlt : file.index < store.next := h.index_lt _ (mem_files_iff.2 ⟨path, hp⟩)
  induction changes using List.reverseRecOn with
  | nil => exact Option.some.inj (hlater.symm.trans hp)
  | append_singleton changes change ih =>
    rw [List.foldl_append] at hlater
    rcases (h.foldl changes).path?_apply hlater with hbefore | ⟨_, _, rfl⟩
    · exact ih hbefore
    · exact absurd hlt (Nat.not_lt.2 (next_le_foldl store changes))

theorem after_append (history later : List Change) :
    after (history ++ later) = later.foldl Change.apply (after history) :=
  List.foldl_append

theorem paired_after (history : List Change) : (after history).Paired :=
  paired_empty.foldl history

theorem index_lt_of_wasGiven {history : List Change} {file : FileId} (h : WasGiven history file) :
    file.index < (after history).next := by
  obtain ⟨before, change, later, rfl, hgiven⟩ := h
  have hmem := (paired_after before).mem_files_of_given hgiven
  have hlt := ((paired_after before).apply change).index_lt file hmem
  rw [after_append]
  exact Nat.lt_of_lt_of_le hlt (next_le_foldl _ later)

/-- Histories stand for those of fewer than `UInt32.size` changes: the ids in them are below the
number of changes. -/
theorem ids_denote_one_path (history : List Change) :
    (after history).Consistent ∧
    (∀ change : Change, change.Recorded (after history)) ∧
    (∀ path, (after history).lookup? path = none →
      ¬ WasGiven history ((after history).register path).1) ∧
    (∀ file, WasGiven history file → file.index < history.length) ∧
    ∀ later file path other, (after history).path? file = some path →
      (after (history ++ later)).path? file = some other → other = path := by
  have h := paired_after history
  refine ⟨h.consistent, h.recorded, ?_, ?_, ?_⟩
  · intro path hl hgiven
    have hlt := index_lt_of_wasGiven hgiven
    rcases (after history).register_cases path with ⟨hknown, _⟩ | ⟨_, hnew, _⟩
    · rw [hl] at hknown
      cases hknown
    · rw [hnew] at hlt
      exact Nat.lt_irrefl _ hlt
  · intro file hgiven
    have hnext : (after history).next ≤ 0 + history.length := next_foldl_le empty history
    rw [Nat.zero_add] at hnext
    exact Nat.lt_of_lt_of_le (index_lt_of_wasGiven hgiven) hnext
  · intro later file path other hp hlater
    rw [after_append] at hlater
    exact h.path?_foldl hp later hlater

theorem ids_denote_one_path_respelled :
    let history : List Change := [.insert ⟨"/a"⟩ "", .register ⟨"/b"⟩, .register ⟨"/b/."⟩]
    let removed := history ++ [.remove ⟨1⟩]
    (after history).path? ⟨1⟩ = some ⟨"/b"⟩ ∧ (after history).lookup? ⟨"/b//"⟩ = some ⟨1⟩ ∧
      (after history).register ⟨"/b//"⟩ = (⟨1⟩, after history) ∧
      (after removed).lookup? ⟨"/b//"⟩ = none ∧ (after removed).path? ⟨0⟩ = some ⟨"/a"⟩ ∧
      (after (removed ++ [.register ⟨"/b"⟩])).lookup? ⟨"//b"⟩ = some ⟨2⟩ := by
  intro history removed
  have hb : (after history).path? ⟨1⟩ = some ⟨"/b"⟩ := by decide +kernel
  have ha : (after history).path? ⟨0⟩ = some ⟨"/a"⟩ := by decide +kernel
  have hgiven : (Change.register ⟨"/b/."⟩).given? (after (history.take 2)) = some ⟨1⟩ := by
    decide +kernel
  have hagain : (Change.register ⟨"/b"⟩).given? (after removed) = some ⟨2⟩ := by decide +kernel
  have hremoved : after removed = (Change.remove ⟨1⟩).apply (after history) := rfl
  obtain ⟨-, hrecorded, -⟩ := ids_denote_one_path (history.take 2)
  obtain ⟨file, hfile, hsame⟩ := (hrecorded (.register ⟨"/b/."⟩)).named _ rfl
  obtain rfl := Option.some.inj (hgiven.symm.trans hfile)
  obtain ⟨hl, hregister⟩ := hsame ⟨"/b//"⟩ (by decide)
  obtain ⟨-, hrecorded, -⟩ := ids_denote_one_path history
  obtain ⟨new, hnew, hspelled⟩ :=
    ((ids_denote_one_path removed).2.1 (.register ⟨"/b"⟩)).named _ rfl
  obtain rfl := Option.some.inj (hagain.symm.trans hnew)
  refine ⟨hb, hl, hregister, ?_, ?_, (hspelled ⟨"//b"⟩ (by decide)).1⟩
  · rw [hremoved]
    exact ((hrecorded (.remove ⟨1⟩)).removed ⟨1⟩ rfl).2 _ hl
  · rw [hremoved]
    exact (hrecorded (.remove ⟨1⟩)).kept _ _ ha (by simp)

end CrossReference.FileStore
