import CrossReference.Workspace
import CrossReference.Proofs.Workspace.Store

namespace CrossReference

open Source (Parse)

namespace Workspace

/-- A parse may come from anywhere, and so may a fix. -/
inductive Act where
  | setFile (path : Path) (text : String)
  | setParsed (path : Path) (text : String) (parse : Parse)
  | addResource (path : Path)
  | removeFile (path : Path)
  | setProject (project : Project)
  | setSuggestions (root : Path) (index : Suggestions)
  | applyFix (fix : ImportFix)

def Act.apply (w : Workspace) : Act → Workspace
  | .setFile path text => (w.setFile path text).2
  | .setParsed path text parse => (w.setParsed path text parse).2
  | .addResource path => (w.addResource path).2
  | .removeFile path => w.removeFile path
  | .setProject project => { w with project }
  | .setSuggestions root index => w.setSuggestions root index
  | .applyFix fix => (w.applyFix fix).2.1

def afterActs (w : Workspace) (acts : List Act) : Workspace := acts.foldl Act.apply w

def Run (w w' : Workspace) : Prop := ∃ acts : List Act, w.afterActs acts = w'

theorem applyFix_cases (w : Workspace) (fix : ImportFix) :
    ((w.applyFix fix).1 = false ∧ (w.applyFix fix).2.1 = w) ∨
    ∃ edit text changed, fix.state = .editReady edit ∧
      w.store.contents? fix.diagnostic.file = some text ∧
      Import.extend? text edit.uri = some changed ∧ (w.applyFix fix).1 = true ∧
      (w.applyFix fix).2.1 =
        { w with
          store := w.store.setContents fix.diagnostic.file changed
          parses := w.parses.put fix.diagnostic.file (Source.parse changed) } := by
  rw [Workspace.applyFix]
  split
  · next edit text hready htext =>
    rw [ImportFix.apply, hready]
    dsimp only
    cases hext : Import.extend? text edit.uri with
    | none => exact .inl ⟨rfl, rfl⟩
    | some changed => exact .inr ⟨edit, text, changed, rfl, htext, hext, rfl, rfl⟩
  · exact .inl ⟨rfl, rfl⟩

theorem setFile_cases (w : Workspace) (path : Path) (text : String) :
    (isSource path = true ∧ (w.setFile path text).2 =
      { w with
        store := (w.store.insert path text).2
        parses := w.parses.put (w.store.insert path text).1 (Source.parse text) }) ∨
    (isSource path = false ∧ (w.setFile path text).2 =
      { w with
        store := (w.store.insert path text).2
        parses := w.parses.erase (w.store.insert path text).1 }) := by
  cases h : isSource path <;> simp [setFile, h]

theorem removeFile_cases (w : Workspace) (path : Path) :
    (w.store.lookup? path = none ∧ w.removeFile path = w) ∨
    ∃ file, w.store.lookup? path = some file ∧
      w.removeFile path =
        { w with parses := w.parses.erase file, store := w.store.remove file } := by
  rw [removeFile]
  cases h : w.store.lookup? path <;> simp

variable {w w' : Workspace} {file : FileId}

theorem store_act (w : Workspace) (act : Act) :
    ∃ changes : List FileStore.Change,
      (act.apply w).store = changes.foldl FileStore.Change.apply w.store := by
  cases act with
  | setFile path text | setParsed path text => exact ⟨[.insert path text], rfl⟩
  | addResource path => exact ⟨[.insert path ""], rfl⟩
  | removeFile path =>
    rw [Act.apply]
    obtain ⟨_, hsame⟩ | ⟨file, _, hremoved⟩ := w.removeFile_cases path
    · exact ⟨[], congrArg store hsame⟩
    · exact ⟨[.remove file], congrArg store hremoved⟩
  | setProject | setSuggestions => exact ⟨[], rfl⟩
  | applyFix fix =>
    rw [Act.apply]
    obtain ⟨_, hsame⟩ | ⟨_, _, changed, _, _, _, _, hput⟩ := w.applyFix_cases fix
    · exact ⟨[], congrArg store hsame⟩
    · exact ⟨[.setContents fix.diagnostic.file changed], congrArg store hput⟩

theorem Run.store (h : Run w w') :
    ∃ changes : List FileStore.Change,
      w'.store = changes.foldl FileStore.Change.apply w.store := by
  obtain ⟨acts, rfl⟩ := h
  induction acts using List.reverseRecOn with
  | nil => exact ⟨[], rfl⟩
  | append_singleton acts act ih =>
    obtain ⟨changes, hchanges⟩ := ih
    obtain ⟨more, hmore⟩ := store_act (w.afterActs acts) act
    refine ⟨changes ++ more, ?_⟩
    rw [afterActs, List.foldl_append, List.foldl_append, ← hchanges]
    exact hmore

structure Filed (w : Workspace) : Prop where
  nodup : w.parses.keys.Nodup
  sound : w.store.Sound
  registered : ∀ file ∈ w.parses.keys, file ∈ w.store.files

namespace Filed

variable {store : FileStore}

theorem ofProject (project : Project) : (ofProject project).Filed where
  nodup := List.nodup_nil
  sound := ⟨FileStore.paired_empty, fun _ _ h => by cases h⟩
  registered _ h := absurd h List.not_mem_nil

theorem put (h : w.Filed) (hs : store.Sound) (hkeep : ∀ other ∈ w.store.files, other ∈ store.files)
    (hfile : file ∈ store.files) (parse : Parse) :
    ({ w with store, parses := w.parses.put file parse } : Workspace).Filed where
  nodup := Table.nodup_put h.nodup _ _
  sound := hs
  registered other ho := by
    rcases Table.mem_keys_put ho with rfl | ho
    · exact hfile
    · exact hkeep other (h.registered other ho)

theorem erase (h : w.Filed) (hs : store.Sound)
    (hkeep : ∀ other ∈ w.store.files, other ≠ file → other ∈ store.files) :
    ({ w with store, parses := w.parses.erase file } : Workspace).Filed where
  nodup := Table.nodup_erase h.nodup _
  sound := hs
  registered other ho := by
    obtain ⟨e, he, rfl⟩ := List.mem_map.1 ho
    obtain ⟨he, hne⟩ := Table.mem_erase.1 he
    exact hkeep e.1 (h.registered e.1 (Table.mem_keys_of_mem he)) hne

theorem act (h : w.Filed) (act : Act) : (act.apply w).Filed := by
  cases act with
  | setFile path text =>
    have hs := h.sound.insert path text
    rw [Act.apply]
    obtain ⟨_, hput⟩ | ⟨_, herased⟩ := w.setFile_cases path text
    · rw [hput]
      exact h.put hs (fun _ hf => h.sound.mem_files_register_of_mem hf path)
        (h.sound.mem_files_register path) _
    · rw [herased]
      exact h.erase hs fun _ hf _ => h.sound.mem_files_register_of_mem hf path
  | setParsed path text parse =>
    exact h.put (h.sound.insert path text) (fun _ hf => h.sound.mem_files_register_of_mem hf path)
      (h.sound.mem_files_register path) parse
  | addResource path =>
    exact ⟨h.nodup, h.sound.insert path "",
      fun file hf => h.sound.mem_files_register_of_mem (h.registered file hf) path⟩
  | removeFile path =>
    rw [Act.apply]
    obtain ⟨_, hsame⟩ | ⟨file, _, hremoved⟩ := w.removeFile_cases path
    · rwa [hsame]
    · rw [hremoved]
      refine h.erase (h.sound.remove file) fun other ho hne => ?_
      obtain ⟨known, hknown⟩ := FileStore.mem_files_iff.1 ho
      exact FileStore.mem_files_iff.2 ⟨known, h.sound.path?_unregister.2 ⟨hknown, hne⟩⟩
  | setProject project => exact ⟨h.nodup, h.sound, h.registered⟩
  | setSuggestions root index => exact ⟨h.nodup, h.sound, h.registered⟩
  | applyFix fix =>
    rw [Act.apply]
    obtain ⟨_, hsame⟩ | ⟨_, text, changed, _, htext, _, _, hput⟩ := w.applyFix_cases fix
    · rwa [hsame]
    · have hmem := h.sound.mem_of_contents _ text htext
      rw [hput]
      exact h.put (h.sound.setContents hmem changed) (fun _ hf => hf) hmem _

theorem acts (h : w.Filed) (acts : List Act) : (w.afterActs acts).Filed := by
  induction acts generalizing w with
  | nil => exact h
  | cons act acts ih => exact ih (h.act act)

end Filed

theorem Run.filed (h : Run w w') (hw : w.Filed) : w'.Filed := by
  obtain ⟨acts, rfl⟩ := h
  exact hw.acts acts

end Workspace

end CrossReference
