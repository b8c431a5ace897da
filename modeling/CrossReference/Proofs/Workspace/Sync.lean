import CrossReference.Proofs.Workspace.Act

namespace CrossReference

open Source (Parse)

namespace Workspace

/-- A parse is that of its text, and a resource has none. -/
def Act.Fits (w : Workspace) : Act → Prop
  | .setParsed _ text parse => parse = Source.parse text
  | .addResource path => ∀ file, w.store.lookup? path = some file → file ∉ w.sourceFiles
  | _ => True

inductive Reachable : Workspace → Prop
  | start (project : Project) : Reachable (ofProject project)
  | act {w : Workspace} (act : Act) : Reachable w → act.Fits w → Reachable (act.apply w)

structure InSync (w : Workspace) : Prop where
  nodup : w.parses.keys.Nodup
  sound : w.store.Sound
  current : ∀ file parse, (file, parse) ∈ w.parses →
    ∃ text, w.store.contents? file = some text ∧ parse = Source.parse text

variable {w : Workspace} {store : FileStore} {file : FileId}

theorem inSync_ofProject (project : Project) : (ofProject project).InSync where
  nodup := List.nodup_nil
  sound := (Filed.ofProject project).sound
  current _ _ hm := absurd hm List.not_mem_nil

namespace InSync

theorem registered (h : w.InSync) {parse : Parse} (hm : (file, parse) ∈ w.parses) :
    file ∈ w.store.files := by
  obtain ⟨text, ht, _⟩ := h.current file parse hm
  exact h.sound.mem_of_contents file text ht

theorem filed (h : w.InSync) : w.Filed where
  nodup := h.nodup
  sound := h.sound
  registered file hf := by
    obtain ⟨⟨_, parse⟩, hm, rfl⟩ := List.mem_map.1 hf
    exact h.registered hm

theorem current_put (h : w.InSync) {text : String} (hself : store.contents? file = some text)
    (hother : ∀ other, other ≠ file → store.contents? other = w.store.contents? other)
    (other : FileId) (parse : Parse)
    (hm : (other, parse) ∈ w.parses.put file (Source.parse text)) :
    ∃ t, store.contents? other = some t ∧ parse = Source.parse t := by
  rcases Table.mem_put h.nodup hm with he | ⟨hm, hne⟩
  · obtain ⟨rfl, rfl⟩ := Prod.mk.inj he
    exact ⟨text, hself, rfl⟩
  · obtain ⟨t, ht, hp⟩ := h.current other parse hm
    exact ⟨t, (hother other hne).trans ht, hp⟩

theorem current_erase (h : w.InSync)
    (hother : ∀ other, other ≠ file → store.contents? other = w.store.contents? other)
    (other : FileId) (parse : Parse) (hm : (other, parse) ∈ w.parses.erase file) :
    ∃ t, store.contents? other = some t ∧ parse = Source.parse t := by
  obtain ⟨hm, hne⟩ := Table.mem_erase.1 hm
  obtain ⟨t, ht, hp⟩ := h.current other parse hm
  exact ⟨t, (hother other hne).trans ht, hp⟩

theorem ne_of_unparsed (h : w.InSync) {path : Path}
    (hpath : ∀ file, w.store.lookup? path = some file → file ∉ w.sourceFiles) {parse : Parse}
    (hm : (file, parse) ∈ w.parses) : file ≠ (w.store.insert path "").1 := by
  rintro rfl
  cases hl : w.store.lookup? path with
  | none => exact h.sound.not_mem_files_of_insert "" hl (h.registered hm)
  | some old =>
    rw [FileStore.lookup?_insert "" hl] at hm
    exact hpath old hl (List.mem_map_of_mem hm)

theorem current_act (h : w.InSync) (act : Act) (hfits : act.Fits w) (file : FileId) (parse : Parse)
    (hm : (file, parse) ∈ (act.apply w).parses) :
    ∃ text, (act.apply w).store.contents? file = some text ∧ parse = Source.parse text := by
  cases act with
  | setFile path text =>
    rw [Act.apply] at hm ⊢
    obtain ⟨_, hput⟩ | ⟨_, herased⟩ := w.setFile_cases path text
    · rw [hput] at hm ⊢
      exact h.current_put (w.store.contents?_insert_self path text)
        (fun _ => FileStore.contents?_insert_of_ne text) file parse hm
    · rw [herased] at hm ⊢
      exact h.current_erase (fun _ => FileStore.contents?_insert_of_ne text) file parse hm
  | setParsed path text made =>
    obtain rfl : made = Source.parse text := hfits
    exact h.current_put (w.store.contents?_insert_self path text)
      (fun _ => FileStore.contents?_insert_of_ne text) file parse hm
  | addResource path =>
    obtain ⟨text, ht, hp⟩ := h.current file parse hm
    have hne := h.ne_of_unparsed hfits hm
    exact ⟨text, (FileStore.contents?_insert_of_ne "" hne).trans ht, hp⟩
  | removeFile path =>
    rw [Act.apply] at hm ⊢
    obtain ⟨_, hsame⟩ | ⟨gone, _, hremoved⟩ := w.removeFile_cases path
    · rw [hsame] at hm ⊢
      exact h.current file parse hm
    · rw [hremoved] at hm ⊢
      exact h.current_erase (fun _ => FileStore.contents?_remove_of_ne) file parse hm
  | setProject project => exact h.current file parse hm
  | setSuggestions root index => exact h.current file parse hm
  | applyFix fix =>
    rw [Act.apply] at hm ⊢
    obtain ⟨_, hsame⟩ | ⟨_, _, changed, _, _, _, _, hput⟩ := w.applyFix_cases fix
    · rw [hsame] at hm ⊢
      exact h.current file parse hm
    · rw [hput] at hm ⊢
      exact h.current_put (FileStore.contents?_setContents_self ..)
        (fun _ => FileStore.contents?_setContents_of_ne changed) file parse hm

theorem act (h : w.InSync) (act : Act) (hfits : act.Fits w) : (act.apply w).InSync where
  nodup := (h.filed.act act).nodup
  sound := (h.filed.act act).sound
  current := h.current_act act hfits

end InSync

theorem Reachable.inSync (h : Reachable w) : w.InSync := by
  induction h with
  | start project => exact inSync_ofProject project
  | act act _ hfits ih => exact ih.act act hfits

theorem parses_current (h : Reachable w) (file : FileId) (parse : Parse)
    (hm : (file, parse) ∈ w.parses) :
    file ∈ w.store.files ∧
      ∃ text, w.store.contents? file = some text ∧ parse = Source.parse text :=
  ⟨h.inSync.registered hm, h.inSync.current file parse hm⟩

theorem parses_current_after_stale_fix :
    let w := (((ofProject (.unrecognized ⟨"/app"⟩)).setFile ⟨"/app/a.dart"⟩ "class A {}").2.setFile
      ⟨"/app//a.dart"⟩ "class B {}").2
    let fix : ImportFix :=
      ⟨.undefined ⟨0⟩ ⟨90, 91⟩ "C" "C", .editReady (Import.editAt "c.dart" 90 true)⟩
    let w' := (w.applyFix fix).2.1
    Reachable w' ∧ (⟨0⟩, Source.parse "import 'c.dart';\nclass B {}") ∈ w'.parses ∧
      ⟨0⟩ ∈ w'.store.files ∧
      ∃ text, w'.store.contents? ⟨0⟩ = some text ∧
        Source.parse "import 'c.dart';\nclass B {}" = Source.parse text := by
  intro w fix w'
  have hw : Reachable w' :=
    (((Reachable.start _).act (.setFile _ _) trivial).act (.setFile _ _) trivial).act
      (.applyFix fix) trivial
  have htext : w.store.contents? ⟨0⟩ = some "class B {}" := by decide +kernel
  have hadd : Import.extend? "class B {}" "c.dart" = some "import 'c.dart';\nclass B {}" := by
    decide +kernel
  have hm : (⟨0⟩, Source.parse "import 'c.dart';\nclass B {}") ∈ w'.parses := by
    simp only [w', applyFix, fix, Diagnostic.undefined, htext, ImportFix.apply, Import.editAt, hadd]
    exact Table.mem_put_self ..
  exact ⟨hw, hm, parses_current hw _ _ hm⟩

end Workspace

end CrossReference
