import CrossReference.Proofs.Import.Edit
import CrossReference.Proofs.Symbols.Parallel
import CrossReference.Proofs.Tree.Within
import CrossReference.Proofs.Workspace.Act

namespace CrossReference

open Source (Node Parse Token)

namespace Import

variable {text changed uri : String}

theorem exists_anchor (text : String) :
    ∃ before behind, Token.scan text = before ++ behind ∧
      Source.byteSize before = anchor (Source.parse text).root := by
  have htokens := Source.tokens_root_parse text
  rw [anchor]
  split
  · next item hitem =>
    have hwithin := Node.Within.root.child (List.mem_of_find?_eq_some hitem)
    obtain ⟨before, behind, hsplit, hstart⟩ := hwithin.slice
    rw [htokens, List.append_assoc] at hsplit
    exact ⟨before, item.tree.tokens ++ behind, hsplit, (hstart.trans (Nat.zero_add _)).symm⟩
  · exact ⟨Token.scan text, [], (List.append_nil _).symm, (stop_root _).symm⟩

theorem offset_edit (root : Node) (uri : String) : (edit root uri).offset = anchor root := rfl

theorem text_edit (root : Node) (uri : String) :
    ∃ lead, (lead = "" ∨ lead = "\n") ∧ (edit root uri).text = lead ++ line uri ++ "\n" :=
  ⟨_, (ite_eq_or_eq _ "\n" "").symm, rfl⟩

theorem has_of_extend? (h : extend? text uri = some changed) :
    has (Source.parse text).root uri = false := by
  rw [← Bool.not_eq_true]
  intro hhas
  rw [extend?, if_pos hhas] at h
  cases h

theorem exists_line_of_extend? (h : extend? text uri = some changed) :
    ∃ before behind lead, text = before ++ behind ∧ (lead = "" ∨ lead = "\n") ∧
      changed = before ++ (lead ++ line uri ++ "\n") ++ behind := by
  obtain ⟨before, behind, hscan, hsize⟩ := exists_anchor text
  have htext : Source.spelling (before ++ behind) = text := hscan ▸ Token.spelling_scan text
  have hnew := has_of_extend? h
  obtain ⟨lead, hlead, hline⟩ := text_edit (Source.parse text).root uri
  refine ⟨Source.spelling before, Source.spelling behind, lead, ?_, hlead, ?_⟩
  · rw [← Source.spelling_append, htext]
  · calc changed
      _ = insertAt text (edit (Source.parse text).root uri).offset
          (edit (Source.parse text).root uri).text := by
        simp only [extend?, hnew, Bool.false_eq_true, if_false, Option.some.injEq] at h
        exact h.symm
      _ = insertAt (Source.spelling (before ++ behind)) (Source.byteSize before)
          (lead ++ line uri ++ "\n") := by
        rw [htext, offset_edit, ← hsize, hline]
      _ = Source.spelling before ++ (lead ++ line uri ++ "\n") ++ Source.spelling behind :=
        insertAt_tokens before behind _

end Import

namespace Workspace

variable {w w' : Workspace} {file : FileId} {path : Path}

theorem Run.path? (h : Run w w') (hw : w.Filed) (hp : w.store.path? file = some path)
    {text : String} (ht : w'.store.contents? file = some text) :
    w'.store.path? file = some path := by
  obtain ⟨changes, hchanges⟩ := h.store
  obtain ⟨other, hother⟩ :=
    FileStore.mem_files_iff.1 ((h.filed hw).sound.mem_of_contents file text ht)
  rw [hother]
  rw [hchanges] at hother
  rw [hw.sound.path?_foldl hp changes hother]

theorem file_of_mem_importFixes {fix : ImportFix} (h : fix ∈ w.snapshot.importFixes file) :
    fix.diagnostic.file = file := by
  rw [Snapshot.importFixes] at h
  split at h
  · obtain ⟨d, hd, rfl⟩ := List.mem_map.1 h
    have hfile : d.file = file := by
      have hmem := (List.mem_filter.1 hd).1
      rw [Snapshot.diagnostics] at hmem
      split at hmem
      · rcases List.mem_append.1 hmem with herror | hcheck
        · obtain ⟨e, _, rfl⟩ := List.mem_map.1 herror
          rfl
        · exact (Diagnostic.of_mem_check hcheck).2
      · cases hmem
    rw [← hfile]
    rfl
  · cases h

theorem applyFix_eq_true_iff {fix : ImportFix} :
    (w.applyFix fix).1 = true ↔
      ∃ edit text, fix.state = .editReady edit ∧
        w.store.contents? fix.diagnostic.file = some text ∧
        Import.has (Source.parse text).root edit.uri = false := by
  constructor
  · intro htrue
    obtain ⟨hfalse, _⟩ | ⟨edit, text, changed, hready, htext, hext, _⟩ := w.applyFix_cases fix
    · rw [hfalse] at htrue
      cases htrue
    · exact ⟨edit, text, hready, htext, Import.has_of_extend? hext⟩
  · rintro ⟨edit, text, hready, htext, hnew⟩
    simp [applyFix, hready, htext, ImportFix.apply, Import.extend?, hnew]

/-- `used` is the fix at any later time, so it may be ready, applied, or anything else. -/
theorem applyFix_touches_one_file {project : Project} (hw : Run (ofProject project) w)
    (hpath : w.store.path? file = some path) {fix used : ImportFix}
    (hfix : fix ∈ w.snapshot.importFixes file) (hrun : Run w w')
    (hused : used.diagnostic = fix.diagnostic) :
    let after := (w'.applyFix used).2.1
    ((w'.applyFix used).1 = true ↔
      ∃ edit text, used.state = .editReady edit ∧ w'.store.contents? file = some text ∧
        Import.has (Source.parse text).root edit.uri = false) ∧
    ((w'.applyFix used).1 = true →
      after.store.path? file = some path ∧ after.store.lookup? path = some file ∧
      (∃ edit before behind lead, used.state = .editReady edit ∧ (lead = "" ∨ lead = "\n") ∧
        w'.store.contents? file = some (before ++ behind) ∧
        after.store.contents? file =
          some (before ++ (lead ++ Import.line edit.uri ++ "\n") ++ behind)) ∧
      ∀ other, other ≠ file →
        after.store.contents? other = w'.store.contents? other ∧
        after.parses.get? other = w'.parses.get? other) ∧
    ((w'.applyFix used).1 = false → after = w') := by
  intro after
  have hfile : used.diagnostic.file = file := hused ▸ file_of_mem_importFixes hfix
  refine ⟨hfile ▸ applyFix_eq_true_iff, ?_⟩
  obtain ⟨hfalse, hsame⟩ | ⟨edit, text, changed, hready, htext, hext, htrue, hput⟩ :=
    w'.applyFix_cases used
  · exact ⟨fun htrue => absurd (hfalse.symm.trans htrue) Bool.false_ne_true, fun _ => hsame⟩
  · rw [hfile] at htext hput
    have hfiled := hw.filed (Filed.ofProject project)
    have hstill := hrun.path? hfiled hpath htext
    have hpaired := (hrun.filed hfiled).sound.toPaired
    obtain ⟨before, behind, lead, rfl, hlead, rfl⟩ := Import.exists_line_of_extend? hext
    refine ⟨fun _ => ?_, fun hfalse => absurd (hfalse.symm.trans htrue) Bool.false_ne_true⟩
    rw [show after = _ from hput]
    refine ⟨hstill, hpaired.lookup?_path hstill, ?_, ?_⟩
    · exact ⟨edit, before, behind, lead, hready, hlead, htext,
        FileStore.contents?_setContents_self ..⟩
    · intro other hother
      exact ⟨FileStore.contents?_setContents_of_ne _ hother, Table.get?_put_of_ne _ _ hother⟩

theorem applyFix_touches_one_file_rewritten :
    let start := ofProject (.unrecognized ⟨"/app"⟩)
    let w := (start.setFile ⟨"/app/a.dart"⟩ "Foo f;").2.setSuggestions ⟨"/app"⟩
      (.ofTable [("Foo", "foo.dart")])
    let w' := ((w.setFile ⟨"/app/b.dart"⟩ "Foo g;").2.setFile ⟨"/app//a.dart"⟩ "library a;").2
    let fix : ImportFix :=
      ⟨.undefined ⟨0⟩ ⟨0, 3⟩ "Foo" "Foo", .editReady (Import.editAt "foo.dart" 0 false)⟩
    let after := (w'.applyFix fix).2.1
    Run start w ∧ w.store.path? ⟨0⟩ = some ⟨"/app/a.dart"⟩ ∧
      fix ∈ w.snapshot.importFixes ⟨0⟩ ∧ Run w w' ∧ (w'.applyFix fix).1 = true ∧
      after.store.contents? ⟨0⟩ = some "library a;\nimport 'foo.dart';\n" ∧
      after.store.path? ⟨0⟩ = some ⟨"/app/a.dart"⟩ ∧
      after.store.contents? ⟨1⟩ = w'.store.contents? ⟨1⟩ := by
  intro start w w' fix after
  have hstart : Run start w := ⟨[.setFile _ _, .setSuggestions _ _], rfl⟩
  have hrun : Run w w' := ⟨[.setFile _ _, .setFile _ _], rfl⟩
  have hpath : w.store.path? ⟨0⟩ = some ⟨"/app/a.dart"⟩ := by decide +kernel
  have hfix : fix ∈ w.snapshot.importFixes ⟨0⟩ := by decide +kernel
  have htrue : (w'.applyFix fix).1 = true := by decide +kernel
  have htext : after.store.contents? ⟨0⟩ = some "library a;\nimport 'foo.dart';\n" := by
    decide +kernel
  obtain ⟨_, happlied, _⟩ := applyFix_touches_one_file hstart hpath hfix hrun rfl
  obtain ⟨hpath', _, _, hother⟩ := happlied htrue
  exact ⟨hstart, hpath, hfix, hrun, htrue, htext, hpath', (hother ⟨1⟩ (by decide)).1⟩

end Workspace

end CrossReference
