import CrossReference.Proofs.Import.Insertion
import CrossReference.Proofs.Symbols.Parallel
import CrossReference.Proofs.Workspace.Snapshot

namespace CrossReference

open Source (Node Parse Tree)

namespace Import

variable {text : String} {uris : List String}

theorem counterpart_of_nodes {p p' : Parse} (h : Node.Widens (nodes p) (nodes p')) :
    p.root.Counterpart p'.root := by
  rw [nodes_eq, nodes_eq] at h
  exact .root rfl rfl h

theorem widens_refl (trees : List Tree) : Node.Widens trees trees :=
  .of_forall₂ (List.forall₂_refl trees)

theorem widens_lines (head body : List Tree) (libraries : List String) :
    Node.Widens (head ++ body) (head ++ (libraries.map lineTree ++ body)) := by
  apply (widens_refl head).append
  have hlines : Node.Widens [] (libraries.map lineTree) := by
    apply Spread.of_extra
    intro t ht
    obtain ⟨uri, _, rfl⟩ := List.mem_map.1 ht
    exact ⟨uri, rfl⟩
  exact hlines.append (widens_refl body)

theorem counterpart_addAll (herr : (Source.parse text).errors = [])
    (huris : ∀ uri ∈ uris, Plain uri) :
    (Source.parse text).root.Counterpart (Source.parse (addAll text uris).1).root := by
  obtain ⟨_, _, hnodes⟩ := addAll_spec herr huris
  apply counterpart_of_nodes
  rw [hnodes]
  have hwidens := widens_lines ((nodes (Source.parse text)).takeWhile opensHead)
    ((nodes (Source.parse text)).dropWhile opensHead) (addAll text uris).2
  rw [List.takeWhile_append_dropWhile] at hwidens
  exact hwidens

theorem has_addAll (herr : (Source.parse text).errors = []) (huris : ∀ uri ∈ uris, Plain uri)
    {uri : String} (h : has (Source.parse text).root uri = true ∨ uri ∈ uris) :
    has (Source.parse (addAll text uris).1).root uri = true := by
  obtain ⟨hadded, _, hnodes⟩ := addAll_spec herr huris
  rw [has_eq_nodes, hnodes, List.any_append, List.any_append]
  cases hold : has (Source.parse text).root uri with
  | true =>
    rw [has_eq_nodes, ← List.takeWhile_append_dropWhile (p := opensHead)
      (l := nodes (Source.parse text)), List.any_append, Bool.or_eq_true] at hold
    rcases hold with hhead | hbody
    · rw [hhead, Bool.true_or]
    · rw [hbody, Bool.or_true, Bool.or_true]
  | false =>
    have hmem : uri ∈ (addAll text uris).2 := by
      rw [hadded, List.mem_eraseDups, List.mem_filter, hold]
      exact ⟨h.resolve_left (by simp [hold]), rfl⟩
    have hline : ((addAll text uris).2.map lineTree).any (imports uri) = true := by
      apply List.any_eq_true.2
      refine ⟨lineTree uri, List.mem_map_of_mem hmem, ?_⟩
      rw [imports_lineTree]
      exact beq_self_eq_true uri
    rw [hline, Bool.true_or, Bool.or_true]

end Import

namespace ImportFix

def proposed? (fix : ImportFix) : Option String :=
  match fix.state with
  | .editReady edit => some edit.uri
  | _ => none

def isReady (fix : ImportFix) : Bool := fix.proposed?.isSome

def libraries (fixes : List ImportFix) : List String :=
  (fixes.filter (·.isReady)).filterMap proposed?

theorem proposed?_classify {d : Diagnostic} (hd : d.isUnresolved = true) {root : Node}
    {index : Suggestions} {uri : String} :
    proposed? ⟨d, classify d root index⟩ = some uri ↔
      index.lookup? (Import.stripCall d.symbol) = some (some uri) ∧
        Import.has root uri = false := by
  unfold classify
  rw [if_pos hd]
  cases index.lookup? (Import.stripCall d.symbol) with
  | none => simp [proposed?]
  | some library =>
    cases library with
    | none => simp [proposed?]
    | some other =>
      cases hhas : Import.has root other with
      | true =>
        constructor
        · intro h
          simp [proposed?, hhas] at h
        · rintro ⟨h, hnot⟩
          cases h
          rw [hhas] at hnot
          cases hnot
      | false =>
        have hedit : (Import.edit root other).uri = other := rfl
        constructor
        · intro h
          obtain rfl : other = uri := by simpa [proposed?, hhas, hedit] using h
          exact ⟨rfl, hhas⟩
        · rintro ⟨h, _⟩
          cases h
          simp [proposed?, hhas, hedit]

theorem mem_libraries {ds : List Diagnostic} (hds : ∀ d ∈ ds, d.isUnresolved = true) {root : Node}
    {index : Suggestions} {uri : String} :
    uri ∈ libraries (ds.map fun d => ⟨d, classify d root index⟩) ↔
      ∃ d ∈ ds, index.lookup? (Import.stripCall d.symbol) = some (some uri) ∧
        Import.has root uri = false := by
  constructor
  · intro h
    obtain ⟨fix, hfix, huri⟩ := List.mem_filterMap.1 h
    obtain ⟨d, hd, rfl⟩ := List.mem_map.1 (List.mem_filter.1 hfix).1
    exact ⟨d, hd, (proposed?_classify (hds d hd)).1 huri⟩
  · rintro ⟨d, hd, huri⟩
    have hproposed := (proposed?_classify (hds d hd)).2 huri
    apply List.mem_filterMap.2
    refine ⟨_, List.mem_filter.2 ⟨List.mem_map_of_mem hd, ?_⟩, hproposed⟩
    rw [isReady, hproposed]
    rfl

end ImportFix

namespace Workspace

def applyReady (w : Workspace) (fixes : List ImportFix) : Workspace :=
  (fixes.filter (·.isReady)).foldl (fun w fix => (w.applyFix fix).2.1) w

structure Rewrites (w w' : Workspace) (file : FileId) (text : String) : Prop where
  contents : w'.store.contents? file = some text
  parses : w'.parses = w.parses.put file (Source.parse text)
  path : ∀ other, w'.store.path? other = w.store.path? other
  suggestions : w'.suggestions = w.suggestions

section Run

variable {w w' : Workspace} {file : FileId} {text : String}

theorem Rewrites.applyFix (h : w.Rewrites w' file text) {fix : ImportFix}
    (hfile : fix.diagnostic.file = file) {uri : String} (huri : fix.proposed? = some uri) :
    w.Rewrites (w'.applyFix fix).2.1 file ((Import.extend? text uri).getD text) := by
  obtain ⟨d, state⟩ := fix
  obtain rfl : d.file = file := hfile
  cases state with
  | editReady edit =>
    obtain rfl : edit.uri = uri := Option.some.inj huri
    rw [Workspace.applyFix]
    dsimp only
    rw [h.contents]
    dsimp only [ImportFix.apply]
    cases hext : Import.extend? text edit.uri with
    | none => exact h
    | some changed =>
      refine ⟨FileStore.contents?_setContents_self .., ?_, h.path, h.suggestions⟩
      dsimp only
      rw [h.parses, Table.put_put]
      rfl
  | _ => cases huri

theorem Rewrites.applyFixes (h : w.Rewrites w' file text) {fixes : List ImportFix}
    (hfile : ∀ fix ∈ fixes, fix.diagnostic.file = file)
    (hready : ∀ fix ∈ fixes, fix.isReady = true) :
    w.Rewrites (fixes.foldl (fun w fix => (w.applyFix fix).2.1) w') file
      (Import.addAll text (fixes.filterMap ImportFix.proposed?)).1 := by
  induction fixes generalizing w' text with
  | nil => exact h
  | cons fix fixes ih =>
    obtain ⟨hhead, hfile⟩ := List.forall_mem_cons.1 hfile
    obtain ⟨hfirst, hready⟩ := List.forall_mem_cons.1 hready
    obtain ⟨uri, huri⟩ := Option.isSome_iff_exists.1 hfirst
    have hstep := ih (h.applyFix hhead huri) hfile hready
    rw [List.foldl_cons, List.filterMap_cons_some huri]
    cases hext : Import.extend? text uri with
    | none =>
      rw [hext] at hstep
      rw [Import.addAll_none hext]
      exact hstep
    | some changed =>
      rw [hext] at hstep
      rw [Import.addAll_some hext]
      exact hstep

theorem Rewrites.parallel (h : w.InSync) (h' : w'.InSync) (hr : w.Rewrites w' file text)
    {parse : Parse} (hp : w.parses.get? file = some parse)
    (hroot : parse.root.Counterpart (Source.parse text).root) :
    w.snapshot.index.Parallel w'.snapshot.index := by
  have hself (p : Parse) : p.root.Counterpart p.root :=
    Import.counterpart_of_nodes (Import.widens_refl _)
  have hparses := Table.forall₂_put (R := fun p p' => p.root.Counterpart p'.root) hself hp hroot
  rw [← hr.parses] at hparses
  apply (holds_snapshot h.nodup).parallel (holds_snapshot h'.nodup)
  rw [roots, roots, List.forall₂_map_left_iff, List.forall₂_map_right_iff]
  exact hparses

theorem Rewrites.suggestionsFor? (h : w.Rewrites w' file text) (path : Path) :
    w'.suggestionsFor? path = w.suggestionsFor? path := by
  rw [Workspace.suggestionsFor?, Workspace.suggestionsFor?, h.suggestions]

theorem InSync.applyReady (h : w.InSync) (fixes : List ImportFix) :
    (w.applyReady fixes).InSync := by
  unfold Workspace.applyReady
  induction fixes.filter (·.isReady) generalizing w with
  | nil => exact h
  | cons fix ready ih => exact ih (h.act (.applyFix fix) trivial)

end Run

structure ReadsClean (w : Workspace) (file : FileId) (path : Path) (text : String) : Prop where
  inSync : w.InSync
  contents : w.store.contents? file = some text
  path : w.store.path? file = some path
  parsed : w.parses.get? file = some (Source.parse text)
  errors : (Source.parse text).errors = []

theorem InSync.exists_readsClean {w : Workspace} (h : w.InSync) {file : FileId} {parse : Parse}
    (hp : w.parses.get? file = some parse) (herr : parse.errors = []) :
    ∃ path text, w.ReadsClean file path text := by
  obtain ⟨text, htext, rfl⟩ := h.current file parse (Table.mem_of_get? hp)
  obtain ⟨path, hpath⟩ := FileStore.mem_files_iff.1 (h.registered (Table.mem_of_get? hp))
  exact ⟨path, text, h, htext, hpath, hp, herr⟩

namespace ReadsClean

variable {w : Workspace} {file : FileId} {path : Path} {text : String}

theorem importFixes_eq (h : w.ReadsClean file path text) :
    w.snapshot.importFixes file =
      (Diagnostic.check w.snapshot.index file (Source.parse text).root).map fun d =>
        ⟨d, ImportFix.classify d (Source.parse text).root
          ((w.suggestionsFor? path).getD .empty)⟩ := by
  have hroot : w.snapshot.root? file = some (Source.parse text).root :=
    (root?_snapshot h.inSync.nodup).2 ⟨_, h.parsed, rfl⟩
  have hparsed : w.snapshot.workspace.parses.get? file = some (Source.parse text) := h.parsed
  have hpath : w.snapshot.workspace.store.path? file = some path := h.path
  have hreported : w.snapshot.diagnostics file =
      Diagnostic.check w.snapshot.index file (Source.parse text).root := by
    rw [Snapshot.diagnostics, hparsed, hroot]
    dsimp only
    rw [h.errors, List.map_nil, List.nil_append]
  rw [Snapshot.importFixes, hroot, hpath]
  dsimp only
  rw [hreported, List.filter_eq_self.2 fun d hd => (Diagnostic.of_mem_check hd).1]
  rfl

theorem symbols_importFixes (h : w.ReadsClean file path text) :
    (w.snapshot.importFixes file).map (·.diagnostic.symbol) =
      Diagnostic.symbolsBelow w.snapshot.index file (Source.parse text).root := by
  rw [h.importFixes_eq, List.map_map]
  rfl

theorem mem_libraries (h : w.ReadsClean file path text) {uri : String} :
    uri ∈ ImportFix.libraries (w.snapshot.importFixes file) ↔
      ∃ d ∈ Diagnostic.check w.snapshot.index file (Source.parse text).root,
        ((w.suggestionsFor? path).getD .empty).lookup? (Import.stripCall d.symbol) =
          some (some uri) ∧ Import.has (Source.parse text).root uri = false := by
  rw [h.importFixes_eq]
  exact ImportFix.mem_libraries fun d hd => (Diagnostic.of_mem_check hd).1

theorem rewrites_applyReady (h : w.ReadsClean file path text) :
    w.Rewrites (w.applyReady (w.snapshot.importFixes file)) file
      (Import.addAll text (ImportFix.libraries (w.snapshot.importFixes file))).1 := by
  have hself : w.Rewrites w file text :=
    ⟨h.contents, (Table.put_of_get? h.parsed).symm, fun _ => rfl, rfl⟩
  apply hself.applyFixes
  · intro fix hfix
    have hmem := (List.mem_filter.1 hfix).1
    rw [h.importFixes_eq] at hmem
    obtain ⟨d, hd, rfl⟩ := List.mem_map.1 hmem
    exact (Diagnostic.of_mem_check hd).2
  · intro fix hfix
    exact (List.mem_filter.1 hfix).2

theorem applyReady (h : w.ReadsClean file path text)
    (hplain : ∀ uri ∈ ImportFix.libraries (w.snapshot.importFixes file), Import.Plain uri) :
    (w.applyReady (w.snapshot.importFixes file)).ReadsClean file path
      (Import.addAll text (ImportFix.libraries (w.snapshot.importFixes file))).1 where
  inSync := h.inSync.applyReady _
  contents := h.rewrites_applyReady.contents
  path := (h.rewrites_applyReady.path file).trans h.path
  parsed := by
    rw [h.rewrites_applyReady.parses]
    exact Table.get?_put_self ..
  errors := (Import.addAll_spec h.errors hplain).2.1

theorem proposed?_again (h : w.ReadsClean file path text)
    (hplain : ∀ uri ∈ ImportFix.libraries (w.snapshot.importFixes file), Import.Plain uri)
    {d : Diagnostic} (hd : d.isUnresolved = true)
    (hbefore : d.symbol ∈ Diagnostic.symbolsBelow w.snapshot.index file (Source.parse text).root) :
    ImportFix.proposed? ⟨d, ImportFix.classify d
      (Source.parse (Import.addAll text
        (ImportFix.libraries (w.snapshot.importFixes file))).1).root
      ((w.suggestionsFor? path).getD .empty)⟩ = none := by
  apply Option.eq_none_iff_forall_ne_some.2
  intro uri huri
  obtain ⟨hlookup, hmissing⟩ := (ImportFix.proposed?_classify hd).1 huri
  obtain ⟨old, hold, hsymbol⟩ := List.mem_map.1 hbefore
  rw [← hsymbol] at hlookup
  have hhas : Import.has (Source.parse text).root uri = true ∨
      uri ∈ ImportFix.libraries (w.snapshot.importFixes file) := by
    cases hhas : Import.has (Source.parse text).root uri with
    | true => exact .inl rfl
    | false => exact .inr (h.mem_libraries.2 ⟨old, hold, hlookup, hhas⟩)
  rw [Import.has_addAll h.errors hplain hhas] at hmissing
  cases hmissing

end ReadsClean

theorem import_fixes_settle {w : Workspace} (h : w.InSync) {file : FileId} {parse : Parse}
    (hp : w.parses.get? file = some parse) (herr : parse.errors = [])
    (hplain : ∀ path name uri, w.store.path? file = some path →
      ((w.suggestionsFor? path).getD .empty).lookup? name = some (some uri) → Import.Plain uri) :
    let fixes := w.snapshot.importFixes file
    let again := (w.applyReady fixes).snapshot.importFixes file
    again.length = fixes.length ∧
      again.map (·.diagnostic.symbol) = fixes.map (·.diagnostic.symbol) ∧
      ∀ fix ∈ again, ∀ edit, fix.state ≠ .editReady edit := by
  intro fixes again
  obtain ⟨path, text, hclean⟩ := h.exists_readsClean hp herr
  have hlibraries (uri : String) (hu : uri ∈ ImportFix.libraries fixes) : Import.Plain uri := by
    obtain ⟨d, _, hlookup, _⟩ := hclean.mem_libraries.1 hu
    exact hplain path _ uri hclean.path hlookup
  have hclean' := hclean.applyReady hlibraries
  have hr := hclean.rewrites_applyReady
  have hroot := Import.counterpart_addAll hclean.errors hlibraries
  have hparallel := hr.parallel h hclean'.inSync hclean.parsed hroot
  have hsymbols := Diagnostic.symbolsBelow_counterpart hparallel file hroot
  have hmap : again.map (·.diagnostic.symbol) = fixes.map (·.diagnostic.symbol) := by
    calc again.map (·.diagnostic.symbol)
      _ = Diagnostic.symbolsBelow (w.applyReady fixes).snapshot.index file _ :=
        hclean'.symbols_importFixes
      _ = Diagnostic.symbolsBelow w.snapshot.index file _ := hsymbols.symm
      _ = fixes.map (·.diagnostic.symbol) := hclean.symbols_importFixes.symm
  refine ⟨?_, hmap, ?_⟩
  · have hlength := congrArg List.length hmap
    rw [List.length_map, List.length_map] at hlength
    exact hlength
  · intro fix hfix edit hedit
    rw [show again = _ from hclean'.importFixes_eq, hr.suggestionsFor?] at hfix
    obtain ⟨d, hd, rfl⟩ := List.mem_map.1 hfix
    have hbefore : d.symbol ∈ Diagnostic.symbolsBelow w.snapshot.index file
        (Source.parse text).root := by
      rw [hsymbols]
      exact List.mem_map_of_mem hd
    have hnone := hclean.proposed?_again hlibraries (Diagnostic.of_mem_check hd).1 hbefore
    rw [ImportFix.proposed?, hedit] at hnone
    cases hnone

theorem import_fixes_settle_shared_library :
    let w := ((ofProject (.unrecognized ⟨"/app"⟩)).setFile ⟨"/app/a.dart"⟩
      "import \"x.dart\";\nFoo f() => Bar(1);\nQux q; Xed x;").2.setSuggestions ⟨"/app"⟩
      (.ofTable [("Foo", "foo.dart"), ("Bar", "foo.dart"), ("Xed", "x.dart")])
    let fixes := w.snapshot.importFixes ⟨0⟩
    let again := (w.applyReady fixes).snapshot.importFixes ⟨0⟩
    w.InSync ∧ fixes.map (·.proposed?) = [some "foo.dart", some "foo.dart", none, none] ∧
      again.map (·.diagnostic.symbol) = ["Foo", "Bar(1)", "Qux", "Xed"] ∧
      ∀ fix ∈ again, ∀ edit, fix.state ≠ .editReady edit := by
  intro w fixes again
  have hw : w.InSync :=
    ((inSync_ofProject _).act (.setFile _ _) trivial).act (.setSuggestions _ _) trivial
  have hp : w.parses.get? ⟨0⟩ =
      some (Source.parse "import \"x.dart\";\nFoo f() => Bar(1);\nQux q; Xed x;") := rfl
  have herr : (Source.parse
      "import \"x.dart\";\nFoo f() => Bar(1);\nQux q; Xed x;").errors = [] := by
    decide +kernel
  have hpath : w.store.path? ⟨0⟩ = some ⟨"/app/a.dart"⟩ := by decide +kernel
  have hentries : ((w.suggestionsFor? ⟨"/app/a.dart"⟩).getD .empty).entries =
      [("Foo", some "foo.dart"), ("Bar", some "foo.dart"), ("Xed", some "x.dart")] := by
    decide +kernel
  have hplain (path : Path) (name uri : String) (hfile : w.store.path? ⟨0⟩ = some path)
      (hlookup : ((w.suggestionsFor? path).getD .empty).lookup? name = some (some uri)) :
      Import.Plain uri := by
    obtain rfl := Option.some.inj (hpath.symm.trans hfile)
    have hmem := Table.mem_of_get? hlookup
    rw [hentries] at hmem
    simp only [List.mem_cons, Prod.mk.injEq, Option.some.injEq, List.not_mem_nil, or_false] at hmem
    rcases hmem with ⟨_, rfl⟩ | ⟨_, rfl⟩ | ⟨_, rfl⟩ <;> decide +kernel
  have hproposed : fixes.map (·.proposed?) = [some "foo.dart", some "foo.dart", none, none] := by
    decide +kernel
  have hsymbols : fixes.map (·.diagnostic.symbol) = ["Foo", "Bar(1)", "Qux", "Xed"] := by
    decide +kernel
  obtain ⟨_, hsame, hnone⟩ := import_fixes_settle hw hp herr hplain
  exact ⟨hw, hproposed, hsame.trans hsymbols, hnone⟩

end Workspace

end CrossReference
