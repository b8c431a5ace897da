import CrossReference.Proofs.Path.Components
import CrossReference.Proofs.Reference.Landing

/-!
What is left of a file that is registered anew as a resource. Its text is gone, but a tree stays
until its path is set as a text, removed, or extended by a fix, and all questions about the file
are answered from that tree. So the file is retired exactly when it had no tree that says anything.
-/

namespace CrossReference

open Source (Node Parse)

theorem Source.parse_injective : Function.Injective Source.parse := by
  intro s t h
  have htokens : Source.Token.scan s = Source.Token.scan t := by
    rw [← Source.tokens_root_parse s, ← Source.tokens_root_parse t, h]
  rw [← Source.Token.spelling_scan s, htokens, Source.Token.spelling_scan]

theorem Source.parse_empty : Source.parse "" = ⟨[], []⟩ :=
  rfl

namespace Workspace

/-- The parse that a path got last, where it was `last` before the act. -/
def Act.lastParse (path : Path) (w : Workspace) (last : Option Parse) : Act → Option Parse
  | .setFile p text =>
    if p.isSame path then if isSource p then some (Source.parse text) else none else last
  | .setParsed p _ parse => if p.isSame path then some parse else last
  | .removeFile p => if p.isSame path then none else last
  | .applyFix fix =>
    if (w.applyFix fix).1 = true ∧ w.store.lookup? path = some fix.diagnostic.file then
      ((w.applyFix fix).2.1.store.contents? fix.diagnostic.file).map Source.parse
    else last
  | .addResource _ | .setProject _ | .setSuggestions _ _ => last

def lastParse (path : Path) : Workspace → Option Parse → List Act → Option Parse
  | _, last, [] => last
  | w, last, act :: acts => lastParse path (act.apply w) (act.lastParse path w last) acts

def parseOf? (w : Workspace) (path : Path) : Option Parse :=
  (w.store.lookup? path).bind w.parses.get?

namespace Filed

variable {w : Workspace} {path p : Path}

theorem parseOf?_insert (h : w.Filed) {parses : Table FileId Parse} (text : String)
    (hother : ∀ other, other ≠ (w.store.insert p text).1 →
      parses.get? other = w.parses.get? other) :
    ({ w with store := (w.store.insert p text).2, parses } : Workspace).parseOf? path =
      if p.isSame path then parses.get? (w.store.insert p text).1 else w.parseOf? path := by
  rw [parseOf?]
  split
  · next hsame =>
    rw [← FileStore.lookup?_of_isSame _ hsame, FileStore.lookup?_insert_self]
    rfl
  · next hne =>
    have hne : path.components ≠ p.components := fun heq => hne (Path.isSame_iff.2 heq.symm)
    rw [parseOf?, FileStore.lookup?_insert_of_ne text hne]
    cases hl : w.store.lookup? path with
    | none => rfl
    | some file => exact hother file (h.sound.ne_insert text hne hl)

theorem get?_insert (h : w.Filed) (p : Path) (text : String) :
    w.parses.get? (w.store.insert p text).1 = w.parseOf? p := by
  rw [parseOf?]
  cases hl : w.store.lookup? p with
  | some file => rw [FileStore.lookup?_insert text hl, Option.bind_some]
  | none =>
    have hnew := h.sound.not_mem_files_of_insert text hl
    exact Table.get?_eq_none_iff.2 fun hk => hnew (h.registered _ hk)

theorem parseOf?_removeFile (h : w.Filed) (p path : Path) :
    (w.removeFile p).parseOf? path = if p.isSame path then none else w.parseOf? path := by
  obtain ⟨hl, hsame⟩ | ⟨file, hl, hremoved⟩ := w.removeFile_cases p
  · rw [hsame]
    split
    · next hsame => rw [parseOf?, ← w.store.lookup?_of_isSame hsame, hl, Option.bind_none]
    · rfl
  · rw [hremoved, parseOf?, h.sound.lookup?_remove]
    by_cases hsame : p.isSame path = true
    · have hpath : w.store.lookup? path = some file :=
        (w.store.lookup?_of_isSame hsame).symm.trans hl
      rw [if_pos hpath, if_pos hsame, Option.bind_none]
    · have hpath : w.store.lookup? path ≠ some file :=
        fun heq => hsame (Path.isSame_iff.2 (h.sound.components_of_lookup? hl heq))
      rw [if_neg hpath, if_neg hsame, parseOf?]
      cases hother : w.store.lookup? path with
      | none => rfl
      | some other => exact Table.get?_erase_of_ne _ fun heq => hpath (heq ▸ hother)

theorem parseOf?_act (h : w.Filed) (act : Act) :
    (act.apply w).parseOf? path = act.lastParse path w (w.parseOf? path) := by
  cases act with
  | setFile p text =>
    rw [Act.apply, Act.lastParse]
    obtain ⟨hp, hput⟩ | ⟨hp, herased⟩ := w.setFile_cases p text
    · rw [hput, h.parseOf?_insert text fun _ => Table.get?_put_of_ne _ _, Table.get?_put_self, hp,
        if_pos rfl]
    · rw [herased, h.parseOf?_insert text fun _ => Table.get?_erase_of_ne _,
        Table.get?_erase_self, hp]
      rfl
  | setParsed p text parse =>
    rw [Act.apply, Workspace.setParsed, Act.lastParse,
      h.parseOf?_insert text fun _ => Table.get?_put_of_ne _ _, Table.get?_put_self]
  | addResource p =>
    rw [Act.apply, Workspace.addResource, Act.lastParse, h.parseOf?_insert "" fun _ _ => rfl,
      h.get?_insert]
    split
    · next hsame => rw [parseOf?, parseOf?, w.store.lookup?_of_isSame hsame]
    · rfl
  | removeFile p => exact h.parseOf?_removeFile p path
  | setProject project => rfl
  | setSuggestions root index => rfl
  | applyFix fix =>
    rw [Act.apply, Act.lastParse]
    obtain ⟨hfalse, hsame⟩ | ⟨_, _, changed, _, _, _, htrue, hput⟩ := w.applyFix_cases fix
    · simp only [hfalse, hsame, Bool.false_eq_true, false_and, if_false]
    · simp only [htrue, hput, true_and, parseOf?]
      change (w.store.lookup? path).bind _ = _
      split
      · next hl =>
        rw [hl, Option.bind_some, Table.get?_put_self, FileStore.contents?_setContents_self,
          Option.map_some]
      · next hl =>
        cases hother : w.store.lookup? path with
        | none => rfl
        | some other => exact Table.get?_put_of_ne _ _ fun heq => hl (heq ▸ hother)

theorem parseOf?_acts (h : w.Filed) (acts : List Act) :
    (w.afterActs acts).parseOf? path = lastParse path w (w.parseOf? path) acts := by
  induction acts generalizing w with
  | nil => rfl
  | cons act acts ih =>
    rw [lastParse, ← h.parseOf?_act]
    exact ih (h.act act)

end Filed

/-- Nothing of an earlier text of a file is left in any answer. -/
structure Retired (w : Workspace) (file : FileId) : Prop where
  current : ∀ parse, w.parses.get? file = some parse → parse = Source.parse ""
  declares : ∀ name, ∀ d ∈ w.snapshot.index.lookup name, d.file ≠ file
  diagnostics : w.snapshot.diagnostics file = []
  folds : w.snapshot.folds file = []
  links : w.snapshot.links file = []
  leads : ∀ offset, w.snapshot.destination? file offset = none
  leadsTo : ∀ other offset full focus name,
    w.snapshot.destination? other offset ≠ some (.declaration file full focus name)

/-- All answers about a file are those from a tree, although it has no text. -/
structure SpeaksFor (w : Workspace) (file : FileId) (parse : Parse) : Prop where
  declares : ∀ decl ∈ parse.root.topLevelDecls, ∀ name, decl.isNamed name = true →
    ⟨file, decl⟩ ∈ w.snapshot.index.lookup name
  diagnostics : w.snapshot.diagnostics file =
    parse.errors.map (Diagnostic.ofParseError file) ++
      Diagnostic.check w.snapshot.index file parse.root
  answers : ∃ view, w.snapshot.viewpoint? file = some view ∧
    w.snapshot.folds file = view.folds parse.root (.ofText "") ∧
    w.snapshot.links file = view.links parse.root (.ofText "") ∧
    ∀ offset, w.snapshot.destination? file offset = view.destination? parse.root offset

section Retired

variable {w : Workspace} {file : FileId} {root : Node}

theorem Filed.root_empty (h : w.Filed)
    (hcurrent : ∀ parse, w.parses.get? file = some parse → parse = Source.parse "")
    (hroot : w.snapshot.root? file = some root) : root = .ofRoot .sourceFile [] := by
  obtain ⟨parse, hparse, rfl⟩ := (root?_snapshot h.nodup).1 hroot
  rw [hcurrent parse hparse, Source.parse_empty]
  rfl

theorem Filed.kind_of_indexed (h : w.Filed)
    (hcurrent : ∀ parse, w.parses.get? file = some parse → parse = Source.parse "") {d : Located}
    (hd : d.Indexed w.snapshot.index) (hfile : d.file = file) : d.kind = .sourceFile := by
  subst hfile
  obtain ⟨root, hroot, hmem⟩ := hd
  rw [h.root_empty hcurrent hroot] at hmem
  rw [Located.kind, List.mem_singleton.1 hmem]
  rfl

theorem Filed.retired (h : w.Filed)
    (hcurrent : ∀ parse, w.parses.get? file = some parse → parse = Source.parse "") :
    w.Retired file where
  current := hcurrent
  declares name d hd := by
    intro hfile
    obtain ⟨hindexed, -, hnamed⟩ := (rooted_snapshot h.nodup).lookup name d hd
    have hkind : d.node.kind = .sourceFile := h.kind_of_indexed hcurrent hindexed hfile
    simp [Node.isNamed, Node.declName?, hkind, Source.NodeKind.isDeclaration] at hnamed
  diagnostics := by
    rw [Snapshot.diagnostics]
    split
    · next parse root hparse hroot =>
      rw [hcurrent parse hparse, h.root_empty hcurrent hroot, Source.parse_empty]
      rfl
    · rfl
  folds := by
    rw [Snapshot.folds]
    split
    · next lines root view _ hroot _ =>
      rw [h.root_empty hcurrent hroot]
      rfl
    · rfl
  links := by
    rw [Snapshot.links]
    split
    · next lines root view _ hroot _ =>
      rw [h.root_empty hcurrent hroot]
      rfl
    · rfl
  leads offset := by
    rw [Snapshot.destination?]
    cases hroot : w.snapshot.root? file with
    | none => rfl
    | some root =>
      obtain rfl := h.root_empty hcurrent hroot
      cases w.snapshot.viewpoint? file <;> rfl
  leadsTo other offset full focus name hdest := by
    have hr := rooted_snapshot h.nodup
    unfold Snapshot.destination? at hdest
    obtain ⟨root, hroot, hdest⟩ := Option.bind_eq_some_iff.1 hdest
    obtain ⟨view, hview, hdest⟩ := Option.bind_eq_some_iff.1 hdest
    obtain ⟨path, _, rfl⟩ := Option.map_eq_some_iff.1 hview
    obtain ⟨ref, d, href, hd, hofDecl, -⟩ := Viewpoint.exists_ref_of_destination? hdest hr hroot
    obtain ⟨rfl, -⟩ := Destination.eq_of_ofDecl? hofDecl
    have htarget := hr.target_resolve href hd
    have hdecl := hr.isDeclaration_target href htarget
    rw [h.kind_of_indexed hcurrent htarget.indexed rfl] at hdecl
    cases hdecl

theorem Filed.speaksFor (h : w.Filed) {path : Path} (hpath : w.store.path? file = some path)
    (hempty : w.store.contents? file = some "") {parse : Parse}
    (hparse : w.parses.get? file = some parse) : w.SpeaksFor file parse where
  declares decl hdecl name hnamed := by
    rw [(holds_snapshot h.nodup).lookup]
    have hroot : (file, parse.root) ∈ w.roots :=
      List.mem_map.2 ⟨_, Table.mem_of_get? hparse, rfl⟩
    exact Declarations.mem_listed.2 ⟨_, hroot, hdecl, hnamed⟩
  diagnostics := by
    have hroot := (root?_snapshot h.nodup).2 ⟨_, hparse, rfl⟩
    have hstored : w.snapshot.workspace.parses.get? file = some parse := hparse
    rw [Snapshot.diagnostics, hstored, hroot]
  answers := by
    have hroot := (root?_snapshot h.nodup).2 ⟨_, hparse, rfl⟩
    have hlines : w.snapshot.lines? file = some (.ofText "") := congrArg (Option.map _) hempty
    obtain ⟨view, hview⟩ : ∃ view, w.snapshot.viewpoint? file = some view :=
      ⟨_, congrArg (Option.map _) hpath⟩
    refine ⟨view, hview, ?_, ?_, fun offset => ?_⟩
    · rw [Snapshot.folds, hlines, hroot, hview]
    · rw [Snapshot.links, hlines, hroot, hview]
    · rw [Snapshot.destination?, hroot, hview]
      simp only [Option.bind_eq_bind, Option.bind_some]

end Retired

/-- A file that is registered anew as a resource is retired if and only if its path had no tree or
that of an empty text; otherwise all answers stay those for the tree it got last. -/
theorem addResource_retires_iff (project : Project) (acts : List Act) (path : Path) :
    let w := (ofProject project).afterActs acts
    let last := lastParse path (ofProject project) none acts
    let file := (w.addResource path).1
    let w' := (w.addResource path).2
    w'.store.lookup? path = some file ∧ w'.store.contents? file = some "" ∧
    (w'.Retired file ↔ last = none ∨ last = some (Source.parse "")) ∧
    (∀ text, last = some (Source.parse text) → (w'.Retired file ↔ text = "")) ∧
    (∀ parse, last = some parse → w'.SpeaksFor file parse) ∧
    w'.snapshot.index = w.snapshot.index := by
  intro w last file w'
  have hw : w.Filed := (Filed.ofProject project).acts acts
  have hw' : w'.Filed := hw.act (.addResource path)
  have hfile : w'.store.lookup? path = some file := FileStore.lookup?_insert_self w.store path ""
  have hempty : w'.store.contents? file = some "" := w.store.contents?_insert_self path ""
  have hparse : w'.parses.get? file = last := by
    rw [show last = w.parseOf? path from ((Filed.ofProject project).parseOf?_acts acts).symm]
    exact hw.get?_insert path ""
  have hiff : w'.Retired file ↔ last = none ∨ last = some (Source.parse "") := by
    constructor
    · intro hretired
      cases hl : last with
      | none => exact .inl rfl
      | some parse => exact .inr (congrArg some (hretired.current parse (hparse.trans hl)))
    · intro hl
      refine hw'.retired fun parse hp => ?_
      rw [hparse] at hp
      rcases hl with hl | hl <;> rw [hl] at hp <;> cases hp
      rfl
  refine ⟨hfile, hempty, hiff, fun text hl => ?_, fun parse hl => ?_, rfl⟩
  · rw [hiff, hl, Option.some_inj, Source.parse_injective.eq_iff]
    simp
  · obtain ⟨known, hknown, -⟩ := hw'.sound.lookup?_iff.1 hfile
    exact hw'.speaksFor hknown hempty (hparse.trans hl)

theorem addResource_keeps_class :
    let w := ((ofProject (.unrecognized ⟨"/app"⟩)).setFile ⟨"/app/a.dart"⟩ "class A {}").2
    let w' := (w.addResource ⟨"/app//a.dart"⟩).2
    w'.store.lookup? ⟨"/app/a.dart"⟩ = some ⟨0⟩ ∧ w'.store.contents? ⟨0⟩ = some "" ∧
      (∃ d ∈ w'.snapshot.index.lookup "A", d.file = ⟨0⟩) ∧ ¬ w'.Retired ⟨0⟩ := by
  intro w w'
  have hany : (w'.snapshot.index.lookup "A").any (·.file = ⟨0⟩) = true := by decide +kernel
  obtain ⟨d, hd, hfile⟩ := List.any_eq_true.1 hany
  have hfile : d.file = ⟨0⟩ := of_decide_eq_true hfile
  exact ⟨by decide +kernel, by decide +kernel, ⟨d, hd, hfile⟩,
    fun h => h.declares "A" d hd hfile⟩

end Workspace

end CrossReference
