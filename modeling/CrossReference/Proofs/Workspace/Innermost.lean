import CrossReference.Proofs.Path.Components
import CrossReference.Proofs.Workspace.Act

namespace CrossReference.Workspace

theorem exists_deepest (b : List Component × Suggestions)
    (entries : List (List Component × Suggestions)) :
    ∃ d, entries.foldl deeper (some b) = some d ∧ d ∈ b :: entries ∧
      ∀ e ∈ b :: entries, e.1.length ≤ d.1.length := by
  induction entries generalizing b with
  | nil => exact ⟨b, rfl, List.mem_cons_self, by simp⟩
  | cons e entries ih =>
    rw [List.foldl_cons, deeper]
    split
    · next hle =>
      obtain ⟨d, hd, hmem, hmax⟩ := ih e
      refine ⟨d, hd, List.mem_cons_of_mem _ hmem, List.forall_mem_cons.2 ⟨?_, hmax⟩⟩
      exact Nat.le_trans hle (hmax e List.mem_cons_self)
    · next hlt =>
      obtain ⟨d, hd, hmem, hmax⟩ := ih b
      obtain ⟨hb, hrest⟩ := List.forall_mem_cons.1 hmax
      refine ⟨d, hd, ?_, List.forall_mem_cons.2 ⟨hb, List.forall_mem_cons.2 ⟨by omega, hrest⟩⟩⟩
      rcases List.mem_cons.1 hmem with rfl | hmem
      · exact List.mem_cons_self
      · exact List.mem_cons_of_mem _ (List.mem_cons_of_mem _ hmem)

theorem foldl_deeper_eq_none {entries : List (List Component × Suggestions)} :
    entries.foldl deeper none = none ↔ entries = [] := by
  cases entries with
  | nil => simp
  | cons e entries =>
    obtain ⟨d, hd, -⟩ := exists_deepest e entries
    simp [deeper, hd]

theorem deepest_of_foldl_deeper {entries : List (List Component × Suggestions)}
    {d : List Component × Suggestions} (h : entries.foldl deeper none = some d) :
    d ∈ entries ∧ ∀ e ∈ entries, e.1.length ≤ d.1.length := by
  cases entries with
  | nil => cases h
  | cons e entries =>
    obtain ⟨d', hd', hmem, hmax⟩ := exists_deepest e entries
    obtain rfl : d' = d := Option.some.inj (hd'.symm.trans h)
    exact ⟨hmem, hmax⟩

def Act.lastSuggested (root : Path) (last : Option Suggestions) : Act → Option Suggestions
  | .setSuggestions r index => if r.isSame root then some index else last
  | _ => last

def lastSuggested (acts : List Act) (root : Path) : Option Suggestions :=
  acts.foldl (Act.lastSuggested root) none

structure Innermost (last : Path → Option Suggestions) (path root : Path) : Prop where
  suggests : (last root).isSome
  around : path.startsWith root
  deepest : ∀ other, (last other).isSome → path.startsWith other →
    other.components.length ≤ root.components.length

theorem Innermost.isSame {last : Path → Option Suggestions} {path root other : Path}
    (h : Innermost last path root) (h' : Innermost last path other) : root.isSame other := by
  have hroot : root.components <+: path.components := List.isPrefixOf_iff_prefix.1 h.around
  have hother : other.components <+: path.components := List.isPrefixOf_iff_prefix.1 h'.around
  have hlength := Nat.le_antisymm (h'.deepest root h.suggests h.around)
    (h.deepest other h'.suggests h'.around)
  rw [Path.isSame_iff]
  exact (List.prefix_of_prefix_length_le hroot hother hlength.le).eq_of_length hlength

structure Suggesting (w : Workspace) (last : Path → Option Suggestions) : Prop where
  nodup : w.suggestions.keys.Nodup
  spelled : ∀ parts ∈ w.suggestions.keys, ∃ root : Path, root.components = parts
  stored : ∀ root : Path, w.suggestions.get? root.components = last root

namespace Suggesting

variable {w : Workspace} {last : Path → Option Suggestions} {path root : Path}

theorem ofProject (project : Project) : (ofProject project).Suggesting fun _ => none :=
  ⟨List.nodup_nil, fun _ h => absurd h List.not_mem_nil, fun _ => rfl⟩

theorem same {w' : Workspace} (h : w.Suggesting last) (hw : w'.suggestions = w.suggestions) :
    w'.Suggesting last :=
  ⟨hw ▸ h.nodup, hw ▸ h.spelled, hw ▸ h.stored⟩

theorem setSuggestions (h : w.Suggesting last) (r : Path) (index : Suggestions) :
    (w.setSuggestions r index).Suggesting
      fun root => if r.isSame root then some index else last root where
  nodup := Table.nodup_put h.nodup _ _
  spelled parts hparts := by
    rcases Table.mem_keys_put hparts with rfl | hparts
    · exact ⟨r, rfl⟩
    · exact h.spelled parts hparts
  stored root := by
    change (w.suggestions.put r.components index).get? root.components = _
    split
    · next hsame => rw [Path.isSame_iff.1 hsame, Table.get?_put_self]
    · next hne =>
      have hne : root.components ≠ r.components := fun heq => hne (Path.isSame_iff.2 heq.symm)
      rw [Table.get?_put_of_ne _ _ hne, h.stored]

theorem act (h : w.Suggesting last) (act : Act) :
    (act.apply w).Suggesting fun root => act.lastSuggested root (last root) := by
  cases act with
  | setSuggestions r index => exact h.setSuggestions r index
  | setFile | setParsed | addResource | setProject => exact h.same rfl
  | removeFile path =>
    refine h.same ?_
    obtain ⟨_, hsame⟩ | ⟨_, _, hremoved⟩ := w.removeFile_cases path
    · rw [Act.apply, hsame]
    · rw [Act.apply, hremoved]
  | applyFix fix =>
    refine h.same ?_
    obtain ⟨_, hsame⟩ | ⟨_, _, _, _, _, _, _, hput⟩ := w.applyFix_cases fix
    · rw [Act.apply, hsame]
    · rw [Act.apply, hput]

theorem acts (h : w.Suggesting last) (acts : List Act) :
    (w.afterActs acts).Suggesting fun root => acts.foldl (Act.lastSuggested root) (last root) := by
  induction acts generalizing w last with
  | nil => exact h
  | cons act acts ih => exact ih (h.act act)

theorem suggestionsFor?_eq_none_iff (h : w.Suggesting last) :
    w.suggestionsFor? path = none ↔ ∀ root, (last root).isSome → path.startsWith root = false := by
  rw [suggestionsFor?, Option.map_eq_none_iff, foldl_deeper_eq_none, List.filter_eq_nil_iff]
  constructor
  · intro hnone root hroot
    obtain ⟨index, hindex⟩ := Option.isSome_iff_exists.1 hroot
    have hmem := Table.mem_of_get? ((h.stored root).trans hindex)
    exact Bool.eq_false_iff.2 (hnone _ hmem)
  · intro hnone e he
    obtain ⟨root, hroot⟩ := h.spelled e.1 (Table.mem_keys_of_mem he)
    have hindex : last root = some e.2 := by
      rw [← h.stored, hroot]
      exact Table.get?_of_mem h.nodup he
    have hfalse := hnone root (by rw [hindex]; rfl)
    rw [← hroot]
    exact Bool.eq_false_iff.1 hfalse

theorem exists_innermost (h : w.Suggesting last) {index : Suggestions}
    (hfound : w.suggestionsFor? path = some index) :
    ∃ root, Innermost last path root ∧ last root = some index := by
  rw [suggestionsFor?, Option.map_eq_some_iff] at hfound
  obtain ⟨d, hd, rfl⟩ := hfound
  obtain ⟨hmem, hmax⟩ := deepest_of_foldl_deeper hd
  obtain ⟨hmem, haround⟩ := List.mem_filter.1 hmem
  obtain ⟨root, hroot⟩ := h.spelled d.1 (Table.mem_keys_of_mem hmem)
  have hindex : last root = some d.2 := by
    rw [← h.stored, hroot]
    exact Table.get?_of_mem h.nodup hmem
  have hstarts : path.startsWith root = true := by rwa [Path.startsWith, hroot]
  refine ⟨root, ⟨by rw [hindex]; rfl, hstarts, fun other hother hstarts => ?_⟩, hindex⟩
  obtain ⟨set, hset⟩ := Option.isSome_iff_exists.1 hother
  have hentry := Table.mem_of_get? ((h.stored other).trans hset)
  rw [hroot]
  exact hmax _ (List.mem_filter.2 ⟨hentry, hstarts⟩)

theorem suggestionsFor?_eq_some_iff (h : w.Suggesting last) {index : Suggestions} :
    w.suggestionsFor? path = some index ↔
      ∃ root, Innermost last path root ∧ last root = some index := by
  refine ⟨h.exists_innermost, fun ⟨root, hroot, hindex⟩ => ?_⟩
  cases hfound : w.suggestionsFor? path with
  | none =>
    have hfalse := h.suggestionsFor?_eq_none_iff.1 hfound root hroot.suggests
    exact absurd hroot.around (Bool.eq_false_iff.1 hfalse)
  | some found =>
    obtain ⟨other, hother, hset⟩ := h.exists_innermost hfound
    have hsame := Path.isSame_iff.1 (hother.isSame hroot)
    rw [← hset, ← hindex, ← h.stored, ← h.stored, hsame]

end Suggesting

theorem suggestionsFor?_innermost (project : Project) (acts : List Act) (path : Path) :
    let last := lastSuggested acts
    let found := ((ofProject project).afterActs acts).suggestionsFor? path
    (∀ index, found = some index ↔ ∃ root, Innermost last path root ∧ last root = some index) ∧
    (found = none ↔ ∀ root, (last root).isSome → path.startsWith root = false) ∧
    (∀ root other, Innermost last path root → Innermost last path other → root.isSame other) ∧
    ∀ (project' : Project) (acts' : List Act), (∀ root, lastSuggested acts' root = last root) →
      ((ofProject project').afterActs acts').suggestionsFor? path = found := by
  intro last found
  have h (project : Project) (acts : List Act) :
      ((ofProject project).afterActs acts).Suggesting (lastSuggested acts) :=
    (Suggesting.ofProject project).acts acts
  refine ⟨fun _ => (h project acts).suggestionsFor?_eq_some_iff,
    (h project acts).suggestionsFor?_eq_none_iff, fun _ _ => Innermost.isSame, ?_⟩
  intro project' acts' hlast
  have h' := h project' acts'
  rw [show lastSuggested acts' = last from funext hlast] at h'
  refine Option.ext fun index => ?_
  rw [h'.suggestionsFor?_eq_some_iff, (h project acts).suggestionsFor?_eq_some_iff]

theorem suggestionsFor?_innermost_respelled :
    let home := Suggestions.empty.insert "Home" (some "package:app/home.dart")
    let acts : List Act := [.setSuggestions ⟨"/app"⟩ home, .setSuggestions ⟨"lib"⟩ home,
      .setSuggestions ⟨"/app/example"⟩ .empty, .setSuggestions ⟨"/app//./"⟩ .empty]
    let acts' : List Act := [.setSuggestions ⟨"/app/example/"⟩ .empty,
      .setSuggestions ⟨"/app/"⟩ .empty, .setSuggestions ⟨"lib/."⟩ home]
    let project : Project := .unrecognized ⟨"/app"⟩
    (∀ root, lastSuggested acts' root = lastSuggested acts root) ∧
      ((ofProject project).afterActs acts).suggestionsFor? ⟨"/app/example/a.dart"⟩ = some .empty ∧
      ((ofProject project).afterActs acts').suggestionsFor? ⟨"/app/example/a.dart"⟩ =
        ((ofProject project).afterActs acts).suggestionsFor? ⟨"/app/example/a.dart"⟩ := by
  intro home acts acts' project
  have hlast (root : Path) : lastSuggested acts' root = lastSuggested acts root := by
    have happ : ∀ p ∈ [(⟨"/app"⟩ : Path), ⟨"/app//./"⟩, ⟨"/app/"⟩],
        p.components = [.root, .name "app"] := by decide
    have hexample : ∀ p ∈ [(⟨"/app/example"⟩ : Path), ⟨"/app/example/"⟩],
        p.components = [.root, .name "app", .name "example"] := by decide
    have hlib : ∀ p ∈ [(⟨"lib"⟩ : Path), ⟨"lib/."⟩], p.components = [.name "lib"] := by decide
    simp only [List.forall_mem_cons] at happ hexample hlib
    simp only [acts, acts', lastSuggested, List.foldl, Act.lastSuggested, Path.isSame, happ,
      hexample, hlib, beq_iff_eq]
    by_cases happ : [.root, .name "app"] = root.components
    · simp [← happ]
    · simp only [happ, if_false]
      by_cases hlib : [.name "lib"] = root.components
      · simp [← hlib]
      · simp [hlib]
  exact ⟨hlast, by rfl, (suggestionsFor?_innermost project acts ⟨"/app/example/a.dart"⟩).2.2.2
    project acts' hlast⟩

end CrossReference.Workspace
