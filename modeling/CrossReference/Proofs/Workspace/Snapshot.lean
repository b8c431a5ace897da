import CrossReference.Proofs.Symbols.Targets
import CrossReference.Proofs.Workspace.Sync

namespace CrossReference

open Source (Node Parse)

namespace Workspace

def rootOf (entry : FileId × Parse) : FileId × Node := (entry.1, entry.2.root)

def roots (w : Workspace) : Table FileId Node := w.parses.map rootOf

theorem keys_roots (w : Workspace) : w.roots.keys = w.parses.keys := by
  simp [roots, Table.keys, rootOf, Function.comp_def]

theorem holds_foldl (entries : Table FileId Parse) {index : Declarations}
    {files : Table FileId Node} (h : index.Holds files)
    (hd : (files ++ entries.map rootOf).keys.Nodup) :
    (entries.foldl (fun index (file, parse) => index.addFile file parse.root) index).Holds
      (files ++ entries.map rootOf) := by
  induction entries generalizing index files with
  | nil => simpa using h
  | cons entry entries ih =>
    have hnew : entry.1 ∉ files.keys := by
      intro hk
      rw [Table.keys, List.map_append, List.nodup_append] at hd
      exact hd.2.2 entry.1 hk entry.1 List.mem_cons_self rfl
    have hadd := h.addFile entry.1 entry.2.root
    rw [Table.erase_of_not_mem hnew] at hadd
    have hassoc : files ++ (entry :: entries).map rootOf =
        files ++ [(entry.1, entry.2.root)] ++ entries.map rootOf := by
      simp [rootOf]
    rw [hassoc] at hd ⊢
    exact ih hadd hd

variable {w : Workspace}

theorem holds_snapshot (hd : w.parses.keys.Nodup) : w.snapshot.index.Holds w.roots := by
  have hkeys : w.roots.keys.Nodup := w.keys_roots ▸ hd
  exact holds_foldl w.parses Declarations.holds_empty hkeys

theorem rooted_snapshot (hd : w.parses.keys.Nodup) : w.snapshot.index.Rooted := by
  apply (holds_snapshot hd).rooted
  intro e he
  obtain ⟨entry, _, rfl⟩ := List.mem_map.1 he
  rfl

theorem root?_snapshot (hd : w.parses.keys.Nodup) {file : FileId} {root : Node} :
    w.snapshot.root? file = some root ↔
      ∃ parse, w.parses.get? file = some parse ∧ root = parse.root := by
  have h := holds_snapshot hd
  have hroots : w.snapshot.root? file = w.roots.get? file := by
    rw [Snapshot.root?, Declarations.root?, h.roots]
  rw [hroots]
  constructor
  · intro hr
    obtain ⟨entry, he, heq⟩ := List.mem_map.1 (Table.mem_of_get? hr)
    obtain ⟨rfl, rfl⟩ := Prod.mk.inj heq
    exact ⟨entry.2, Table.get?_of_mem hd he, rfl⟩
  · rintro ⟨parse, hp, rfl⟩
    apply Table.get?_of_mem h.nodup
    exact List.mem_map.2 ⟨(file, parse), Table.mem_of_get? hp, rfl⟩

theorem InSync.text_of_root (h : w.InSync) {file : FileId} {root : Node}
    (hr : w.snapshot.root? file = some root) :
    ∃ text, w.store.contents? file = some text ∧ root = (Source.parse text).root := by
  obtain ⟨parse, hp, rfl⟩ := (root?_snapshot h.nodup).1 hr
  obtain ⟨text, ht, rfl⟩ := h.current file parse (Table.mem_of_get? hp)
  exact ⟨text, ht, rfl⟩

end Workspace

end CrossReference
