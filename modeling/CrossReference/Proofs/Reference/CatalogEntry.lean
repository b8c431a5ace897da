import CrossReference.Proofs.Reference.KeyScan
import CrossReference.Proofs.Reference.Message
import CrossReference.Proofs.Workspace.Table

namespace CrossReference

open Json (Placed Laid)
open Source (Node)

namespace Table

variable {κ β γ : Type} [DecidableEq κ]

theorem get?_cons_self (key : κ) (value : β) (rest : Table κ β) :
    get? ((key, value) :: rest) key = some value := by
  simp [get?]

theorem get?_cons_of_ne {key other : κ} (h : other ≠ key) (value : β) (rest : Table κ β) :
    get? ((other, value) :: rest) key = get? rest key := by
  simp [get?, h]

theorem get?_filterMap {table : Table κ β} (hd : table.keys.Nodup) (f : β → Option γ) (key : κ) :
    get? (table.filterMap fun e => (f e.2).map (e.1, ·)) key = (table.get? key).bind f := by
  induction table with
  | nil => rfl
  | cons e rest ih =>
    obtain ⟨other, value⟩ := e
    obtain ⟨hother, hrest⟩ := List.nodup_cons.1 hd
    by_cases ho : other = key
    · subst ho
      rw [get?_cons_self, Option.bind_some]
      cases hf : f value with
      | none =>
        simp only [List.filterMap_cons, hf, Option.map_none]
        rw [ih hrest, get?_eq_none_iff.2 hother, Option.bind_none]
      | some result =>
        simp only [List.filterMap_cons, hf, Option.map_some]
        rw [get?_cons_self]
    · rw [get?_cons_of_ne ho, ← ih hrest]
      cases hf : f value with
      | none => simp only [List.filterMap_cons, hf, Option.map_none]
      | some result =>
        simp only [List.filterMap_cons, hf, Option.map_some]
        rw [get?_cons_of_ne ho]

end Table

def Json.keys : Json → List (List Char)
  | .object members => members.map Prod.fst
  | _ => []

namespace Catalog

def Means (written : List Char) (key : String) : Prop :=
  Json.Text.decode? written = some key.toList

instance (written : List Char) (key : String) : Decidable (Means written key) :=
  inferInstanceAs (Decidable (_ = _))

def store (table : Table String Json) (member : List Char × Json) : Table String Json :=
  match Json.Text.decode? member.1 with
  | some k => table.put (String.ofList k) member.2
  | none => table

theorem lastValues_eq (members : List (List Char × Json)) :
    lastValues members = members.foldl store [] := rfl

theorem get?_store_of_means {member : List Char × Json} {key : String}
    (h : Means member.1 key) (table : Table String Json) :
    (store table member).get? key = some member.2 := by
  rw [store, h]
  dsimp only
  rw [String.ofList_toList]
  exact Table.get?_put_self ..

theorem get?_store_of_not_means {member : List Char × Json} {key : String}
    (h : ¬ Means member.1 key) (table : Table String Json) :
    (store table member).get? key = table.get? key := by
  rw [store]
  split
  · next k hk =>
    refine Table.get?_put_of_ne _ _ ?_
    rintro rfl
    exact h (by rw [Means, hk, String.toList_ofList])
  · rfl

theorem nodup_store {table : Table String Json} (hd : table.keys.Nodup)
    (member : List Char × Json) : (store table member).keys.Nodup := by
  rw [store]
  split
  · exact Table.nodup_put hd _ _
  · exact hd

theorem nodup_lastValues (members : List (List Char × Json)) :
    (lastValues members).keys.Nodup := by
  rw [lastValues_eq]
  exact List.foldlRecOn members store (motive := fun table : Table String Json => table.keys.Nodup)
    List.nodup_nil fun _ hd member _ => nodup_store hd member

theorem exists_member_of_get?_lastValues {members : List (List Char × Json)} {key : String}
    {value : Json} (h : (lastValues members).get? key = some value) :
    ∃ before member after, members = before ++ member :: after ∧ Means member.1 key ∧
      (∀ m ∈ after, ¬ Means m.1 key) ∧ member.2 = value := by
  rw [lastValues_eq] at h
  induction members using List.reverseRecOn with
  | nil => cases h
  | append_singleton members last ih =>
    rw [List.foldl_append, List.foldl_cons, List.foldl_nil] at h
    by_cases hlast : Means last.1 key
    · rw [get?_store_of_means hlast] at h
      exact ⟨members, last, [], rfl, hlast, by simp, Option.some.inj h⟩
    · rw [get?_store_of_not_means hlast] at h
      obtain ⟨before, member, after, rfl, hmember, hafter, hvalue⟩ := ih h
      refine ⟨before, member, after ++ [last], by simp, hmember, ?_, hvalue⟩
      intro m hm
      rcases List.mem_append.1 hm with hm | hm
      · exact hafter m hm
      · exact List.mem_singleton.1 hm ▸ hlast

theorem get?_of_parse {text : String} {catalog : Catalog} {entries : List Placed}
    (h : parse text = .ok catalog)
    (hread : Json.read? text = some (.object (entries.map Placed.pair))) (key : String) :
    catalog.get? key = ((lastValues (entries.map Placed.pair)).get? key).bind Json.text? := by
  rw [parse, hread] at h
  dsimp only at h
  split at h
  · cases h
    exact Table.get?_filterMap (nodup_lastValues _) _ _
  · cases h

/-- Of the members of a catalog, the one that has the text of a key: the last that means the key. -/
structure Supplies (text : String) (before : List Placed) (e : Placed) (after : List Placed)
    (key value : String) : Prop where
  laid : Laid text (before ++ e :: after)
  read : Json.read? text = some (.object ((before ++ e :: after).map Placed.pair))
  means : Means e.key key
  last : ∀ m ∈ after, ¬ Means m.key key
  supplies : e.value.text? = some value

theorem exists_supplies {text : String} {catalog : Catalog} {key value : String}
    (h : parse text = .ok catalog) (hget : catalog.get? key = some value) :
    ∃ before e after, Supplies text before e after key value := by
  obtain ⟨entries, hlaid, hread⟩ := exists_laid_of_parse h
  rw [get?_of_parse h hread, Option.bind_eq_some_iff] at hget
  obtain ⟨json, hjson, hvalue⟩ := hget
  obtain ⟨before, member, after, hsplit, hkey, hlast, rfl⟩ :=
    exists_member_of_get?_lastValues hjson
  obtain ⟨es, rest, rfl, rfl, hrest⟩ := List.map_eq_append_iff.1 hsplit
  obtain ⟨e, fs, rfl, rfl, rfl⟩ := List.map_eq_cons_iff.1 hrest
  exact ⟨es, e, fs, hlaid, hread, hkey, fun m hm => hlast _ (List.mem_map_of_mem hm), hvalue⟩

theorem Supplies.keyRange? {text : String} {before after : List Placed} {e : Placed}
    {key value : String} (h : Supplies text before e after key value)
    (hwritten : e.key = key.toList) (hfirst : ∀ m ∈ before, m.key ≠ key.toList) :
    keyRange? text key = some e.range := by
  rw [keyRange?_of_laid h.laid, Option.map_eq_some_iff]
  refine ⟨e, List.find?_eq_some_iff_append.2 ⟨by simpa using hwritten, before, after, rfl, ?_⟩, rfl⟩
  simpa using hfirst

theorem exists_text_of_load {store : FileStore} {path : Path} {catalog : Catalog}
    (h : load store path = .ok catalog) :
    ∃ text, store.read? path = some text ∧ parse text = .ok catalog := by
  unfold load at h
  split at h
  · next text htext => exact ⟨text, htext, h⟩
  · cases h

end Catalog

namespace Viewpoint

variable {view : Viewpoint} {n : Node}

theorem exists_text_of_template? {key template : String}
    (h : view.template? key = some template) :
    ∃ text catalog, view.store.read? view.catalogPath = some text ∧
      Catalog.parse text = .ok catalog ∧ catalog.get? key = some template := by
  unfold template? at h
  split at h
  · next catalog hload =>
    obtain ⟨text, htext, hparse⟩ := Catalog.exists_text_of_load hload
    exact ⟨text, catalog, htext, hparse, h⟩
  · cases h

theorem locateKey?_of_keyRange? {ref : LocalizationRef} {text : String} {range : Text.Range}
    (href : view.localizationRef? n = some ref)
    (htext : view.store.read? view.catalogPath = some text)
    (hrange : Catalog.keyRange? text ref.key = some range) :
    view.locateKey? n = some (view.catalogPath, range) := by
  simp [locateKey?, href, htext, hrange]

end Viewpoint

end CrossReference
