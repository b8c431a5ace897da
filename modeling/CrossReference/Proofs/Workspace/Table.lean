import CrossReference.Table
import Mathlib.Data.List.Forall2

namespace CrossReference

namespace Table

variable {κ β : Type}

def keys (table : Table κ β) : List κ := table.map Prod.fst

theorem mem_keys_of_mem {table : Table κ β} {e : κ × β} (h : e ∈ table) : e.1 ∈ table.keys :=
  List.mem_map_of_mem h

variable [DecidableEq κ]

theorem mem_put {table : Table κ β} (hd : table.keys.Nodup) {key : κ} {value : β} {e : κ × β}
    (h : e ∈ table.put key value) : e = (key, value) ∨ e ∈ table ∧ e.1 ≠ key := by
  induction table with
  | nil => exact .inl (by simpa [put] using h)
  | cons x rest ih =>
    have hx : x.1 ∉ keys rest := (List.nodup_cons.1 hd).1
    rw [put] at h
    split at h
    · next hk =>
      rcases List.mem_cons.1 h with rfl | h
      · exact .inl rfl
      · refine .inr ⟨List.mem_cons_of_mem _ h, fun he => hx ?_⟩
        rw [hk, ← he]
        exact mem_keys_of_mem h
    · next hk =>
      rcases List.mem_cons.1 h with rfl | h
      · exact .inr ⟨List.mem_cons_self, hk⟩
      · rcases ih (List.nodup_cons.1 hd).2 h with he | ⟨hm, hne⟩
        · exact .inl he
        · exact .inr ⟨List.mem_cons_of_mem _ hm, hne⟩

theorem mem_put_self (table : Table κ β) (key : κ) (value : β) :
    (key, value) ∈ table.put key value := by
  induction table with
  | nil => exact List.mem_cons_self
  | cons x rest ih =>
    rw [put]
    split
    · exact List.mem_cons_self
    · exact List.mem_cons_of_mem _ ih

theorem mem_keys_put {table : Table κ β} {key other : κ} {value : β}
    (h : other ∈ (table.put key value).keys) : other = key ∨ other ∈ table.keys := by
  induction table with
  | nil => exact .inl (by simpa [put, keys] using h)
  | cons x rest ih =>
    rw [put] at h
    split at h
    · rcases List.mem_cons.1 h with h | h
      · exact .inl h
      · exact .inr (List.mem_cons_of_mem _ h)
    · rcases List.mem_cons.1 h with h | h
      · exact .inr (h ▸ List.mem_cons_self)
      · exact (ih h).imp_right (List.mem_cons_of_mem _)

theorem nodup_put {table : Table κ β} (hd : table.keys.Nodup) (key : κ) (value : β) :
    (table.put key value).keys.Nodup := by
  induction table with
  | nil => simp [put, keys]
  | cons x rest ih =>
    obtain ⟨hx, hrest⟩ := List.nodup_cons.1 hd
    rw [put]
    split
    · next hk => exact List.nodup_cons.2 ⟨hk ▸ hx, hrest⟩
    · next hk =>
      refine List.nodup_cons.2 ⟨fun h => ?_, ih hrest⟩
      rcases mem_keys_put h with h | h
      · exact hk h
      · exact hx h

theorem mem_erase {table : Table κ β} {key : κ} {e : κ × β} :
    e ∈ table.erase key ↔ e ∈ table ∧ e.1 ≠ key := by
  simp [erase]

theorem nodup_erase {table : Table κ β} (hd : table.keys.Nodup) (key : κ) :
    (table.erase key).keys.Nodup :=
  hd.sublist (List.filter_sublist.map Prod.fst)

theorem get?_erase_self (table : Table κ β) (key : κ) : (table.erase key).get? key = none := by
  simp [get?, erase, List.find?_filter]

theorem get?_erase_of_ne (table : Table κ β) {key other : κ} (h : other ≠ key) :
    (table.erase key).get? other = table.get? other := by
  simp only [get?, erase, List.find?_filter]
  congr 2
  funext e
  by_cases he : e.1 = other <;> simp [he, h]

theorem mem_of_get? {table : Table κ β} {key : κ} {value : β} (h : table.get? key = some value) :
    (key, value) ∈ table := by
  obtain ⟨e, he, rfl⟩ := Option.map_eq_some_iff.1 h
  have hk : e.1 = key := by simpa using List.find?_some he
  rw [← hk]
  exact List.mem_of_find?_eq_some he

theorem get?_of_mem {table : Table κ β} (hd : table.keys.Nodup) {key : κ} {value : β}
    (h : (key, value) ∈ table) : table.get? key = some value := by
  induction table with
  | nil => cases h
  | cons e rest ih =>
    obtain ⟨he, hrest⟩ := List.nodup_cons.1 hd
    rcases List.mem_cons.1 h with rfl | h
    · simp [get?]
    · have hk : key ∈ keys rest := mem_keys_of_mem h
      have hne : e.1 ≠ key := by
        intro heq
        exact he (heq ▸ hk)
      simpa [get?, hne] using ih hrest h

theorem contains_iff {table : Table κ β} {key : κ} :
    table.contains key = true ↔ key ∈ table.keys := by
  simp [contains, keys]

theorem get?_eq_none_iff {table : Table κ β} {key : κ} :
    table.get? key = none ↔ key ∉ table.keys := by
  constructor
  · intro h hk
    obtain ⟨e, he, rfl⟩ := List.mem_map.1 hk
    have hfind := Option.map_eq_none_iff.1 h
    exact List.find?_eq_none.1 hfind e he (by simp)
  · intro h
    cases hg : table.get? key with
    | none => rfl
    | some value => exact absurd (mem_keys_of_mem (mem_of_get? hg)) h

theorem erase_of_not_mem {table : Table κ β} {key : κ} (h : key ∉ table.keys) :
    table.erase key = table := by
  rw [erase, List.filter_eq_self]
  intro e he
  have hne : e.1 ≠ key := by
    rintro rfl
    exact h (mem_keys_of_mem he)
  simpa using hne

theorem put_of_not_mem {table : Table κ β} {key : κ} (h : key ∉ table.keys) (value : β) :
    table.put key value = table ++ [(key, value)] := by
  induction table with
  | nil => rfl
  | cons e rest ih =>
    have hne : e.1 ≠ key := by
      rintro rfl
      exact h List.mem_cons_self
    rw [put, if_neg hne, ih fun hk => h (List.mem_cons_of_mem _ hk), List.cons_append]

theorem put_put (table : Table κ β) (key : κ) (first second : β) :
    (table.put key first).put key second = table.put key second := by
  induction table with
  | nil => simp [put]
  | cons e rest ih =>
    by_cases he : e.1 = key
    · simp [put, he]
    · simp [put, he, ih]

theorem put_of_get? {table : Table κ β} {key : κ} {value : β} (h : table.get? key = some value) :
    table.put key value = table := by
  induction table with
  | nil => cases h
  | cons e rest ih =>
    obtain ⟨other, stored⟩ := e
    by_cases ho : other = key
    · subst ho
      have hvalue : stored = value := by simpa [get?] using h
      rw [put, if_pos rfl, hvalue]
    · have hrest : get? rest key = some value := by simpa [get?, ho] using h
      rw [put, if_neg ho, ih hrest]

theorem forall₂_put {R : β → β → Prop} (hrefl : ∀ value, R value value) {table : Table κ β}
    {key : κ} {value new : β} (h : table.get? key = some value) (hnew : R value new) :
    List.Forall₂ (fun e e' => e.1 = e'.1 ∧ R e.2 e'.2) table (table.put key new) := by
  induction table with
  | nil => cases h
  | cons e rest ih =>
    obtain ⟨other, stored⟩ := e
    by_cases ho : other = key
    · subst ho
      have hvalue : stored = value := by simpa [get?] using h
      rw [put, if_pos rfl]
      exact .cons ⟨rfl, hvalue ▸ hnew⟩ (List.forall₂_same.2 fun e _ => ⟨rfl, hrefl e.2⟩)
    · have hrest : get? rest key = some value := by simpa [get?, ho] using h
      rw [put, if_neg ho]
      exact .cons ⟨rfl, hrefl stored⟩ (ih hrest)

end Table

end CrossReference
