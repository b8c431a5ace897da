import CrossReference.FileStore
import CrossReference.Proofs.Path.Components
import CrossReference.Reference.Asset

namespace CrossReference.Asset

open CrossReference.Path (named IsFileName)

theorem isFileName_of_mem_densities {density : String} (h : density ∈ densities) :
    IsFileName density := by
  simp only [densities, List.mem_cons, List.not_mem_nil, or_false] at h
  rcases h with rfl | rfl | rfl | rfl <;> decide

theorem isAbsolute_relative (logical : String) : (relative logical).isAbsolute = false := by
  rw [Bool.eq_false_iff, Ne, Path.isAbsolute_iff]
  intro h
  simp only [relative, String.toList_ofList] at h
  have := List.head?_dropWhile_not (· == '/') logical.toList
  simp [h] at this

theorem named_relative (logical : String) :
    named (relative logical).text.toList = named logical.toList := by
  rw [relative, String.toList_ofList, Path.named_dropWhile]

def denserParts (base inside : List Component) : List (List Component) :=
  match inside.getLast? with
  | some (.name name) =>
    densities.map fun density => base ++ inside.dropLast ++ [.name density, .name name]
  | _ => []

def triedParts (base inside : List Component) (dense : Bool) : List (List Component) :=
  (if dense then denserParts base inside else []) ++ [base ++ inside]

variable {base : Path}

theorem isAbsolute_of_prefix {dir logical : Path} (hl : logical.isAbsolute = false)
    (h : dir.text.toList <+: logical.text.toList) : dir.isAbsolute = false := by
  rw [Bool.eq_false_iff, Ne, Path.isAbsolute_iff] at hl ⊢
  intro hdir
  obtain ⟨rest, hrest⟩ := List.head?_eq_some_iff.1 hdir
  obtain ⟨behind, hbehind⟩ := h
  rw [hrest] at hbehind
  exact hl (by rw [← hbehind]; rfl)

theorem components_variants (hb : base.isAbsolute = true) {logical : Path}
    (hl : logical.isAbsolute = false) :
    (variants base logical).map Path.components =
      denserParts base.components (named logical.text.toList) := by
  rcases logical.exists_directory with
    ⟨hnil, hname⟩ | ⟨dir, part, hparent, hmem, hpart, hprefix, hnamed, hname⟩
  · rw [variants, hname, hnil]
    rfl
  · rw [variants, hname, hnamed, denserParts]
    by_cases hup : part = ['.', '.']
    · simp [hup, Path.partComponent]
    · have hfile := Path.isFileName_of_part hmem hpart hup
      have hdir := isAbsolute_of_prefix hl hprefix
      simp only [if_neg hup, hparent, Option.getD_some, Path.partComponent, List.map_map,
        List.getLast?_append, List.getLast?_singleton, Option.some_or, List.dropLast_concat]
      refine List.map_congr_left fun density hdensity => ?_
      obtain ⟨habsolute, hjoined⟩ := Path.components_join_name (Path.isAbsolute_join hb hdir)
        (isFileName_of_mem_densities hdensity)
      obtain ⟨-, hlast⟩ := Path.components_join_name habsolute hfile
      rw [Function.comp_apply, hlast, hjoined, Path.components_join hb hdir]
      simp

theorem components_candidates (hb : base.isAbsolute = true) (logical : String) (dense : Bool) :
    (candidates base logical dense).map Path.components =
      triedParts base.components (named logical.toList) dense := by
  have hrelative := isAbsolute_relative logical
  have hnamed := named_relative logical
  rw [candidates, List.map_append, triedParts, List.map_singleton,
    Path.components_join hb hrelative, hnamed]
  cases dense with
  | false => rfl
  | true => simp only [if_true, components_variants hb hrelative, hnamed]

theorem map_locate? (hb : base.isAbsolute = true) (store : FileStore) {logical : String}
    (hne : logical ≠ "") (dense : Bool) :
    (locate? store.contains base logical dense).map Path.components =
      (triedParts base.components (named logical.toList) dense).find?
        fun parts => (store.ids.get? parts).isSome := by
  have hempty : logical.isEmpty = false := by simpa using hne
  rw [locate?, hempty, ← components_candidates hb, List.find?_map]
  rfl

theorem base_prefix_of_mem_triedParts {base inside parts : List Component} {dense : Bool}
    (h : parts ∈ triedParts base inside dense) : base <+: parts := by
  rw [triedParts, List.mem_append, List.mem_singleton] at h
  rcases h with h | rfl
  · split at h
    · rw [denserParts] at h
      split at h
      · obtain ⟨density, -, rfl⟩ := List.mem_map.1 h
        exact ⟨_, (List.append_assoc ..).symm⟩
      · cases h
    · cases h
  · exact List.prefix_append ..

theorem startsWith_of_mem_candidates (hb : base.isAbsolute = true) {logical : String}
    {dense : Bool} {p : Path} (h : p ∈ candidates base logical dense) :
    p.startsWith base = true := by
  have hparts : p.components ∈ triedParts base.components (named logical.toList) dense := by
    rw [← components_candidates hb]
    exact List.mem_map_of_mem h
  exact List.isPrefixOf_iff_prefix.2 (base_prefix_of_mem_triedParts hparts)

theorem mem_candidates_of_mem_probes {isFile : Path → Bool} {logical : String} {dense : Bool}
    {p : Path} (h : p ∈ probes isFile base logical dense) : p ∈ candidates base logical dense := by
  rw [probes] at h
  split at h
  · cases h
  · rcases List.mem_append.1 h with h | h
    · exact (List.takeWhile_prefix _).subset h
    · exact List.mem_of_find?_eq_some (Option.mem_toList.1 h)

def tenths (density : String) : Nat :=
  (density.toList.filter Char.isDigit).foldl (fun n c => 10 * n + (c.toNat - '0'.toNat)) 0

theorem densest_first :
    densities.Pairwise fun denser density => tenths density < tenths denser := by
  decide

theorem find?_of_pairwise {α : Type} {R : α → α → Prop} {l : List α} (hl : l.Pairwise R)
    {f : α → Bool} {x y : α} (hx : l.find? f = some x) (hy : y ∈ l) (hne : y ≠ x)
    (hxy : ¬ R x y) : f y = false := by
  obtain ⟨-, before, after, rfl, hbefore⟩ := List.find?_eq_some_iff_append.1 hx
  rcases List.mem_append.1 hy with hy | hy
  · simpa using hbefore y hy
  · rcases List.mem_cons.1 hy with rfl | hy
    · exact absurd rfl hne
    · have hrest := (List.pairwise_append.1 hl).2.1
      exact absurd (List.rel_of_pairwise_cons hrest hy) hxy

theorem find?_triedParts {base dirs : List Component} {density name : String}
    {known : List Component → Bool}
    (h : (triedParts base (dirs ++ [.name name]) true).find? known =
      some (base ++ dirs ++ [.name density, .name name])) :
    densities.find? (fun d => known (base ++ dirs ++ [.name d, .name name])) = some density := by
  have hdenser : denserParts base (dirs ++ [.name name]) =
      densities.map fun d => base ++ dirs ++ [.name d, .name name] := by
    simp [denserParts]
  rw [triedParts, if_pos rfl, hdenser, List.find?_append, List.find?_map] at h
  cases hfound : densities.find? (fun d => known (base ++ dirs ++ [.name d, .name name])) with
  | none =>
    rw [Function.comp_def, hfound, Option.map_none, Option.none_or] at h
    have hplain := List.mem_singleton.1 (List.mem_of_find?_eq_some h)
    have hlength := congrArg List.length hplain
    simp at hlength
  | some d =>
    rw [Function.comp_def, hfound] at h
    simpa using h

/-- How a logical path is spelled makes no difference to what is found for it; all that is tried is
below the base; and nothing denser exists than a variant that is found. -/
theorem locate?_of_components (store : FileStore) (hb : base.isAbsolute = true) (dense : Bool) :
    (∀ logical other : String, logical ≠ "" → other ≠ "" →
      named logical.toList = named other.toList →
        (locate? store.contains base logical dense).map Path.components =
          (locate? store.contains base other dense).map Path.components) ∧
    (∀ logical, probes store.contains base logical dense ⊆ candidates base logical dense ∧
      ∀ p ∈ candidates base logical dense, p.startsWith base = true) ∧
    (dense = true → ∀ logical dirs name density p,
      named logical.toList = dirs ++ [.name name] →
      locate? store.contains base logical dense = some p →
      p.components = base.components ++ dirs ++ [.name density, .name name] →
        ∀ higher ∈ densities, tenths density < tenths higher → ∀ q : Path,
          q.components = base.components ++ dirs ++ [.name higher, .name name] →
            store.contains q = false) := by
  refine ⟨?_, ?_, ?_⟩
  · intro logical other hl ho hsame
    rw [map_locate? hb store hl, map_locate? hb store ho, hsame]
  · intro logical
    exact ⟨fun _ => mem_candidates_of_mem_probes, fun _ => startsWith_of_mem_candidates hb⟩
  · rintro rfl logical dirs name density p hnamed hlocate hp higher hhigher hlt q hq
    have hne : logical ≠ "" := by
      rintro rfl
      cases hlocate
    have hfound := map_locate? hb store hne true
    rw [hlocate, Option.map_some, hp, hnamed] at hfound
    have hdensity := find?_triedParts hfound.symm
    have hdenser : higher ≠ density := by
      rintro rfl
      exact Nat.lt_irrefl _ hlt
    have hnot := find?_of_pairwise densest_first hdensity hhigher hdenser (Nat.not_lt.2 hlt.le)
    rw [FileStore.contains, FileStore.lookup?, hq]
    exact hnot

theorem locate?_of_components_respelled :
    let store := ((FileStore.empty.insert ⟨"/app/a/icon.png"⟩ "").2.insert
      ⟨"/app/a/2.0x/icon.png"⟩ "").2
    let logical := "//a/.//icon.png/"
    (⟨"/app/"⟩ : Path).isAbsolute = true ∧
      named logical.toList = named "./a/icon.png".toList ∧
      locate? store.contains ⟨"/app/"⟩ logical true = some ⟨"/app/a/2.0x/icon.png"⟩ ∧
      (locate? store.contains ⟨"/app/"⟩ logical true).map Path.components =
        (locate? store.contains ⟨"/app/"⟩ "./a/icon.png" true).map Path.components ∧
      (∀ p ∈ candidates ⟨"/app/"⟩ logical true, p.startsWith ⟨"/app/"⟩ = true) ∧
      tenths "2.0x" < tenths "3.0x" ∧ store.contains ⟨"/app/a/3.0x/icon.png"⟩ = false := by
  intro store logical
  have hb : (⟨"/app/"⟩ : Path).isAbsolute = true := by decide
  have hsame : named logical.toList = named "./a/icon.png".toList := by decide +kernel
  have hlocate : locate? store.contains ⟨"/app/"⟩ logical true = some ⟨"/app/a/2.0x/icon.png"⟩ := by
    decide +kernel
  obtain ⟨hspelling, hbelow, hdensest⟩ := locate?_of_components store hb true
  refine ⟨hb, hsame, hlocate, hspelling _ _ (by decide) (by decide) hsame, (hbelow logical).2,
    by decide, ?_⟩
  exact hdensest rfl logical [.name "a"] "icon.png" "2.0x" _ (by decide +kernel) hlocate
    (by decide +kernel) "3.0x" (by decide) (by decide) _ (by decide +kernel)

end CrossReference.Asset
