import CrossReference.Path
import Mathlib.Data.List.DropRight

namespace CrossReference.Path

theorem isSame_iff {p q : Path} : p.isSame q = true ↔ p.components = q.components :=
  beq_iff_eq

theorem splitSlash_ne_nil (cs : List Char) : splitSlash cs ≠ [] := by
  fun_cases splitSlash cs <;> simp

theorem splitSlash_append (cs rest : List Char) :
    splitSlash (cs ++ '/' :: rest) = splitSlash cs ++ splitSlash rest := by
  induction cs with
  | nil => simp [splitSlash]
  | cons c cs ih =>
    by_cases hc : c = '/'
    · simp [splitSlash, hc, ih]
    · obtain ⟨part, parts, hparts⟩ := List.exists_cons_of_ne_nil (splitSlash_ne_nil cs)
      simp [splitSlash, hc, ih, hparts]

theorem splitSlash_of_not_mem {part : List Char} (h : '/' ∉ part) : splitSlash part = [part] := by
  induction part with
  | nil => rfl
  | cons c cs ih =>
    have hc : c ≠ '/' := Ne.symm (List.ne_of_not_mem_cons h)
    simp [splitSlash, hc, ih (List.not_mem_of_not_mem_cons h)]

theorem not_mem_of_mem_splitSlash {cs part : List Char} (h : part ∈ splitSlash cs) :
    '/' ∉ part := by
  induction cs generalizing part with
  | nil =>
    obtain rfl := List.mem_singleton.1 h
    exact List.not_mem_nil
  | cons c cs ih =>
    by_cases hc : c = '/'
    · rw [splitSlash, if_pos hc] at h
      rcases List.mem_cons.1 h with rfl | h
      · exact List.not_mem_nil
      · exact ih h
    · obtain ⟨first, parts, hparts⟩ := List.exists_cons_of_ne_nil (splitSlash_ne_nil cs)
      rw [splitSlash, if_neg hc, hparts] at h
      rw [hparts] at ih
      rcases List.mem_cons.1 h with rfl | h
      · exact List.not_mem_cons_of_ne_of_not_mem (Ne.symm hc) (ih List.mem_cons_self)
      · exact ih (List.mem_cons_of_mem _ h)

theorem splitSlash_joinSlash {parts : List (List Char)} (hne : parts ≠ [])
    (h : ∀ part ∈ parts, '/' ∉ part) : splitSlash (joinSlash parts) = parts := by
  induction parts with
  | nil => exact absurd rfl hne
  | cons part parts ih =>
    have hpart := splitSlash_of_not_mem (h part List.mem_cons_self)
    cases parts with
    | nil => exact hpart
    | cons next rest =>
      have hrest := ih (List.cons_ne_nil _ _) fun p hp => h p (List.mem_cons_of_mem _ hp)
      rw [joinSlash, splitSlash_append, hpart, hrest]
      · rfl
      · simp

theorem joinSlash_splitSlash (cs : List Char) : joinSlash (splitSlash cs) = cs := by
  induction cs with
  | nil => rfl
  | cons c cs ih =>
    obtain ⟨part, parts, hparts⟩ := List.exists_cons_of_ne_nil (splitSlash_ne_nil cs)
    rw [hparts] at ih
    by_cases hc : c = '/'
    · simp [splitSlash, hc, hparts, joinSlash, ih]
    · rw [splitSlash, if_neg hc, hparts, ← ih]
      cases parts <;> rfl

theorem joinSlash_isPrefix_append (parts rest : List (List Char)) :
    joinSlash parts <+: joinSlash (parts ++ rest) := by
  induction parts with
  | nil => exact List.nil_prefix
  | cons part parts ih =>
    cases parts with
    | nil =>
      cases rest with
      | nil => exact List.prefix_rfl
      | cons next rest => exact List.prefix_append _ _
    | cons next parts =>
      exact (List.prefix_append_right_inj _).2 (List.cons_prefix_cons.2 ⟨rfl, ih⟩)

def named (cs : List Char) : List Component :=
  ((splitSlash cs).filter (!isIgnored ·)).map partComponent

theorem named_append (cs rest : List Char) :
    named (cs ++ '/' :: rest) = named cs ++ named rest := by
  simp [named, splitSlash_append]

@[simp] theorem named_nil : named [] = [] := rfl

theorem named_slash (cs : List Char) : named ('/' :: cs) = named cs := by
  simpa using named_append [] cs

theorem named_dropWhile (cs : List Char) : named (cs.dropWhile (· == '/')) = named cs := by
  induction cs with
  | nil => rfl
  | cons c cs ih =>
    by_cases hc : c = '/'
    · simp [hc, ih, named_slash]
    · simp [hc]

theorem named_eq (p : Path) :
    named p.text.toList = (p.parts.filter (!isIgnored ·)).map partComponent := by
  rw [parts]
  generalize p.text.toList = cs
  fun_cases head cs
  · simp [named, splitSlash, isIgnored]
  · rfl
  · simp [named, splitSlash, isIgnored]
  · rfl

theorem components_eq (p : Path) :
    p.components = headComponent (head p.text.toList) ++ named p.text.toList := by
  rw [named_eq, components]

theorem components_of_isAbsolute {p : Path} (h : p.isAbsolute = true) :
    p.components = .root :: named p.text.toList := by
  rw [components_eq]
  rw [isAbsolute, beq_iff_eq] at h
  obtain ⟨rest, hrest⟩ := List.head?_eq_some_iff.1 h
  rw [hrest]
  rfl

theorem exists_lead_join {p q : Path} (hp : p.text ≠ "") (hq : q.isAbsolute = false) :
    ∃ lead, named lead = named p.text.toList ∧
      (p.join q).text.toList = lead ++ '/' :: q.text.toList ∧
      (lead ++ ['/']).head? = p.text.toList.head? := by
  have hempty : p.text.isEmpty = false := by simpa using hp
  by_cases hlast : p.text.toList.getLast? = some '/'
  · obtain ⟨lead, hlead⟩ := List.getLast?_eq_some_iff.1 hlast
    refine ⟨lead, ?_, ?_, by rw [hlead]⟩
    · rw [hlead, named_append, named_nil, List.append_nil]
    · simp [join, hq, hlead]
  · refine ⟨p.text.toList, rfl, ?_, ?_⟩
    · simp [join, hq, hempty, hlast]
    · have hne : p.text.toList ≠ [] := by simpa using hp
      rw [List.head?_append_of_ne_nil _ hne]

variable {p q : Path}

theorem isAbsolute_iff : p.isAbsolute = true ↔ p.text.toList.head? = some '/' :=
  beq_iff_eq

theorem ne_empty_of_isAbsolute (hp : p.isAbsolute = true) : p.text ≠ "" := by
  intro h
  simp [isAbsolute, h] at hp

theorem isAbsolute_join (hp : p.isAbsolute = true) (hq : q.isAbsolute = false) :
    (p.join q).isAbsolute = true := by
  obtain ⟨lead, -, htext, hhead⟩ := exists_lead_join (ne_empty_of_isAbsolute hp) hq
  rw [isAbsolute_iff] at hp ⊢
  rw [htext, ← hp, ← hhead]
  cases lead <;> rfl

theorem components_join (hp : p.isAbsolute = true) (hq : q.isAbsolute = false) :
    (p.join q).components = p.components ++ named q.text.toList := by
  obtain ⟨lead, hlead, htext, -⟩ := exists_lead_join (ne_empty_of_isAbsolute hp) hq
  rw [components_of_isAbsolute (isAbsolute_join hp hq), components_of_isAbsolute hp, htext,
    named_append, hlead, List.cons_append]

theorem named_joinSlash {kept : List (List Char)} (h : ∀ part ∈ kept, '/' ∉ part) :
    named (joinSlash kept) = (kept.filter (!isIgnored ·)).map partComponent := by
  by_cases hne : kept = []
  · rw [hne]
    rfl
  · rw [named, splitSlash_joinSlash hne h]

theorem head_append_parts (p : Path) :
    head p.text.toList ++ joinSlash p.parts = p.text.toList := by
  rw [parts, joinSlash_splitSlash]
  fun_cases head p.text.toList <;> simp_all

theorem named_dot {kept tail : List (List Char)} (h : kept <+: [] :: tail)
    (hslash : ∀ part ∈ kept, '/' ∉ part) :
    named ('.' :: joinSlash kept) = (kept.filter (!isIgnored ·)).map partComponent := by
  rw [← named_joinSlash hslash]
  match kept with
  | [] => rfl
  | part :: more =>
    obtain ⟨rfl, -⟩ := List.cons_prefix_cons.1 h
    cases more with
    | nil => rfl
    | cons next more => exact (named_append ['.'] _).trans (named_slash _).symm

theorem named_front {kept : List (List Char)} (h : kept <+: p.parts) :
    named (head p.text.toList ++ joinSlash kept) =
      (kept.filter (!isIgnored ·)).map partComponent := by
  have hslash : ∀ part ∈ kept, '/' ∉ part := fun part hpart =>
    not_mem_of_mem_splitSlash (h.subset hpart)
  rw [parts] at h
  generalize p.text.toList = cs at h
  fun_cases head cs with
  | case1 rest => exact (named_slash _).trans (named_joinSlash hslash)
  | case2 => exact named_dot h hslash
  | case3 rest => exact named_dot h hslash
  | case4 => exact named_joinSlash hslash

theorem dropIgnored_eq (parts : List (List Char)) :
    dropIgnored parts = parts.rdropWhile isIgnored := rfl

theorem filter_dropIgnored (parts : List (List Char)) :
    (dropIgnored parts).filter (!isIgnored ·) = parts.filter (!isIgnored ·) := by
  induction parts using List.reverseRecOn with
  | nil => rfl
  | append_singleton parts part ih =>
    rw [dropIgnored_eq, List.rdropWhile_concat]
    split
    · next hpart =>
      rw [← dropIgnored_eq, ih]
      simp [hpart]
    · rfl

theorem last_dropIgnored {parts before : List (List Char)} {part : List Char}
    (h : dropIgnored parts = before ++ [part]) : isIgnored part = false := by
  have hne : parts.rdropWhile isIgnored ≠ [] := by
    rw [← dropIgnored_eq, h]
    simp
  have hlast := List.rdropWhile_last_not isIgnored parts hne
  simpa [← dropIgnored_eq, h] using hlast

theorem dropIgnored_isPrefix (parts : List (List Char)) : dropIgnored parts <+: parts :=
  List.rdropWhile_prefix isIgnored parts

theorem exists_directory (p : Path) :
    (named p.text.toList = [] ∧ p.fileName? = none) ∨
    ∃ dir part, p.parent? = some dir ∧ part ∈ p.parts ∧ isIgnored part = false ∧
      dir.text.toList <+: p.text.toList ∧
      named p.text.toList = named dir.text.toList ++ [partComponent part] ∧
      p.fileName? = if part = ['.', '.'] then none else some (String.ofList part) := by
  have hkept := dropIgnored_isPrefix p.parts
  have hnamed := named_eq p
  rw [← filter_dropIgnored] at hnamed
  rcases List.eq_nil_or_concat' (dropIgnored p.parts) with hnil | ⟨before, part, hconcat⟩
  · refine .inl ⟨?_, ?_⟩
    · rw [hnamed, hnil]
      rfl
    · rw [fileName?, hnil]
      rfl
  · have hpart := last_dropIgnored hconcat
    rw [hconcat] at hkept hnamed
    have hbefore : dropIgnored before <+: p.parts :=
      (dropIgnored_isPrefix before).trans ((List.prefix_append before [part]).trans hkept)
    let dir : Path := ⟨String.ofList (head p.text.toList ++ joinSlash (dropIgnored before))⟩
    refine .inr ⟨dir, part, ?_, hkept.subset (by simp), hpart, ?_, ?_, ?_⟩
    · simp [parent?, hconcat, dir]
    · obtain ⟨rest, hrest⟩ := hbefore
      have hjoin := joinSlash_isPrefix_append (dropIgnored before) rest
      rw [hrest] at hjoin
      have htext := (List.prefix_append_right_inj (head p.text.toList)).2 hjoin
      rw [head_append_parts] at htext
      simpa [dir] using htext
    · have hdir : named dir.text.toList =
          (before.filter (!isIgnored ·)).map partComponent := by
        rw [← filter_dropIgnored, ← named_front hbefore, String.toList_ofList]
      rw [hnamed, hdir]
      simp [hpart]
    · simp [fileName?, hconcat]

structure IsFileName (name : String) : Prop where
  ne_empty : name ≠ ""
  ne_current : name ≠ "."
  ne_up : name ≠ ".."
  no_slash : '/' ∉ name.toList

instance (name : String) : Decidable (IsFileName name) :=
  decidable_of_iff (name ≠ "" ∧ name ≠ "." ∧ name ≠ ".." ∧ '/' ∉ name.toList)
    ⟨fun ⟨h₁, h₂, h₃, h₄⟩ => ⟨h₁, h₂, h₃, h₄⟩, fun ⟨h₁, h₂, h₃, h₄⟩ => ⟨h₁, h₂, h₃, h₄⟩⟩

theorem isFileName_of_part {part : List Char} (hmem : part ∈ p.parts)
    (hpart : isIgnored part = false) (hup : part ≠ ['.', '.']) :
    IsFileName (String.ofList part) := by
  have hpart : part ≠ [] ∧ part ≠ ['.'] := by simpa [isIgnored] using hpart
  refine ⟨?_, ?_, ?_, ?_⟩
  · simpa [← String.toList_inj] using hpart.1
  · simpa [← String.toList_inj] using hpart.2
  · simpa [← String.toList_inj] using hup
  · simpa using not_mem_of_mem_splitSlash hmem

namespace IsFileName

variable {name : String}

theorem isAbsolute (h : IsFileName name) : (⟨name⟩ : Path).isAbsolute = false := by
  rw [Bool.eq_false_iff, Ne, isAbsolute_iff]
  exact fun hhead => h.no_slash (List.mem_of_head? hhead)

theorem named (h : IsFileName name) : named name.toList = [.name name] := by
  have hpart : isIgnored name.toList = false := by
    have hcurrent : name.toList ≠ ['.'] := by simpa [← String.toList_inj] using h.ne_current
    simpa [isIgnored, hcurrent] using h.ne_empty
  have hup : name.toList ≠ ['.', '.'] := by simpa [← String.toList_inj] using h.ne_up
  simp [Path.named, splitSlash_of_not_mem h.no_slash, hpart, partComponent, hup]

end IsFileName

theorem components_join_name {name : String} (hp : p.isAbsolute = true) (h : IsFileName name) :
    (p.join ⟨name⟩).isAbsolute = true ∧
      (p.join ⟨name⟩).components = p.components ++ [.name name] :=
  ⟨isAbsolute_join hp h.isAbsolute, (components_join hp h.isAbsolute).trans (by rw [h.named])⟩

end CrossReference.Path
