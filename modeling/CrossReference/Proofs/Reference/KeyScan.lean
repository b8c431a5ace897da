import CrossReference.Proofs.Json.Grammar
import CrossReference.Proofs.Reference.Landing
import CrossReference.Reference.Catalog

/-!
The scan for a key of a catalog and the grammar of its text. Within a value the scan finds nothing,
whatever is nested or quoted there, so it stops at the first key of the object itself that is
written as the key it looks for.
-/

namespace CrossReference.Catalog

open Json (Blank Body Digits Fraction Exponent Numeral Spells Element Elements Member Members Placed
  Laid)
open Text (trimStart isBlank)
open String

variable {key : List Char} {depth : Nat}

def Apart (rest : List Char) : Prop := (trimStart rest).head? ≠ some ':'

def Passes (key : List Char) (depth : Nat) (cs : List Char) : Prop :=
  ∀ offset rest, Apart rest →
    scanKey key .between depth offset (cs ++ rest) =
      scanKey key .between depth (offset + utf8Len cs) rest

def Inert (c : Char) : Prop := c ≠ '"' ∧ ∀ depth, depthAfter depth c = depth

theorem inert_iff {c : Char} : Inert c ↔
    c ≠ '"' ∧ c ≠ '{' ∧ c ≠ '[' ∧ c ≠ '}' ∧ c ≠ ']' := by
  constructor
  · rintro ⟨hquote, hdepth⟩
    refine ⟨hquote, ?_, ?_, ?_, ?_⟩ <;> rintro rfl <;> exact absurd (hdepth 1) (by decide)
  · rintro ⟨hquote, hbrace, hbracket, hbrace', hbracket'⟩
    exact ⟨hquote, fun depth => by simp [depthAfter, *]⟩

theorem inert_of_isSpace {c : Char} (h : Json.isSpace c = true) : Inert c := by
  rw [inert_iff]
  refine ⟨?_, ?_, ?_, ?_, ?_⟩ <;> rintro rfl <;> exact absurd h (by decide)

theorem inert_of_isDigit {c : Char} (h : Decimal.isDigit c = true) : Inert c := by
  rw [inert_iff]
  refine ⟨?_, ?_, ?_, ?_, ?_⟩ <;> rintro rfl <;> exact absurd h (by decide)

theorem scanKey_inert {cs : List Char} (h : ∀ c ∈ cs, Inert c) (offset : Nat) (rest : List Char) :
    scanKey key .between depth offset (cs ++ rest) =
      scanKey key .between depth (offset + utf8Len cs) rest := by
  induction cs generalizing offset with
  | nil => rfl
  | cons c cs ih =>
    obtain ⟨hquote, hdepth⟩ := h c List.mem_cons_self
    rw [List.cons_append, scanKey, if_neg hquote, hdepth,
      ih (fun d hd => h d (List.mem_cons_of_mem _ hd)), utf8Len_cons,
      Nat.add_assoc, Nat.add_comm c.utf8Size]

theorem passes_inert {cs : List Char} (h : ∀ c ∈ cs, Inert c) : Passes key depth cs :=
  fun offset rest _ => scanKey_inert h offset rest

theorem scanKey_body {cs : List Char} (h : Body cs) (start offset : Nat) (read rest : List Char) :
    scanKey key (.within start read false) depth offset (cs ++ '"' :: rest) =
      if depth = 1 ∧ read.reverse ++ cs = key ∧ (trimStart rest).head? = some ':' then
        some ⟨start, offset + utf8Len cs + 1⟩
      else scanKey key .between depth (offset + utf8Len cs + 1) rest := by
  induction h generalizing read offset with
  | nil => simp [scanKey]
  | @plain c cs hquote hslash _ _ ih =>
    rw [List.cons_append, scanKey, if_neg hquote, beq_false_of_ne hslash, ih]
    simp [Nat.add_assoc, Nat.add_comm, Nat.add_left_comm]
  | @simple c cs _ _ ih =>
    rw [List.cons_append, List.cons_append, scanKey, if_neg (by decide)]
    rw [beq_self_eq_true, scanKey, ih]
    simp [Nat.add_assoc, Nat.add_comm, Nat.add_left_comm]
  | @unit cs _ _ ih =>
    rw [List.cons_append, List.cons_append, scanKey, if_neg (by decide)]
    rw [beq_self_eq_true, scanKey, ih]
    simp [Nat.add_assoc, Nat.add_comm, Nat.add_left_comm]

theorem scanKey_string {cs : List Char} (h : Body cs) (offset : Nat) (rest : List Char) :
    scanKey key .between depth offset ('"' :: cs ++ '"' :: rest) =
      if depth = 1 ∧ cs = key ∧ (trimStart rest).head? = some ':' then
        some ⟨offset, offset + utf8Len cs + 2⟩
      else scanKey key .between depth (offset + utf8Len cs + 2) rest := by
  have hstop : offset + 1 + utf8Len cs + 1 = offset + utf8Len cs + 2 := by omega
  rw [List.cons_append, scanKey, if_pos rfl, scanKey_body h, hstop]
  rfl

theorem inert_of_digits {ds : List Nat} {cs : List Char} (h : Digits ds cs) : ∀ c ∈ cs, Inert c :=
  fun c hc => inert_of_isDigit (h.2.1 c hc)

theorem inert_of_fraction {ds : List Nat} {cs : List Char} (h : Fraction ds cs) :
    ∀ c ∈ cs, Inert c := by
  cases h with
  | absent => simp
  | point h => exact List.forall_mem_cons.2 ⟨inert_iff.2 (by decide), inert_of_digits h⟩

theorem inert_of_exponent {n : Int} {cs : List Char} (h : Exponent n cs) : ∀ c ∈ cs, Inert c := by
  have hmark : ∀ e : Char, e = 'e' ∨ e = 'E' → Inert e := by
    rintro e (rfl | rfl) <;> exact inert_iff.2 (by decide)
  have hplus : Inert '+' := inert_iff.2 (by decide)
  have hminus : Inert '-' := inert_iff.2 (by decide)
  cases h with
  | absent => simp
  | plain he h => exact List.forall_mem_cons.2 ⟨hmark _ he, inert_of_digits h⟩
  | plus he h =>
    exact List.forall_mem_cons.2 ⟨hmark _ he, List.forall_mem_cons.2 ⟨hplus, inert_of_digits h⟩⟩
  | minus he h =>
    exact List.forall_mem_cons.2 ⟨hmark _ he, List.forall_mem_cons.2 ⟨hminus, inert_of_digits h⟩⟩

theorem inert_of_numeral {n : JsonNumber} {cs : List Char} (h : Numeral n cs) :
    ∀ c ∈ cs, Inert c := by
  obtain ⟨hsign, hwhole, _, hfraction, hexponent⟩ := h
  have hminus : Inert '-' := inert_iff.2 (by decide)
  intro c hc
  simp only [List.mem_append] at hc
  rcases hc with ((hc | hc) | hc) | hc
  · rcases hsign with rfl | rfl
    · cases hc
    · exact List.mem_singleton.1 hc ▸ hminus
  · exact inert_of_digits hwhole c hc
  · exact inert_of_fraction hfraction c hc
  · exact inert_of_exponent hexponent c hc

theorem trimStart_append {gap : List Char} (h : Blank gap) (rest : List Char) :
    trimStart (gap ++ rest) = trimStart rest := by
  have hblank : ∀ c ∈ gap, isBlank c = true := by
    intro c hc
    have hspace := h c hc
    simp only [Json.isSpace, Bool.or_eq_true, beq_iff_eq] at hspace
    rcases hspace with ((rfl | rfl) | rfl) | rfl <;> rfl
  exact List.dropWhile_append_of_pos hblank

theorem Apart.gap {gap rest : List Char} (h : Blank gap) (hrest : Apart rest) :
    Apart (gap ++ rest) := by
  rwa [Apart, trimStart_append h]

theorem apart_cons {c : Char} (hblank : isBlank c = false) (hcolon : c ≠ ':') (rest : List Char) :
    Apart (c :: rest) := by
  rw [Apart, trimStart, List.dropWhile_cons_of_neg (by simp [hblank]), List.head?_cons]
  exact fun h => hcolon (Option.some.inj h)

theorem Passes.append {cs ds : List Char} (hcs : Passes key depth cs) (hds : Passes key depth ds)
    (h : ∀ rest, Apart rest → Apart (ds ++ rest)) : Passes key depth (cs ++ ds) := by
  intro offset rest hrest
  rw [List.append_assoc, hcs _ _ (h _ hrest), hds _ _ hrest, utf8Len_append, Nat.add_assoc]

theorem Passes.after {cs ds : List Char} (hds : ∀ c ∈ ds, Inert c) (hcs : Passes key depth cs) :
    Passes key depth (ds ++ cs) := by
  intro offset rest hrest
  rw [List.append_assoc, scanKey_inert hds, hcs _ _ hrest, utf8Len_append, Nat.add_assoc]

theorem utf8Len_enclosed {l r : Char} (hl : l.utf8Size = 1) (hr : r.utf8Size = 1)
    (cs : List Char) : utf8Len (l :: cs ++ [r]) = utf8Len cs + 2 := by
  simp [hl, hr]

theorem passes_string {cs : List Char} (h : Body cs) : Passes key depth ('"' :: cs ++ ['"']) := by
  intro offset rest hrest
  rw [utf8Len_enclosed rfl rfl, List.append_assoc]
  exact (scanKey_string h offset rest).trans (if_neg fun hkey => hrest hkey.2.2)

theorem Passes.enclosed {l r : Char} {cs : List Char}
    (hlr : l = '{' ∧ r = '}' ∨ l = '[' ∧ r = ']') (h : Passes key (depth + 1) cs) :
    Passes key depth (l :: cs ++ [r]) := by
  intro offset rest _
  have hsize : l.utf8Size = 1 ∧ r.utf8Size = 1 := by
    rcases hlr with ⟨rfl, rfl⟩ | ⟨rfl, rfl⟩ <;> exact ⟨rfl, rfl⟩
  have hquote : l ≠ '"' ∧ r ≠ '"' := by
    rcases hlr with ⟨rfl, rfl⟩ | ⟨rfl, rfl⟩ <;> decide
  have hopen : depthAfter depth l = depth + 1 := by
    rcases hlr with ⟨rfl, rfl⟩ | ⟨rfl, rfl⟩ <;> rfl
  have hclose : depthAfter (depth + 1) r = depth := by
    rcases hlr with ⟨rfl, rfl⟩ | ⟨rfl, rfl⟩ <;> rfl
  have hapart : Apart (r :: rest) := by
    rcases hlr with ⟨rfl, rfl⟩ | ⟨rfl, rfl⟩ <;> exact apart_cons rfl (by decide) rest
  rw [utf8Len_enclosed hsize.1 hsize.2, List.append_assoc, List.cons_append, scanKey,
    if_neg hquote.1, hopen, hsize.1, List.singleton_append, h _ _ hapart, scanKey, if_neg hquote.2,
    hclose, hsize.2]
  congr 1
  omega

theorem inert_of_blank {gap : List Char} (h : Blank gap) : ∀ c ∈ gap, Inert c :=
  fun c hc => inert_of_isSpace (h c hc)

theorem inert_colon : ∀ c ∈ [':'], Inert c := by simp [inert_iff]

theorem inert_comma : ∀ c ∈ [','], Inert c := by simp [inert_iff]

theorem Passes.comma {cs ds : List Char} (hcs : Passes key depth cs) (hds : Passes key depth ds) :
    Passes key depth (cs ++ ',' :: ds) := by
  exact hcs.append (hds.after inert_comma) fun rest _ => apart_cons rfl (by decide) _

theorem scanKey_name {before name middle : List Char} (hbefore : Blank before) (hname : Body name)
    (hmiddle : Blank middle) (offset : Nat) (rest : List Char) :
    scanKey key .between depth offset (before ++ '"' :: name ++ '"' :: middle ++ ':' :: rest) =
      if depth = 1 ∧ name = key then
        some ⟨offset + utf8Len before, offset + utf8Len before + utf8Len name + 2⟩
      else
        scanKey key .between depth
          (offset + utf8Len (before ++ '"' :: name ++ '"' :: middle ++ [':'])) rest := by
  have hcolon : (trimStart (middle ++ ':' :: rest)).head? = some ':' := by
    rw [trimStart_append hmiddle]
    rfl
  have hgap : ∀ c ∈ middle ++ [':'], Inert c := by
    intro c hc
    rcases List.mem_append.1 hc with hc | hc
    · exact inert_of_blank hmiddle c hc
    · exact inert_colon c hc
  have hsplit : before ++ '"' :: name ++ '"' :: middle ++ ':' :: rest =
      before ++ ('"' :: name ++ '"' :: (middle ++ [':'] ++ rest)) := by simp
  have hsize : utf8Len (before ++ '"' :: name ++ '"' :: middle ++ [':']) =
      utf8Len before + utf8Len name + 2 + utf8Len (middle ++ [':']) := by
    simp only [utf8Len_append, utf8Len_cons, utf8Len_nil]
    have hquote : '"'.utf8Size = 1 := rfl
    omega
  rw [hsplit, scanKey_inert (inert_of_blank hbefore), scanKey_string hname]
  split
  · next h => rw [if_pos ⟨h.1, h.2.1⟩]
  · next h =>
    rw [if_neg (fun hkey => h ⟨hkey.1, hkey.2, by simpa using hcolon⟩), scanKey_inert hgap, hsize]
    simp only [Nat.add_assoc]

-- By induction on the writing. Below the top level no string is taken for a key, so a value is
-- passed over whatever it holds.
mutual

theorem passes_of_spells {depth : Nat} {j : Json} {cs : List Char} :
    Spells j cs → Passes key (depth + 1) cs
  | .null => passes_inert (by simp [inert_iff])
  | .true => passes_inert (by simp [inert_iff])
  | .false => passes_inert (by simp [inert_iff])
  | .number h => passes_inert (inert_of_numeral h)
  | .string h => passes_string h
  | .emptyArray h => .enclosed (.inr ⟨rfl, rfl⟩) (passes_inert (inert_of_blank h))
  | .array h => .enclosed (.inr ⟨rfl, rfl⟩) (passes_of_elements h)
  | .emptyObject h => .enclosed (.inl ⟨rfl, rfl⟩) (passes_inert (inert_of_blank h))
  | .object h => .enclosed (.inl ⟨rfl, rfl⟩) (passes_of_members h)

theorem passes_of_element {depth : Nat} {j : Json} {cs : List Char} :
    Element j cs → Passes key (depth + 1) cs
  | .mk hbefore hspells hafter =>
    ((passes_of_spells hspells).after (inert_of_blank hbefore)).append
      (passes_inert (inert_of_blank hafter)) fun _ => Apart.gap hafter

theorem passes_of_elements {depth : Nat} {js : List Json} {cs : List Char} :
    Elements js cs → Passes key (depth + 1) cs
  | .one h => passes_of_element h
  | .more h hrest => (passes_of_element h).comma (passes_of_elements hrest)

theorem passes_of_member {depth : Nat} {start : Nat} {e : Placed} {cs : List Char} :
    Member start e cs → Passes key (depth + 2) cs
  | .mk hbefore hkey hmiddle hvalue => by
    intro offset rest hrest
    rw [List.append_assoc, List.cons_append, scanKey_name hbefore hkey hmiddle,
      if_neg (by omega), passes_of_element hvalue _ _ hrest]
    simp [Nat.add_assoc, Nat.add_comm, Nat.add_left_comm]

theorem passes_of_members {depth : Nat} {start : Nat} {entries : List Placed} {cs : List Char} :
    Members start entries cs → Passes key (depth + 2) cs
  | .one h => passes_of_member h
  | .more h hrest => (passes_of_member h).comma (passes_of_members hrest)

end

theorem scanKey_member {start : Nat} {e : Placed} {cs : List Char} (h : Member start e cs)
    {rest : List Char} (hrest : Apart rest) :
    scanKey key .between 1 start (cs ++ rest) =
      if e.key = key then some e.range
      else scanKey key .between 1 (start + utf8Len cs) rest := by
  obtain ⟨hbefore, hname, hmiddle, hvalue⟩ := h
  rw [List.append_assoc, List.cons_append, scanKey_name hbefore hname hmiddle,
    passes_of_element hvalue _ _ hrest]
  simp [Placed.range, Nat.add_assoc, Nat.add_comm, Nat.add_left_comm]

theorem scanKey_members {start : Nat} {cs : List Char} (rest : List Char) :
    {entries : List Placed} → Members start entries cs →
    scanKey key .between 1 start (cs ++ '}' :: rest) =
      ((entries.find? (·.key = key)).map Placed.range).or
        (scanKey key .between 1 (start + utf8Len cs) ('}' :: rest))
  | _, .one h => by
    rw [scanKey_member h (apart_cons rfl (by decide) rest)]
    split <;> simp [*]
  | _, @Members.more _ e _ cs others h hrest => by
    have hcomma : scanKey key .between 1 (start + utf8Len cs) (',' :: (others ++ '}' :: rest)) =
        scanKey key .between 1 (start + utf8Len cs + 1) (others ++ '}' :: rest) :=
      scanKey_inert inert_comma _ _
    have hsize : start + utf8Len (cs ++ ',' :: others) =
        start + utf8Len cs + 1 + utf8Len others := by
      have hone : ','.utf8Size = 1 := rfl
      simp only [utf8Len_append, utf8Len_cons]
      omega
    rw [List.append_assoc, List.cons_append, scanKey_member h (apart_cons rfl (by decide) _)]
    split
    · simp [*]
    · next hkey =>
      rw [hcomma, scanKey_members rest hrest, List.find?_cons_of_neg (by simpa using hkey), hsize]

theorem scanKey_end {after : List Char} (h : Blank after) (offset : Nat) :
    scanKey key .between 1 offset ('}' :: after) = none := by
  rw [scanKey, if_neg (by decide), ← List.append_nil after]
  exact scanKey_inert (inert_of_blank h) _ []

theorem keyRange?_of_laid {text : String} {entries : List Placed} (h : Laid text entries)
    (key : String) :
    keyRange? text key = (entries.find? (·.key = key.toList)).map Placed.range := by
  obtain ⟨before, cs, after, hbefore, hafter, htext, hcs⟩ := h
  rw [keyRange?, htext, List.append_assoc, scanKey_inert (inert_of_blank hbefore),
    List.cons_append, scanKey, if_neg (by decide)]
  change scanKey _ .between 1 (0 + utf8Len before + 1) _ = _
  rw [Nat.zero_add]
  rcases hcs with ⟨rfl, hblank⟩ | hmembers
  · rw [scanKey_inert (inert_of_blank hblank), scanKey_end hafter]
    rfl
  · rw [scanKey_members after hmembers, scanKey_end hafter, Option.or_none]

theorem exists_split_of_member {start : Nat} {e : Placed} {cs : List Char} (h : Member start e cs) :
    ∃ before after, cs = before ++ '"' :: e.key ++ '"' :: after ∧
      e.start = start + utf8Len before := by
  obtain ⟨_, _, _, _⟩ := h
  exact ⟨_, _, List.append_assoc _ _ _, rfl⟩

theorem exists_split_of_members {cs : List Char} {e : Placed} :
    {start : Nat} → {entries : List Placed} → Members start entries cs → e ∈ entries →
    ∃ before after, cs = before ++ '"' :: e.key ++ '"' :: after ∧
      e.start = start + utf8Len before
  | _, _, .one h, he => by
    obtain rfl := List.mem_singleton.1 he
    exact exists_split_of_member h
  | _, _, @Members.more start first _ cs others h hrest, he => by
    rcases List.mem_cons.1 he with rfl | he
    · obtain ⟨before, after, rfl, hstart⟩ := exists_split_of_member h
      exact ⟨before, after ++ ',' :: others, by simp, hstart⟩
    · obtain ⟨before, after, rfl, hstart⟩ := exists_split_of_members hrest he
      refine ⟨cs ++ ',' :: before, after, by simp, ?_⟩
      have hone : ','.utf8Size = 1 := rfl
      simp only [utf8Len_append, utf8Len_cons]
      omega

theorem reads_of_laid {text : String} {entries : List Placed} (h : Laid text entries) {e : Placed}
    (he : e ∈ entries) : Text.Reads text e.range (String.ofList ('"' :: e.key ++ ['"'])) := by
  obtain ⟨before, cs, after, _, _, htext, ⟨rfl, _⟩ | hmembers⟩ := h
  · cases he
  · obtain ⟨left, right, rfl, hstart⟩ := exists_split_of_members hmembers he
    refine ⟨String.ofList (before ++ '{' :: left),
      String.ofList (right ++ '}' :: after), ?_, ?_, ?_⟩
    · apply String.toList_injective
      rw [htext]
      simp
    · have hone : '{'.utf8Size = 1 := rfl
      rw [utf8ByteSize_ofList, utf8Len_append, utf8Len_cons]
      show e.start = _
      omega
    · rw [utf8ByteSize_ofList, utf8Len_enclosed rfl rfl]
      exact Nat.add_assoc _ _ _

theorem exists_laid_of_parse {text : String} {catalog : Catalog} (h : parse text = .ok catalog) :
    ∃ entries, Laid text entries ∧ Json.read? text = some (.object (entries.map Placed.pair)) := by
  unfold parse at h
  split at h
  · cases h
  · next document hread =>
    split at h
    · split at h
      · obtain ⟨entries, hlaid, rfl⟩ := Json.exists_laid_of_read? hread
        exact ⟨entries, hlaid, hread⟩
      · cases h
    · cases h

end CrossReference.Catalog
