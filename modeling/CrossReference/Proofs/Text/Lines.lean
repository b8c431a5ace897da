import CrossReference.Proofs.Text.Bytes
import CrossReference.Text.Position
import Mathlib.Data.List.Induction

namespace CrossReference.Text

def lastLineLength (bs : List UInt8) : Nat := (bs.reverse.takeWhile (· ≠ newline)).length

def Position.Precedes (p q : Position) : Prop := p.line < q.line ∨ p.line = q.line ∧ p.col < q.col

theorem lastLineLength_concat (bs : List UInt8) (b : UInt8) :
    lastLineLength (bs ++ [b]) = if b = newline then 0 else lastLineLength bs + 1 := by
  by_cases h : b = newline <;> simp [lastLineLength, h]

theorem lastLineLength_append {bs rest : List UInt8} (h : newline ∉ rest) :
    lastLineLength (bs ++ rest) = lastLineLength bs + rest.length := by
  have hrest : ∀ b ∈ rest.reverse, decide (b ≠ newline) = true := by
    intro b hb
    have hne : b ≠ newline := fun heq => h (heq ▸ List.mem_reverse.1 hb)
    exact decide_eq_true hne
  rw [lastLineLength, lastLineLength, List.reverse_append, List.takeWhile_append_of_pos hrest,
    List.length_append, List.length_reverse, Nat.add_comm]

def startsOf (offset : Nat) : List UInt8 → List Nat
  | [] => []
  | b :: bs =>
    if b = newline then (offset + 1) :: startsOf (offset + 1) bs else startsOf (offset + 1) bs

theorem startsOf_append (offset : Nat) (bs rest : List UInt8) :
    startsOf offset (bs ++ rest) = startsOf offset bs ++ startsOf (offset + bs.length) rest := by
  induction bs generalizing offset with
  | nil => rfl
  | cons b bs ih =>
    have hlength : offset + 1 + bs.length = offset + (b :: bs).length := by
      rw [List.length_cons]
      omega
    by_cases hb : b = newline <;> simp [startsOf, hb, ih, hlength]

theorem length_startsOf (offset : Nat) (bs : List UInt8) :
    (startsOf offset bs).length = bs.count newline := by
  induction bs generalizing offset with
  | nil => rfl
  | cons b bs ih => by_cases hb : b = newline <;> simp [startsOf, hb, ih]

theorem startsOf_eq_nil {bs : List UInt8} (h : newline ∉ bs) (offset : Nat) :
    startsOf offset bs = [] := by
  rw [← List.length_eq_zero_iff, length_startsOf, List.count_eq_zero_of_not_mem h]

theorem bounds_of_mem_startsOf {offset start : Nat} {bs : List UInt8}
    (h : start ∈ startsOf offset bs) : offset < start ∧ start ≤ offset + bs.length := by
  induction bs generalizing offset with
  | nil => cases h
  | cons b bs ih =>
    rw [List.length_cons]
    by_cases hb : b = newline
    · rw [startsOf, if_pos hb] at h
      rcases List.mem_cons.1 h with rfl | h
      · omega
      · have := ih h
        omega
    · rw [startsOf, if_neg hb] at h
      have := ih h
      omega

theorem startsAfter_eq (offset : Nat) (cs : List Char) :
    LineTable.startsAfter offset cs = startsOf offset (cs.flatMap String.utf8EncodeChar) := by
  induction cs generalizing offset with
  | nil => rfl
  | cons c cs ih =>
    rw [List.flatMap_cons, startsOf_append, String.length_utf8EncodeChar, ← ih]
    by_cases hc : c = '\n'
    · subst hc
      rfl
    · rw [startsOf_eq_nil (newline_not_mem hc), LineTable.startsAfter, if_neg hc, List.nil_append]

theorem takeWhile_startsOf (offset : Nat) (bs rest : List UInt8) :
    (startsOf offset (bs ++ rest)).takeWhile (· ≤ offset + bs.length) = startsOf offset bs := by
  have hbefore : ∀ start ∈ startsOf offset bs, decide (start ≤ offset + bs.length) = true :=
    fun start h => decide_eq_true (bounds_of_mem_startsOf h).2
  have hbehind : (startsOf (offset + bs.length) rest).takeWhile (· ≤ offset + bs.length) = [] := by
    cases hstarts : startsOf (offset + bs.length) rest with
    | nil => rfl
    | cons start starts =>
      have hlt := (bounds_of_mem_startsOf (hstarts ▸ List.mem_cons_self)).1
      exact List.takeWhile_cons_of_neg (by simpa using hlt)
  rw [startsOf_append, List.takeWhile_append_of_pos hbefore, hbehind, List.append_nil]

theorem exists_lastStart (offset : Nat) (bs : List UInt8) :
    ∃ start, (offset :: startsOf offset bs)[bs.count newline]? = some start ∧
      start + lastLineLength bs = offset + bs.length := by
  induction bs using List.reverseRecOn with
  | nil => exact ⟨offset, rfl, rfl⟩
  | append_singleton bs b ih =>
    obtain ⟨start, hstart, hcol⟩ := ih
    rw [startsOf_append, lastLineLength_concat]
    by_cases hb : b = newline
    · refine ⟨offset + bs.length + 1, ?_, ?_⟩
      · simp [startsOf, hb, ← length_startsOf offset bs]
      · simp [hb]
        omega
    · refine ⟨start, ?_, ?_⟩
      · simpa [startsOf, hb] using hstart
      · simp [hb]
        omega

namespace LineTable

variable {text : String}

theorem starts_ofText (text : String) : (ofText text).starts = 0 :: startsOf 0 (bytes text) := by
  rw [ofText, startsAfter_eq, bytes_eq]

theorem position_of_split {before behind : List UInt8} (h : bytes text = before ++ behind) :
    (ofText text).position before.length = ⟨before.count newline, lastLineLength before⟩ ∧
      ∃ start, (ofText text).starts[before.count newline]? = some start ∧
        start + lastLineLength before = before.length := by
  have hle : before.length ≤ (ofText text).length := by
    rw [ofText, ← length_bytes, h, List.length_append]
    exact Nat.le_add_right ..
  have hstarts := starts_ofText text
  obtain ⟨start, hstart, hcol⟩ := exists_lastStart 0 before
  have hline : ((ofText text).starts.takeWhile (· ≤ before.length)).length - 1 =
      before.count newline := by
    have htake := takeWhile_startsOf 0 before behind
    rw [Nat.zero_add] at htake
    rw [hstarts, h, List.takeWhile_cons_of_pos (by simp), htake, List.length_cons, length_startsOf,
      Nat.add_sub_cancel]
  have hget : (ofText text).starts[before.count newline]? = some start := by
    rw [hstarts, h, startsOf_append, ← List.cons_append, List.getElem?_append_left, hstart]
    rw [List.length_cons, length_startsOf]
    exact Nat.lt_succ_self _
  refine ⟨?_, start, hget, hcol.trans (Nat.zero_add _)⟩
  rw [position, Nat.min_eq_left hle]
  simp only [hline, List.getD_eq_getElem?_getD, hget, Option.getD_some]
  congr 1
  omega

theorem position_min (text : String) (o : Nat) :
    (ofText text).position (min o text.utf8ByteSize) = (ofText text).position o := by
  have hmin : min (min o text.utf8ByteSize) (ofText text).length = min o (ofText text).length :=
    (min_assoc ..).trans (congrArg _ (min_self _))
  simp only [position, hmin]

theorem position_of_le {o : Nat} (h : o ≤ text.utf8ByteSize) :
    (ofText text).position o =
        ⟨((bytes text).take o).count newline, lastLineLength ((bytes text).take o)⟩ ∧
      ∃ start, (ofText text).starts[((ofText text).position o).line]? = some start ∧
        start + ((ofText text).position o).col = o := by
  have hsplit := position_of_split (List.take_append_drop o (bytes text)).symm
  rw [List.length_take, length_bytes, Nat.min_eq_left h] at hsplit
  obtain ⟨hposition, hstart⟩ := hsplit
  rw [hposition]
  exact ⟨rfl, hstart⟩

theorem offset?_of_start {p : Position} {start : Nat}
    (hstart : (ofText text).starts[p.line]? = some start)
    (hle : start + p.col ≤ text.utf8ByteSize) (hsize : text.utf8ByteSize < UInt32.size) :
    (ofText text).offset? p = some (start + p.col) := by
  rw [offset?, hstart, Option.map_some, add32_of_lt (Nat.lt_of_le_of_lt hle hsize)]
  exact congrArg some (Nat.min_eq_left hle)

theorem lineCount_ofText (text : String) :
    (ofText text).lineCount = (bytes text).count newline + 1 := by
  rw [lineCount, starts_ofText, List.length_cons, length_startsOf]

theorem offset?_eq_none_iff {p : Position} :
    (ofText text).offset? p = none ↔ (ofText text).lineCount ≤ p.line := by
  rw [offset?, Option.map_eq_none_iff, List.getElem?_eq_none_iff, lineCount]

theorem position_precedes {o o' : Nat} (h : o < o') (hle : o' ≤ text.utf8ByteSize) :
    ((ofText text).position o).Precedes ((ofText text).position o') := by
  obtain ⟨hfirst, -⟩ := position_of_le (Nat.le_trans (Nat.le_of_lt h) hle)
  obtain ⟨hsecond, -⟩ := position_of_le hle
  have htake :
      (bytes text).take o' = (bytes text).take o ++ ((bytes text).drop o).take (o' - o) := by
    rw [← List.take_add, Nat.add_sub_cancel' (Nat.le_of_lt h)]
  rw [hfirst, hsecond, htake, Position.Precedes]
  generalize hbetween : ((bytes text).drop o).take (o' - o) = between
  have hlength : 0 < between.length := by
    rw [← hbetween, List.length_take, List.length_drop, length_bytes]
    omega
  simp only [List.count_append]
  by_cases hmem : newline ∈ between
  · have hcount := List.count_pos_iff.2 hmem
    exact .inl (by omega)
  · have hcount := List.count_eq_zero_of_not_mem hmem
    have hcol : lastLineLength ((bytes text).take o ++ between) =
        lastLineLength ((bytes text).take o) + between.length := lastLineLength_append hmem
    exact .inr ⟨by omega, by omega⟩

/-- Line and column of an offset, counted directly, and the way back: a column that was read off
a text does not wrap around. -/
theorem position_counts (text : String) :
    (∀ o, let before := (bytes text).take (min o text.utf8ByteSize)
      (ofText text).position o = ⟨before.count newline, lastLineLength before⟩) ∧
    (text.utf8ByteSize < UInt32.size → ∀ o,
      (ofText text).offset? ((ofText text).position o) = some (min o text.utf8ByteSize) ∧
      ∃ start, (ofText text).starts[((ofText text).position o).line]? = some start ∧
        start + ((ofText text).position o).col = min o text.utf8ByteSize) ∧
    (∀ o o', o < o' → o' ≤ text.utf8ByteSize →
      ((ofText text).position o).Precedes ((ofText text).position o')) ∧
    (ofText text).lineCount = (bytes text).count newline + 1 ∧
    ∀ p, (ofText text).offset? p = none ↔ (ofText text).lineCount ≤ p.line := by
  refine ⟨fun o => ?_, fun hsize o => ?_, fun _ _ => position_precedes, lineCount_ofText text,
    fun _ => offset?_eq_none_iff⟩
  · rw [← position_min]
    exact (position_of_le (Nat.min_le_right ..)).1
  · rw [← position_min]
    have hmin : min o text.utf8ByteSize ≤ text.utf8ByteSize := Nat.min_le_right ..
    obtain ⟨-, start, hstart, hcol⟩ := position_of_le hmin
    have hle := Nat.le_trans (Nat.le_of_eq hcol) hmin
    refine ⟨?_, start, hstart, hcol⟩
    rw [offset?_of_start hstart hle hsize, hcol]

theorem position_counts_past_end :
    let text := "é\nb"
    let index := ofText text
    text.utf8ByteSize < UInt32.size ∧ index.position 9 = ⟨1, 1⟩ ∧
      index.offset? ⟨1, 1⟩ = some 4 ∧ (index.position 2).Precedes (index.position 3) ∧
      index.offset? ⟨2, 0⟩ = none := by
  intro text index
  have hsize : text.utf8ByteSize < UInt32.size := by decide +kernel
  have hposition : index.position 9 = ⟨1, 1⟩ := by decide +kernel
  obtain ⟨-, hback, hprecedes, -, hnone⟩ := position_counts text
  have hoffset := (hback hsize 9).1
  rw [show (ofText text).position 9 = ⟨1, 1⟩ from hposition] at hoffset
  exact ⟨hsize, hposition, hoffset, hprecedes 2 3 (by decide) (by decide +kernel),
    (hnone ⟨2, 0⟩).2 (by decide +kernel)⟩

end LineTable

end CrossReference.Text
