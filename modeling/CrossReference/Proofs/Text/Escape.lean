import CrossReference.Proofs.Scanning.Delimiter
import CrossReference.Source.Parse
import Mathlib.Data.Nat.Digits.Defs

/-!
The pieces a text between quotes is read in: characters that mean themselves, and escapes. Beside
the escapes of the grammar some others are read: hexadecimal digits behind a sign, more of them
between braces than a code point needs, and a single one at the end of the text.
-/

namespace CrossReference.Source.Literal

structure Piece where
  text : List Char
  value : Char

def Denotes (ds : List Char) (c : Char) : Prop :=
  ∃ values : List Nat, ds.map hexDigit? = values.map some ∧
    Nat.ofDigits 16 values.reverse = c.toNat

namespace Piece

inductive Written : Piece → Prop where
  | plain {c : Char} : c ≠ '\\' → c ≠ '$' → Written ⟨[c], c⟩
  | single {c : Char} : c ≠ 'x' → c ≠ 'u' → Written ⟨['\\', c], simpleEscape c⟩
  | byte {ds : List Char} {c : Char} :
      ds.length = 2 → Denotes ds c → Written ⟨'\\' :: 'x' :: ds, c⟩
  | code {ds : List Char} {c : Char} :
      ds.length = 4 → Denotes ds c → Written ⟨'\\' :: 'u' :: ds, c⟩
  | braced {ds : List Char} {c : Char} :
      1 ≤ ds.length → ds.length ≤ 6 → Denotes ds c →
      Written ⟨'\\' :: 'u' :: '{' :: (ds ++ ['}']), c⟩

/-- The other pieces that are read, each in front of the rest of the text. -/
inductive Loose : Piece → List Char → Prop where
  | short {d c : Char} : Denotes [d] c → Loose ⟨['\\', 'x', d], c⟩ []
  | signedByte {d c : Char} {rest : List Char} :
      Denotes [d] c → Loose ⟨['\\', 'x', '+', d], c⟩ rest
  | signedCode {ds : List Char} {c : Char} {rest : List Char} :
      ds.length = 3 → Denotes ds c → Loose ⟨'\\' :: 'u' :: '+' :: ds, c⟩ rest
  | signedBraced {ds : List Char} {c : Char} {rest : List Char} :
      1 ≤ ds.length → Denotes ds c →
      Loose ⟨'\\' :: 'u' :: '{' :: '+' :: (ds ++ ['}']), c⟩ rest
  | long {ds : List Char} {c : Char} {rest : List Char} :
      6 < ds.length → Denotes ds c →
      Loose ⟨'\\' :: 'u' :: '{' :: (ds ++ ['}']), c⟩ rest

end Piece

def Spelled (cs vs : List Char) : Prop :=
  ∃ ps : List Piece, (∀ p ∈ ps, p.Written) ∧ cs = ps.flatMap Piece.text ∧ vs = ps.map Piece.value

inductive Reads : List Char → List Piece → Prop where
  | nil : Reads [] []
  | cons {p : Piece} {rest : List Char} {ps : List Piece} :
      p.Written ∨ p.Loose rest → Reads rest ps → Reads (p.text ++ rest) (p :: ps)

theorem hexDigits?_eq_some_iff {ds : List Char} {value n : Nat} :
    hexDigits? value ds = some n ↔
      ∃ values : List Nat, ds.map hexDigit? = values.map some ∧
        values.foldl (fun sum d => sum * 16 + d) value = n := by
  induction ds generalizing value with
  | nil =>
    simp only [hexDigits?, Option.some.injEq, List.map_nil]
    constructor
    · rintro rfl
      exact ⟨[], rfl, rfl⟩
    · rintro ⟨values, hvalues, h⟩
      obtain rfl := List.map_eq_nil_iff.1 hvalues.symm
      exact h
  | cons d ds ih =>
    rw [hexDigits?, Option.bind_eq_bind, Option.bind_eq_some_iff]
    constructor
    · rintro ⟨v, hv, h⟩
      obtain ⟨values, hvalues, hn⟩ := ih.1 h
      exact ⟨v :: values, by simp [hv, hvalues], hn⟩
    · rintro ⟨values, hvalues, hn⟩
      obtain ⟨v, values, rfl, hv, hrest⟩ := List.map_eq_cons_iff.1 hvalues.symm
      exact ⟨v, hv.symm, ih.2 ⟨values, hrest.symm, hn⟩⟩

theorem scalar?_eq_some_iff {n : Nat} {c : Char} : scalar? n = some c ↔ n = c.toNat := by
  rw [scalar?]
  constructor
  · intro h
    obtain ⟨hvalid, h⟩ := Option.ite_none_right_eq_some.1 h
    cases h
    rw [Char.ofNat, dif_pos hvalid]
    rfl
  · rintro rfl
    have hvalid : c.toNat.isValidChar := c.valid
    rw [if_pos hvalid, Char.ofNat_toNat]

theorem bind_scalar?_eq_some_iff {ds : List Char} {c : Char} :
    (hexDigits? 0 ds).bind scalar? = some c ↔ Denotes ds c := by
  have hsum (values : List Nat) :
      values.foldl (fun sum d => sum * 16 + d) 0 = Nat.ofDigits 16 values.reverse := by
    rw [Nat.ofDigits_eq_foldr, List.foldr_reverse]
    congr 1
    funext sum d
    simp
    omega
  simp only [Option.bind_eq_some_iff, hexDigits?_eq_some_iff, scalar?_eq_some_iff, hsum, Denotes]
  constructor
  · rintro ⟨n, ⟨values, hvalues, rfl⟩, h⟩
    exact ⟨values, hvalues, h⟩
  · rintro ⟨values, hvalues, h⟩
    exact ⟨_, ⟨values, hvalues, rfl⟩, h⟩

theorem Denotes.hexDigit {ds : List Char} {c d : Char} (h : Denotes ds c) (hd : d ∈ ds) :
    (hexDigit? d).isSome := by
  obtain ⟨values, hvalues, -⟩ := h
  have hmem : hexDigit? d ∈ values.map some := hvalues ▸ List.mem_map_of_mem hd
  obtain ⟨v, -, hv⟩ := List.mem_map.1 hmem
  rw [← hv]
  rfl

theorem hexChar?_eq_some_iff {ds : List Char} {c : Char} :
    hexChar? ds = some c ↔
      ds ≠ [] ∧ Denotes ds c ∨ ∃ rest, ds = '+' :: rest ∧ rest ≠ [] ∧ Denotes rest c := by
  have hsign {rest : List Char} : ¬ Denotes ('+' :: rest) c := fun h =>
    absurd (h.hexDigit List.mem_cons_self) (by decide)
  rw [hexChar?]
  match ds with
  | [] => simp [hexNumber?]
  | [d] =>
    rw [hexNumber?, bind_scalar?_eq_some_iff]
    simp
  | d :: e :: ds =>
    by_cases hd : d = '+'
    · subst hd
      rw [hexNumber?, bind_scalar?_eq_some_iff]
      simp [hsign]
      simp
    · rw [hexNumber?, bind_scalar?_eq_some_iff]
      · simp [hd]
      · simp
      · simp
      · rintro cs h
        exact hd (List.cons.inj h).1

def front? : List Char → Option (Char × List Char)
  | [] => none
  | '$' :: _ => none
  | '\\' :: cs => escape? cs
  | c :: cs => some (c, cs)

theorem front?_plain {c : Char} (hescape : c ≠ '\\') (hdollar : c ≠ '$') (cs : List Char) :
    front? (c :: cs) = some (c, cs) := by
  rw [front?]
  · exact hdollar
  · exact hescape

theorem unescape?_eq_bind {cs : List Char} (h : cs ≠ []) :
    unescape? cs = (front? cs).bind fun r => (unescape? r.2).map (r.1 :: ·) := by
  match cs with
  | c :: cs =>
    by_cases hescape : c = '\\'
    · subst hescape
      rw [unescape?, front?]
      split
      · next hr =>
        rw [hr]
        rfl
      · next hr =>
        rw [hr]
        rfl
    · by_cases hdollar : c = '$'
      · subst hdollar
        rw [unescape?, front?]
        rfl
      · rw [front?_plain hescape hdollar, unescape?]
        · rfl
        · exact hdollar
        · exact hescape

section Digits

variable {ds : List Char} {c : Char} (h : Denotes ds c)
include h

theorem Denotes.bracket_not_mem : '}' ∉ ds := fun hd =>
  absurd (h.hexDigit hd) (by decide)

theorem Denotes.hexChar? (hne : ds ≠ []) : hexChar? ds = some c :=
  hexChar?_eq_some_iff.2 (.inl ⟨hne, h⟩)

theorem Denotes.hexChar?_signed (hne : ds ≠ []) : Literal.hexChar? ('+' :: ds) = some c :=
  hexChar?_eq_some_iff.2 (.inr ⟨ds, rfl, hne, h⟩)

end Digits

theorem escape?_byte (cs : List Char) :
    escape? ('x' :: cs) = (hexChar? (cs.take 2)).map (·, cs.drop 2) := rfl

theorem escape?_code {cs : List Char} (h : cs.head? ≠ some '{') :
    escape? ('u' :: cs) =
      if cs.length < 4 then none else (hexChar? (cs.take 4)).map (·, cs.drop 4) := by
  rw [escape?]
  rintro rest rfl
  exact h rfl

theorem escape?_braced {ds : List Char} (hds : '}' ∉ ds) (rest : List Char) :
    escape? ('u' :: '{' :: (ds ++ '}' :: rest)) = (hexChar? ds).map (·, rest) := by
  have hall : ∀ d ∈ ds, (d != '}') = true := by
    intro d hd
    rw [bne_iff_ne]
    rintro rfl
    exact hds hd
  have hmem : (ds ++ '}' :: rest).contains '}' = true := by simp
  rw [escape?, if_pos hmem, List.takeWhile_append_of_pos hall, List.dropWhile_append_of_pos hall]
  simp

theorem escape?_single {c : Char} (hx : c ≠ 'x') (hu : c ≠ 'u') (cs : List Char) :
    escape? (c :: cs) = some (simpleEscape c, cs) := by
  rw [escape?]
  · exact hx
  · exact fun _ h => absurd h hu
  · exact hu

theorem front?_written {p : Piece} (h : p.Written) (rest : List Char) :
    front? (p.text ++ rest) = some (p.value, rest) := by
  cases h with
  | plain hescape hdollar => exact front?_plain hescape hdollar rest
  | single hx hu => exact escape?_single hx hu rest
  | @byte ds c hlength hc =>
    have hne : ds ≠ [] := List.ne_nil_of_length_pos (by omega)
    have h := escape?_byte (ds ++ rest)
    rwa [List.take_left' hlength, List.drop_left' hlength, hc.hexChar? hne] at h
  | @code ds c hlength hc =>
    have hne : ds ≠ [] := List.ne_nil_of_length_pos (by omega)
    have hhead : (ds ++ rest).head? ≠ some '{' := by
      obtain ⟨d, ds, rfl⟩ := List.exists_cons_of_ne_nil hne
      rintro h
      obtain rfl := Option.some.inj h
      exact absurd (hc.hexDigit List.mem_cons_self) (by decide)
    have hlong : ¬ (ds ++ rest).length < 4 := by
      rw [List.length_append]
      omega
    have h := escape?_code hhead
    rwa [if_neg hlong, List.take_left' hlength, List.drop_left' hlength, hc.hexChar? hne] at h
  | @braced ds c hpos _ hc =>
    have hne : ds ≠ [] := List.ne_nil_of_length_pos hpos
    have h := escape?_braced hc.bracket_not_mem rest
    rw [hc.hexChar? hne] at h
    simpa [front?] using h

theorem front?_loose {p : Piece} {rest : List Char} (h : p.Loose rest) :
    front? (p.text ++ rest) = some (p.value, rest) := by
  cases h with
  | @short d c hc =>
    have h := escape?_byte [d]
    rwa [show [d].take 2 = [d] from rfl, hc.hexChar? (by simp)] at h
  | @signedByte d c _ hc =>
    have h := escape?_byte ('+' :: d :: rest)
    rwa [show ('+' :: d :: rest).take 2 = ['+', d] from rfl, hc.hexChar?_signed (by simp)] at h
  | @signedCode ds c _ hlength hc =>
    have hne : ds ≠ [] := List.ne_nil_of_length_pos (by omega)
    have hsigned : ('+' :: ds).length = 4 := congrArg (· + 1) hlength
    have hlong : ¬ ('+' :: ds ++ rest).length < 4 := by
      rw [List.length_append]
      omega
    have hhead : ('+' :: ds ++ rest).head? ≠ some '{' := by simp
    have h := escape?_code hhead
    rwa [if_neg hlong, List.take_left' hsigned, List.drop_left' hsigned,
      hc.hexChar?_signed hne] at h
  | @signedBraced ds c _ hpos hc =>
    have hne : ds ≠ [] := List.ne_nil_of_length_pos hpos
    have hsigned : '}' ∉ '+' :: ds := by simpa using hc.bracket_not_mem
    have h := escape?_braced hsigned rest
    rw [hc.hexChar?_signed hne] at h
    simpa [front?] using h
  | @long ds c _ hlong hc =>
    have hne : ds ≠ [] := List.ne_nil_of_length_pos (by omega)
    have h := escape?_braced hc.bracket_not_mem rest
    rw [hc.hexChar? hne] at h
    simpa [front?] using h

theorem Piece.text_ne_nil {p : Piece} {rest : List Char} (h : p.Written ∨ p.Loose rest) :
    p.text ≠ [] := by
  rcases h with h | h <;> cases h <;> exact List.cons_ne_nil _ _

theorem Piece.length_lt {p : Piece} {rest : List Char} (h : p.Written ∨ p.Loose rest) :
    rest.length < (p.text ++ rest).length := by
  rw [List.length_append]
  exact Nat.lt_add_of_pos_left (List.length_pos_iff.2 (Piece.text_ne_nil h))

theorem front?_piece {p : Piece} {rest : List Char} (h : p.Written ∨ p.Loose rest) :
    front? (p.text ++ rest) = some (p.value, rest) :=
  h.elim (front?_written · rest) front?_loose

theorem exists_piece_byte {cs rest : List Char} {c : Char}
    (h : escape? ('x' :: cs) = some (c, rest)) :
    ∃ p : Piece, '\\' :: 'x' :: cs = p.text ++ rest ∧ p.value = c ∧ (p.Written ∨ p.Loose rest) := by
  rw [escape?_byte] at h
  obtain ⟨c, hc, h⟩ := Option.map_eq_some_iff.1 h
  cases h
  match cs with
  | [] => cases hc
  | [d] =>
    rcases hexChar?_eq_some_iff.1 hc with ⟨-, hd⟩ | ⟨ds, h, hne, -⟩
    · exact ⟨_, rfl, rfl, .inr (.short hd)⟩
    · exact absurd (List.cons.inj h).2.symm hne
  | d :: e :: cs =>
    rcases hexChar?_eq_some_iff.1 hc with ⟨-, hds⟩ | ⟨ds, h, -, hds⟩
    · exact ⟨_, rfl, rfl, .inl (.byte rfl hds)⟩
    · obtain ⟨rfl, rfl⟩ := List.cons.inj h
      exact ⟨_, rfl, rfl, .inr (.signedByte hds)⟩

theorem exists_piece_code {cs rest : List Char} {c : Char} (hhead : cs.head? ≠ some '{')
    (h : escape? ('u' :: cs) = some (c, rest)) :
    ∃ p : Piece, '\\' :: 'u' :: cs = p.text ++ rest ∧ p.value = c ∧ (p.Written ∨ p.Loose rest) := by
  rw [escape?_code hhead] at h
  split at h
  · cases h
  · next hlong =>
    obtain ⟨c, hc, h⟩ := Option.map_eq_some_iff.1 h
    cases h
    have hlength : (cs.take 4).length = 4 := by
      rw [List.length_take]
      omega
    have hsplit : cs = cs.take 4 ++ cs.drop 4 := (List.take_append_drop 4 cs).symm
    rcases hexChar?_eq_some_iff.1 hc with ⟨-, hds⟩ | ⟨ds, hsign, -, hds⟩
    · refine ⟨_, ?_, rfl, .inl (.code hlength hds)⟩
      exact congrArg ('\\' :: 'u' :: ·) hsplit
    · rw [hsign] at hlength hsplit
      refine ⟨_, ?_, rfl, .inr (.signedCode (Nat.succ.inj hlength) hds)⟩
      exact congrArg ('\\' :: 'u' :: ·) hsplit

theorem exists_piece_braced {cs rest : List Char} {c : Char}
    (h : escape? ('u' :: '{' :: cs) = some (c, rest)) :
    ∃ p : Piece, '\\' :: 'u' :: '{' :: cs = p.text ++ rest ∧ p.value = c ∧
      (p.Written ∨ p.Loose rest) := by
  by_cases hmem : '}' ∈ cs
  · obtain ⟨ds, after, rfl, hds⟩ := List.eq_append_cons_of_mem hmem
    rw [escape?_braced hds] at h
    obtain ⟨c, hc, h⟩ := Option.map_eq_some_iff.1 h
    cases h
    rcases hexChar?_eq_some_iff.1 hc with ⟨hne, hden⟩ | ⟨ds, rfl, hne, hden⟩
    · have hpos := List.length_pos_iff.2 hne
      rcases Nat.lt_or_ge 6 ds.length with hlong | hshort
      · exact ⟨_, by simp, rfl, .inr (.long hlong hden)⟩
      · exact ⟨_, by simp, rfl, .inl (.braced hpos hshort hden)⟩
    · exact ⟨_, by simp, rfl, .inr (.signedBraced (List.length_pos_iff.2 hne) hden)⟩
  · rw [escape?, if_neg (by simpa using hmem)] at h
    cases h

theorem exists_piece {cs rest : List Char} {c : Char} (h : front? cs = some (c, rest)) :
    ∃ p : Piece, cs = p.text ++ rest ∧ p.value = c ∧ (p.Written ∨ p.Loose rest) := by
  match cs with
  | c :: cs =>
    by_cases hescape : c = '\\'
    · subst hescape
      match cs with
      | d :: cs =>
        by_cases hx : d = 'x'
        · subst hx
          exact exists_piece_byte h
        · by_cases hu : d = 'u'
          · subst hu
            by_cases hhead : cs.head? = some '{'
            · obtain ⟨cs, rfl⟩ := List.head?_eq_some_iff.1 hhead
              exact exists_piece_braced h
            · exact exists_piece_code hhead h
          · rw [front?, escape?_single hx hu] at h
            cases h
            exact ⟨_, rfl, rfl, .inl (.single hx hu)⟩
    · by_cases hdollar : c = '$'
      · subst hdollar
        cases h
      · rw [front?_plain hescape hdollar] at h
        cases h
        exact ⟨_, rfl, rfl, .inl (.plain hescape hdollar)⟩

theorem unescape?_piece {p : Piece} {rest : List Char} (hp : p.Written ∨ p.Loose rest) :
    unescape? (p.text ++ rest) = (unescape? rest).map (p.value :: ·) := by
  have hne : p.text ++ rest ≠ [] := fun h => Piece.text_ne_nil hp (List.append_eq_nil_iff.1 h).1
  rw [unescape?_eq_bind hne, front?_piece hp, Option.bind_some]

theorem unescape?_eq_some_iff {cs vs : List Char} :
    unescape? cs = some vs ↔ ∃ ps, Reads cs ps ∧ vs = ps.map Piece.value := by
  constructor
  · intro h
    induction hn : cs.length using Nat.strongRecOn generalizing cs vs with
    | _ n ih =>
      by_cases hne : cs = []
      · subst hne
        obtain rfl : [] = vs := by simpa [unescape?] using h
        exact ⟨[], .nil, rfl⟩
      · rw [unescape?_eq_bind hne] at h
        obtain ⟨⟨c, rest⟩, hfront, h⟩ := Option.bind_eq_some_iff.1 h
        obtain ⟨vs, hrest, rfl⟩ := Option.map_eq_some_iff.1 h
        obtain ⟨p, rfl, rfl, hp⟩ := exists_piece hfront
        obtain ⟨ps, hps, rfl⟩ := ih rest.length (hn ▸ Piece.length_lt hp) hrest rfl
        exact ⟨p :: ps, .cons hp hps, rfl⟩
  · rintro ⟨ps, hps, rfl⟩
    induction hps with
    | nil => simp [unescape?]
    | cons hp _ ih =>
      rw [unescape?_piece hp, ih]
      rfl

theorem Reads.unique {cs : List Char} {ps qs : List Piece} (h : Reads cs ps) (h' : Reads cs qs) :
    ps = qs := by
  induction h generalizing qs with
  | nil =>
    generalize hcs : [] = cs at h'
    cases h' with
    | nil => rfl
    | cons hq => exact absurd (List.append_eq_nil_iff.1 hcs.symm).1 (Piece.text_ne_nil hq)
  | @cons p rest ps hp _ ih =>
    generalize hcs : p.text ++ rest = cs at h'
    cases h' with
    | nil => exact absurd (List.append_eq_nil_iff.1 hcs).1 (Piece.text_ne_nil hp)
    | @cons q rest' qs hq hrest =>
      have hfront := front?_piece hp
      rw [hcs, front?_piece hq] at hfront
      obtain ⟨hvalue, rfl⟩ := Prod.mk.inj (Option.some.inj hfront)
      have htext : p.text = q.text := List.append_cancel_right hcs
      obtain rfl : p = q := by
        cases p
        cases q
        congr 1
        exact hvalue.symm
      rw [ih hrest]

theorem reads_flatMap {ps : List Piece} (h : ∀ p ∈ ps, p.Written) :
    Reads (ps.flatMap Piece.text) ps := by
  induction ps with
  | nil => exact .nil
  | cons p ps ih =>
    obtain ⟨hp, hps⟩ := List.forall_mem_cons.1 h
    exact .cons (.inl hp) (ih hps)

theorem Reads.text_eq {cs : List Char} {ps : List Piece} (h : Reads cs ps) :
    cs = ps.flatMap Piece.text := by
  induction h with
  | nil => rfl
  | cons _ _ ih => rw [List.flatMap_cons, ← ih]

theorem spelled_iff {cs vs : List Char} :
    Spelled cs vs ↔ ∃ ps, Reads cs ps ∧ (∀ p ∈ ps, p.Written) ∧ vs = ps.map Piece.value := by
  constructor
  · rintro ⟨ps, hps, rfl, rfl⟩
    exact ⟨ps, reads_flatMap hps, hps, rfl⟩
  · rintro ⟨ps, hreads, hps, rfl⟩
    exact ⟨ps, hps, hreads.text_eq, rfl⟩

theorem stringValue?_single {n : Node} {t : Token} (hn : n.kind = .stringLiteral)
    (ht : n.tokens.filter (·.kind == .string) = [t]) : n.stringValue? = unquote? t.text := by
  rw [Node.stringValue?, if_pos hn, ht]
  cases h : unquote? t.text <;> simp [h, String.join]

end Literal

/-- A string has the value that its pieces stand for; the grammar alone decides that value where no
other piece is read. -/
theorem Node.stringValue?_eq_some_iff_pieces {text : String} {t : Token} (ht : t ∈ Token.scan text)
    (hkind : t.kind = .string) (hraw : t.text.toList.head? ≠ some 'r') :
    ∃ mark body, Quotes t.text.toList mark body ∧
      ∀ n : Node, n.kind = .stringLiteral → n.tokens.filter (·.kind == .string) = [t] →
        (∀ v, n.stringValue? = some v ↔
          ∃ ps, Literal.Reads body ps ∧ v.toList = ps.map Literal.Piece.value) ∧
        ((∀ v, n.stringValue? = some v ↔ Literal.Spelled body v.toList) ↔
          ∀ ps, Literal.Reads body ps → ∀ p ∈ ps, p.Written) := by
  obtain ⟨raw, cs, mark, body, htext, hcases, hquotes⟩ := Token.exists_quotes_of_string ht hkind
  obtain rfl : raw = [] := by
    refine hcases.resolve_right ?_
    rintro rfl
    rw [htext] at hraw
    exact hraw rfl
  obtain rfl : t.text.toList = cs := htext
  refine ⟨mark, body, hquotes, fun n hn htokens => ?_⟩
  have hvalue (v : String) : n.stringValue? = some v ↔
      ∃ ps, Literal.Reads body ps ∧ v.toList = ps.map Literal.Piece.value := by
    rw [Literal.stringValue?_single hn htokens, hquotes.unquote?_eq,
      ← Literal.unescape?_eq_some_iff, Option.map_eq_some_iff]
    constructor
    · rintro ⟨vs, hvs, rfl⟩
      rwa [String.toList_ofList]
    · intro h
      exact ⟨_, h, String.ofList_toList⟩
  refine ⟨hvalue, ?_⟩
  simp only [hvalue, Literal.spelled_iff]
  constructor
  · intro h ps hps
    have htext : (String.ofList (ps.map Literal.Piece.value)).toList = ps.map Literal.Piece.value :=
      String.toList_ofList
    obtain ⟨qs, hqs, hwritten, -⟩ := (h _).1 ⟨ps, hps, htext⟩
    rw [hps.unique hqs]
    exact hwritten
  · intro h v
    constructor
    · rintro ⟨ps, hps, hv⟩
      exact ⟨ps, hps, h ps hps, hv⟩
    · rintro ⟨ps, hps, -, hv⟩
      exact ⟨ps, hps, hv⟩

theorem Node.stringValue?_eq_some_iff_pieces_mixed :
    let text := r"final x = 'a\x41\u{1F600}\n';"
    let t : Token := ⟨.string, r"'a\x41\u{1F600}\n'"⟩
    t ∈ Token.scan text ∧ t.kind = .string ∧ t.text.toList.head? ≠ some 'r' ∧
      ∃ mark body, Quotes t.text.toList mark body ∧
        ∀ n : Node, n.kind = .stringLiteral → n.tokens.filter (·.kind == .string) = [t] →
          (∀ v, n.stringValue? = some v ↔
            ∃ ps, Literal.Reads body ps ∧ v.toList = ps.map Literal.Piece.value) ∧
          ((∀ v, n.stringValue? = some v ↔ Literal.Spelled body v.toList) ↔
            ∀ ps, Literal.Reads body ps → ∀ p ∈ ps, p.Written) := by
  intro text t
  have ht : t ∈ Token.scan text := by decide +kernel
  have hkind : t.kind = .string := rfl
  have hraw : t.text.toList.head? ≠ some 'r' := by decide
  exact ⟨ht, hkind, hraw, stringValue?_eq_some_iff_pieces ht hkind hraw⟩

theorem Node.stringValue?_of_short_escape :
    ¬ ∀ (text : String) (t : Token), t ∈ Token.scan text → t.kind = .string →
      t.text.toList.head? ≠ some 'r' → ∀ mark body, Quotes t.text.toList mark body →
        ∀ n : Node, n.kind = .stringLiteral → n.tokens.filter (·.kind == .string) = [t] →
          ∀ v, n.stringValue? = some v ↔ Literal.Spelled body v.toList := by
  intro h
  have hread : ((parse "final x = '\\x4';").root.descendants.find? (·.kind == .stringLiteral)).map
      (fun n => (n.kind, n.tokens.filter (·.kind == .string), n.stringValue?)) =
        some (.stringLiteral, [⟨.string, "'\\x4'"⟩], some "\x04") := by
    decide +kernel
  obtain ⟨n, -, hn⟩ := Option.map_eq_some_iff.1 hread
  obtain ⟨hkind, htokens, hvalue⟩ := by simpa only [Prod.mk.injEq] using hn
  have hscan : (⟨.string, "'\\x4'"⟩ : Token) ∈ Token.scan "final x = '\\x4';" := by decide +kernel
  have hquotes : Quotes "'\\x4'".toList ['\''] ['\\', 'x', '4'] :=
    ⟨by simp [Literal.delimiters], by decide, iff_of_false (by decide) (by simp)⟩
  obtain ⟨ps, hps, htext, -⟩ :=
    (h _ _ hscan rfl (by decide) _ _ hquotes n hkind htokens "\x04").1 hvalue
  cases ps with
  | nil => cases htext
  | cons p ps =>
    have hp := hps p List.mem_cons_self
    rw [List.flatMap_cons] at htext
    have hlength := congrArg List.length htext
    cases hp with
    | plain hescape => exact hescape (List.cons.inj htext).1.symm
    | single hx => exact hx (List.cons.inj (List.cons.inj htext).2).1.symm
    | byte hds =>
      simp only [List.length_append, List.length_cons, List.length_nil] at hlength
      omega
    | code => exact absurd (List.cons.inj (List.cons.inj htext).2).1 (by decide)
    | braced => exact absurd (List.cons.inj (List.cons.inj htext).2).1 (by decide)

end CrossReference.Source
