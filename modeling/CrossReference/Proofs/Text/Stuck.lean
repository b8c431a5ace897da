import CrossReference.Proofs.Text.Escape
import CrossReference.Proofs.Tree.Children

/-!
Strings without a value. Every string is read between the delimiters it was scanned with. A raw one
is its body; any other is read piece by piece, and what has no value has a body in which no piece
begins at some place: at a dollar sign, or at a backslash whose escape denotes no character.
-/

namespace CrossReference.Source

namespace Literal

/-- Behind some pieces stands a dollar sign that none of them took along, or a backslash at which
none begins. -/
inductive Stuck : List Char → Prop where
  | dollar (cs : List Char) : Stuck ('$' :: cs)
  | escape {cs : List Char} :
      (∀ (p : Piece) (rest : List Char), p.Written ∨ p.Loose rest → p.text ++ rest ≠ '\\' :: cs) →
      Stuck ('\\' :: cs)
  | behind {p : Piece} {rest : List Char} :
      p.Written ∨ p.Loose rest → Stuck rest → Stuck (p.text ++ rest)

theorem front?_eq_none_iff {cs : List Char} :
    front? cs = none ↔
      ∀ (p : Piece) (rest : List Char), p.Written ∨ p.Loose rest → p.text ++ rest ≠ cs := by
  constructor
  · rintro h p rest hp rfl
    rw [front?_piece hp] at h
    cases h
  · intro h
    cases hfront : front? cs with
    | none => rfl
    | some r =>
      obtain ⟨p, htext, -, hp⟩ := exists_piece hfront
      exact absurd htext.symm (h p r.2 hp)

theorem stuck_of_front? {cs : List Char} (hne : cs ≠ []) (h : front? cs = none) : Stuck cs := by
  obtain ⟨c, cs, rfl⟩ := List.exists_cons_of_ne_nil hne
  by_cases hescape : c = '\\'
  · subst hescape
    exact .escape (front?_eq_none_iff.1 h)
  · by_cases hdollar : c = '$'
    · subst hdollar
      exact .dollar cs
    · rw [front?_plain hescape hdollar] at h
      cases h

theorem unescape?_of_front? {cs : List Char} (hne : cs ≠ []) (h : front? cs = none) :
    unescape? cs = none := by
  rw [unescape?_eq_bind hne, h, Option.bind_none]

theorem unescape?_eq_none_iff {cs : List Char} : unescape? cs = none ↔ Stuck cs := by
  constructor
  · intro h
    induction hn : cs.length using Nat.strongRecOn generalizing cs with
    | _ n ih =>
      have hne : cs ≠ [] := by
        rintro rfl
        simp [unescape?] at h
      cases hfront : front? cs with
      | none => exact stuck_of_front? hne hfront
      | some r =>
        obtain ⟨p, rfl, -, hp⟩ := exists_piece hfront
        rw [unescape?_piece hp, Option.map_eq_none_iff] at h
        exact .behind hp (ih r.2.length (hn ▸ Piece.length_lt hp) h rfl)
  · intro h
    induction h with
    | dollar cs => exact unescape?_of_front? (by simp) rfl
    | escape h => exact unescape?_of_front? (by simp) (front?_eq_none_iff.2 h)
    | behind hp _ ih => rw [unescape?_piece hp, ih, Option.map_none]

end Literal

theorem mapM_eq_none_iff {α β : Type} {f : α → Option β} {xs : List α} :
    xs.mapM f = none ↔ ∃ x ∈ xs, f x = none := by
  induction xs with
  | nil => simp
  | cons x xs ih =>
    rw [List.mapM_cons]
    cases hx : f x with
    | none => simp [hx]
    | some y =>
      cases hxs : xs.mapM f with
      | none => simpa [hx, hxs] using ih.1 hxs
      | some ys =>
        have hnone : ¬ ∃ x ∈ xs, f x = none := fun h => by simp [ih.2 h] at hxs
        simpa [hx, hxs] using hnone

theorem Node.stringValue?_eq_none_iff {n : Node} (hkind : n.kind = .stringLiteral)
    (hstring : ∃ t ∈ n.tokens, t.kind = .string) :
    n.stringValue? = none ↔
      ∃ t ∈ n.tokens, t.kind = .string ∧ Literal.unquote? t.text = none := by
  obtain ⟨t, ht, htkind⟩ := hstring
  have hne : n.tokens.filter (·.kind == .string) ≠ [] :=
    List.ne_nil_of_mem (List.mem_filter.2 ⟨ht, beq_iff_eq.2 htkind⟩)
  rw [stringValue?, if_pos hkind]
  simp [hne, mapM_eq_none_iff, and_assoc]

namespace Token

structure ReadAsScanned (t : Token) (raw : Bool) (mark body : List Char) : Prop where
  fits : t.Fits raw mark body
  unique : ∀ raw' mark' body', t.Fits raw' mark' body' → raw' = raw ∧ mark' = mark ∧ body' = body
  triple : mark.length = 3 ↔ ∃ q, isQuote q = true ∧ [q, q, q] <+: mark ++ (body ++ mark)
  taken : Literal.delimiters.find? (Literal.encloses · (mark ++ (body ++ mark))) = some mark
  value : Literal.unquote? t.text =
    if raw then some (String.ofList body) else (Literal.unescape? body).map String.ofList

namespace Fits

variable {t : Token} {raw : Bool} {mark body : List Char}

theorem readAsScanned (h : t.Fits raw mark body) : t.ReadAsScanned raw mark body where
  fits := h
  unique _ _ _ h' := h.unique h'
  triple := h.pattern.quotes.triple
  taken := h.pattern.quotes.find?_delimiters
  value := h.unquote?_eq

theorem unquote?_eq_none_iff (h : t.Fits raw mark body) :
    Literal.unquote? t.text = none ↔ raw = false ∧ Literal.Stuck body := by
  rw [h.unquote?_eq, ← Literal.unescape?_eq_none_iff]
  cases raw <;> simp

end Fits

end Token

/-- Every string is read as it was scanned, and a literal has no value where, and only where, one of
its strings that are not raw gets stuck. -/
theorem strings_read_as_scanned (text : String) :
    (∀ t ∈ Token.scan text, t.kind = .string →
      ∃ raw mark body, t.ReadAsScanned raw mark body) ∧
    ∀ n ∈ (parse text).root.descendants, n.kind = .stringLiteral →
      (n.stringValue? = none ↔
        ∃ t ∈ n.tokens, t.kind = .string ∧
          ∃ mark body, t.ReadAsScanned false mark body ∧ Literal.Stuck body) := by
  constructor
  · intro t ht hkind
    obtain ⟨raw, mark, body, hfits⟩ := Token.exists_fits_of_string ht hkind
    exact ⟨raw, mark, body, hfits.readAsScanned⟩
  · intro n hn hkind
    have hwithin := Node.mem_descendants_iff.1 hn
    obtain ⟨-, hstring, -⟩ := hwithin.wellShaped.stringLiteral hkind
    rw [Node.stringValue?_eq_none_iff hkind hstring]
    constructor
    · rintro ⟨t, ht, hstring, hnone⟩
      obtain ⟨raw, mark, body, hfits⟩ := Token.exists_fits_of_string (hwithin.mem_scan ht) hstring
      obtain ⟨rfl, hstuck⟩ := hfits.unquote?_eq_none_iff.1 hnone
      exact ⟨t, ht, hstring, mark, body, hfits.readAsScanned, hstuck⟩
    · rintro ⟨t, ht, hstring, mark, body, hread, hstuck⟩
      exact ⟨t, ht, hstring, hread.fits.unquote?_eq_none_iff.2 ⟨rfl, hstuck⟩⟩

theorem strings_read_as_scanned_raw_triple :
    let text := "final x = r'''$a''' \"b\" '$c';"
    let t : Token := ⟨.string, "r'''$a'''"⟩
    (t ∈ Token.scan text ∧ t.kind = .string ∧
      ∃ raw mark body, t.ReadAsScanned raw mark body) ∧
    ∃ n ∈ (parse text).root.descendants, n.kind = .stringLiteral ∧ n.stringValue? = none ∧
      ∃ t ∈ n.tokens, t.kind = .string ∧
        ∃ mark body, t.ReadAsScanned false mark body ∧ Literal.Stuck body := by
  intro text t
  have ht : t ∈ Token.scan text := by decide +kernel
  have hsome : (parse text).root.descendants.any
      (fun n => n.kind == .stringLiteral && n.stringValue?.isNone) = true := by
    decide +kernel
  obtain ⟨n, hn, hliteral⟩ := List.any_eq_true.1 hsome
  obtain ⟨hkind, hnone⟩ := by simpa using hliteral
  obtain ⟨hstrings, hliterals⟩ := strings_read_as_scanned text
  exact ⟨⟨ht, rfl, hstrings t ht rfl⟩, n, hn, hkind, hnone, (hliterals n hn hkind).1 hnone⟩

end CrossReference.Source
