import CrossReference.Proofs.Reading.HeadSplit
import CrossReference.Proofs.Scanning.Unfinished
import CrossReference.Reference.Import

namespace CrossReference.Import

open Source

def Plain (uri : String) : Prop :=
  uri ≠ "" ∧ ∀ c ∈ uri.toList, c ≠ '\'' ∧ c ≠ '\\' ∧ c ≠ '\n'

instance (uri : String) : Decidable (Plain uri) :=
  have := List.decidableBAll (fun c => c ≠ '\'' ∧ c ≠ '\\' ∧ c ≠ '\n') uri.toList
  inferInstanceAs (Decidable (_ ∧ _))

def keyword : Token := ⟨.importKw, "import"⟩

def space : Token := ⟨.whitespace, " "⟩

def literal (uri : String) : Token := ⟨.string, "'" ++ uri ++ "'"⟩

def semicolon : Token := ⟨.semicolon, ";"⟩

def newline : Token := ⟨.whitespace, "\n"⟩

def lineTokens (uri : String) : List Token :=
  [keyword, space, literal uri, semicolon, newline]

def lineTree (uri : String) : Tree :=
  .node .importDirective
    [.leaf keyword, .leaf space, .node .stringLiteral [.leaf (literal uri)], .leaf semicolon]

def lineRest (uri : String) : List Char := uri.toList ++ ['\'', ';', '\n']

theorem toList_line (uri : String) :
    (line uri ++ "\n").toList = Token.importHead ++ lineRest uri := by
  simp [line, Token.importHead, lineRest]

theorem lineExtent_closes {u : List Char} (hu : ∀ c ∈ u, c ≠ '\'' ∧ c ≠ '\\' ∧ c ≠ '\n')
    (y : List Char) : Token.lineExtent '\'' (u ++ '\'' :: y) = ⟨true, u.length + 1⟩ := by
  induction u with
  | nil => simp [Token.lineExtent]
  | cons c u ih =>
    obtain ⟨⟨hq, hb, hn⟩, hu⟩ := List.forall_mem_cons.1 hu
    rw [List.cons_append, Token.lineExtent_cons hn hb, if_neg hq, ih hu]
    rfl

theorem stringExtent_closes {uri : String} (h : Plain uri) (y : List Char) :
    Token.stringExtent '\'' (uri.toList ++ '\'' :: y) = ⟨true, uri.toList.length + 1⟩ := by
  have hopen : Token.opensTriple '\'' (uri.toList ++ '\'' :: y) = false := by
    cases hu : uri.toList with
    | nil => exact absurd (String.toList_eq_nil_iff.1 hu) h.1
    | cons c u =>
      have hc : c ≠ '\'' := (h.2 c (by simp [hu])).1
      cases u <;> simp [Token.opensTriple, hc]
  simp only [Token.stringExtent, hopen]
  exact lineExtent_closes h.2 y

theorem scans_of_reach {c : Char} {x y rest : List Char} {kind : TokenKind} {ts : List Token}
    (h : Token.reach c (x ++ y) = (kind, x.length)) (hts : Token.Scans y ts rest) :
    Token.Scans (c :: (x ++ y)) (⟨kind, String.ofList (c :: x)⟩ :: ts) rest := by
  have hfirst : Token.first c (x ++ y) = ⟨kind, String.ofList (c :: x)⟩ := by
    simp [Token.first, h]
  rw [← hfirst]
  refine .next ?_
  rwa [h, List.drop_left]

theorem reach_import (y : List Char) :
    Token.reach 'i' (['m', 'p', 'o', 'r', 't'] ++ ' ' :: y) = (.importKw, 5) := by
  rw [Token.reach_word rfl rfl rfl rfl (by simp)]
  have hrun : Token.runLength Token.isWordChar (['m', 'p', 'o', 'r', 't'] ++ ' ' :: y) = 5 :=
    Token.runLength_append_of_head (by simp; decide) _
  have hword : TokenKind.ofWord (String.ofList ['i', 'm', 'p', 'o', 'r', 't']) = .importKw := by
    decide
  rw [Token.wordReach, hrun]
  exact Prod.ext hword rfl

theorem scans_line {uri : String} (h : Plain uri) {y : List Char}
    (hy : ∀ c, y.head? = some c → Token.isBlank c = false) :
    Token.Scans ((line uri ++ "\n").toList ++ y) (lineTokens uri) y := by
  have hnewline : Token.Scans ('\n' :: ([] ++ y)) [newline] y := by
    refine scans_of_reach ?_ (.done y)
    rw [Token.reach_blank rfl, Token.runLength_append_of_head hy]
    rfl
  have hsemicolon : Token.Scans (';' :: ([] ++ '\n' :: y)) [semicolon, newline] y :=
    scans_of_reach (Token.reach_semicolon _) hnewline
  have hliteral : Token.Scans ('\'' :: ((uri.toList ++ ['\'']) ++ ';' :: '\n' :: y))
      [literal uri, semicolon, newline] y := by
    have htext : literal uri = ⟨.string, String.ofList ('\'' :: (uri.toList ++ ['\'']))⟩ := by
      simp [literal, String.ext_iff]
    rw [htext]
    refine scans_of_reach ?_ hsemicolon
    rw [Token.reach_quote rfl, List.append_assoc, List.singleton_append,
      stringExtent_closes h]
    simp [Token.Extent.kind]
  have hspace : Token.Scans (' ' :: ([] ++ '\'' :: (uri.toList ++ ['\''] ++ ';' :: '\n' :: y)))
      [space, literal uri, semicolon, newline] y := by
    refine scans_of_reach ?_ hliteral
    rw [Token.reach_blank rfl]
    rfl
  have hkeyword := scans_of_reach (reach_import _) hspace
  rw [toList_line]
  simpa [Token.importHead, lineRest, lineTokens, keyword] using hkeyword

theorem ofTokens_line (uri : String) {gap : List Token} (hgap : ∀ g ∈ gap, g.isTrivia)
    (rest : List Token) :
    (Parse.ofTokens (gap ++ lineTokens uri ++ rest)).items =
      gap.map .leaf ++ lineTree uri :: (Parse.ofTokens (newline :: rest)).items ∧
    (Parse.ofTokens (gap ++ lineTokens uri ++ rest)).errors.length =
      (Parse.ofTokens (newline :: rest)).errors.length := by
  have hseg : HeaderBody keyword [space, literal uri, semicolon] (newline :: rest) 0 := by
    refine .closed [space, literal uri] semicolon ?_ rfl
    simp [stops, keyword, space, literal]
  have hmissing : missing keyword [space, literal uri, semicolon] = 0 := rfl
  have htree : headerTree keyword [space, literal uri, semicolon] = lineTree uri := rfl
  have h := Parse.ofTokens_header rfl hgap hseg
  rw [htree, hmissing] at h
  simpa [lineTokens] using h

end CrossReference.Import
