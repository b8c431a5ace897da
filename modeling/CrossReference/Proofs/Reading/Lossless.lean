import CrossReference.Proofs.Reading.Ranking
import CrossReference.Proofs.Scanning.Scans

namespace CrossReference.Source

namespace Step

variable {ρ : Type} {grammar : ρ → Step ρ}

theorem Runs.repeat_ends {test : List Token → Bool} {s : Step ρ} {b b' : Builder}
    (h : Runs grammar (.repeatWhile test s) b b') : test b'.ahead = false := by
  generalize hs : Step.repeatWhile test s = loop at h
  induction h with
  | repeatStop ht =>
    cases hs
    exact ht
  | repeatTurn _ _ _ _ ih => exact ih hs
  | _ => cases hs

end Step

namespace Parse

theorem ahead_readTokens (tokens : List Token) : (readTokens tokens).ahead = [] := by
  simpa using (runs_file tokens).repeat_ends

theorem left_readTokens (tokens : List Token) : (readTokens tokens).attach.left = [] := by
  rw [Builder.left_attach, ahead_readTokens, weave]

theorem seen_readTokens (tokens : List Token) : (readTokens tokens).attach.seen = tokens := by
  have hkept := (runs_file tokens).conserves
  rw [← Builder.seen_left_attach, left_readTokens, Builder.left_ofTokens, List.append_nil] at hkept
  exact hkept

theorem tokens_tree (tokens : List Token) : (ofTokens tokens).tree.tokens = tokens := by
  rw [tree, Tree.tokens, ofTokens_eq]
  exact seen_readTokens tokens

end Parse

theorem tokens_root_parse (text : String) : (parse text).root.tree.tokens = Token.scan text :=
  Parse.tokens_tree _

theorem parse_lossless (text : String) :
    (parse text).tree.tokens = Token.scan text ∧
    (∀ t ∈ Token.scan text, t.text ≠ "") ∧
    spelling (Token.scan text) = text ∧
    (parse text).root.kind = .sourceFile ∧
    (parse text).root.range = ⟨0, text.utf8ByteSize⟩ ∧
    (parse text).root.text = text := by
  have htokens : (parse text).tree.tokens = Token.scan text := Parse.tokens_tree _
  have hspell := Token.spelling_scan text
  refine ⟨htokens, (Token.scans_scanChars _).text_ne_empty, hspell, rfl, ?_, ?_⟩
  · have hsize : Tree.sizeAll (parse text).items = text.utf8ByteSize := by
      rw [Tree.sizeAll_eq]
      change byteSize (parse text).tree.tokens = _
      rw [htokens, ← utf8ByteSize_spelling, hspell]
    simp [Node.range, Node.start, Node.stop, Parse.root, Node.ofRoot, hsize]
  · change spelling (parse text).tree.tokens = text
    rw [htokens, hspell]

end CrossReference.Source
