import CrossReference.Source.Grammar
import CrossReference.Source.Node
import CrossReference.Source.Token.Scan

namespace CrossReference.Source

structure Parse where
  items : List Tree
  errors : List ParseError

namespace Parse

def tree (p : Parse) : Tree := .node .sourceFile p.items

def root (p : Parse) : Node := .ofRoot .sourceFile p.items

/-- Enough for any file of `n` tokens: between two tokens the grammar calls fewer rules than this
allows for each. -/
def fuelFor (n : Nat) : Nat := 32 * (n + 1)

def ofTokens (tokens : List Token) : Parse :=
  let read := (Step.run Grammar.body (fuelFor tokens.length) Grammar.file
    (Builder.ofTokens tokens)).attach
  ⟨read.built.reverse, read.errors.reverse⟩

end Parse

def parse (text : String) : Parse := Parse.ofTokens (Token.scan text)

end CrossReference.Source
