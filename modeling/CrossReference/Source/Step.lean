import CrossReference.Source.Builder

/-!
Steps are the language a grammar is written in; `ρ` names its rules. A fact that holds of every
step holds of every grammar, so the facts about trees and errors are proved here once.

`run` is bounded: each call of a rule and each turn of a loop costs one unit.
-/

namespace CrossReference.Source

inductive Step (ρ : Type) where
  | done
  | take
  | report (message : String)
  | look (choose : List Token → Step ρ)
  | andThen (first second : Step ρ)
  | node (kind : NodeKind) (body : Step ρ)
  /-- Marks a place that a `wrap` in the body reaches back to. -/
  | group (body : Step ρ)
  /-- Makes one node of all that was built since the place marked last, what the body builds
  included. -/
  | wrap (kind : NodeKind) (body : Step ρ)
  /-- Runs the recovery when the body moved nothing, not even trivia, and the file has not ended. -/
  | insist (body recovery : Step ρ)
  | repeatWhile (test : List Token → Bool) (body : Step ρ)
  | commaList (test : List Token → Bool) (body : Step ρ)
  | call (rule : ρ)

namespace Step

variable {ρ : Type}

def inOrder : List (Step ρ) → Step ρ
  | [] => .done
  | [s] => s
  | s :: rest => .andThen s (inOrder rest)

def given (test : List Token → Bool) (s : Step ρ) : Step ρ :=
  .look fun ts => if test ts then s else .done

def takeMany : Nat → Step ρ
  | 0 => .done
  | n + 1 => .andThen .take (takeMany n)

/-- One step inside a rule; `again` runs what costs a unit. -/
def exec (grammar : ρ → Step ρ) (again : Step ρ → Builder → Builder) :
    Step ρ → Builder → Builder
  | .done, b => b
  | .take, b => b.take
  | .report message, b => b.report message
  | .look choose, b => exec grammar again (choose b.ahead) b
  | .andThen first second, b => exec grammar again second (exec grammar again first b)
  | .node kind body, b => b.closeNode kind (exec grammar again body b.opened)
  | .group body, b => b.closeGroup (exec grammar again body b.opened)
  | .wrap kind body, b => (exec grammar again body b).wrap kind
  | .insist body recovery, b =>
    let tried := exec grammar again body b
    if tried.taken = b.taken ∧ tried.atEnd = false then exec grammar again recovery tried
    else tried
  | .repeatWhile test body, b =>
    if test b.ahead then again (.repeatWhile test body) (exec grammar again body b) else b
  | .commaList test body, b =>
    if test b.ahead then
      let read := exec grammar again body b
      match read.ahead with
      | t :: _ => if t.kind = .comma then again (.commaList test body) read.take else read
      | [] => read
    else b
  | .call rule, b => again (grammar rule) b

def run (grammar : ρ → Step ρ) : Nat → Step ρ → Builder → Builder
  | 0, _, b => b
  | fuel + 1, s, b => exec grammar (run grammar fuel) s b

end Step

end CrossReference.Source
