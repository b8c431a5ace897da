import CrossReference.Source.Token

/-!
What the grammar decides on: tests over the significant tokens that are left. A skipping test gives
the tokens after what it skipped, so it can be compared with what the grammar consumes there.
-/

namespace CrossReference.Source.Lookahead

def kind? (ts : List Token) : Option TokenKind := ts.head?.map Token.kind

def kindAt? (n : Nat) (ts : List Token) : Option TokenKind := ts[n]?.map Token.kind

def startsWith (kind : TokenKind) (ts : List Token) : Bool := kind? ts == some kind

def startsWithAny (kinds : List TokenKind) (ts : List Token) : Bool :=
  match ts with
  | t :: _ => kinds.contains t.kind
  | [] => false

def word? (ts : List Token) : Option String :=
  match ts with
  | t :: _ => if t.kind = .ident then some t.text else none
  | [] => none

def startsWithWord (word : String) (ts : List Token) : Bool := word? ts == some word

def startsWithAnyWord (words : List String) (ts : List Token) : Bool :=
  match word? ts with
  | some w => words.contains w
  | none => false

def startsWithOperator (spellings : List String) (ts : List Token) : Bool :=
  match ts with
  | t :: _ => t.kind == .operator && spellings.contains t.text
  | [] => false

def depthAfter (depth : Nat) (kind : TokenKind) : Nat :=
  if kind.isOpener then depth + 1 else if kind.isCloser then depth - 1 else depth

/-- How many tokens a bracketed group takes when `depth` brackets are open: up to the token that
closes the last one, or all of them. A token outside brackets is a group of its own. -/
def groupLength (depth : Nat) : List Token → Nat
  | [] => 0
  | t :: ts =>
    if depthAfter depth t.kind = 0 then 1 else groupLength (depthAfter depth t.kind) ts + 1

def afterGroup? (depth : Nat) : List Token → Option (List Token)
  | [] => none
  | t :: ts =>
    if t.kind.isCloser && depth = 0 then none
    else if depthAfter depth t.kind = 0 then some ts
    else afterGroup? (depthAfter depth t.kind) ts

/-- The tokens after the closing angle that leaves none of `depth` angles open. Only names, commas,
dots and question marks may stand between angles. -/
def afterAngles? (depth : Nat) : List Token → Option (List Token)
  | [] => none
  | t :: ts =>
    match t.kind with
    | .lAngle => afterAngles? (depth + 1) ts
    | .rAngle =>
      match depth with
      | 0 => none
      | 1 => some ts
      | d + 1 => afterAngles? d ts
    | .ident | .comma | .dot | .question => if depth = 0 then some ts else afterAngles? depth ts
    | _ => none

def afterTypeArgs? (ts : List Token) : Option (List Token) :=
  if startsWith .lAngle ts then afterAngles? 0 ts else none

def afterQualifiers : List Token → List Token
  | d :: n :: ts => if d.kind = .dot ∧ n.kind = .ident then afterQualifiers ts else d :: n :: ts
  | ts => ts

/-- A function type's parameter group, if one stands here: `Function(` after a return type, or right
here when the type itself began with `Function`. -/
def afterFunctionPart? (bare : Bool) (ts : List Token) : Option (List Token) :=
  if startsWithWord "Function" ts && kindAt? 1 ts == some .lParen then afterGroup? 0 ts.tail
  else if bare && startsWith .lParen ts then afterGroup? 0 ts
  else some ts

def afterQuestion (ts : List Token) : List Token :=
  if startsWith .question ts then ts.tail else ts

def afterType? (ts : List Token) : Option (List Token) :=
  match ts with
  | [] => none
  | t :: rest =>
    if t.kind ≠ .ident then none
    else do
      let qualified := afterQualifiers rest
      let applied ←
        if startsWith .lAngle qualified then afterAngles? 0 qualified else some qualified
      let bare := t.text == "Function" && startsWith .lParen rest
      return afterQuestion (← afterFunctionPart? bare applied)

def typedName? (ts : List Token) : Option (List Token) :=
  match afterType? ts with
  | some rest => if startsWith .ident rest then some rest else none
  | none => none

end CrossReference.Source.Lookahead
