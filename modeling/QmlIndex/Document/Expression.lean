import QmlIndex.Document.Cursor

/-! # Passing over scripts

Scripts and binding expressions are not parsed. A bracketed region is passed by keeping the closing
brackets still owed, innermost first; an expression without brackets ends at the first place where the
next declaration can begin.
-/

namespace QmlIndex.Document

/-- The closing bracket that `c` calls for. -/
def closerOf : Char → Option Char
  | '(' => some ')'
  | '[' => some ']'
  | '\x7b' => some '\x7d'
  | _ => none

/-- Whether `c` closes a bracket. -/
def isCloser (c : Char) : Bool := c == ')' || c == ']' || c == '\x7d'

/-- The closing brackets owed after one more token; an error names a closing bracket that is not the one
owed next. -/
def owe (owed : List Char) : TokenKind → Except Char (List Char)
  | .punct c =>
    match closerOf c with
    | some closer => .ok (closer :: owed)
    | none =>
      if isCloser c then
        match owed with
        | d :: rest => if d = c then .ok rest else .error c
        | [] => .error c
      else .ok owed
  | _ => .ok owed

/-- An operator at the end of a line asks for the next line. -/
def isOperator : TokenKind → Bool
  | .punct c => "+-*/%&|^!=<>?:,.".toList.contains c
  | _ => false

/-- Whether the next line goes on with the expression: it starts with punctuation, which no declaration
does, other than a closing brace or, in a list, the end of the element. -/
def nextLineContinues (inList : Bool) : List Token → Bool
  | [] => false
  | t :: rest =>
    match t.kind with
    | .newline => nextLineContinues inList rest
    | .punct '\x7d' => false
    | .punct c => !(inList && (c == ',' || c == ']'))
    | _ => false

/-- Whether an expression outside all brackets ends before `t`, where `rest` follows it. -/
def endsExpression (inList : Bool) (previous : Option TokenKind) (t : Token) (rest : List Token) : Bool :=
  match t.kind with
  | .punct c => c == ';' || c == '\x7d' || (inList && (c == ',' || c == ']'))
  | .newline => !(previous.any isOperator || nextLineContinues inList rest)
  | _ => false

namespace Reader

/-- Pass an expression, with the closing brackets owed and the last token that was no line break. -/
def skipExpressionFrom (inList : Bool) :
    List Token → List Char → Option TokenKind → Position → Outcome Unit
  | [], owed, _, lastEnd => if owed.isEmpty then .done () ⟨[], lastEnd⟩ else .failed .openExpression
  | t :: rest, owed, previous, lastEnd =>
    if owed.isEmpty && endsExpression inList previous t rest then .done () ⟨t :: rest, lastEnd⟩
    else
      match owe owed t.kind with
      | .error c => .failed (.found (.unbalanced c) t.range.start)
      | .ok owed =>
        skipExpressionFrom inList rest owed (if t.isNewline then previous else some t.kind) t.range.stop

/-- Pass an expression, in a list up to the end of the element. -/
def skipExpression (inList : Bool) : Reader Unit := fun c =>
  skipExpressionFrom inList c.tokens [] none c.lastEnd

/-- Pass the tokens up to the closing bracket owed last; `opening` is where the region began. -/
def skipBalancedFrom (opening : Position) : List Token → List Char → Outcome Unit
  | [], _ => .failed (.found .unclosedBracket opening)
  | t :: rest, owed =>
    match owe owed t.kind with
    | .error c => .failed (.found (.unbalanced c) t.range.start)
    | .ok [] => .done () ⟨rest, t.range.stop⟩
    | .ok (c :: owed) => skipBalancedFrom opening rest (c :: owed)

/-- Pass a bracketed region that starts here. -/
def skipBalanced : Reader Unit := fun c =>
  match c.tokens with
  | [] => complain .expectedBracket c
  | t :: rest =>
    match owe [] t.kind with
    | .ok (closer :: owed) => skipBalancedFrom t.range.start rest (closer :: owed)
    | _ => complainAt t .expectedBracket c

end Reader

end QmlIndex.Document
