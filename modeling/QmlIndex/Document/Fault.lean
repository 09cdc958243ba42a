import QmlIndex.Token.Lexer

/-! # Why a text is not a document

A complaint says what is wrong, a fault says it of a place. Four faults are about the document as a whole
and name no place.
-/

namespace QmlIndex.Document

/-- What is wrong at a token. -/
inductive Complaint where
  | expectedIdentifier
  | expectedWord (word : String)
  | expectedPunct (c : Char)
  | expectedImportTarget
  | unexpectedInImport
  | nestedTooDeep (limit : Nat)
  | expectedMember
  | expectedValueOrBody (name : String)
  | expectedParameters
  | expectedFunctionBody
  | expectedEnumBody
  | expectedBracket
  | unbalanced (c : Char)
  | unclosedBracket
  | contentAfterRoot
  deriving DecidableEq, Repr, Inhabited

namespace Complaint

def text : Complaint → String
  | expectedIdentifier => "expected an identifier"
  | expectedWord word => s!"expected '{word}'"
  | expectedPunct c => s!"expected '{c}'"
  | expectedImportTarget => "expected a module name or quoted path after 'import'"
  | unexpectedInImport => "unexpected token in import statement"
  | nestedTooDeep limit => s!"objects nested deeper than {limit} levels"
  | expectedMember => "expected a member declaration"
  | expectedValueOrBody name => s!"expected ':' or '\x7b' after '{name}'"
  | expectedParameters => "expected '(' after function name"
  | expectedFunctionBody => "expected function body"
  | expectedEnumBody => "expected '\x7b' after enum name"
  | expectedBracket => "expected an opening bracket"
  | unbalanced c => s!"unbalanced '{c}'"
  | unclosedBracket => "unclosed bracket"
  | contentAfterRoot => "unexpected content after the root object"

end Complaint

/-- Why a text is not a document. -/
inductive Fault where
  /-- The text cannot be cut into tokens; the open piece starts at the place. -/
  | lexical (fault : LexicalFault) (place : Position)
  /-- A complaint about the token at the place. -/
  | found (complaint : Complaint) (place : Position)
  /-- A complaint about the missing next token. -/
  | ended (complaint : Complaint)
  | noRoot
  | missingBrace (typeName : String)
  | missingListEnd
  | openExpression
  deriving DecidableEq, Repr, Inhabited

namespace Fault

def message : Fault → String
  | lexical fault place => s!"{fault.text} at {place.display}"
  | found complaint place => s!"{complaint.text} at {place.display}"
  | ended complaint => s!"{complaint.text} (at end of input)"
  | noRoot => "expected a root object definition"
  | missingBrace typeName => s!"missing '\x7d' for object '{typeName}'"
  | missingListEnd => "missing ']' in list binding"
  | openExpression => "unexpected end of input inside expression"

end Fault

end QmlIndex.Document
