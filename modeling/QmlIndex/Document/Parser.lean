import QmlIndex.Text.Uppercase
import QmlIndex.Document
import QmlIndex.Document.Expression

/-! # From tokens to documents

A recursive descent over the declarations. Object bodies nest at most `maxNesting` deep; each reader of a
declaration is given the reader of the bodies one level further in, so nesting is recursion on the number
of levels that are left, and everything else is recursion on the tokens that are left.
-/

namespace QmlIndex.Document

open Text

/-- The deepest nesting of object bodies. -/
def maxNesting : Nat := 128

/-- Words that may stand before `property`. -/
def modifiers : List String := ["default", "readonly", "required", "final", "virtual", "override"]

/-- Whether the last segment of a dotted name starts with a capital. -/
def startsUppercase (name : String) : Bool :=
  ((name.toList.reverse.takeWhile (· != '.')).getLast?).any isUppercase

namespace Cursor

/-- The tokens after a dotted name, and the name's last segment. A dot must be followed by a segment. -/
def afterDotted : List Token → Option (String × List Token)
  | [] => none
  | t :: rest =>
    match t.ident? with
    | none => none
    | some segment =>
      match rest with
      | dot :: more => if dot.isPunct '.' then afterDotted more else some (segment, rest)
      | [] => some (segment, [])

/-- Whether `Type {`, `Qualified.Type {` or `Type on` stands here, line breaks before the brace allowed. -/
def looksLikeObject (c : Cursor) : Bool :=
  match afterDotted c.tokens with
  | none => false
  | some (segment, rest) =>
    startsUppercase segment &&
      ((rest.dropWhile Token.isNewline).head?).any fun t => t.isPunct '\x7b' || t.ident? == some "on"

/-- Whether the next token that is no line break is `p`. -/
def nextSignificantIs (c : Cursor) (p : Char) : Bool :=
  ((c.tokens.dropWhile Token.isNewline).head?).any (·.isPunct p)

/-- Whether the token after the next one is a colon. -/
def isBindingName (c : Cursor) : Bool := (c.tokens[1]?).any (·.isPunct ':')

end Cursor

namespace Reader

/-- The further segments of a dotted name: dots that a word follows. -/
def segments : List Token → String → TextRange → Position → Outcome (String × TextRange)
  | dot :: t :: rest, name, range, lastEnd =>
    match dot.isPunct '.', t.ident? with
    | true, some segment => segments rest (name ++ "." ++ segment) (range.cover t.range) t.range.stop
    | _, _ => .done (name, range) ⟨dot :: t :: rest, lastEnd⟩
  | rest, name, range, lastEnd => .done (name, range) ⟨rest, lastEnd⟩

/-- A dotted name and the stretch it covers. -/
def qualifiedName : Reader (String × TextRange) := do
  let (name, range) ← ident
  fun c => segments c.tokens name range c.lastEnd

/-! ## Header -/

/-- Whether a header statement ends before `t`. -/
def endsStatement (t : Token) : Bool := t.isNewline || t.isPunct ';'

/-- `pragma Name [: value]`; the value is the words up to the end of the line. -/
def pragma : Reader Pragma := do
  let start ← word "pragma"
  let (name, _) ← ident
  let c ← cursor
  if c.atPunct ':' then
    let _ ← next
    let c ← cursor
    let parts := (c.tokens.takeWhile (!endsStatement ·)).filterMap Token.ident?
    skipWhile (!endsStatement ·)
    return ⟨name, some (", ".intercalate parts), ⟨start.start, ← lastEnd⟩⟩
  else
    return ⟨name, none, ⟨start.start, ← lastEnd⟩⟩

/-- What an import statement points at. -/
def importTarget : Reader ImportTarget := do
  let c ← cursor
  match c.peek.map Token.kind with
  | some (.str path) =>
    let _ ← next
    return .path path
  | some (.ident _) =>
    let (name, _) ← qualifiedName
    return .module name
  | _ => complain .expectedImportTarget

/-- The version of an import, if one is written. -/
def importVersion : Reader (Option String) := do
  let c ← cursor
  match c.peek.map Token.kind with
  | some (.number version) =>
    let _ ← next
    return some version
  | _ => return none

/-- The qualifier of an import, if one is written. -/
def importQualifier : Reader (Option String) := do
  let c ← cursor
  if c.atWord "as" then
    let _ ← next
    let (name, _) ← ident
    return some name
  else
    return none

/-- `import Target [version] [as alias]`, up to the end of the statement. -/
def importStatement : Reader ImportStatement := do
  let start ← word "import"
  let target ← importTarget
  let version ← importVersion
  let qualifier ← importQualifier
  let c ← cursor
  match c.peek with
  | some t =>
    if endsStatement t then return ⟨target, version, qualifier, ⟨start.start, ← lastEnd⟩⟩
    else complainAt t .unexpectedInImport
  | none => return ⟨target, version, qualifier, ⟨start.start, ← lastEnd⟩⟩

/-- The pragmas and imports that have been read. -/
abbrev Header := List Pragma × List ImportStatement

/-- One more pragma or import, if there is one. -/
def headerTurn (h : Header) : Reader (Turn Header Header) := do
  skipSeparators
  let c ← cursor
  if c.atWord "pragma" then return .again (h.1 ++ [← pragma], h.2)
  else if c.atWord "import" then return .again (h.1, h.2 ++ [← importStatement])
  else return .stop h

/-- The pragmas and imports before the root object. -/
def header : Reader Header := iterate headerTurn ([], [])

/-! ## Declarations -/

/-- `int`, `Controls.Button`, `list<Item>`. -/
def typeName : Reader String := do
  let (name, _) ← qualifiedName
  let c ← cursor
  if c.atPunct '<' then
    let _ ← next
    let (inner, _) ← qualifiedName
    punct '>'
    return name ++ "<" ++ inner ++ ">"
  else
    return name

/-- `signal name[(...)]` -/
def signal (start : Position) : Reader Member := do
  let _ ← word "signal"
  let (name, _) ← ident
  let c ← cursor
  if c.atPunct '(' then skipBalanced
  return .signal name ⟨start, ← lastEnd⟩

/-- Pass a region that the given bracket opens. -/
def region (opening : Char) (complaint : Complaint) : Reader Unit := do
  let c ← cursor
  if c.atPunct opening then skipBalanced else complain complaint

/-- Pass `: T`, if it stands here. -/
def resultType : Reader Unit := do
  let c ← cursor
  if c.atPunct ':' then
    let _ ← next
    let _ ← typeName

/-- `function name(...) [: T] { ... }` -/
def function (start : Position) : Reader Member := do
  let _ ← word "function"
  let (name, _) ← ident
  region '(' .expectedParameters
  resultType
  skipNewlines
  region '\x7b' .expectedFunctionBody
  return .function name ⟨start, ← lastEnd⟩

/-- `enum Name { ... }` -/
def enumeration (start : Position) : Reader Member := do
  let _ ← word "enum"
  let (name, _) ← ident
  skipNewlines
  region '\x7b' .expectedEnumBody
  return .enum name ⟨start, ← lastEnd⟩

/-- `id: name` -/
def idMember (start : Position) : Reader Member := do
  let _ ← next
  let _ ← next
  let (name, _) ← ident
  return .id name ⟨start, ← lastEnd⟩

/-- A reader of object bodies: what stands after the type name, given the name and where it starts. -/
abbrev BodyReader := String → Position → Reader ObjectNode

/-- Pass `on name`, if it stands here. -/
def onTarget : Reader Unit := do
  let c ← cursor
  if c.atWord "on" then
    let _ ← next
    let _ ← qualifiedName

/-- Pass what may stand between a type name and its brace. -/
def beforeBody : Reader Unit := do
  onTarget
  skipNewlines

/-- `Type [on name]`; the answer is the type name and where it starts. -/
def objectHead : Reader (String × Position) := do
  let (name, range) ← qualifiedName
  beforeBody
  return (name, range.start)

/-- `Type [on name] { members }` -/
def object (body : BodyReader) : Reader ObjectNode := do
  let (name, start) ← objectHead
  body name start

/-- `component Name:` -/
def componentHead : Reader String := do
  let _ ← word "component"
  let (name, _) ← ident
  punct ':'
  skipNewlines
  return name

/-- `component Name: Type { ... }` -/
def component (body : BodyReader) (start : Position) : Reader Member := do
  let name ← componentHead
  let base ← object body
  return .component name ⟨start, ← lastEnd⟩ base

/-- Whether a token separates the elements of a list. -/
def separatesElements (t : Token) : Bool := t.isNewline || t.isPunct ','

/-- One more element of a list, or its end. An element that starts with `;` or a closing brace is not
passed. -/
def listTurn (body : BodyReader) (objects : List ObjectNode) :
    Reader (Turn (List ObjectNode) (List ObjectNode)) := do
  skipWhile separatesElements
  let c ← cursor
  match c.peek with
  | none => fail .missingListEnd
  | some t =>
    if t.isPunct ']' then
      let _ ← next
      return .stop objects
    else if c.looksLikeObject then
      return .again (objects ++ [← object body])
    else
      skipExpression true
      return .again objects

/-- A list value: objects are kept, other elements passed over. -/
def list (body : BodyReader) : Reader (List ObjectNode) := do
  punct '['
  iterate (listTurn body) []

/-- The value of a binding or property, with the objects written in it. -/
def value (body : BodyReader) : Reader (List ObjectNode) := do
  skipNewlines
  let c ← cursor
  if c.atPunct '\x7b' then
    skipBalanced
    return []
  else if c.atPunct '[' then
    list body
  else if c.looksLikeObject then
    return [← object body]
  else
    skipExpression false
    return []

/-- `property T name`; the answer is the name and the type. -/
def propertyHead : Reader (String × String) := do
  let _ ← word "property"
  let type ← typeName
  let (name, _) ← ident
  return (name, type)

/-- `property T name [: value]`, declared from `start`. -/
def property (body : BodyReader) (start : Position) : Reader Member := do
  let (name, type) ← propertyHead
  let c ← cursor
  if c.atPunct ':' then
    let _ ← next
    let objects ← value body
    return .property name type ⟨start, ← lastEnd⟩ objects
  else
    return .property name type ⟨start, ← lastEnd⟩ []

/-- Whether a token is a word that may stand before `property`. -/
def isModifier (t : Token) : Bool := t.ident?.any modifiers.contains

/-- A property with modifiers, or the bare `required name`. -/
def modified (body : BodyReader) (start : Position) : Reader Member := do
  skipWhile isModifier
  let c ← cursor
  if c.atWord "property" then
    property body start
  else
    let (name, _) ← ident
    return .binding name ⟨start, ← lastEnd⟩ []

/-- Whether an object goes on after its type name. -/
def opensObject (name : String) (c : Cursor) : Bool :=
  c.atPunct '\x7b' || c.atWord "on" || (startsUppercase name && c.nextSignificantIs '\x7b')

/-- A child object or a binding: whatever starts with a dotted name. -/
def named (body : BodyReader) (start : Position) : Reader Member := do
  let (name, range) ← qualifiedName
  let c ← cursor
  if opensObject name c then
    beforeBody
    return .object (← body name range.start)
  else if c.atPunct ':' then
    let _ ← next
    let objects ← value body
    return .binding name ⟨start, ← lastEnd⟩ objects
  else
    complain (.expectedValueOrBody name)

/-- The kinds of members, told apart by their first word. -/
inductive Declaration where
  | id
  | property
  | modified
  | signal
  | function
  | component
  | enumeration
  /-- A child object or a binding. -/
  | named
  deriving DecidableEq, Repr, Inhabited

/-- What a member that starts with a word declares. A keyword before a colon is an ordinary binding
name. -/
def declarationOf (isBindingName : Bool) (w : String) : Declaration :=
  if isBindingName then
    if w = "id" then .id else .named
  else if w = "property" then .property
  else if modifiers.contains w then .modified
  else if w = "signal" then .signal
  else if w = "function" then .function
  else if w = "component" then .component
  else if w = "enum" then .enumeration
  else .named

/-- What the member that starts here declares, and where it starts. -/
def declaration? (c : Cursor) : Option (Declaration × Position) :=
  match c.peek, c.word? with
  | some t, some w => some (declarationOf c.isBindingName w, t.range.start)
  | _, _ => none

/-- A member of the given kind. -/
def declared (body : BodyReader) (d : Declaration) (start : Position) : Reader Member :=
  match d with
  | .id => idMember start
  | .property => property body start
  | .modified => modified body start
  | .signal => signal start
  | .function => function start
  | .component => component body start
  | .enumeration => enumeration start
  | .named => named body start

/-- One member. -/
def member (body : BodyReader) : Reader Member := do
  let c ← cursor
  match declaration? c with
  | some (d, start) => declared body d start
  | none => complain .expectedMember

/-- One more member of an object, or its end. -/
def membersTurn (body : BodyReader) (name : String) (start : Position) (members : List Member) :
    Reader (Turn (List Member) ObjectNode) := do
  skipSeparators
  let c ← cursor
  match c.peek with
  | none => fail (.missingBrace name)
  | some t =>
    if t.isPunct '\x7d' then
      let _ ← next
      return .stop (.mk name ⟨start, ← lastEnd⟩ members)
    else
      return .again (members ++ [← member body])

/-- `{ members }` of an object whose type name starts at `start`. -/
def members (body : BodyReader) : BodyReader := fun name start => do
  punct '\x7b'
  iterate (membersTurn body name start) []

/-- Bodies with at most the given number of levels; `limit` is the number the complaint names. -/
def body (limit : Nat) : Nat → BodyReader
  | 0 => fun _ _ => complain (.nestedTooDeep limit)
  | levels + 1 => members (body limit levels)

/-- Nothing but line breaks and semicolons is left. -/
def endOfDocument : Reader Unit := do
  skipSeparators
  let c ← cursor
  match c.peek with
  | some t => complainAt t .contentAfterRoot
  | none => return ()

/-- A whole document, whose bodies nest at most `limit` deep. -/
def document (limit : Nat) : Reader Document := do
  let (pragmas, imports) ← header
  let c ← cursor
  if c.peek.isNone then
    fail .noRoot
  else
    let root ← object (body limit limit)
    endOfDocument
    return ⟨pragmas, imports, root⟩

end Reader

/-- How reading a document ends. -/
inductive Reading where
  | parsed (document : Document)
  | failed (fault : Fault)
  /-- Reading never ends. -/
  | stuck
  deriving Repr

/-- Read a list of tokens as a document, with a limit on nesting. -/
def ofTokens (limit : Nat) (tokens : List Token) : Reading :=
  match Reader.document limit ⟨tokens, .origin⟩ with
  | .done document _ => .parsed document
  | .failed fault => .failed fault
  | .stuck => .stuck

/-- Read a text as a document. -/
def parse (text : List Char) : Reading :=
  match Token.scan text with
  | .error (fault, place) => .failed (.lexical fault place)
  | .ok tokens => ofTokens maxNesting tokens

end QmlIndex.Document
