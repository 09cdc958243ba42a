import QmlIndex.Position

/-! # Documents

Only the declarative surface of a document is kept: the header, the tree of objects and what each object
declares. Scripts and binding expressions are not part of it, except for the objects written inside them.
-/

namespace QmlIndex

/-- `pragma Singleton`, `pragma ComponentBehavior: Bound`. -/
structure Pragma where
  name : String
  value : Option String
  range : TextRange
  deriving DecidableEq, Repr, Inhabited

/-- What an import statement points at. -/
inductive ImportTarget where
  /-- A dotted module name. -/
  | module (name : String)
  /-- A quoted path or URL. -/
  | path (text : String)
  deriving DecidableEq, Repr, Inhabited

namespace ImportTarget

/-- The reference as written, without quotes. -/
def text : ImportTarget → String
  | module name => name
  | path text => text

end ImportTarget

/-- `import Target [version] [as qualifier]`. -/
structure ImportStatement where
  target : ImportTarget
  version : Option String
  qualifier : Option String
  range : TextRange
  deriving DecidableEq, Repr, Inhabited

mutual

/-- An object definition `Type { members }`. -/
inductive ObjectNode where
  | mk (typeName : String) (range : TextRange) (members : List Member)
  deriving Repr

/-- What stands in an object body. -/
inductive Member where
  /-- `id: name` -/
  | id (name : String) (range : TextRange)
  /-- `property T name [: value]`, with the objects written in the value. -/
  | property (name typeName : String) (range : TextRange) (objects : List ObjectNode)
  /-- `signal name(...)` -/
  | signal (name : String) (range : TextRange)
  /-- `function name(...) { ... }` -/
  | function (name : String) (range : TextRange)
  /-- `component Name: Base { ... }` -/
  | component (name : String) (range : TextRange) (object : ObjectNode)
  /-- `enum Name { ... }` -/
  | enum (name : String) (range : TextRange)
  /-- `name: value`, with the objects written in the value. -/
  | binding (name : String) (range : TextRange) (objects : List ObjectNode)
  /-- A child object, `Type on name { ... }` included. -/
  | object (object : ObjectNode)
  deriving Repr

end

namespace ObjectNode

def typeName : ObjectNode → String
  | mk typeName _ _ => typeName

def range : ObjectNode → TextRange
  | mk _ range _ => range

def members : ObjectNode → List Member
  | mk _ _ members => members

instance : Inhabited ObjectNode := ⟨.mk "" default []⟩

/-- The name in the first `id:` member. -/
def id? (o : ObjectNode) : Option String :=
  o.members.findSome? fun
    | .id name _ => some name
    | _ => none

end ObjectNode

/-- A whole document. -/
structure Document where
  pragmas : List Pragma
  imports : List ImportStatement
  root : ObjectNode
  deriving Repr, Inhabited

namespace Document

/-- Whether a pragma of this name is present. -/
def hasPragma (d : Document) (name : String) : Bool := d.pragmas.any (·.name == name)

/-- A document whose one instance is shared. -/
def isSingleton (d : Document) : Bool := d.hasPragma "Singleton"

end Document

end QmlIndex
