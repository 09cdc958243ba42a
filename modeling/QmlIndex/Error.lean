/-! # Errors

Every operation that can fail fails with one of these causes. `message` is the text that is shown.
-/

namespace QmlIndex

/-- What went wrong with the database. -/
inductive StorageFault where
  /-- A column that must have a value has none. -/
  | missing (column : String)
  /-- A row does not satisfy a condition of its table. -/
  | violated (condition : String)
  /-- There is a row with the same key. -/
  | duplicate (columns : String)
  /-- Writing to the table is refused. -/
  | refused
  /-- A stored value in the given column is not what was expected there. -/
  | undecodable (column : Nat)
  /-- There can be no database at the path. -/
  | unopenable (path : String)
  | notADatabase
  deriving DecidableEq, Repr, Inhabited

namespace StorageFault

def text : StorageFault → String
  | missing column => s!"NOT NULL constraint failed: {column}"
  | violated condition => s!"CHECK constraint failed: {condition}"
  | duplicate columns => s!"UNIQUE constraint failed: {columns}"
  | refused => "write refused"
  | undecodable column => s!"Conversion error in column {column}"
  | unopenable path => s!"unable to open database file: {path}"
  | notADatabase => "file is not a database"

end StorageFault

/-- Why a configuration cannot be used. -/
inductive ConfigFault where
  | unreadable
  /-- The file is there already. -/
  | exists (path : String)
  deriving DecidableEq, Repr, Inhabited

inductive Error where
  | invalidUri (text : String)
  | storage (fault : StorageFault)
  | parse (text : String)
  | io (text : String)
  | serialization
  | watch
  | pattern (position : Nat) (text : String)
  | config (fault : ConfigFault)
  deriving DecidableEq, Repr, Inhabited

namespace Error

/-- What is shown of an error, where it has a fixed text. -/
def message : Error → String
  | invalidUri text => s!"Invalid URI: {text}"
  | storage fault => "Storage error: " ++ fault.text
  | parse text => s!"Parse error: {text}"
  | io text => s!"IO error: {text}"
  | serialization => "Serialization error"
  | watch => "Watch error"
  | pattern position text => s!"Invalid glob pattern: Pattern syntax error near position {position}: {text}"
  | config .unreadable => "Configuration error"
  | config (.exists path) =>
    s!"Configuration error: config already exists at {path} (use --force to overwrite)"

/-- Failures of file operations. -/
def notFound : Error := io "No such file or directory (os error 2)"
def notADirectory : Error := io "Not a directory (os error 20)"
def isADirectory : Error := io "Is a directory (os error 21)"
def invalidArgument : Error := io "Invalid argument (os error 22)"
def notEmpty : Error := io "Directory not empty (os error 39)"
def notText : Error := io "stream did not contain valid UTF-8"
def nulInName : Error := io "file name contained an unexpected NUL byte"

end Error

/-- The result of an operation that can fail. -/
abbrev Result := Except Error

end QmlIndex
