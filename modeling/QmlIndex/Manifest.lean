import QmlIndex.Text.Uppercase
import QmlIndex.Version

/-! # Module manifests

A manifest is read line by line. The first word of a line decides what the line says; a line that starts
with any other capitalised word declares a component. Lines that say nothing are left out.
-/

namespace QmlIndex

open Text

/-- What one line of a manifest says. -/
inductive Directive where
  /-- `module Dotted.Name` -/
  | module (name : String)
  /-- `Type [version] path` -/
  | component (name : String) (version : Option String) (path : String)
  /-- `singleton Type [version] path` -/
  | singleton (name : String) (version : Option String) (path : String)
  /-- `internal Type path` -/
  | internal (name path : String)
  /-- `depends Module [version]` -/
  | depends (target : String) (version : Option String)
  /-- `import Module [version]` -/
  | importing (target : String) (version : Option String)
  /-- `[optional] plugin name [path]` -/
  | plugin (name : String) (path : Option String) (optional : Bool)
  | className (value : String)
  | typeInfo (value : String)
  | designerSupported
  deriving DecidableEq, Repr, Inhabited

namespace Directive

/-- `Type path` or `Type version path`. -/
def declaration? : List String → Option (String × Option String × String)
  | [name, path] => some (name, none, path)
  | [name, version, path] =>
    if (Version.parse? version).isSome then some (name, some version, path) else none
  | _ => none

/-- `Module` or `Module version`. -/
def reference? : List String → Option (String × Option String)
  | [target] => some (target, none)
  | [target, version] => some (target, some version)
  | _ => none

/-- `name` or `name path`. -/
def plugin? (optional : Bool) : List String → Option Directive
  | [name] => some (.plugin name none optional)
  | [name, path] => some (.plugin name (some path) optional)
  | _ => none

/-- The directive that the words of a line make. -/
def ofWords : List String → Option Directive
  | [] => none
  | "module" :: rest =>
    match rest with
    | [name] => some (.module name)
    | _ => none
  | "singleton" :: rest => (declaration? rest).map fun (name, version, path) => .singleton name version path
  | "internal" :: rest =>
    match rest with
    | [name, path] => some (.internal name path)
    | _ => none
  | "depends" :: rest => (reference? rest).map fun (target, version) => .depends target version
  | "import" :: rest => (reference? rest).map fun (target, version) => .importing target version
  | "plugin" :: rest => plugin? false rest
  | "optional" :: rest =>
    match rest with
    | "plugin" :: rest => plugin? true rest
    | _ => none
  | "classname" :: rest =>
    match rest with
    | [value] => some (.className value)
    | _ => none
  | "typeinfo" :: rest =>
    match rest with
    | [value] => some (.typeInfo value)
    | _ => none
  | "designersupported" :: rest => if rest.isEmpty then some .designerSupported else none
  | word :: rest =>
    if (word.toList.head?).any isUppercase then
      (declaration? (word :: rest)).map fun (name, version, path) => .component name version path
    else none

/-- The directive of one line; a comment starts with `#`. -/
def ofLine (line : List Char) : Option Directive :=
  if (line.dropWhile isBlank).head? == some '#' then none
  else ofWords ((words line).map String.ofList)

end Directive

/-- A manifest, as the list of what its lines say. -/
abbrev Manifest := List Directive

namespace Manifest

def parse (text : List Char) : Manifest := (lines text).filterMap Directive.ofLine

/-- The name in the first `module` line. -/
def moduleName? (m : Manifest) : Option String :=
  m.findSome? fun
    | .module name => some name
    | _ => none

end Manifest

end QmlIndex
