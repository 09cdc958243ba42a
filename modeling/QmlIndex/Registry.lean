import QmlIndex.Module

/-! # The module registry

Modules are kept under their full names. A request may also name a module by its last segments; of
several such modules the one with the fewest segments is meant, then the one with the shortest name in
bytes, then the first in order.
-/

namespace QmlIndex

open Text

/-- Modules by full name. -/
structure Registry where
  modules : OrdMap String ModuleEntry
  deriving DecidableEq, Repr, Inhabited

namespace Registry

def empty : Registry := ⟨.empty⟩

/-- Put a module under its name, in place of one of that name. -/
def insert (r : Registry) (m : ModuleEntry) : Registry := ⟨r.modules.insert m.name m⟩

def remove (r : Registry) (name : String) : Registry := ⟨r.modules.erase name⟩

def get? (r : Registry) (name : String) : Option ModuleEntry := r.modules.get? name

def contains (r : Registry) (name : String) : Bool := r.modules.contains name

def size (r : Registry) : Nat := r.modules.size

def isEmpty (r : Registry) : Bool := r.modules.isEmpty

/-- The modules in order of their names. -/
def toList (r : Registry) : List ModuleEntry := r.modules.values

def names (r : Registry) : List String := r.modules.keys

/-- The module that was read from a manifest. -/
def findByManifest? (r : Registry) (manifest : FileUri) : Option ModuleEntry :=
  r.toList.find? fun m => m.manifest == some manifest

/-- The dot-separated segments of a name. -/
def segments (name : String) : List (List Char) := fields '.' name.toList

/-- Whether the last segments of a full name are the requested ones. -/
def hasSuffix (name requested : String) : Bool := (segments requested).isSuffixOf (segments name)

/-- Shorter names first. -/
def compareNames (a b : String) : Ordering :=
  ((compare (segments a).length (segments b).length).then
    (compare a.utf8ByteSize b.utf8ByteSize)).then (compare a b)

/-- The least module of a list in the order of names. -/
def shortest? : List ModuleEntry → Option ModuleEntry
  | [] => none
  | m :: rest =>
    some (rest.foldl (fun best n => if compareNames n.name best.name == .lt then n else best) m)

/-- The module of that name, or else the one meant by its last segments. -/
def resolve? (r : Registry) (name : String) : Option ModuleEntry :=
  if name.isEmpty then none
  else
    match r.get? name with
    | some m => some m
    | none => shortest? (r.toList.filter fun m => hasSuffix m.name name)

end Registry

end QmlIndex
