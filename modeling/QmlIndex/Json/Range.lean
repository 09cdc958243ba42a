import QmlIndex.Position
import QmlIndex.Json

/-! # Places as JSON values

Lines and characters are stored as unsigned 32-bit words, so reading refuses anything else.
-/

namespace QmlIndex

namespace Position

def toJson (p : Position) : Json :=
  .obj [("line", .int p.line), ("character", .int p.character)]

def ofJson? (j : Json) : Option Position := do
  let [line, character] ← j.record? ["line", "character"] | none
  let word := Json.natBelow? UInt32.size
  return ⟨← Json.required word line, ← Json.required word character⟩

end Position

namespace TextRange

def toJson (r : TextRange) : Json :=
  .obj [("start", r.start.toJson), ("end", r.stop.toJson)]

def ofJson? (j : Json) : Option TextRange := do
  let [start, stop] ← j.record? ["start", "end"] | none
  return ⟨← Json.required Position.ofJson? start, ← Json.required Position.ofJson? stop⟩

end TextRange

end QmlIndex
