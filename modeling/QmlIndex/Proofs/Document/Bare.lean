import QmlIndex.Document.Parser
import QmlIndex.Summary

/-! # Documents without places

A document says something and says it somewhere. Here the places are erased: from documents, from faults, and from
what the index keeps of a document, which can be found from the erased document as well.
-/

namespace QmlIndex

/-- The range in place of one that is erased. -/
def TextRange.blank : TextRange := ⟨.origin, .origin⟩

def Pragma.bare (p : Pragma) : Pragma := { p with range := .blank }

def ImportStatement.bare (i : ImportStatement) : ImportStatement := { i with range := .blank }

mutual

def ObjectNode.bare : ObjectNode → ObjectNode
  | .mk typeName _ members => .mk typeName .blank (bareMembers members)

def bareMembers : List Member → List Member
  | [] => []
  | m :: rest => m.bare :: bareMembers rest

def Member.bare : Member → Member
  | .id name _ => .id name .blank
  | .property name typeName _ objects => .property name typeName .blank (bareObjects objects)
  | .signal name _ => .signal name .blank
  | .function name _ => .function name .blank
  | .component name _ object => .component name .blank object.bare
  | .enum name _ => .enum name .blank
  | .binding name _ objects => .binding name .blank (bareObjects objects)
  | .object object => .object object.bare

def bareObjects : List ObjectNode → List ObjectNode
  | [] => []
  | o :: rest => o.bare :: bareObjects rest

end

theorem bareMembers_eq_map (l : List Member) : bareMembers l = l.map Member.bare := by
  induction l with
  | nil => rfl
  | cons m rest ih => rw [bareMembers, ih, List.map_cons]

theorem bareObjects_eq_map (l : List ObjectNode) : bareObjects l = l.map ObjectNode.bare := by
  induction l with
  | nil => rfl
  | cons o rest ih => rw [bareObjects, ih, List.map_cons]

namespace Document

def bare (d : Document) : Document := ⟨d.pragmas.map Pragma.bare, d.imports.map ImportStatement.bare, d.root.bare⟩

/-- A fault without the place that it names, which leaves its message but for the line and the column. -/
def Fault.bare : Fault → Fault
  | .lexical fault _ => .lexical fault .origin
  | .found complaint _ => .found complaint .origin
  | fault => fault

namespace Reading

def bare : Reading → Reading
  | .parsed document => .parsed document.bare
  | .failed fault => .failed fault.bare
  | .stuck => .stuck

def isParsed : Reading → Bool
  | .parsed _ => true
  | _ => false

theorem exists_parsed {r : Reading} (h : r.isParsed = true) : ∃ d, r = .parsed d := by
  cases r with
  | parsed d => exact ⟨d, rfl⟩
  | failed | stuck => cases h

end Reading

end Document

/-! ## Summaries -/

def Import.bare (i : Import) : Import := { i with range := .blank }

def Symbol.bare (s : Symbol) : Symbol := { s with range := .blank }

def Summary.bare (s : Summary) : Summary :=
  { s with imports := s.imports.map Import.bare, symbols := s.symbols.map Symbol.bare }

mutual

theorem ObjectNode.symbols_bare (o : ObjectNode) : o.bare.symbols = o.symbols.map Symbol.bare := by
  cases o with
  | mk typeName range members =>
      simp only [ObjectNode.bare, ObjectNode.symbols, List.map_cons, Symbol.bare, memberSymbols_bare]

theorem memberSymbols_bare (owner : String) (members : List Member) :
    memberSymbols owner (bareMembers members) = (memberSymbols owner members).map Symbol.bare := by
  cases members with
  | nil => rfl
  | cons m rest => simp only [bareMembers, memberSymbols, List.map_append, m.symbols_bare owner, memberSymbols_bare]

theorem Member.symbols_bare (owner : String) (m : Member) :
    m.bare.symbols owner = (m.symbols owner).map Symbol.bare := by
  cases m with
  | id | signal | function | enum => rfl
  | property | binding =>
      simp only [Member.bare, Member.symbols, List.map_cons, Symbol.bare, objectSymbols_bare]
  | component _ _ object | object object => simp only [Member.bare, Member.symbols, object.symbols_bare]

theorem objectSymbols_bare (objects : List ObjectNode) :
    objectSymbols (bareObjects objects) = (objectSymbols objects).map Symbol.bare := by
  cases objects with
  | nil => rfl
  | cons o rest => simp only [bareObjects, objectSymbols, List.map_append, o.symbols_bare, objectSymbols_bare]

end

mutual

theorem ObjectNode.inlineComponents_bare (o : ObjectNode) : o.bare.inlineComponents = o.inlineComponents := by
  cases o with
  | mk typeName range members => simp only [ObjectNode.bare, ObjectNode.inlineComponents, memberComponents_bare]

theorem memberComponents_bare (members : List Member) :
    memberComponents (bareMembers members) = memberComponents members := by
  cases members with
  | nil => rfl
  | cons m rest => simp only [bareMembers, memberComponents, m.inlineComponents_bare, memberComponents_bare]

theorem Member.inlineComponents_bare (m : Member) : m.bare.inlineComponents = m.inlineComponents := by
  cases m with
  | id | signal | function | enum => rfl
  | property | binding => simp only [Member.bare, Member.inlineComponents, objectComponents_bare]
  | component _ _ object | object object =>
      simp only [Member.bare, Member.inlineComponents, object.inlineComponents_bare]

theorem objectComponents_bare (objects : List ObjectNode) :
    objectComponents (bareObjects objects) = objectComponents objects := by
  cases objects with
  | nil => rfl
  | cons o rest => simp only [bareObjects, objectComponents, o.inlineComponents_bare, objectComponents_bare]

end

namespace Document

theorem isSingleton_bare (d : Document) : d.bare.isSingleton = d.isSingleton := by
  simp only [isSingleton, hasPragma, bare, List.any_map]
  rfl

theorem typeName_bare (o : ObjectNode) : o.bare.typeName = o.typeName := by
  cases o
  rfl

/-- Places do not enter into what the index keeps but for the places that it keeps. -/
theorem summary_bare (d : Document) : d.bare.summary = d.summary.bare := by
  have imports : d.bare.summary.imports = d.summary.imports.map Import.bare := by
    simp only [summary, bare, List.map_map]
    rfl
  have exports : d.bare.summary.exports = d.summary.exports := by
    simp only [summary, isSingleton_bare]
    simp only [bare, typeName_bare, ObjectNode.inlineComponents_bare]
  have symbols : d.bare.summary.symbols = d.summary.symbols.map Symbol.bare := d.root.symbols_bare
  rw [Summary.bare, ← imports, ← exports, ← symbols]

end Document

end QmlIndex
