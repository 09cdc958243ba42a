import QmlIndex.Proofs.Document.Layout
import QmlIndex.Proofs.Outline.Reading

/-! # The document of an outline

The text of an outline whose objects nest no deeper than they may is a document, and it is the one that the outline
denotes.
-/

namespace QmlIndex

open Document

namespace Outline

open Lexeme

variable {rest : List Lexeme}

/-! ## Headers -/

/-- The value of a pragma is the words up to the end of its line. -/
theorem enumerated_before (names : List Name) (rest : List Lexeme) :
    (before (enumerated names ++ newline :: rest)).past (!Reader.endsStatement ·) = before (newline :: rest) ∧
      ((before (enumerated names ++ newline :: rest)).tokens.takeWhile (!Reader.endsStatement ·)).filterMap
        Token.ident? = names.map Name.text := by
  have ended : (before (newline :: rest)).past (!Reader.endsStatement ·) = before (newline :: rest) :=
    past_of_not (by simp [Cursor.peek, Reader.endsStatement])
  fun_induction enumerated names with
  | case1 => exact ⟨ended, by simp [Reader.endsStatement]⟩
  | case2 n =>
      refine ⟨?_, by simp [Reader.endsStatement, List.takeWhile_cons]⟩
      exact (past_of_in rfl (by simp [Reader.endsStatement])).trans ended
  | case3 n names _ ih =>
      refine ⟨?_, by simpa [Reader.endsStatement, List.takeWhile_cons, List.filterMap_cons] using ih.2⟩
      refine (past_of_in rfl (by simp [Reader.endsStatement])).trans ?_
      exact (past_of_in rfl (by simp [Reader.endsStatement])).trans ih.1

theorem pragma_before (name : Name) (value : Option (List Name)) :
    Reader.pragma (before ((Line.pragma name value).lexemes ++ newline :: rest)) =
      .done ⟨name.text, value.map fun names => ", ".intercalate (names.map Name.text), .blank⟩
        (before (newline :: rest)) := by
  simp only [Line.lexemes, List.cons_append]
  rw [Reader.pragma, word_bind, before_space, ident_bind]
  cases value with
  | none =>
      simp [pragmaValue]
      rfl
  | some names =>
      obtain ⟨passed, words⟩ := enumerated_before names rest
      simp only [pragmaValue, List.cons_append, Reader.cursor_bind, atPunct_mark, beq_self_eq_true, if_true, next_mark,
        before_space, Reader.skipWhile_bind, passed, words]
      rfl

theorem import_before (target : Target) (version : Option Numeral) (qualifier : Option Name) :
    Reader.importStatement (before ((Line.importing target version qualifier).lexemes ++ newline :: rest)) =
      .done ⟨target.toImportTarget, version.map Numeral.text, qualifier.map Name.text, .blank⟩
        (before (newline :: rest)) := by
  have qualified : Reader.importQualifier (before (importQualifier qualifier ++ newline :: rest)) =
      .done (qualifier.map Name.text) (before (newline :: rest)) := by
    cases qualifier with
    | none => simp [importQualifier, Reader.importQualifier]
    | some name => simp [importQualifier, Reader.importQualifier]
  have versioned : Reader.importVersion (before (importVersion version ++ (importQualifier qualifier ++ newline :: rest))) =
      .done (version.map Numeral.text) (before (importQualifier qualifier ++ newline :: rest)) := by
    cases version with
    | none => cases qualifier <;> rfl
    | some version => rfl
  have plain : (before (importVersion version ++ (importQualifier qualifier ++ newline :: rest))).atPunct '.' = false := by
    cases version <;> cases qualifier <;> simp [importVersion, importQualifier]
  have pointed : Reader.importTarget (before (target.lexemes ++ (importVersion version ++ (importQualifier qualifier ++
      newline :: rest)))) = .done target.toImportTarget
        (before (importVersion version ++ (importQualifier qualifier ++ newline :: rest))) := by
    cases target with
    | module name =>
        have named := qualifiedName_before name _ plain
        exact bind_of_done named
    | path reference => rfl
  simp only [Line.lexemes, List.cons_append, List.append_assoc]
  rw [Reader.importStatement, word_bind, before_space, bind_of_done pointed, bind_of_done versioned, bind_of_done qualified]
  rfl

/-- A line of the header, from the end of the line before it or from its start. -/
theorem headerTurn_line (line : Line) (h : Reader.Header) {c : Cursor}
    (front : c.past Reader.endsStatement = before (line.lexemes ++ newline :: rest)) :
    Reader.headerTurn h c = .done (.again (h.1 ++ line.pragma?.toList, h.2 ++ line.import?.toList))
      (before (newline :: rest)) := by
  simp only [Reader.headerTurn, Reader.skipSeparators_bind, front, Reader.cursor_bind]
  cases line with
  | pragma name value =>
      have word : (before ((Line.pragma name value).lexemes ++ newline :: rest)).atWord "pragma" = true := by
        simp [Line.lexemes]
      simp only [word, if_true]
      rw [bind_of_done (pragma_before name value)]
      simp [Line.pragma?, Line.import?]
  | importing target version qualifier =>
      have word (w : String) :
          (before ((Line.importing target version qualifier).lexemes ++ newline :: rest)).atWord w = ("import" == w) := by
        simp [Line.lexemes]
      simp only [word]
      rw [if_neg (by decide), if_pos (by decide), bind_of_done (import_before target version qualifier)]
      simp [Line.pragma?, Line.import?]

theorem headerLexemes_cons (line : Line) (lines : List Line) :
    headerLexemes (line :: lines) = line.lexemes ++ newline :: headerLexemes lines := by simp [headerLexemes]

theorem Line.exists_front (line : Line) : ∃ w more, line.lexemes = word w :: more := by
  cases line <;> exact ⟨_, _, rfl⟩

/-- Each line of a header, and the object behind it, starts with a word. -/
theorem past_header (lines : List Line) (o : Object) :
    (before (headerLexemes lines ++ (o.lexemes ++ rest))).past Reader.endsStatement =
      before (headerLexemes lines ++ (o.lexemes ++ rest)) := by
  cases lines with
  | nil =>
      obtain ⟨n, more, starts⟩ := o.exists_front
      exact past_of_not (by simp [headerLexemes, starts, Cursor.peek, Reader.endsStatement])
  | cons line lines =>
      obtain ⟨w, more, starts⟩ := line.exists_front
      exact past_of_not (by simp [headerLexemes, starts, Cursor.peek, Reader.endsStatement])

/-- The object that ends the header starts with a name, which is no `pragma` and no `import`. -/
theorem iterate_header (lines : List Line) (o : Object) (h : Reader.Header) {c : Cursor}
    (front : c.past Reader.endsStatement = before (headerLexemes lines ++ (o.lexemes ++ rest))) :
    Reader.iterate Reader.headerTurn h c =
      .done (h.1 ++ lines.filterMap Line.pragma?, h.2 ++ lines.filterMap Line.import?) (before (o.lexemes ++ rest)) := by
  have sweeps := Reader.headerTurn_advances.iterate_sweeps
  induction lines generalizing h c with
  | nil =>
      obtain ⟨n, more, starts⟩ := o.exists_front
      have free := n.free
      simp only [reserved, List.mem_append, List.mem_cons, List.not_mem_nil, or_false, not_or] at free
      have turn : Reader.headerTurn h c = .done (.stop h) (before (o.lexemes ++ rest)) := by
        simp only [Reader.headerTurn, Reader.skipSeparators_bind, front, Reader.cursor_bind, headerLexemes,
          List.flatMap_nil, List.nil_append]
        simp [starts, free]
      rw [sweeps.loop, turn]
      simp [Reader.resume]
  | cons line lines ih =>
      have more : (before (newline :: (headerLexemes lines ++ (o.lexemes ++ rest)))).past Reader.endsStatement =
          before (headerLexemes lines ++ (o.lexemes ++ rest)) := by
        rw [past_of_in (k := .newline) rfl rfl, past_header]
      rw [headerLexemes_cons, List.append_assoc, List.cons_append] at front
      rw [sweeps.loop, headerTurn_line line h front, Reader.resume, ih _ more]
      cases line <;> simp [Line.pragma?, Line.import?, List.filterMap_cons]

/-! ## Documents -/

theorem document_before (d : Outline) {limit : Nat} (deep : d.root.depth ≤ limit) :
    Reader.document limit (before d.lexemes) = .done d.document (before []) := by
  have front : (before d.lexemes).past Reader.endsStatement =
      before (headerLexemes d.header ++ (d.root.lexemes ++ [newline])) := by
    rw [lexemes, List.append_assoc]
    exact past_header d.header d.root
  have header : Reader.header (before d.lexemes) =
      .done (d.header.filterMap Line.pragma?, d.header.filterMap Line.import?) (before (d.root.lexemes ++ [newline])) :=
    iterate_header d.header d.root ([], []) front
  obtain ⟨n, more, starts⟩ := d.root.exists_front
  have more : (before (d.root.lexemes ++ [newline])).peek.isNone = false := by simp [starts, Cursor.peek]
  rw [Reader.document, bind_of_done header]
  simp only [Reader.cursor_bind, more, Bool.false_eq_true, if_false]
  rw [bind_of_done (object_before (reads_body limit deep))]
  rfl

mutual

theorem Object.bare_tree (o : Object) : o.tree.bare = o.tree := by
  cases o with
  | mk type target members => rw [Object.tree, ObjectNode.bare, bareMembers_memberTrees]

theorem bareMembers_memberTrees (members : List Declaration) : bareMembers (memberTrees members) = memberTrees members := by
  cases members with
  | nil => rfl
  | cons d members => rw [memberTrees, bareMembers, d.bare_tree, bareMembers_memberTrees]

theorem Declaration.bare_tree (d : Declaration) : d.tree.bare = d.tree := by
  cases d with
  | id | signal | function | enum => rfl
  | property _ _ _ value =>
      cases value with
      | none => rfl
      | some v => simp only [Declaration.tree, Member.bare, v.bare_trees]
  | component _ o | object o => simp only [Declaration.tree, Member.bare, o.bare_tree]
  | binding _ v => simp only [Declaration.tree, Member.bare, v.bare_trees]

theorem Value.bare_trees (v : Value) : bareObjects v.trees = v.trees := by
  cases v with
  | plain => rfl
  | object o => simp only [Value.trees, bareObjects, o.bare_tree]
  | list objects => exact bareObjects_objectTrees objects

theorem bareObjects_objectTrees (objects : List Object) : bareObjects (objectTrees objects) = objectTrees objects := by
  cases objects with
  | nil => rfl
  | cons o objects => rw [objectTrees, bareObjects, o.bare_tree, bareObjects_objectTrees]

end

theorem bare_document (d : Outline) : d.document.bare = d.document := by
  have pragmas : (d.header.filterMap Line.pragma?).map Pragma.bare = d.header.filterMap Line.pragma? := by
    rw [List.map_filterMap]
    congr 1
    funext line
    cases line <;> rfl
  have imports : (d.header.filterMap Line.import?).map ImportStatement.bare = d.header.filterMap Line.import? := by
    rw [List.map_filterMap]
    congr 1
    funext line
    cases line <;> rfl
  rw [document, Document.bare, pragmas, imports, d.root.bare_tree]

/-- The text of an outline that nests no deeper than bodies may is accepted, and the document that is read, its ranges
    erased, is the one that the outline denotes. -/
theorem parse_text (d : Outline) (deep : d.root.depth ≤ maxNesting) :
    ∃ tree, parse d.text = .parsed tree ∧ tree.bare = d.document := by
  obtain ⟨tokens, scanned, kinds⟩ := scan_spelled (spelled_lexemes d)
  have blanks : (tokens.map fun t => Token.blank t.kind) = (before d.lexemes).tokens := by
    rw [before, ← kinds, List.map_map]
    rfl
  have read : ofTokens maxNesting (before d.lexemes).tokens = .parsed d.document := by
    rw [ofTokens, mk_tokens, document_before d deep]
  have same : (ofTokens maxNesting tokens).bare = .parsed d.document := by
    rw [bare_ofTokens_of_spreads (Spreads.blank tokens), blanks, read, Reading.bare, bare_document]
  have parsed : parse d.text = ofTokens maxNesting tokens := by rw [parse, text, scanned]
  rw [parsed]
  cases outcome : ofTokens maxNesting tokens with
  | parsed tree =>
      rw [outcome] at same
      exact ⟨tree, rfl, Reading.parsed.inj same⟩
  | failed | stuck =>
      rw [outcome] at same
      cases same

namespace Sample

def name (text : String) (lexical : isWord text = true := by decide)
    (free : text ∉ reserved := by decide) : Name := ⟨text, lexical, free⟩

def item : TypeName := ⟨⟨name "Item", []⟩, by decide⟩

def button : TypeName := ⟨⟨name "Q", [name "Button"]⟩, by decide⟩

def members : List Declaration :=
  [.id (name "root"),
    .property [⟨"readonly", by decide⟩] (.list ⟨name "Item", []⟩) (name "rows")
      (some (.list [.mk item none [], .mk button none [.signal (name "hit")]])),
    .component (name "Row") (.mk item none [.binding ⟨name "font", [name "size"]⟩ .plain]),
    .object (.mk button (some ⟨name "rows", []⟩) [.function (name "run")])]

def outline : Outline where
  header := [.pragma (name "Singleton") none,
    .importing (.module ⟨name "QtQuick", [name "Controls"]⟩) (some ⟨"2.15", by decide⟩) (some (name "Q"))]
  root := .mk item none members

/-- How the outline is written. -/
def text : String :=
  "pragma Singleton\nimport QtQuick.Controls 2.15 as Q\nItem \x7b\nid: root\n" ++
    "readonly property list<Item> rows: [Item \x7b\n\x7d, Q.Button \x7b\nsignal hit()\n\x7d]\n" ++
    "component Row: Item \x7b\nfont.size: 0\n\x7d\n" ++
    "Q.Button on rows \x7b\nfunction run() \x7b\x7d\n\x7d\n\x7d\n"

end Sample

theorem parse_text_sample : Sample.outline.text = Sample.text.toList ∧ Sample.outline.root.depth ≤ maxNesting ∧
    ∃ tree, parse Sample.text.toList = .parsed tree ∧ tree.bare = Sample.outline.document := by
  have written : Sample.outline.text = Sample.text.toList := by decide +kernel
  have deep : Sample.outline.root.depth ≤ maxNesting := by decide
  exact ⟨written, deep, written ▸ parse_text Sample.outline deep⟩

end Outline

end QmlIndex
