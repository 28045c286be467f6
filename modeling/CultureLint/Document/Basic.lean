import CultureLint.Binding.Project
import CultureLint.Document.Path
import CultureLint.Document.SourceMap
import CultureLint.Parser.Document
import CultureLint.Text.Search

/-! Documents, projects, and documents together with what binding found out about them. None of them
ever changes; an edit gives a new document. -/

namespace CultureLint

/-- A document that was read from its text; the version counts its edits. -/
structure Document where
  path : String
  text : String
  tree : SourceTree
  version : Nat
  tree_eq : SourceTree.ofText text = .ok tree

namespace Document

/-- Reads a document with a given version. -/
def ofText (path text : String) (version : Nat) : Except SyntaxError Document :=
  match h : SourceTree.ofText text with
  | .ok tree => .ok ⟨path, text, tree, version, h⟩
  | .error e => .error e

/-- Reads a document for the first time. -/
def parse (path text : String) : Except SyntaxError Document := ofText path text 0

variable (d : Document)

/-- The document after an edit. -/
def withText (text : String) : Except SyntaxError Document := ofText d.path text (d.version + 1)

/-- The name of the file as places show it. -/
def fileName : String := (Path.fileName? d.path).getD d.path

def sourceMap : SourceMap := SourceMap.ofText d.fileName d.text d.tree.directives

/-- Endings of file names that mark generated code, whatever their case. -/
def generatedEndings : List String := [".g.cs", ".designer.cs", ".generated.cs"]

/-- Whether a file name marks generated code. -/
def hasGeneratedName (path : String) : Bool :=
  let name := ((Path.fileName? path).getD "").toList.map Char.toLower
  generatedEndings.any (·.toList.isSuffixOf name)

/-- Whether a document is generated code: by its name, or by the comments it opens with. -/
def isGenerated : Bool :=
  hasGeneratedName d.path ||
    (d.tree.header.bind (Text.slice? d.text)).any fun header =>
      Text.hasPiece "<auto-generated".toList header.toList

end Document

/-- Documents that are compiled together, and the libraries they refer to. -/
structure Project where
  references : List Reference
  documents : List Document := []

/-- A document with the types of its program and its own operations. -/
structure Snapshot where
  document : Document
  compilation : Compilation
  unit : BoundUnit

namespace Project

variable (p : Project)

def addDocument (d : Document) : Project := { p with documents := p.documents ++ [d] }

def document? (index : Nat) : Option Document := p.documents[index]?

/-- The project with another document in the place of one; there must be one to be replaced. -/
def replaceDocument (index : Nat) (d : Document) : Project :=
  { p with documents := p.documents.set index d }

def bind : BoundProgram := BoundProgram.ofUnits p.references (p.documents.map (·.tree.unit))

/-- All documents as they are bound together. -/
def snapshots : List Snapshot :=
  let program := p.bind
  p.documents.zipIdx.map fun (document, index) =>
    ⟨document, program.compilation, program.units[index]?.getD {}⟩

def snapshot? (index : Nat) : Option Snapshot := p.snapshots[index]?

end Project

/-- A document that is bound alone. -/
def Snapshot.standalone (references : List Reference) (document : Document) : Snapshot :=
  let program := BoundProgram.ofUnits references [document.tree.unit]
  ⟨document, program.compilation, program.units[0]?.getD {}⟩

end CultureLint
