/-
  From the text of a program to the text of a document.
-/
import SolidExport.Element.Markup
import SolidExport.Emission
import SolidExport.Node.Outline

namespace SolidExport

/-- How a program is converted, and with which sine and cosine. -/
structure ConvertOptions where
  tagMap : TagMap
  skipEmpty : Bool
  /-- Significant digits of the numbers. -/
  precision : Float
  /-- The sine and the cosine that shapes are computed with. -/
  [trig : Trig]

namespace ConvertOptions

/-- `standard trig` — the options where nothing is said, on a machine with the sine and the cosine
of `trig`. -/
def standard (trig : Trig) : ConvertOptions := ⟨.standard, false, defaultPrecision⟩

/-- `o.emit` — how the nodes are written: what the options `o` say but for the digits. -/
def emit (o : ConvertOptions) : EmitOptions where
  tagMap := o.tagMap
  skipEmpty := o.skipEmpty
  trig := o.trig

end ConvertOptions

/-- The document that nothing was written in yet. -/
def emptyDocument : Element := (Element.new "xcsg").set "version" (.text "1.0")

/-- What a conversion is for: a document and its text. -/
structure Output where
  document : Element
  xml : String

/-- What a conversion gives: the warnings, and the output or a failure.  There are warnings in
either case. -/
structure Conversion where
  warnings : List Warning
  result : Except Failure Output

namespace Conversion

/-- `ofNode o root` — the conversion of the tree `root`.  A number that cannot be written is found
out only here, when the document is done. -/
def ofNode (o : ConvertOptions) (root : Node) : Conversion :=
  let emission := emitRoot o.emit root
  ⟨emission.warnings,
    match emission.failure with
    | some f => .error f
    | none =>
      let document := emptyDocument.append emission.elements
      match document.markup o.precision Element.defaultIndent with
      | .ok xml => .ok ⟨document, xml⟩
      | .error r => .error (.range r)⟩

/-- `ofStatements o statements` — the conversion of some statements, which may not nest. -/
def ofStatements (o : ConvertOptions) (statements : List Statement) : Conversion :=
  match Node.ofStatements statements with
  | .error f => ⟨[], .error (.fault f)⟩
  | .ok root => ofNode o root

/-- `ofText o text` — the conversion of a text.  The warnings of the scan come first. -/
def ofText (o : ConvertOptions) (text : String) : Conversion :=
  let scan := Statement.scan text
  match scan.result with
  | .error f => ⟨scan.warnings, .error (.fault f)⟩
  | .ok statements =>
    let c := ofStatements o statements
    { c with warnings := scan.warnings ++ c.warnings }

end Conversion

end SolidExport
