import SolidExport.CommandLine.Program
import SolidExport.Disk.FileUrl
import SolidExport.Main
import SolidExport.Proofs.Emission.Dummies
import SolidExport.Proofs.Emission.Hidden
import SolidExport.Proofs.Emission.Operands
import SolidExport.Proofs.Emission.Uniform
import SolidExport.Proofs.Overflow
import SolidExport.Proofs.Source.RoundTrip
import SolidExport.Session
import SolidExport.Proofs.Node.Outline
import SolidExport.Proofs.Statement
import SolidExport.Proofs.Matrix.Cells
import SolidExport.Proofs.Emission.Transform
import SolidExport.Proofs.Emission.Bare
import SolidExport.Proofs.Session
import SolidExport.Proofs.Draft.Failure
import SolidExport.Proofs.Emission.Offset
import SolidExport.Proofs.Node.Report
import SolidExport.Proofs.Shape.Report
import SolidExport.Proofs.Emission.Failure
import SolidExport.Proofs.Element.RoundTrip
import SolidExport.Proofs.Line.Scan
import SolidExport.Proofs.Line.Tree
import SolidExport.Proofs.Draft.Transfer
import SolidExport.Proofs.Line.Shape
import SolidExport.Proofs.Line.Emission
import SolidExport.Proofs.Line.Concat
import SolidExport.Proofs.Literal.Grammar
import SolidExport.Proofs.Literal.Sound
import SolidExport.Proofs.Literal.Unique
import SolidExport.Proofs.Params.Segment
import SolidExport.Proofs.CommandLine.Program
import SolidExport.Proofs.Disk.Find
import SolidExport.Proofs.CommandLine.Input
import SolidExport.Proofs.Node.Search
import SolidExport.Proofs.Anatomy.Piece
import SolidExport.Proofs.Anatomy.Body
import SolidExport.Proofs.Anatomy.Turn
import SolidExport.Proofs.Anatomy.Scan
import SolidExport.Proofs.Anatomy.Insert
import SolidExport.Proofs.Anatomy.Blank
import SolidExport.Proofs.Line.Count
import SolidExport.Proofs.Double.Arithmetic
import SolidExport.Proofs.Sweep
import SolidExport.Proofs.Shape.Point
import SolidExport.Proofs.Shape.Polygon
import SolidExport.Proofs.Shape.Polyhedron
import SolidExport.Proofs.Literal.Canonical
import SolidExport.Proofs.Literal.Strip
import SolidExport.Proofs.Params.Spacing
import SolidExport.Proofs.Emission.Standard
import SolidExport.Proofs.Decimal.Nearest
import SolidExport.Proofs.Decimal.Shortest
import SolidExport.Proofs.Double.Sign
import SolidExport.Proofs.Decimal.Text
import SolidExport.Proofs.Decimal.Significant
import SolidExport.Proofs.Element.Format
import SolidExport.Proofs.Infinity
import SolidExport.Proofs.Location
