/-
  Drafts: writing an element step by step.

  A `Draft` sets attributes and adds children to one element.  It may fail on the way; what was
  written before then stays written, so a failed draft still has an element.
-/
import SolidExport.Element.Basic
import SolidExport.Fault

namespace SolidExport

/-- A computation that writes on an element and may fail.  The element is kept in either case. -/
abbrev Draft := EStateM Failure Element

namespace Draft

/-- `read x` — what the reading `x` of parameters gives.  Its fault is the draft's. -/
def read {α : Type} : Except Fault α → Draft α
  | .ok a => pure a
  | .error f => throw (.fault f)

/-- `inRange x` — what a computation `x` gives whose counts and numbers have to be in range. -/
def inRange {α : Type} : Except RangeFault α → Draft α
  | .ok a => pure a
  | .error r => throw (.range r)

/-- `write name value` — sets an attribute.  One that is there keeps its place. -/
def write (name : String) (value : Attribute) : Draft Unit := modify (·.set name value)

/-- `number name value` — sets an attribute to a number. -/
def number (name : String) (value : Float) : Draft Unit := write name (.number value)

/-- `boolean name value` — sets an attribute to a truth value. -/
def boolean (name : String) (value : Bool) : Draft Unit := write name (.boolean value)

/-- `child tag body` — adds a child that is written by a draft `body` of its own.  It is added even
if that draft fails, with what was written on it. -/
def child {α : Type} (tag : String) (body : Draft α) : Draft α := fun e =>
  match body (.new tag) with
  | .ok a c => .ok a (e.push c)
  | .error f c => .error f (e.push c)

end Draft

end SolidExport
