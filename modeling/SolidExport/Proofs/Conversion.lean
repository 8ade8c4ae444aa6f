/-
  The stages of a conversion.

  A conversion scans the text, nests the statements, writes the tree and writes the document as text;
  the first stage that fails decides.
-/
import SolidExport.Conversion

namespace SolidExport.Conversion

variable {o : ConvertOptions} {text : String}

/-- The result of a conversion, stage by stage: the scan, the tree, and the writing of the tree.
    Warnings play no part in it. -/
theorem result_ofText :
    (ofText o text).result = match (Statement.scan text).result with
      | .error f => .error (.fault f)
      | .ok statements => match Node.ofStatements statements with
        | .error f => .error (.fault f)
        | .ok root => (ofNode o root).result := by
  unfold ofText
  cases hscan : (Statement.scan text).result with
  | error f => simp only [hscan]
  | ok statements =>
    simp only [hscan]
    unfold ofStatements
    cases Node.ofStatements statements with
    | error f => rfl
    | ok root => rfl

/-- The result of writing a tree: its failure, or the document with its text, or the number in the
    document that has no text. -/
theorem result_ofNode {root : Node} :
    (ofNode o root).result = match (emitRoot o.emit root).failure with
      | some f => .error f
      | none =>
        match (emptyDocument.append (emitRoot o.emit root).elements).markup o.precision
            Element.defaultIndent with
        | .ok xml => .ok ⟨emptyDocument.append (emitRoot o.emit root).elements, xml⟩
        | .error r => .error (.range r) := rfl

/-- The result for a text from which the tree `root` is read is the result for that tree. -/
theorem result_of_read {statements : List Statement} {root : Node}
    (hscan : (Statement.scan text).result = .ok statements)
    (hroot : Node.ofStatements statements = .ok root) :
    (ofText o text).result = (ofNode o root).result := by
  rw [result_ofText, hscan]
  dsimp only
  rw [hroot]

/-- A conversion that does not end in a fault has read a tree, which its result is that of. -/
theorem read_of_result {result : Except Failure Output} (h : (ofText o text).result = result)
    (hfault : ∀ f, result ≠ .error (.fault f)) :
    ∃ statements root, (Statement.scan text).result = .ok statements ∧
      Node.ofStatements statements = .ok root ∧ (ofNode o root).result = result := by
  rw [result_ofText] at h
  split at h
  · exact absurd h.symm (hfault _)
  · rename_i statements hscan
    split at h
    · exact absurd h.symm (hfault _)
    · rename_i root hroot
      exact ⟨statements, root, hscan, hroot, h⟩

/-- A conversion that succeeds has read a tree, written it without a failure, and written the
    document as text. -/
theorem ofText_ok {output : Output} (h : (ofText o text).result = .ok output) :
    ∃ statements root, (Statement.scan text).result = .ok statements ∧
      Node.ofStatements statements = .ok root ∧ (emitRoot o.emit root).failure = none ∧
      output.document = emptyDocument.append (emitRoot o.emit root).elements ∧
      output.document.markup o.precision Element.defaultIndent = .ok output.xml := by
  obtain ⟨statements, root, hscan, hroot, hnode⟩ := read_of_result h nofun
  rw [result_ofNode] at hnode
  split at hnode
  · exact nomatch hnode
  · rename_i hfailure
    split at hnode
    · rename_i xml hxml
      injection hnode with hnode
      subst hnode
      exact ⟨statements, root, hscan, hroot, hfailure, rfl, hxml⟩
    · exact nomatch hnode

end SolidExport.Conversion
