/-
  A printed program is read back.

  The scan of the text gives, without a warning, the statements of the nodes that the program stands
  for, and these nest to that forest (`ofStatements_scan_print`).
-/
import SolidExport.Proofs.Source.Scan

namespace SolidExport.Source

/-- The nodes of some calls are as they are read from their statements, each one level below its
    parent. -/
theorem isRead_nodes {calls : List Call}
    (h : ∀ c ∈ calls, ∀ level line : Nat, (c.node level line).IsRead level) (level line : Nat) :
    ∀ n ∈ Call.nodes level line calls, n.IsRead level := by
  induction calls generalizing line with
  | nil => exact fun n hn => absurd hn List.not_mem_nil
  | cons c calls ih =>
    intro n hn
    rw [Call.nodes] at hn
    rcases List.mem_cons.mp hn with rfl | hn
    · exact h c List.mem_cons_self level line
    · exact ih (fun d hd => h d (List.mem_cons_of_mem c hd)) _ n hn

theorem Call.isRead_node (c : Call) (level line : Nat) : (c.node level line).IsRead level := by
  induction c using Call.induction generalizing level line with
  | step c ih =>
    obtain ⟨tag, params, body⟩ := c
    have hread : Head.read ⟨String.ofList (signature tag params), level, line⟩ =
        .ok ⟨⟨String.ofList (signature tag params), level, line⟩, tag.text, bindings line params⟩ := by
      unfold Head.read
      rw [read_signature]
      rfl
    rw [node]
    exact .mk rfl hread (isRead_nodes ih (level + 1) _)

/-- The scan of a printed program gives the statements of its nodes, and no warnings. -/
theorem scan_print (program : List Call) :
    Statement.scan (print program) =
      ⟨[], .ok ((Node.headsOf (Call.nodes 0 1 program)).map (·.statement))⟩ := by
  have hinit : Ready Scanner.init := ⟨rfl, rfl, rfl, rfl⟩
  obtain ⟨s, hrun, hs⟩ := scans_allChars (fun c _ => c.scans_chars) Scanner.init hinit
  have hfinish : s.finish = .ok s := by
    have hbuffer : s.buffer.isEmpty = true := by
      rw [hs.ready.buffer]
      rfl
    have hlevel : s.level = 0 := hs.level
    unfold Scanner.finish Scanner.close
    rw [hs.ready.mode]
    simp [hbuffer, hlevel]
  have hall : ((Call.allChars program).foldlM Scanner.step Scanner.init >>= Scanner.finish) = .ok s := by
    rw [hrun]
    exact hfinish
  unfold Statement.scan print
  rw [String.toList_ofList, hall]
  dsimp only
  rw [hs.warnings, hs.statements]
  simp [Scanner.init]

/-- **The front end inverts printing.**  The text of a program is scanned without a warning, and its
    statements nest to the forest of the program, in which every name is bound to the last parameter
    that binds it. -/
theorem ofStatements_scan_print (program : List Call) :
    (∃ statements, Statement.scan (print program) = ⟨[], .ok statements⟩ ∧
      Node.ofStatements statements = .ok (Node.root (Call.nodes 0 1 program))) ∧
    ∀ (line : Int) (params : List Param) (name : String),
      (bindings line params).get? name = (lastBound? params name).map (Value.literal line) := by
  have hread : ∀ n ∈ Call.nodes 0 1 program, n.IsRead 0 :=
    isRead_nodes (fun c _ => c.isRead_node) 0 1
  refine ⟨⟨_, scan_print program, ?_⟩, get?_bindings⟩
  exact Node.ofStatements_headsOf hread

end SolidExport.Source
