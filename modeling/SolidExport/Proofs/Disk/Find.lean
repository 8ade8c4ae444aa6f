/-
  What paths lead to.

  A path that leads to a file ends in a name (`find_cut`), and the file has that name unless a link
  stands there (`find_last`).  Writing a file leaves what other paths lead to as it was
  (`find_withFile`, `read_write`).
-/
import SolidExport.Proofs.Disk.Path
import SolidExport.Proofs.Disk.Walk

namespace SolidExport.Disk

variable {d : Disk} {folder path : String} {q w : List String} {content : ByteArray}

/-- `route folder path` — the names that `path` is walked by, from the root of the disk.  An
    absolute path does not depend on the folder. -/
def route (folder path : String) : List String :=
  (if Path.isAbsolute path then [] else steps folder) ++ steps path

/-- `d.ownEntry? folder path` — what stands at the last name of `path` itself: a link there is not
    followed, while those before it are. -/
def ownEntry? (d : Disk) (folder path : String) : Option Entry :=
  match d.walk linkLimit [] (route folder path).dropLast with
  | .ok place => (route folder path).getLast?.bind fun last => d.entry? (place ++ [last])
  | .error _ => none

/-- `d.isLink folder path` — whether the last name of `path` is that of a link. -/
def isLink (d : Disk) (folder path : String) : Bool :=
  match d.ownEntry? folder path with
  | some (.link _) => true
  | _ => false

theorem find_eq_ok :
    d.find folder path = .ok q ↔ path ≠ "" ∧ Walks d linkLimit [] (route folder path) q := by
  unfold find
  split
  · rename_i hempty
    exact ⟨nofun, fun h => absurd hempty h.1⟩
  · rename_i hne
    rw [walk_eq_ok]
    exact ⟨fun h => ⟨hne, h⟩, fun h => h.2⟩

/-- A path that leads somewhere leads to a place with folders above it and no link there, even if
    nothing stands there yet. -/
theorem find_reached (h : d.find folder path = .ok q) : Reached d q :=
  (find_eq_ok.mp h).2.reached (reached_root d)

/-- A resolved path is walked by the names that it was resolved to: it is absolute, and none of its
    names is empty. -/
theorem route_resolve (hne : Path.resolveNames folder path ≠ []) :
    route folder (Path.resolve folder path) = Path.resolveNames folder path := by
  unfold route Path.resolve
  rw [Path.isAbsolute_ofNames, if_pos rfl, List.nil_append]
  exact Path.steps_ofNames hne (Path.resolveNames_isName folder path)

/-! ## Files -/

/-- **A path that leads to no folder ends in a name**, which is neither dots nor empty.  So its last
    name is the one that a file is written under. -/
theorem find_cut (h : d.find folder path = .ok q) (hq : d.isFolder q ≠ true) :
    ∃ dir name front, Path.Cut path.toList dir name ∧ name ≠ [] ∧ String.ofList name ≠ "." ∧
      String.ofList name ≠ ".." ∧ route folder path = front ++ [String.ofList name] := by
  obtain ⟨hpath, hwalk⟩ := find_eq_ok.mp h
  -- a walk by dots at the end comes to a folder
  have hdots : ∀ front last, route folder path = front ++ [last] → last ≠ "." ∧ last ≠ ".." := by
    intro front last hroute
    rw [hroute] at hwalk
    obtain ⟨r, k, hfront, hlast⟩ := hwalk.snoc
    have hr : Reached d r := hfront.reached (reached_root d)
    exact ⟨fun hdot => hq (hlast.last_dots hr (Or.inl hdot)),
      fun hdots => hq (hlast.last_dots hr (Or.inr hdots))⟩
  obtain ⟨dir, name, hcut⟩ := Path.exists_cut path.toList
  by_cases hname : name = []
  · subst hname
    rcases hcut.steps_eq_of_slash with hnil | ⟨front, hfront⟩
    · -- a path of slashes leads to the root
      have hroot : route folder path = [] := by
        simp [route, hnil, Path.isAbsolute_of_steps_nil hnil hpath]
      rw [hroot] at hwalk
      cases hwalk
      exact absurd rfl hq
    · have hroute : route folder path =
          ((if Path.isAbsolute path then [] else steps folder) ++ front) ++ ["."] := by
        rw [route, hfront, List.append_assoc]
      exact absurd rfl (hdots _ _ hroute).1
  · obtain ⟨front, hfront⟩ := hcut.steps_eq hname
    have hroute : route folder path =
        ((if Path.isAbsolute path then [] else steps folder) ++ front) ++ [String.ofList name] := by
      rw [route, hfront, List.append_assoc]
    obtain ⟨hdot, hdots⟩ := hdots _ _ hroute
    exact ⟨dir, name, _, hcut, hname, hdot, hdots, hroute⟩

/-- **A path leads to a place of its own last name, unless a link stands there.**  Dots apart, this
    is the one way to come to another name. -/
theorem find_last {front : List String} {last : String} (h : d.find folder path = .ok q)
    (hroute : route folder path = front ++ [last]) (hdot : last ≠ ".") (hdots : last ≠ "..")
    (hlink : d.isLink folder path = false) : ∃ place, q = place ++ [last] := by
  obtain ⟨-, hwalk⟩ := find_eq_ok.mp h
  rw [hroute] at hwalk
  obtain ⟨r, k, hfront, hlast⟩ := hwalk.snoc
  rcases hlast.last hdot hdots with ⟨target, htarget⟩ | hq
  · have hown : d.ownEntry? folder path = some (.link target) := by
      unfold ownEntry?
      rw [hroute, List.dropLast_concat, hfront.walk]
      simpa using htarget
    simp [isLink, hown] at hlink
  · exact ⟨r, hq⟩

theorem read_eq_ok :
    d.read folder path = .ok content ↔
      ∃ place, d.find folder path = .ok place ∧ d.entry? place = some (.file content) := by
  unfold read
  split
  · rename_i cause hfind
    exact ⟨nofun, fun ⟨place, hplace, _⟩ => nomatch hfind.symm.trans hplace⟩
  · rename_i place hfind
    constructor
    · intro h
      refine ⟨place, hfind, ?_⟩
      split at h
      · rename_i hfile
        rw [hfile, Except.ok.inj h]
      · exact nomatch h
      · exact nomatch h
    · rintro ⟨place', hplace, hfile⟩
      obtain rfl := Except.ok.inj (hfind.symm.trans hplace)
      rw [hfile]

/-! ## After a file is written -/

/-- **A path leads to the same place after a file is put where no folder and no link stands.** -/
theorem find_withFile (hfolder : d.isFolder w ≠ true)
    (hlink : ∀ target, d.entry? w ≠ some (.link target)) (h : d.find folder path = .ok q) :
    (d.withFile w content).find folder path = .ok q := by
  obtain ⟨hpath, hwalk⟩ := find_eq_ok.mp h
  exact find_eq_ok.mpr ⟨hpath, hwalk.withFile hfolder hlink⟩

/-- Where a file is written there was a file or nothing, and the disk is the same at all other
    places. -/
theorem write_place {d' : Disk} (h : d.write folder path content = .ok d') :
    ∃ place, d.find folder path = .ok place ∧
      (d.entry? place = none ∨ ∃ old, d.entry? place = some (.file old)) ∧
      d' = d.withFile place content := by
  obtain ⟨place, hplace, hfolder, hd'⟩ := write_ok h
  refine ⟨place, hplace, ?_, hd'⟩
  cases hentry : d.entry? place with
  | none => exact Or.inl rfl
  | some e =>
    cases e with
    | file old => exact Or.inr ⟨old, rfl⟩
    | folder => exact absurd hentry hfolder
    | link target => exact absurd hentry ((find_reached hplace).noLink target)

/-- **A written file is read back at each path that leads to it, and other files stay.**  What
    decides is where `other` leads on the disk before, since writing changes the way of no path. -/
theorem read_write {d' : Disk} {other : String} {old : ByteArray}
    (h : d.write folder path content = .ok d') (hread : d.read folder other = .ok old) :
    (d.find folder path = d.find folder other → d'.read folder other = .ok content) ∧
      (d.find folder path ≠ d.find folder other → d'.read folder other = .ok old) := by
  obtain ⟨place, hplace, hfolder, rfl⟩ := write_ok h
  obtain ⟨q, hq, hold⟩ := read_eq_ok.mp hread
  have hfind : (d.withFile place content).find folder other = .ok q :=
    find_withFile (mt isFolder_iff.mp hfolder) (find_reached hplace).noLink hq
  rw [hplace, hq]
  constructor
  · intro hsame
    obtain rfl : place = q := Except.ok.inj hsame
    exact read_eq_ok.mpr ⟨place, hfind, entry?_withFile_self (ne_root_of_not_folder hfolder)⟩
  · intro hother
    have hne : q ≠ place := fun heq => hother (heq ▸ rfl)
    exact read_eq_ok.mpr ⟨q, hfind, (entry?_withFile_of_ne hne).trans hold⟩

end SolidExport.Disk
