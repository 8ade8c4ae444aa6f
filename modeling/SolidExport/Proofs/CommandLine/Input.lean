/-
  When a run overwrites its input.

  Where no output is given, a run writes next to its input.  It leaves the input as it was unless both
  paths lead to one file (`OutputIsInput`).  That needs an input that ends in the extension of outputs
  already, or a link at the end of one of the two paths (`OutputIsInput.cases`): without links each of
  the two files has the last name of its path, and the two names differ in their extensions.
-/
import SolidExport.Proofs.CommandLine.Program

namespace SolidExport.Program

open Script (Plays)

variable {folder input : String} {d : Disk} {s : Settings} {p : Played}

/-- `defaultOutput folder input` — the path that the output goes to when none is given: that of the
    input with another extension, in the working folder. -/
def defaultOutput (folder input : String) : String := Path.resolve folder (Path.outputPath input)

/-- `OutputIsInput folder d input` — when no output is given, it goes to the input file itself.  On
    the disk `d` both paths come to the same place, perhaps through a link. -/
def OutputIsInput (folder : String) (d : Disk) (input : String) : Prop :=
  ∃ place content, d.find folder input = .ok place ∧ d.entry? place = some (.file content) ∧
    d.find folder (defaultOutput folder input) = .ok place

/-- The last name of the output has the extension of outputs in the place of the input's own. -/
theorem route_defaultOutput {dir name : List Char} (hcut : Path.Cut input.toList dir name)
    (hname : name ≠ []) :
    ∃ front stem, name = stem ++ Path.extension input.toList ∧
      String.ofList (stem ++ Path.outputExtension.toList) ≠ "." ∧
      String.ofList (stem ++ Path.outputExtension.toList) ≠ ".." ∧
      Disk.route folder (defaultOutput folder input) =
        front ++ [String.ofList (stem ++ Path.outputExtension.toList)] := by
  obtain ⟨stem, hstem, hout⟩ := hcut.outputPath_eq hname
  -- a name that ends in five characters is not made of dots
  have hlong : ∀ short : List Char, short.length < 5 →
      String.ofList (stem ++ Path.outputExtension.toList) ≠ String.ofList short := by
    intro short hshort heq
    have hlength := congrArg List.length (String.ofList_injective heq)
    rw [List.length_append] at hlength
    have hfive : Path.outputExtension.toList.length = 5 := rfl
    omega
  have hdot := hlong ['.'] (by decide)
  have hdots := hlong ['.', '.'] (by decide)
  obtain ⟨front, hfront⟩ := hout.resolveNames_eq folder (hlong [] (by decide)) hdot hdots
  refine ⟨front, stem, hstem, hdot, hdots, ?_⟩
  rw [← hfront]
  exact Disk.route_resolve (by simp [hfront])

/-- **The output that is not given is the input file only for an input that ends in the extension of
    outputs, or behind a link.** -/
theorem OutputIsInput.cases (h : OutputIsInput folder d input) :
    Path.EndsInOutput input ∨ d.isLink folder input = true ∨
      d.isLink folder (defaultOutput folder input) = true := by
  obtain ⟨place, content, hinput, hfile, houtput⟩ := h
  have hfolder : d.isFolder place ≠ true := by
    rw [Ne, Disk.isFolder_iff, hfile]
    nofun
  obtain ⟨dir, name, front, hcut, hname, hdot, hdots, hroute⟩ := Disk.find_cut hinput hfolder
  obtain ⟨front', stem, hstem, hdot', hdots', hroute'⟩ := route_defaultOutput hcut hname
  cases hlink : d.isLink folder input with
  | true => exact Or.inr (Or.inl rfl)
  | false =>
    cases hlink' : d.isLink folder (defaultOutput folder input) with
    | true => exact Or.inr (Or.inr rfl)
    | false =>
      -- both places end in the last names of their paths
      obtain ⟨up, hup⟩ := Disk.find_last hinput hroute hdot hdots hlink
      obtain ⟨up', hup'⟩ := Disk.find_last houtput hroute' hdot' hdots' hlink'
      have hlast : String.ofList name = String.ofList (stem ++ Path.outputExtension.toList) := by
        have hboth : up ++ [String.ofList name] = _ := hup.symm.trans hup'
        exact List.singleton_inj.mp (List.append_inj' hboth rfl).2
      have hext : Path.extension input.toList = Path.outputExtension.toList := by
        have hnames := String.ofList_injective hlast
        rw [hstem] at hnames
        exact List.append_cancel_left hnames
      exact Or.inl (hcut.endsInOutput hname hext)

/-! ## Runs without an output -/

section

variable {trig : Trig}

theorem Hands.path_eq_defaultOutput {job : Job} (hands : Hands folder d s input job)
    (hs : s.output = none) : job.path = defaultOutput folder input := by
  rw [hands.path, hs]
  rfl

/-- After any run without an output path the input is read as before, unless the output is written
    there. -/
theorem read_input_of_plays (hs : s.output = none) (h : Plays folder d (ofSettings folder s input) p)
    (hother : ¬OutputIsInput folder d input) : p.disk.read folder input = d.read folder input := by
  rcases plays_ofSettings h with hf | ⟨-, hdisk⟩ | ⟨-, job, output, hands, -, hwrite, -⟩
  · rw [hf.disk]
  · rw [hdisk]
  · obtain ⟨bytes, hbytes, -⟩ := hands.text
    rw [hands.path_eq_defaultOutput hs] at hwrite
    obtain ⟨place, hplace, hfile⟩ := Disk.read_eq_ok.mp hbytes
    rw [hbytes]
    refine (Disk.read_write hwrite hbytes).2 fun hsame => hother ?_
    exact ⟨place, bytes, hplace, hfile, hsame.trans hplace⟩

/-- Where the output is written over the input, a run that ends well leaves the converted document
    to be read under the path of the input. -/
theorem read_output_of_plays (hs : s.output = none) (h : Plays folder d (ofSettings folder s input) p)
    (hsame : OutputIsInput folder d input) (hending : p.ending = none) (hdump : s.dump = false) :
    ∃ job output, Hands folder d s input job ∧
      (Conversion.ofText job.options job.text).result = .ok output ∧
      p.disk.read folder input = .ok output.xml.toUTF8 := by
  obtain ⟨job, output, hands, houtput, hwrite⟩ := writes_of_plays h hending hdump
  obtain ⟨bytes, hbytes, -⟩ := hands.text
  rw [hands.path_eq_defaultOutput hs] at hwrite
  obtain ⟨place, content, hinput, -, hplace⟩ := hsame
  exact ⟨job, output, hands, houtput, (Disk.read_write hwrite hbytes).1 (hplace.trans hinput.symm)⟩

/-- **When a run overwrites its input.**  Where no output is given, the path of the output is that of
    the input exactly for an input that ends in the extension of outputs.  For any other input, and
    with no link at the end of either path, the two paths do not lead to one file, and the input is
    read as before.  With links too the input stays unless both lead to it, and then every run that
    ends well, and does not print the tree, leaves its output there. -/
theorem ofSettings_keeps_input (hs : s.output = none)
    (h : Plays folder d (ofSettings folder s input) p) :
    (Path.outputPath input = input ↔ Path.EndsInOutput input) ∧
      (¬Path.EndsInOutput input → d.isLink folder input = false →
        d.isLink folder (defaultOutput folder input) = false →
        ¬OutputIsInput folder d input ∧ p.disk.read folder input = d.read folder input) ∧
      (¬OutputIsInput folder d input → p.disk.read folder input = d.read folder input) ∧
      (OutputIsInput folder d input → p.ending = none → s.dump = false →
        ∃ job output, Hands folder d s input job ∧
          (Conversion.ofText job.options job.text).result = .ok output ∧
          p.disk.read folder input = .ok output.xml.toUTF8) := by
  refine ⟨Path.outputPath_eq_self_iff, ?_, read_input_of_plays hs h, read_output_of_plays hs h⟩
  intro hends hlink hlink'
  have hother : ¬OutputIsInput folder d input := by
    intro hsame
    rcases hsame.cases with hin | hl | hl'
    · exact hends hin
    · exact nomatch hlink.symm.trans hl
    · exact nomatch hlink'.symm.trans hl'
  exact ⟨hother, read_input_of_plays hs h hother⟩

end

theorem ofSettings_keeps_input_cube :
    ¬OutputIsInput "/w" (cubeDisk "part.csg") "part.csg" ∧
      ((ofSettings "/w" .init "part.csg").run "/w" (cubeDisk "part.csg")).disk.read "/w" "part.csg" =
        (cubeDisk "part.csg").read "/w" "part.csg" := by
  have hends : ¬Path.EndsInOutput "part.csg" := by
    rw [← Path.outputPath_eq_self_iff]
    decide +kernel
  exact (ofSettings_keeps_input rfl (Script.plays_run "/w" (cubeDisk "part.csg") _)).2.1 hends
    rfl rfl

/-- An input that ends in the extension of outputs is overwritten: cutting the extension off and
    putting it on again gives the same path. -/
theorem ofSettings_overwrites_input :
    Settings.init.output = none ∧
      ((ofSettings "/w" .init "part.xcsg").run "/w" (cubeDisk "part.xcsg")).disk.read "/w" "part.xcsg" ≠
        (cubeDisk "part.xcsg").read "/w" "part.xcsg" := by
  refine ⟨rfl, fun hsame => ?_⟩
  have hsizes := congrArg (fun r => r.toOption.map ByteArray.size) hsame
  revert hsizes
  decide +kernel

end SolidExport.Program
