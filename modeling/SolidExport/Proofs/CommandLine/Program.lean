/-
  The program writes all or nothing.

  A run either fails and leaves the disk as it was, or prints the tree, or hands a job to the
  conversion and writes one file with its result (`plays_ofSettings`).  Each part of the program has
  one lemma that says how it plays.

  What is handed to the conversion is said by `Hands`.  The program with another step in the place of
  the conversion is `through`.
-/
import SolidExport.CommandLine.Program
import SolidExport.Proofs.CommandLine.Script
import SolidExport.Proofs.Disk.Find
import SolidExport.Proofs.Element.Markup

namespace SolidExport.Program

open Script (Plays Fails)

/-! ## Jobs -/

/-- `IsPrecision x` — the number `x` is a possible precision: a whole number from one to
    seventeen. -/
def IsPrecision (x : Float) : Prop := ∃ k : Nat, 1 ≤ k ∧ k ≤ 17 ∧ x = Float.ofNat k

/-- What the conversion is asked for, and the path where its result goes. -/
structure Job where
  options : ConvertOptions
  text : String
  path : String

/-- `Loads folder d path map` — the tag map that a path stands for in a folder of the disk `d`: that
    of the file, or the standard one where there is no path or an empty one. -/
def Loads (folder : String) (d : Disk) (path : Option String) (map : TagMap) : Prop :=
  match path.filter (· ≠ "") with
  | none => map = .standard
  | some path => ∃ bytes, d.read folder path = .ok bytes ∧
      TagMap.ofJson path (Text.ofUtf8 bytes) = .ok map

/-- `Hands folder d s input job` — the job that the settings `s` and an input ask for in a folder of the
    disk `d`.  Only the sine and the cosine are not asked for: they are the machine's. -/
structure Hands [trig : Trig] (folder : String) (d : Disk) (s : Settings) (input : String)
    (job : Job) : Prop where
  text : ∃ bytes, d.read folder input = .ok bytes ∧ job.text = Text.ofUtf8 bytes
  tagMap : Loads folder d s.tagMap job.options.tagMap
  skipEmpty : job.options.skipEmpty = s.skipEmpty
  precision : readNumber? s.precision = some job.options.precision
  isPrecision : IsPrecision job.options.precision
  machine : job.options.trig = trig
  path : job.path = Path.resolve folder (s.output.getD (Path.outputPath input))

/-- `through folder s input next` — the program with `next` in the place of the conversion, which is
    given the options, the text and the path of the output.  So what the program does before and
    after can be said of any conversion. -/
def through [Trig] (folder : String) (s : Settings) (input : String)
    (next : ConvertOptions → String → String → Script) : Script :=
  .read input fun text =>
    if s.dump then dump text
    else match precision? s.precision with
      | none => .refuse (.message ("Invalid precision '" ++ s.precision ++ "': expected 1..17"))
      | some precision => withTagMap s.tagMap fun map =>
        next ⟨map, s.skipEmpty, precision⟩ text
          (Path.resolve folder (s.output.getD (Path.outputPath input)))

section

/-! ## Parts of a run -/

variable {trig : Trig} {folder : String} {d : Disk} {s : Settings} {input : String} {p : Played}

theorem precision?_eq_some {text : String} {x : Float} :
    precision? text = some x ↔ readNumber? text = some x ∧ IsPrecision x := by
  unfold precision? IsPrecision
  rw [Option.filter_eq_some_iff, precisionDigits?_isSome_iff]

/-- Printing the tree of a text leaves the disk as it is, whether the text has a tree or not. -/
theorem plays_dump {text : String} (h : Plays folder d (dump text) p) : p.disk = d := by
  obtain ⟨q, hq, hdisk, -⟩ := Script.plays_warn h
  rw [hdisk]
  split at hq
  · obtain ⟨r, hr, hdisk', -⟩ := Script.plays_print hq
    rw [hdisk', (Script.plays_done hr).1]
  · exact (Script.plays_fail hq).disk

/-- The conversion of a text fails and leaves the disk as it is, or its result is written to `path`
    and the run ends well. -/
theorem plays_convert {o : ConvertOptions} {text path : String}
    (h : Plays folder d (convert o text path) p) :
    Fails d p ∨ ∃ output, (Conversion.ofText o text).result = .ok output ∧
      d.write folder path output.xml.toUTF8 = .ok p.disk ∧ p.ending = none := by
  obtain ⟨q, hq, hdisk, hending⟩ := Script.plays_warn h
  have hfails : Fails d q → Fails d p := fun hf => ⟨hdisk.trans hf.disk, hending ▸ hf.ending⟩
  split at hq
  · rename_i output houtput
    rcases Script.plays_write hq with hf | ⟨d', hwritten, hrest⟩
    · exact Or.inl (hfails hf)
    · obtain ⟨r, hr, hdisk', hending'⟩ := Script.plays_print hrest
      obtain ⟨hd, he⟩ := Script.plays_done hr
      refine Or.inr ⟨output, houtput, ?_, ?_⟩
      · rw [hwritten, hdisk, hdisk', hd]
      · rw [hending, hending', he]
  · exact Or.inl (hfails (Script.plays_refuse hq))
  · exact Or.inl (hfails (Script.plays_fail hq))

/-- The two ways to come to a tag map: there is no path, and the map is the standard one, or a file
    is read and checked.  In both the map that the program goes on with is the one that `Loads`
    names. -/
theorem withTagMap_cases (path : Option String) :
    ((∀ next, withTagMap path next = next .standard) ∧
        ∀ folder d map, Loads folder d path map ↔ map = .standard) ∨
      ∃ file, (∀ next, withTagMap path next = .read file fun text =>
          match TagMap.ofJson file text with
          | .ok map => next map
          | .error f => .fail (.fault f)) ∧
        ∀ folder d map, Loads folder d path map ↔
          ∃ bytes, d.read folder file = .ok bytes ∧ TagMap.ofJson file (Text.ofUtf8 bytes) = .ok map := by
  unfold withTagMap Loads
  cases path.filter (· ≠ "") with
  | none => exact Or.inl ⟨fun _ => rfl, fun _ _ _ => Iff.rfl⟩
  | some file => exact Or.inr ⟨file, fun _ => rfl, fun _ _ _ => Iff.rfl⟩

theorem plays_withTagMap {path : Option String} {next : TagMap → Script}
    (h : Plays folder d (withTagMap path next) p) :
    Fails d p ∨ ∃ map, Loads folder d path map ∧ Plays folder d (next map) p := by
  rcases withTagMap_cases path with ⟨hscript, hloads⟩ | ⟨file, hscript, hloads⟩
  · rw [hscript] at h
    exact Or.inr ⟨.standard, (hloads _ _ _).mpr rfl, h⟩
  · rw [hscript] at h
    rcases Script.plays_read h with hf | ⟨bytes, hbytes, hrest⟩
    · exact Or.inl hf
    · cases hmap : TagMap.ofJson file (Text.ofUtf8 bytes) with
      | ok map =>
        simp only [hmap] at hrest
        exact Or.inr ⟨map, (hloads _ _ _).mpr ⟨bytes, hbytes, hmap⟩, hrest⟩
      | error f =>
        simp only [hmap] at hrest
        exact Or.inl (Script.plays_fail hrest)

theorem run_withTagMap {path : Option String} {map : TagMap} (h : Loads folder d path map)
    (next : TagMap → Script) :
    (withTagMap path next).run folder d = (next map).run folder d := by
  rcases withTagMap_cases path with ⟨hscript, hloads⟩ | ⟨file, hscript, hloads⟩
  · rw [hscript, (hloads _ _ _).mp h]
  · obtain ⟨bytes, hbytes, hmap⟩ := (hloads _ _ _).mp h
    rw [hscript]
    simp only [Script.run, hbytes, hmap]

theorem run_convert {o : ConvertOptions} {text path : String} {output : Output} {d' : Disk}
    (houtput : (Conversion.ofText o text).result = .ok output)
    (hwrite : d.write folder path output.xml.toUTF8 = .ok d') :
    ((convert o text path).run folder d).disk = d' ∧
      ((convert o text path).run folder d).ending = none := by
  unfold convert
  obtain ⟨hdisk, hending⟩ := Script.run_warn folder d
    (warningLines (Conversion.ofText o text).warnings)
    (.write path output.xml (.print .out (notice ("wrote " ++ path) ++ "\n") (.done none)))
  simp only [houtput]
  rw [hdisk, hending]
  simp only [Script.run, hwrite, and_self]

/-! ## Runs -/

/-- **A run fails, or prints the tree, or goes on with the job that it was asked for.**  What comes
    before `next` neither writes nor lets a wrong setting through. -/
theorem plays_through {next : ConvertOptions → String → String → Script}
    (h : Plays folder d (through folder s input next) p) :
    Fails d p ∨ (s.dump = true ∧ p.disk = d) ∨
      (s.dump = false ∧ ∃ job, Hands folder d s input job ∧
        Plays folder d (next job.options job.text job.path) p) := by
  rcases Script.plays_read h with hf | ⟨bytes, hbytes, hrest⟩
  · exact Or.inl hf
  · split at hrest
    · rename_i hdump
      exact Or.inr (Or.inl ⟨hdump, plays_dump hrest⟩)
    · rename_i hdump
      split at hrest
      · exact Or.inl (Script.plays_refuse hrest)
      · rename_i precision hprecision
        obtain ⟨hread, hvalid⟩ := precision?_eq_some.mp hprecision
        rcases plays_withTagMap hrest with hf | ⟨map, hmap, hnext⟩
        · exact Or.inl hf
        · have hnot : s.dump = false := Bool.not_eq_true _ ▸ hdump
          refine Or.inr (Or.inr ⟨hnot, ⟨⟨map, s.skipEmpty, precision⟩, _, _⟩, ?_, hnext⟩)
          exact ⟨⟨bytes, hbytes, rfl⟩, hmap, rfl, hread, hvalid, rfl, rfl⟩

/-- The program is the one that goes on with the conversion, so all that is said of `through` is
    said of it. -/
theorem ofSettings_eq : ofSettings folder s input = through folder s input convert := rfl

/-- The program depends only on what `next` does with a possible precision: it is never called with
    another. -/
theorem through_congr {next next' : ConvertOptions → String → String → Script}
    (h : ∀ o text path, IsPrecision o.precision → next o text path = next' o text path) :
    through folder s input next = through folder s input next' := by
  unfold through
  congr 1
  funext text
  split
  · rfl
  · split
    · rfl
    · rename_i precision hprecision
      congr 1
      funext map
      exact h _ _ _ (precision?_eq_some.mp hprecision).2

/-- **A run fails, or prints the tree, or writes what the conversion makes of its job.**  The disk
    is changed in the last case only. -/
theorem plays_ofSettings (h : Plays folder d (ofSettings folder s input) p) :
    Fails d p ∨ (s.dump = true ∧ p.disk = d) ∨
      (s.dump = false ∧ ∃ job output, Hands folder d s input job ∧
        (Conversion.ofText job.options job.text).result = .ok output ∧
        d.write folder job.path output.xml.toUTF8 = .ok p.disk ∧ p.ending = none) := by
  rw [ofSettings_eq] at h
  rcases plays_through h with hf | hprinted | ⟨hdump, job, hands, hnext⟩
  · exact Or.inl hf
  · exact Or.inr (Or.inl hprinted)
  · rcases plays_convert hnext with hf | ⟨output, houtput, hwrite, hending⟩
    · exact Or.inl hf
    · exact Or.inr (Or.inr ⟨hdump, job, output, hands, houtput, hwrite, hending⟩)

/-- A run that ends well, and does not print the tree, has written what the conversion makes of the
    job that the settings ask for. -/
theorem writes_of_plays (h : Plays folder d (ofSettings folder s input) p) (hending : p.ending = none)
    (hdump : s.dump = false) :
    ∃ job output, Hands folder d s input job ∧
      (Conversion.ofText job.options job.text).result = .ok output ∧
      d.write folder job.path output.xml.toUTF8 = .ok p.disk := by
  rcases plays_ofSettings h with hf | ⟨hprint, -⟩ | ⟨-, job, output, hands, houtput, hwrite, -⟩
  · exact absurd hending hf.ending
  · exact nomatch hdump.symm.trans hprint
  · exact ⟨job, output, hands, houtput, hwrite⟩

/-- **A job that can be done is done:** if the text is converted and the result can be written, the
    run on the disk `d` ends well and leaves the disk with the result on it. -/
theorem run_of_hands {job : Job} {output : Output} {d' : Disk} (hdump : s.dump = false)
    (hands : Hands folder d s input job)
    (houtput : (Conversion.ofText job.options job.text).result = .ok output)
    (hwrite : d.write folder job.path output.xml.toUTF8 = .ok d') :
    ((ofSettings folder s input).run folder d).disk = d' ∧
      ((ofSettings folder s input).run folder d).ending = none := by
  obtain ⟨⟨map, skipEmpty, precision⟩, text, path⟩ := job
  obtain ⟨⟨bytes, hbytes, rfl⟩, hmap, rfl, hread, hvalid, rfl, rfl⟩ := hands
  have hprecision : precision? s.precision = some precision := precision?_eq_some.mpr ⟨hread, hvalid⟩
  have hrun : (ofSettings folder s input).run folder d =
      (convert ⟨map, s.skipEmpty, precision⟩ (Text.ofUtf8 bytes)
        (Path.resolve folder (s.output.getD (Path.outputPath input)))).run folder d := by
    simp only [ofSettings, Script.run, hbytes, hdump, hprecision, Bool.false_eq_true, if_false]
    exact run_withTagMap hmap _
  rw [hrun]
  exact run_convert houtput hwrite

/-- **The program writes all or nothing.**  A run that fails or prints the tree leaves every file as it
    was.  Any other run creates or replaces one file, that of the output path; its content is what the
    conversion makes of the input, and the other files stay.  A job that can be done is done.  The
    conversion is asked for possible precisions only: the program does not change with what the
    conversion does for others. -/
theorem ofSettings_writes_all_or_nothing (h : Plays folder d (ofSettings folder s input) p) :
    (p.ending ≠ none ∨ s.dump = true → p.disk = d) ∧
      (p.ending = none → s.dump = false →
        ∃ job output place, Hands folder d s input job ∧
          (Conversion.ofText job.options job.text).result = .ok output ∧
          d.find folder job.path = .ok place ∧
          (d.entry? place = none ∨ ∃ old, d.entry? place = some (.file old)) ∧
          p.disk.entry? place = some (.file output.xml.toUTF8) ∧
          ∀ other, other ≠ place → p.disk.entry? other = d.entry? other) ∧
      (∀ job output d', s.dump = false → Hands folder d s input job →
        (Conversion.ofText job.options job.text).result = .ok output →
        d.write folder job.path output.xml.toUTF8 = .ok d' →
        ((ofSettings folder s input).run folder d).disk = d' ∧
          ((ofSettings folder s input).run folder d).ending = none) ∧
      (ofSettings folder s input = through folder s input convert ∧
        ∀ next next', (∀ o text path, IsPrecision o.precision → next o text path = next' o text path) →
          through folder s input next = through folder s input next') := by
  refine ⟨?_, ?_, fun job output d' => run_of_hands, ofSettings_eq, fun next next' => through_congr⟩
  · intro hnothing
    rcases plays_ofSettings h with hf | ⟨-, hdisk⟩ | ⟨hdump, -, -, -, -, -, hending⟩
    · exact hf.disk
    · exact hdisk
    · rcases hnothing with hend | hprint
      · exact absurd hending hend
      · exact nomatch hdump.symm.trans hprint
  · intro hending hdump
    obtain ⟨job, output, hands, houtput, hwrite⟩ := writes_of_plays h hending hdump
    obtain ⟨place, hplace, hentry, hdisk⟩ := Disk.write_place hwrite
    have hroot : place ≠ [] := by
      rintro rfl
      rcases hentry with hnone | ⟨old, hold⟩
      · exact nomatch hnone
      · exact nomatch hold
    rw [hdisk]
    refine ⟨job, output, place, hands, houtput, hplace, hentry, Disk.entry?_withFile_self hroot, ?_⟩
    intro other hother
    exact Disk.entry?_withFile_of_ne hother

end

/-- `cubeDisk file` — a disk with one cube, in a file of the folder `/w` with the name `file`. -/
def cubeDisk (file : String) : Disk :=
  ⟨[(["w"], .folder), (["w", file], .file "cube(size=1);".toUTF8)]⟩

theorem ofSettings_writes_all_or_nothing_cube :
    ∃ job output place, Hands "/w" (cubeDisk "part.csg") .init "part.csg" job ∧
      (Conversion.ofText job.options job.text).result = .ok output ∧
      (cubeDisk "part.csg").find "/w" job.path = .ok place ∧
      Disk.entry? ((ofSettings "/w" .init "part.csg").run "/w" (cubeDisk "part.csg")).disk place =
        some (.file output.xml.toUTF8) := by
  have hending : ((ofSettings "/w" .init "part.csg").run "/w" (cubeDisk "part.csg")).ending = none := by
    have hnone : ((ofSettings "/w" .init "part.csg").run "/w" (cubeDisk "part.csg")).ending.isNone := by
      decide +kernel
    exact Option.isNone_iff_eq_none.mp hnone
  obtain ⟨job, output, place, hands, houtput, hplace, -, hwritten, -⟩ :=
    (ofSettings_writes_all_or_nothing (Script.plays_run "/w" (cubeDisk "part.csg") _)).2.1 hending rfl
  exact ⟨job, output, place, hands, houtput, hplace, hwritten⟩

end SolidExport.Program
