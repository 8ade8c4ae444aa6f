/-
  Scripts in a world where files may fail.

  `Script.run` knows what a disk knows: a file is missing, or is a folder.  `Plays` is the same for a
  world in which any single reading or writing may fail for reasons of its own; it then ends the
  script and has changed nothing.  What a disk does is one way to play (`plays_run`).

  One lemma for each part of a script says how it plays; they take a play apart from the front.
-/
import SolidExport.CommandLine.Script

namespace SolidExport.Script

/-- `Plays folder d script p` — playing `script` on the disk `d`, in a working folder, may come out
    as `p`.  A read or a write ends the play where it fails, and it may fail for reasons that the
    disk does not know, so there is more than one outcome. -/
inductive Plays (folder : String) : Disk → Script → Played → Prop where
  | done {d : Disk} (ending : Option Ending) : Plays folder d (.done ending) ⟨d, [], ending⟩
  | print {d : Disk} {channel : Channel} {text : String} {next : Script} {p : Played}
    (rest : Plays folder d next p) :
    Plays folder d (.print channel text next) { p with printed := (channel, text) :: p.printed }
  | read {d : Disk} {path : String} {next : String → Script} {bytes : ByteArray} {p : Played}
    (found : d.read folder path = .ok bytes) (rest : Plays folder d (next (Text.ofUtf8 bytes)) p) :
    Plays folder d (.read path next) p
  | notRead {d : Disk} {path : String} {next : String → Script} (f : DiskFault) :
    Plays folder d (.read path next) ⟨d, [], some (.disk f)⟩
  | write {d d' : Disk} {path content : String} {next : Script} {p : Played}
    (stored : d.write folder path content.toUTF8 = .ok d') (rest : Plays folder d' next p) :
    Plays folder d (.write path content next) p
  | notWritten {d : Disk} {path content : String} {next : Script} (f : DiskFault) :
    Plays folder d (.write path content next) ⟨d, [], some (.disk f)⟩

variable {folder : String} {d : Disk} {p : Played}

/-- **What a disk does is a play**, so what is proved of all plays holds of a run on a disk. -/
theorem plays_run (folder : String) (d : Disk) (s : Script) : Plays folder d s (s.run folder d) := by
  induction s generalizing d with
  | done ending => exact .done ending
  | print channel text next ih => exact .print (ih d)
  | read path next ih =>
    unfold run
    split
    · rename_i bytes hbytes
      exact .read hbytes (ih _ d)
    · rename_i f _
      exact .notRead f
  | write path content next ih =>
    unfold run
    split
    · rename_i d' hd'
      exact .write hd' (ih d')
    · rename_i f _
      exact .notWritten f

/-- `Fails d p` — the play `p` ended without success and left the disk `d` as it was. -/
structure Fails (d : Disk) (p : Played) : Prop where
  disk : p.disk = d
  ending : p.ending ≠ none

/-! ## Parts of a script -/

theorem plays_done {ending : Option Ending} (h : Plays folder d (.done ending) p) :
    p.disk = d ∧ p.ending = ending := by
  cases h
  exact ⟨rfl, rfl⟩

theorem plays_print {channel : Channel} {text : String} {next : Script}
    (h : Plays folder d (.print channel text next) p) :
    ∃ q, Plays folder d next q ∧ p.disk = q.disk ∧ p.ending = q.ending := by
  cases h with
  | print rest => exact ⟨_, rest, rfl, rfl⟩

theorem plays_read {path : String} {next : String → Script}
    (h : Plays folder d (.read path next) p) :
    Fails d p ∨
      ∃ bytes, d.read folder path = .ok bytes ∧ Plays folder d (next (Text.ofUtf8 bytes)) p := by
  cases h with
  | read found rest => exact Or.inr ⟨_, found, rest⟩
  | notRead f => exact Or.inl ⟨rfl, nofun⟩

theorem plays_write {path content : String} {next : Script}
    (h : Plays folder d (.write path content next) p) :
    Fails d p ∨ ∃ d', d.write folder path content.toUTF8 = .ok d' ∧ Plays folder d' next p := by
  cases h with
  | write stored rest => exact Or.inr ⟨_, stored, rest⟩
  | notWritten f => exact Or.inl ⟨rfl, nofun⟩

theorem plays_refuse {r : Refusal} (h : Plays folder d (refuse r) p) : Fails d p := by
  obtain ⟨q, hq, hdisk, hending⟩ := plays_print h
  obtain ⟨hd, he⟩ := plays_done hq
  exact ⟨hdisk.trans hd, by rw [hending, he]; nofun⟩

theorem plays_fail {f : Failure} (h : Plays folder d (fail f) p) : Fails d p := by
  obtain ⟨hd, he⟩ := plays_done h
  exact ⟨hd, by rw [he]; nofun⟩

/-- Warnings in front of the script `next` change neither the disk nor the ending. -/
theorem plays_warn {lines : List String} {next : Script} (h : Plays folder d (warn lines next) p) :
    ∃ q, Plays folder d next q ∧ p.disk = q.disk ∧ p.ending = q.ending := by
  induction lines generalizing p with
  | nil => exact ⟨p, h, rfl, rfl⟩
  | cons line lines ih =>
    obtain ⟨q, hq, hdisk, hending⟩ := plays_print h
    obtain ⟨r, hr, hdisk', hending'⟩ := ih hq
    exact ⟨r, hr, hdisk.trans hdisk', hending.trans hending'⟩

theorem run_warn (folder : String) (d : Disk) (lines : List String) (next : Script) :
    ((warn lines next).run folder d).disk = (next.run folder d).disk ∧
      ((warn lines next).run folder d).ending = (next.run folder d).ending := by
  induction lines with
  | nil => exact ⟨rfl, rfl⟩
  | cons line lines ih => exact ih

end SolidExport.Script
