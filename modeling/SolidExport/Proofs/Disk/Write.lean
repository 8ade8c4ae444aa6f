/-
  What writing a file changes.

  A file is written at the one place that its path leads to, unless there is a folder (`write_ok`).
  What stands at other places stays (`entry?_withFile_of_ne`).
-/
import SolidExport.Disk.Basic

namespace SolidExport.Disk

variable {d d' : Disk} {folder path : String} {place : List String} {content : ByteArray}

/-- `d.withFile place content` — the disk `d` with a file put at `place`.  Nothing checks whether
    one may stand there. -/
def withFile (d : Disk) (place : List String) (content : ByteArray) : Disk :=
  ⟨put place content d.entries⟩

theorem lookup_put_self (place : List String) (content : ByteArray)
    (entries : List (List String × Entry)) :
    (put place content entries).lookup place = some (.file content) := by
  induction entries with
  | nil => simp [put]
  | cons e entries ih =>
    obtain ⟨p, e⟩ := e
    by_cases h : p = place
    · simp [put, h]
    · have hne : (place == p) = false := by simp [Ne.symm h]
      simp [put, h, List.lookup_cons, hne, ih]

theorem lookup_put_of_ne {other : List String} (h : other ≠ place) (content : ByteArray)
    (entries : List (List String × Entry)) :
    (put place content entries).lookup other = entries.lookup other := by
  induction entries with
  | nil =>
    have hne : (other == place) = false := by simp [h]
    simp [put, List.lookup_cons, hne]
  | cons e entries ih =>
    obtain ⟨p, e⟩ := e
    by_cases hp : p = place
    · subst hp
      have hne : (other == p) = false := by simp [h]
      simp [put, List.lookup_cons, hne]
    · simp [put, hp, List.lookup_cons, ih]

/-- At the place of a file that was put on the disk there is the file, over whatever was there. -/
theorem entry?_withFile_self (h : place ≠ []) :
    entry? (d.withFile place content) place = some (.file content) := by
  unfold entry?
  rw [if_neg h]
  exact lookup_put_self place content d.entries

/-- **At other places everything stays** when a file is put on the disk. -/
theorem entry?_withFile_of_ne {other : List String} (h : other ≠ place) :
    entry? (d.withFile place content) other = d.entry? other := by
  unfold entry? withFile
  rw [lookup_put_of_ne h]

/-- A place without a folder is not the root, which always is one. -/
theorem ne_root_of_not_folder (h : d.entry? place ≠ some .folder) : place ≠ [] := by
  rintro rfl
  exact h rfl

/-- **A file is written where its path leads, unless there is a folder.**  This is all that a write
    does to the disk. -/
theorem write_ok (h : d.write folder path content = .ok d') :
    ∃ place, d.find folder path = .ok place ∧ d.entry? place ≠ some .folder ∧
      d' = d.withFile place content := by
  unfold write at h
  split at h
  · exact nomatch h
  · rename_i place hplace
    split at h
    · exact nomatch h
    · rename_i hfolder
      injection h with h
      exact ⟨place, hplace, hfolder, h.symm⟩

end SolidExport.Disk
