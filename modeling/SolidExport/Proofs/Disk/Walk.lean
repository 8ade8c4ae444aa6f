/-
  Where walks end.

  `Walks` is a walk that ends somewhere, by the steps that it takes; it is what `walk` computes
  (`walk_eq_ok`).  What holds of walks is shown along these steps:

  * a walk goes through folders only and does not end at a link (`Walks.reached`);
  * its last name is taken from the place that the names before it lead to (`Walks.snoc`), so it ends
    at a place of that name, unless a link stands there (`Walks.last`);
  * a file that is put on the disk is in the way of no walk (`Walks.withFile`).
-/
import SolidExport.Proofs.Disk.Write

namespace SolidExport.Disk

variable {d : Disk} {links : Nat} {place names q : List String} {name : String}

/-- `Walks d links place rest q` — a walk on the disk `d` from the folder `place` by the names
    `rest` ends at `q`, and follows no more than `links` links.  Only the last name may be
    missing. -/
inductive Walks (d : Disk) : Nat → List String → List String → List String → Prop where
  | here {links : Nat} {place : List String} : Walks d links place [] place
  | stay {links : Nat} {place rest q : List String} (folder : d.isFolder place = true)
    (go : Walks d links place rest q) : Walks d links place ("." :: rest) q
  | up {links : Nat} {place rest q : List String} (folder : d.isFolder place = true)
    (go : Walks d links place.dropLast rest q) : Walks d links place (".." :: rest) q
  | link {links : Nat} {place rest q : List String} {name target : String}
    (folder : d.isFolder place = true) (notDot : name ≠ ".") (notDots : name ≠ "..")
    (found : d.entry? (place ++ [name]) = some (.link target))
    (go : Walks d links (if Path.isAbsolute target then [] else place) (steps target ++ rest) q) :
    Walks d (links + 1) place (name :: rest) q
  | next {links : Nat} {place rest q : List String} {name : String}
    (folder : d.isFolder place = true) (notDot : name ≠ ".") (notDots : name ≠ "..")
    (noLink : ∀ target, d.entry? (place ++ [name]) ≠ some (.link target))
    (missing : d.entry? (place ++ [name]) = none → rest = [])
    (go : Walks d links (place ++ [name]) rest q) : Walks d links place (name :: rest) q

/-! ## Walks are computed -/

/-- `d.follow links` — how a walk on the disk `d` goes on at a link, if it may follow `links` of
    them from there, this one included. -/
def follow (d : Disk) : Nat → List String → List String → Except DiskCause (List String)
  | 0 => fun _ _ => .error .tooManyLinks
  | links + 1 => d.walk links

theorem walk_eq (d : Disk) (links : Nat) : d.walk links = d.walkNames (d.follow links) := by
  cases links <;> rfl

theorem walkNames_sound
    (hfollow : ∀ {place names}, d.follow links place names = .ok q →
      ∃ k, links = k + 1 ∧ Walks d k place names q)
    (h : d.walkNames (d.follow links) place names = .ok q) : Walks d links place names q := by
  induction names generalizing place with
  | nil => exact Except.ok.inj h ▸ .here
  | cons name rest ih =>
    unfold walkNames at h
    split at h
    · exact nomatch h
    · rename_i hplace
      have hfolder : d.isFolder place = true := by simpa using hplace
      split at h
      · rename_i hdot
        exact hdot ▸ .stay hfolder (ih h)
      · rename_i hdot
        split at h
        · rename_i hdots
          exact hdots ▸ .up hfolder (ih h)
        · rename_i hdots
          dsimp only at h
          split at h
          · rename_i target htarget
            obtain ⟨k, rfl, hgo⟩ := hfollow h
            exact .link hfolder hdot hdots htarget hgo
          · rename_i e hlink he
            refine .next hfolder hdot hdots (fun target htarget => ?_) (fun hnone => ?_) (ih h)
            · exact hlink target (Option.some.inj (he.symm.trans htarget))
            · exact nomatch he.symm.trans hnone
          · rename_i hnone
            split at h
            · rename_i hrest
              subst hrest
              exact .next hfolder hdot hdots (by rw [hnone]; nofun) (fun _ => rfl) (ih h)
            · exact nomatch h

theorem walk_sound (h : d.walk links place names = .ok q) : Walks d links place names q := by
  induction links generalizing place names with
  | zero => exact walkNames_sound nofun h
  | succ k ih => exact walkNames_sound (fun hgo => ⟨k, rfl, ih hgo⟩) h

theorem Walks.walk (h : Walks d links place names q) : d.walk links place names = .ok q := by
  rw [walk_eq]
  induction h with
  | here => rfl
  | stay folder _ ih => simp [walkNames, folder, ih]
  | up folder _ ih => simp [walkNames, folder, ih]
  | @link links place rest q name target folder notDot notDots found go ih =>
    have hgo : d.follow (links + 1) (if Path.isAbsolute target then [] else place)
        (steps target ++ rest) = .ok q := by
      rw [follow, walk_eq]
      exact ih
    simp [walkNames, folder, notDot, notDots, found, hgo]
  | @next links place rest q name folder notDot notDots noLink missing go ih =>
    unfold walkNames
    rw [folder, if_neg (by simp), if_neg notDot, if_neg notDots]
    dsimp only
    split
    · rename_i target htarget
      exact absurd htarget (noLink target)
    · exact ih
    · rename_i hnone
      obtain rfl := missing hnone
      exact ih

/-- **A walk ends where it is computed to end.**  The relation has a rule for each case of the
    recursion, so that walks can be proved about by induction, links and all. -/
theorem walk_eq_ok : d.walk links place names = .ok q ↔ Walks d links place names q :=
  ⟨walk_sound, Walks.walk⟩

/-! ## Places that are reached -/

/-- `d.Reached place` — a place that a walk on the disk `d` may come to: there are folders above it,
    and no link stands there.  A file or a folder may stand there, or nothing. -/
structure Reached (d : Disk) (place : List String) : Prop where
  above : ∀ n < place.length, d.isFolder (place.take n) = true
  noLink : ∀ target, d.entry? place ≠ some (.link target)

theorem isFolder_iff : d.isFolder place = true ↔ d.entry? place = some .folder := by
  unfold isFolder
  split
  · rename_i h
    exact ⟨fun _ => h, fun _ => rfl⟩
  · rename_i h
    exact ⟨nofun, fun hfolder => absurd hfolder h⟩

theorem reached_root (d : Disk) : Reached d [] := ⟨nofun, nofun⟩

/-- Above a folder that is reached there is a folder, and above the root is the root. -/
theorem Reached.isFolder_dropLast (h : Reached d place) (hfolder : d.isFolder place = true) :
    d.isFolder place.dropLast = true := by
  rcases List.eq_nil_or_concat place with rfl | ⟨front, last, rfl⟩
  · exact hfolder
  · have habove := h.above front.length (by simp)
    simpa using habove

theorem Reached.dropLast (h : Reached d place) (hfolder : d.isFolder place = true) :
    Reached d place.dropLast := by
  refine ⟨fun n hn => ?_, fun target htarget => ?_⟩
  · rw [List.length_dropLast] at hn
    rw [List.dropLast_eq_take, List.take_take, Nat.min_eq_left (by omega)]
    exact h.above n (by omega)
  · have hup := isFolder_iff.mp (h.isFolder_dropLast hfolder)
    exact nomatch hup.symm.trans htarget

theorem Reached.next (h : Reached d place) (hfolder : d.isFolder place = true)
    (hlink : ∀ target, d.entry? (place ++ [name]) ≠ some (.link target)) :
    Reached d (place ++ [name]) := by
  refine ⟨fun n hn => ?_, hlink⟩
  rw [List.length_append, List.length_singleton] at hn
  rcases Nat.lt_or_eq_of_le (Nat.lt_succ_iff.mp hn) with hlt | rfl
  · rw [List.take_append_of_le_length (by omega)]
    exact h.above n hlt
  · rw [List.take_left]
    exact hfolder

/-- **A walk ends at a place that is reached**, if it starts at one: each step goes into a folder,
    and links are replaced on the way. -/
theorem Walks.reached (h : Walks d links place names q) (hplace : Reached d place) :
    Reached d q := by
  induction h with
  | here => exact hplace
  | stay _ _ ih => exact ih hplace
  | up folder _ ih => exact ih (hplace.dropLast folder)
  | link _ _ _ _ _ ih =>
    apply ih
    split
    · exact reached_root d
    · exact hplace
  | next folder _ _ noLink _ _ ih => exact ih (hplace.next folder noLink)

/-! ## The last name -/

/-- **The last name of a walk is taken from the place that the names before it lead to.** -/
theorem Walks.snoc {last : String} (h : Walks d links place (names ++ [last]) q) :
    ∃ r k, Walks d links place names r ∧ Walks d k r [last] q := by
  generalize hall : names ++ [last] = all at h
  induction h generalizing names with
  | here => simp at hall
  | @stay links place rest q folder go ih =>
    cases names with
    | nil =>
      obtain ⟨rfl, rfl⟩ := List.cons.inj hall
      exact ⟨place, links, .here, .stay folder go⟩
    | cons n names =>
      obtain ⟨rfl, hrest⟩ := List.cons.inj hall
      obtain ⟨r, k, hr, hlast⟩ := ih hrest
      exact ⟨r, k, .stay folder hr, hlast⟩
  | @up links place rest q folder go ih =>
    cases names with
    | nil =>
      obtain ⟨rfl, rfl⟩ := List.cons.inj hall
      exact ⟨place, links, .here, .up folder go⟩
    | cons n names =>
      obtain ⟨rfl, hrest⟩ := List.cons.inj hall
      obtain ⟨r, k, hr, hlast⟩ := ih hrest
      exact ⟨r, k, .up folder hr, hlast⟩
  | @link links place rest q name target folder notDot notDots found go ih =>
    cases names with
    | nil =>
      obtain ⟨rfl, rfl⟩ := List.cons.inj hall
      exact ⟨place, links + 1, .here, .link folder notDot notDots found go⟩
    | cons n names =>
      obtain ⟨rfl, rfl⟩ := List.cons.inj hall
      -- the target's names come before the names that are left
      obtain ⟨r, k, hr, hlast⟩ := ih (List.append_assoc (steps target) names [last])
      exact ⟨r, k, .link folder notDot notDots found hr, hlast⟩
  | @next links place rest q name folder notDot notDots noLink missing go ih =>
    cases names with
    | nil =>
      obtain ⟨rfl, rfl⟩ := List.cons.inj hall
      exact ⟨place, links, .here, .next folder notDot notDots noLink missing go⟩
    | cons n names =>
      obtain ⟨rfl, rfl⟩ := List.cons.inj hall
      obtain ⟨r, k, hr, hlast⟩ := ih rfl
      refine ⟨r, k, .next folder notDot notDots noLink (fun hnone => ?_) hr, hlast⟩
      simpa using missing hnone

/-- A walk by a single `name`, dots apart, ends at the place of that name in the folder, unless a
    link stands there. -/
theorem Walks.last (h : Walks d links place [name] q) (hdot : name ≠ ".") (hdots : name ≠ "..") :
    (∃ target, d.entry? (place ++ [name]) = some (.link target)) ∨ q = place ++ [name] := by
  cases h with
  | stay => exact absurd rfl hdot
  | up => exact absurd rfl hdots
  | link _ _ _ found _ => exact Or.inl ⟨_, found⟩
  | next _ _ _ _ _ go =>
    cases go
    exact Or.inr rfl

/-- A walk by one or two dots ends at a folder, since it starts in one. -/
theorem Walks.last_dots (h : Walks d links place [name] q) (hplace : Reached d place)
    (hname : name = "." ∨ name = "..") : d.isFolder q = true := by
  cases h with
  | stay folder go =>
    cases go
    exact folder
  | up folder go =>
    cases go
    exact hplace.isFolder_dropLast folder
  | link _ notDot notDots => exact absurd hname (by simp [notDot, notDots])
  | next _ notDot notDots => exact absurd hname (by simp [notDot, notDots])

/-! ## Walks after a file is put -/

variable {w : List String} {content : ByteArray}

theorem isFolder_withFile (hw : d.isFolder w ≠ true) (h : d.isFolder place = true) :
    (d.withFile w content).isFolder place = true := by
  have hne : place ≠ w := fun heq => hw (heq ▸ h)
  rw [isFolder_iff, entry?_withFile_of_ne hne]
  exact isFolder_iff.mp h

/-- **A file that is put on a disk is in the way of no walk**, if there was neither a folder nor a
    link at its place.  By induction on the walk: no step looks at anything else. -/
theorem Walks.withFile (h : Walks d links place names q) (hfolder : d.isFolder w ≠ true)
    (hlink : ∀ target, d.entry? w ≠ some (.link target)) :
    Walks (d.withFile w content) links place names q := by
  induction h with
  | here => exact .here
  | stay folder _ ih => exact .stay (isFolder_withFile hfolder folder) ih
  | up folder _ ih => exact .up (isFolder_withFile hfolder folder) ih
  | @link links place rest q name target folder notDot notDots found _ ih =>
    have hne : place ++ [name] ≠ w := fun heq => hlink target (heq ▸ found)
    refine .link (isFolder_withFile hfolder folder) notDot notDots ?_ ih
    rw [entry?_withFile_of_ne hne]
    exact found
  | @next links place rest q name folder notDot notDots noLink missing go ih =>
    refine .next (isFolder_withFile hfolder folder) notDot notDots ?_ ?_ ih
    all_goals by_cases heq : place ++ [name] = w
    · intro target htarget
      rw [heq, entry?_withFile_self (by simp [← heq])] at htarget
      exact nomatch htarget
    · rw [entry?_withFile_of_ne heq]
      exact noLink
    · intro hnone
      rw [heq, entry?_withFile_self (by simp [← heq])] at hnone
      exact nomatch hnone
    · rw [entry?_withFile_of_ne heq]
      exact missing

end SolidExport.Disk
