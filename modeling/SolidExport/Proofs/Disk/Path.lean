/-
  The last name of a path.

  A path is cut before its last name (`Cut`): what comes before is empty or ends in a slash, and the
  name has no slash.  The name is empty where the path ends in a slash.  Walks, resolved paths and
  output paths are all read off such a cut:

  * a walk takes the last name last (`Cut.steps_eq`);
  * a resolved path keeps the last name, unless it is made of dots (`Cut.resolveNames_eq`);
  * the output path keeps what comes before the last name and replaces the extension in it
    (`Cut.outputPath_eq`).  It is the path itself exactly where that ends in the extension of outputs
    already (`outputPath_eq_self_iff`).
-/
import SolidExport.Disk.Basic

namespace SolidExport.Text

/-! ## Code units -/

theorem ofUnits_cons {u : Nat} (h : isHighUnit u = false) (rest : List Nat) :
    ofUnits (u :: rest) = ofUnit u :: ofUnits rest := by
  cases rest with
  | nil => rfl
  | cons v rest => simp [ofUnits, h]

/-- The number of a character, taken as a code unit, is no half of a pair, and is read as that
    character. -/
theorem ofUnit_toNat (c : Char) : isHighUnit c.toNat = false ∧ ofUnit c.toNat = c := by
  have hvalid : c.toNat < 0xD800 ∨ 0xDFFF < c.toNat ∧ c.toNat < 0x110000 := c.valid
  have hhigh : isHighUnit c.toNat = false := by simp [isHighUnit]; omega
  have hlow : isLowUnit c.toNat = false := by simp [isLowUnit]; omega
  exact ⟨hhigh, by simp [ofUnit, hhigh, hlow]⟩

/-- **A text is read back from its code units**, since those of a pair stand side by side. -/
theorem ofUnits_flatMap_units (cs : List Char) : ofUnits (cs.flatMap units) = cs := by
  induction cs with
  | nil => rfl
  | cons c cs ih =>
    rw [List.flatMap_cons]
    unfold units
    dsimp only
    split
    · obtain ⟨hhigh, hunit⟩ := ofUnit_toNat c
      rw [List.singleton_append, ofUnits_cons hhigh, hunit]
      exact congrArg _ ih
    · rename_i hbig
      have hvalid : c.toNat < 0xD800 ∨ 0xDFFF < c.toNat ∧ c.toNat < 0x110000 := c.valid
      have hhigh : isHighUnit (0xD800 + (c.toNat - 0x10000) / 0x400) = true := by
        simp [isHighUnit]
        omega
      have hlow : isLowUnit (0xDC00 + (c.toNat - 0x10000) % 0x400) = true := by
        simp [isLowUnit]
        omega
      have hnat : 0x10000 + (0xD800 + (c.toNat - 0x10000) / 0x400 - 0xD800) * 0x400 +
          (0xDC00 + (c.toNat - 0x10000) % 0x400 - 0xDC00) = c.toNat := by
        omega
      simp only [List.cons_append, List.nil_append, ofUnits, hhigh, hlow, Bool.and_self, if_true]
      rw [hnat, Char.ofNat_toNat]
      exact congrArg _ ih

end SolidExport.Text

namespace SolidExport.Path

/-! ## Names -/

theorem split_slash (cs : List Char) : split ('/' :: cs) = [] :: split cs := rfl

theorem split_ne_nil (cs : List Char) : split cs ≠ [] := by
  cases cs with
  | nil => nofun
  | cons c cs =>
    unfold split
    rw [List.foldr_cons]
    split
    · nofun
    · split <;> nofun

/-- A character other than a slash goes to the front of the first name, and the other names stay. -/
theorem split_char {c : Char} (hc : c ≠ '/') (cs : List Char) :
    ∃ name rest, split cs = name :: rest ∧ split (c :: cs) = (c :: name) :: rest := by
  obtain ⟨name, rest, hcut⟩ := List.exists_cons_of_ne_nil (split_ne_nil cs)
  refine ⟨name, rest, hcut, ?_⟩
  unfold split at hcut ⊢
  rw [List.foldr_cons, hcut, if_neg hc]

/-- The names of a path are what its slashes separate, as the standard library separates lists. -/
theorem split_eq_splitOn (cs : List Char) : split cs = cs.splitOn '/' := by
  induction cs with
  | nil => rfl
  | cons c cs ih =>
    rw [List.splitOn_cons_eq_if_modifyHead, ← ih]
    by_cases hc : c = '/'
    · simp [hc, split_slash]
    · obtain ⟨name, rest, hcs, hall⟩ := split_char hc cs
      simp [hc, hcs, hall]

theorem slash_notMem_of_mem_split {cs name : List Char} (h : name ∈ split cs) : '/' ∉ name := by
  induction cs generalizing name with
  | nil =>
    obtain rfl : name = [] := List.mem_singleton.mp h
    exact List.not_mem_nil
  | cons c cs ih =>
    by_cases hc : c = '/'
    · rw [hc, split_slash] at h
      rcases List.mem_cons.mp h with rfl | hmem
      · exact List.not_mem_nil
      · exact ih hmem
    · obtain ⟨first, rest, hcs, hall⟩ := split_char hc cs
      rw [hcs] at ih
      rw [hall] at h
      rcases List.mem_cons.mp h with rfl | hmem
      · simpa [Ne.symm hc] using ih List.mem_cons_self
      · exact ih (List.mem_cons_of_mem _ hmem)

/-- A path whose names are all empty is made of slashes only. -/
theorem eq_slash_of_names_empty {cs : List Char} (h : ∀ name ∈ split cs, name = []) :
    ∀ c ∈ cs, c = '/' := by
  induction cs with
  | nil => nofun
  | cons c cs ih =>
    by_cases hc : c = '/'
    · rw [hc, split_slash] at h
      exact List.forall_mem_cons.mpr ⟨hc, ih fun name hname => h name (List.mem_cons_of_mem _ hname)⟩
    · obtain ⟨first, rest, -, hall⟩ := split_char hc cs
      rw [hall] at h
      exact absurd (h (c :: first) List.mem_cons_self) nofun

/-! ## Cuts -/

/-- What comes before the first `mark`, in a text that goes on with the mark or ends there. -/
theorem takeWhile_ne_append {mark : Char} {before rest : List Char} (h : mark ∉ before)
    (hrest : rest = [] ∨ ∃ more, rest = mark :: more) :
    (before ++ rest).takeWhile (· != mark) = before := by
  have hall : ∀ c ∈ before, (c != mark) = true := by
    intro c hc
    have hne : c ≠ mark := fun heq => h (heq ▸ hc)
    simpa using hne
  rw [List.takeWhile_append_of_pos hall]
  rcases hrest with rfl | ⟨more, rfl⟩ <;> simp

/-- `Cut cs dir name` — the path `cs` is cut before its last name: `name` has no slash, and `dir` is
    empty or ends in one.  There is one cut of each path. -/
structure Cut (cs dir name : List Char) : Prop where
  eq : cs = dir ++ name
  noSlash : '/' ∉ name
  slash : dir = [] ∨ ∃ up, dir = up ++ ['/']

theorem exists_cut (cs : List Char) : ∃ dir name, Cut cs dir name := by
  induction cs with
  | nil => exact ⟨[], [], rfl, List.not_mem_nil, Or.inl rfl⟩
  | cons c cs ih =>
    obtain ⟨dir, name, heq, hno, rfl | ⟨up, rfl⟩⟩ := ih
    · by_cases hc : c = '/'
      · exact ⟨['/'], name, by simp [hc, heq], hno, Or.inr ⟨[], rfl⟩⟩
      · exact ⟨[], c :: name, by simp [heq], by simp [hno, Ne.symm hc], Or.inl rfl⟩
    · exact ⟨c :: (up ++ ['/']), name, by simp [heq], hno, Or.inr ⟨c :: up, rfl⟩⟩

namespace Cut

variable {cs dir name : List Char}

/-- What comes before the last name stays when the name is another: both paths are cut behind
    `dir`. -/
theorem withName (h : Cut cs dir name) {name' : List Char} (hno : '/' ∉ name') :
    Cut (dir ++ name') dir name' :=
  ⟨rfl, hno, h.slash⟩

/-- A text without a slash goes to the last name when it is put behind a path, as an extension
    is. -/
theorem append (h : Cut cs dir name) {more : List Char} (hno : '/' ∉ more) :
    Cut (cs ++ more) dir (name ++ more) :=
  ⟨by simp [h.eq], by simp [h.noSlash, hno], h.slash⟩

/-- The last name of a cut is the last of the names of the path. -/
theorem split_eq (h : Cut cs dir name) : ∃ front, split cs = front ++ [name] := by
  obtain ⟨rfl, hno, rfl | ⟨up, rfl⟩⟩ := h
  · refine ⟨[], ?_⟩
    rw [split_eq_splitOn, List.nil_append, List.splitOn_eq_singleton hno]
    rfl
  · refine ⟨split up, ?_⟩
    rw [split_eq_splitOn, split_eq_splitOn, List.append_assoc, List.singleton_append,
      List.splitOn_append_cons_self, List.splitOn_eq_singleton hno]

theorem lastName_eq (h : Cut cs dir name) (hname : name ≠ []) : lastName cs = name := by
  obtain ⟨rfl, hno, hslash⟩ := h
  have hdrop : (dir ++ name).reverse.dropWhile (· == '/') = name.reverse ++ dir.reverse := by
    rw [List.reverse_append]
    obtain ⟨c, rest, hrev⟩ := List.exists_cons_of_ne_nil (mt List.reverse_eq_nil_iff.mp hname)
    have hc : c ≠ '/' := by
      rintro rfl
      exact hno (List.mem_reverse.mp (hrev ▸ List.mem_cons_self))
    simp [hrev, hc]
  have htake : (name.reverse ++ dir.reverse).takeWhile (· != '/') = name.reverse := by
    refine takeWhile_ne_append (by simpa using hno) ?_
    rcases hslash with rfl | ⟨up, rfl⟩
    · exact Or.inl rfl
    · exact Or.inr ⟨up.reverse, by simp⟩
  unfold lastName
  rw [hdrop, htake, List.reverse_reverse]

end Cut

theorem names_eq_of_cut {path : String} {dir name : List Char} (h : Cut path.toList dir name) :
    ∃ front, names path = front ++ [String.ofList name] := by
  obtain ⟨front, hfront⟩ := h.split_eq
  exact ⟨front.map String.ofList, by simp [names, hfront]⟩

/-! ## Steps of a walk -/

/-- A walk takes the last name of a path last, if it is not empty. -/
theorem Cut.steps_eq {path : String} {dir name : List Char} (h : Cut path.toList dir name)
    (hname : name ≠ []) : ∃ front, Disk.steps path = front ++ [String.ofList name] := by
  obtain ⟨front, hfront⟩ := names_eq_of_cut h
  have hne : String.ofList name ≠ "" := by simpa using hname
  refine ⟨front.filter (· ≠ ""), ?_⟩
  unfold Disk.steps
  simp [hfront, hne]

/-- A slash at the end of a path is walked as a dot, unless there are no names at all.  So such a
    path leads to a folder, or nowhere. -/
theorem Cut.steps_eq_of_slash {path : String} {dir : List Char} (h : Cut path.toList dir []) :
    Disk.steps path = [] ∨ ∃ front, Disk.steps path = front ++ ["."] := by
  obtain ⟨front, hfront⟩ := names_eq_of_cut h
  unfold Disk.steps
  dsimp only
  split
  · exact Or.inr ⟨_, rfl⟩
  · rename_i hinner
    have hlast : (names path).getLast? = some "" := by simp [hfront]
    exact Or.inl (Decidable.not_not.mp fun hne => hinner ⟨hlast, hne⟩)

/-- Only a path of slashes has no steps, and that is absolute. -/
theorem isAbsolute_of_steps_nil {path : String} (h : Disk.steps path = []) (hpath : path ≠ "") :
    isAbsolute path = true := by
  have hempty : ∀ name ∈ split path.toList, name = [] := by
    intro name hname
    refine Decidable.byContradiction fun hne => ?_
    have hmem : String.ofList name ∈ (names path).filter (· ≠ "") := by
      simp only [names, List.mem_filter, List.mem_map]
      exact ⟨⟨name, hname, rfl⟩, by simpa using hne⟩
    unfold Disk.steps at h
    dsimp only at h
    split at h
    · simp at h
    · exact List.ne_nil_of_mem hmem h
  have hslash := eq_slash_of_names_empty hempty
  obtain ⟨c, cs, hcs⟩ := List.exists_cons_of_ne_nil (mt String.toList_eq_nil_iff.mp hpath)
  rw [hcs] at hslash
  simp [isAbsolute, hcs, hslash c List.mem_cons_self]

/-! ## Resolved paths -/

/-- `IsName name` — a text that can be one step of a path: it is not empty and has no slash. -/
structure IsName (name : String) : Prop where
  ne_empty : name ≠ ""
  noSlash : '/' ∉ name.toList

theorem isAbsolute_ofNames (ns : List String) : isAbsolute (ofNames ns) = true := by
  simp [isAbsolute, ofNames]

/-- **The path of some names is walked by these names**, if they are names. -/
theorem steps_ofNames {ns : List String} (hne : ns ≠ []) (h : ∀ n ∈ ns, IsName n) :
    Disk.steps (ofNames ns) = ns := by
  have hsplit : names (ofNames ns) = "" :: ns := by
    have hno : ∀ l ∈ ns.map String.toList, '/' ∉ l := by
      intro l hl
      obtain ⟨n, hn, rfl⟩ := List.mem_map.mp hl
      exact (h n hn).noSlash
    have hjoin := List.splitOn_intercalate '/' hno (by simpa using hne)
    have hchars : (ofNames ns).toList = '/' :: ['/'].intercalate (ns.map String.toList) := by
      simp [ofNames]
    rw [names, hchars, split_slash, split_eq_splitOn, hjoin]
    simp
  have hfilter : ("" :: ns).filter (· ≠ "") = ns := by
    rw [List.filter_cons_of_neg (by simp), List.filter_eq_self]
    intro n hn
    simpa using (h n hn).ne_empty
  unfold Disk.steps
  simp only [hsplit, hfilter]
  rw [if_neg]
  rintro ⟨hlast, -⟩
  obtain ⟨front, last, rfl⟩ := (List.eq_nil_or_concat ns).resolve_left hne
  simp only [List.concat_eq_append, ← List.cons_append, List.getLast?_concat, Option.some.injEq] at hlast
  exact (h last (by simp)).ne_empty hlast

theorem enter_isName {up : List String} {name : String} (hup : ∀ n ∈ up, IsName n)
    (hname : '/' ∉ name.toList) : ∀ n ∈ enter up name, IsName n := by
  intro n hn
  unfold enter at hn
  split at hn
  · exact hup n hn
  · rename_i hdot
    split at hn
    · exact hup n (List.mem_of_mem_drop hn)
    · rcases List.mem_cons.mp hn with rfl | hmem
      · exact ⟨fun hempty => hdot (Or.inl hempty), hname⟩
      · exact hup n hmem

theorem foldl_enter_isName {ns up : List String} (hup : ∀ n ∈ up, IsName n)
    (hns : ∀ n ∈ ns, '/' ∉ n.toList) : ∀ n ∈ ns.foldl enter up, IsName n := by
  induction ns generalizing up with
  | nil => exact hup
  | cons name ns ih =>
    obtain ⟨hname, hrest⟩ := List.forall_mem_cons.mp hns
    exact ih (enter_isName hup hname) hrest

theorem names_noSlash {path name : String} (h : name ∈ names path) : '/' ∉ name.toList := by
  obtain ⟨cs, hcs, rfl⟩ := List.mem_map.mp h
  rw [String.toList_ofList]
  exact slash_notMem_of_mem_split hcs

theorem resolveNames_isName (folder path : String) : ∀ n ∈ resolveNames folder path, IsName n := by
  intro n hn
  refine foldl_enter_isName (by simp) ?_ n (List.mem_reverse.mp hn)
  intro m hm
  rcases List.mem_append.mp hm with hstart | hpath
  · split at hstart
    · exact absurd hstart List.not_mem_nil
    · exact names_noSlash hstart
  · exact names_noSlash hpath

/-- A resolved path keeps its last name, unless that is dots: what comes before may be taken away,
    but not the last. -/
theorem Cut.resolveNames_eq {path : String} {dir name : List Char} (folder : String)
    (h : Cut path.toList dir name) (hempty : String.ofList name ≠ "")
    (hdot : String.ofList name ≠ ".") (hdots : String.ofList name ≠ "..") :
    ∃ front, resolveNames folder path = front ++ [String.ofList name] := by
  obtain ⟨front, hfront⟩ := names_eq_of_cut h
  unfold resolveNames
  refine ⟨(((if isAbsolute path then [] else names folder) ++ front).foldl enter []).reverse, ?_⟩
  dsimp only
  have henter : ∀ up, enter up (String.ofList name) = String.ofList name :: up := by
    intro up
    rw [enter, if_neg (not_or.mpr ⟨hempty, hdot⟩), if_neg hdots]
  rw [hfront, ← List.append_assoc, List.foldl_append, List.foldl_cons, List.foldl_nil, henter,
    List.reverse_cons]

/-! ## Extensions -/

variable {cs stem tail : List Char}

theorem extension_of_noDot (h : '.' ∉ lastName cs) : extension cs = [] := by
  have hrev : '.' ∉ (lastName cs).reverse := by simpa using h
  have htake : (lastName cs).reverse.takeWhile (· != '.') = (lastName cs).reverse := by
    simpa using takeWhile_ne_append hrev (Or.inl rfl)
  unfold extension
  dsimp only
  rw [htake, List.reverse_reverse, if_pos (Or.inl (by simp))]

theorem extension_of_dot (h : lastName cs = stem ++ '.' :: tail) (htail : '.' ∉ tail) :
    extension cs = if stem = [] ∨ lastName cs = ['.', '.'] then [] else '.' :: tail := by
  have htake : ((lastName cs).reverse.takeWhile (· != '.')).reverse = tail := by
    have hrev : (lastName cs).reverse = tail.reverse ++ '.' :: stem.reverse := by simp [h]
    rw [hrev, takeWhile_ne_append (by simpa using htail) (Or.inr ⟨_, rfl⟩), List.reverse_reverse]
  have hstem : ((lastName cs).take ((lastName cs).length - tail.length)).length < 2 ↔ stem = [] := by
    rw [List.length_take, ← List.length_eq_zero_iff, h]
    simp only [List.length_append, List.length_cons]
    omega
  unfold extension
  simp only [htake, hstem]

/-- **The extension ends the last name, behind something else.**  A name that is all extension has
    none. -/
theorem exists_stem (cs : List Char) :
    ∃ stem, lastName cs = stem ++ extension cs ∧ (extension cs ≠ [] → stem ≠ []) := by
  by_cases hdot : '.' ∈ lastName cs
  · -- cut at the last dot
    obtain ⟨liat, mets, hrev, htail⟩ := List.eq_append_cons_of_mem (List.mem_reverse.mpr hdot)
    have hname : lastName cs = mets.reverse ++ '.' :: liat.reverse := by
      rw [← List.reverse_reverse (lastName cs), hrev]
      simp
    rw [extension_of_dot hname (by simpa using htail)]
    split
    · exact ⟨lastName cs, by simp, fun hne => absurd rfl hne⟩
    · rename_i hstem
      exact ⟨mets.reverse, hname, fun _ hempty => hstem (Or.inl hempty)⟩
  · rw [extension_of_noDot hdot]
    exact ⟨lastName cs, by simp, fun hne => absurd rfl hne⟩

/-! ## Output paths -/

/-- `EndsInOutput path` — the path ends in the extension of outputs, behind a character of the same
    name.  A dot that begins a name begins no extension. -/
def EndsInOutput (path : String) : Prop :=
  ∃ front c, path.toList = front ++ c :: outputExtension.toList ∧ c ≠ '/'

/-- **The output path has another extension in the place of the path's own**, for a path that ends
    in its extension.  A path that ends in slashes does not. -/
theorem outputPath_toList {input : String} {front : List Char}
    (h : input.toList = front ++ extension input.toList) :
    (outputPath input).toList = front ++ outputExtension.toList := by
  have hunits : input.toList.flatMap Text.units =
      front.flatMap Text.units ++ (extension input.toList).flatMap Text.units := by
    rw [← List.flatMap_append, ← h]
  unfold outputPath
  dsimp only
  rw [hunits, List.length_append, Nat.add_sub_cancel, List.take_left, Text.ofUnits_flatMap_units,
    String.toList_append, String.toList_ofList]

/-- The output path for a path with a last name: it is cut at the same place, and the name has
    another extension. -/
theorem Cut.outputPath_eq {input : String} {dir name : List Char} (h : Cut input.toList dir name)
    (hname : name ≠ []) :
    ∃ stem, name = stem ++ extension input.toList ∧
      Cut (outputPath input).toList dir (stem ++ outputExtension.toList) := by
  obtain ⟨stem, hstem, -⟩ := exists_stem input.toList
  rw [h.lastName_eq hname] at hstem
  have hout : (outputPath input).toList = dir ++ stem ++ outputExtension.toList :=
    outputPath_toList (by rw [List.append_assoc, ← hstem]; exact h.eq)
  have hno : '/' ∉ stem ++ outputExtension.toList := by
    have hslash := h.noSlash
    rw [hstem] at hslash
    intro hmem
    rcases List.mem_append.mp hmem with hs | ho
    · exact hslash (List.mem_append_left _ hs)
    · exact absurd ho (by decide)
  rw [hout, List.append_assoc]
  exact ⟨stem, hstem, h.withName hno⟩

theorem EndsInOutput.extension_eq {path : String} (h : EndsInOutput path) :
    extension path.toList = outputExtension.toList ∧
      ∃ front, path.toList = front ++ outputExtension.toList := by
  obtain ⟨front, c, hpath, hc⟩ := h
  obtain ⟨dir, stem, hcut⟩ := exists_cut (front ++ [c])
  have hstem : stem ≠ [] := by
    rintro rfl
    rcases hcut with ⟨heq, -, rfl | ⟨up, rfl⟩⟩
    · simp at heq
    · have hlast : front = up ∧ c = '/' := by simpa using heq
      exact hc hlast.2
  have hall : Cut path.toList dir (stem ++ outputExtension.toList) := by
    have happend := hcut.append (show '/' ∉ outputExtension.toList by decide)
    rwa [List.append_assoc, List.singleton_append, ← hpath] at happend
  have hlast : lastName path.toList = stem ++ '.' :: ['x', 'c', 's', 'g'] :=
    hall.lastName_eq (by simp [hstem])
  refine ⟨?_, dir ++ stem, by rw [hall.eq, List.append_assoc]⟩
  rw [extension_of_dot hlast (by decide), if_neg]
  · rfl
  · rintro (hempty | hdots)
    · exact hstem hempty
    · rw [hlast] at hdots
      simpa using congrArg List.length hdots

theorem Cut.endsInOutput {path : String} {dir name : List Char} (h : Cut path.toList dir name)
    (hname : name ≠ []) (hext : extension path.toList = outputExtension.toList) :
    EndsInOutput path := by
  obtain ⟨stem, hstem, hne⟩ := exists_stem path.toList
  rw [h.lastName_eq hname, hext] at hstem
  obtain ⟨s, c, rfl⟩ := (List.eq_nil_or_concat stem).resolve_left (hne (by rw [hext]; decide))
  refine ⟨dir ++ s, c, ?_, ?_⟩
  · rw [h.eq, hstem]
    simp
  · rintro rfl
    exact h.noSlash (by simp [hstem])

/-- **The output path is the path itself exactly where that ends in the extension of outputs.** -/
theorem outputPath_eq_self_iff {input : String} : outputPath input = input ↔ EndsInOutput input := by
  constructor
  · intro hself
    obtain ⟨dir, name, hcut⟩ := exists_cut input.toList
    by_cases hname : name = []
    · -- the path is empty or ends in a slash, the output path does not
      have hlast : input.toList.getLast? = some 'g' := by
        rw [← hself, outputPath, String.toList_append, List.getLast?_append]
        rfl
      rcases hcut with ⟨heq, -, rfl | ⟨up, rfl⟩⟩
      · simp [heq, hname] at hlast
      · simp [heq, hname] at hlast
    · obtain ⟨stem, hstem, hout⟩ := hcut.outputPath_eq hname
      refine hcut.endsInOutput hname ?_
      have heq := hout.eq
      rw [hself, hcut.eq, hstem] at heq
      simpa using heq
  · intro h
    obtain ⟨hext, front, hfront⟩ := h.extension_eq
    apply String.toList_inj.mp
    rw [hfront]
    exact outputPath_toList (by rw [hext]; exact hfront)

end SolidExport.Path
