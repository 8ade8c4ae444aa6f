/-
  Named values in order.

  Parameters, attributes and the members of an object are all lists of names with values, in which
  each name stands once, in the place where it was first set.
-/

namespace SolidExport.Named

variable {α : Type}

/-- `set name value l` — the list `l` with `name` set to `value`.  A name that is there keeps its
place and takes the new value; any other comes last. -/
def set (name : String) (value : α) : List (String × α) → List (String × α)
  | [] => [(name, value)]
  | (n, v) :: rest => if n = name then (n, value) :: rest else (n, v) :: set name value rest

/-- A name that was just set has the value it was set to, whether it was there before or not. -/
theorem lookup_set_self (name : String) (value : α) (l : List (String × α)) :
    (set name value l).lookup name = some value := by
  induction l with
  | nil => simp [set]
  | cons p rest ih =>
    obtain ⟨n, v⟩ := p
    by_cases h : n = name
    · simp [set, h]
    · have h' : (name == n) = false := by simp [Ne.symm h]
      simp [set, h, List.lookup_cons, h', ih]

/-- Setting `name` leaves the value of every other name as it is. -/
theorem lookup_set_of_ne {name other : String} (h : other ≠ name) (value : α)
    (l : List (String × α)) : (set name value l).lookup other = l.lookup other := by
  induction l with
  | nil =>
    have h' : (other == name) = false := by simp [h]
    simp [set, List.lookup_cons, h']
  | cons p rest ih =>
    obtain ⟨n, v⟩ := p
    by_cases hn : n = name
    · subst hn
      have h' : (other == n) = false := by simp [h]
      simp [set, List.lookup_cons, h']
    · simp [set, hn, List.lookup_cons, ih]

end SolidExport.Named
