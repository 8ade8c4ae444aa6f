/-
  What the readings of a shape give when they succeed.

  Every number that is read is finite, a radius also when it is half of a diameter.  A positive or
  non-negative number is what it was checked to be.
-/
import SolidExport.Proofs.Double.Finite
import SolidExport.Proofs.Outcome
import SolidExport.Shape.Reading

namespace SolidExport

open Outcome (bind_ok map_ok mapM_ok mem_of_mapM_ok)

theorem Literal.length_items {v : Literal} {k : Nat} (h : v.vectorSize? = some k) :
    v.items.length = k := by
  cases v with
  | vector line items =>
    injection h with h
  | _ => exact nomatch h

namespace Node

variable {n : Node} {name : String} {v : Literal} {x y : Float}

/-! ## Numbers -/

theorem finite_ok (h : n.finite name v = .ok x) : v.toNumber = .ok x ∧ x.isFinite = true := by
  unfold finite at h
  split at h
  · exact nomatch h
  · obtain ⟨y, hy, h⟩ := bind_ok.mp h
    split at h
    · rename_i hfinite
      injection h with h
      subst h
      exact ⟨hy, hfinite⟩
    · exact nomatch h

theorem finite_ok_iff : n.finite name v = .ok x ↔ v.toNumber = .ok x ∧ x.isFinite = true := by
  refine ⟨finite_ok, fun ⟨hv, hx⟩ => ?_⟩
  cases v with
  | number line value text =>
    injection hv with hv
    subst hv
    show (if value.isFinite then Except.ok value else _) = _
    rw [if_pos hx]
  | _ => exact nomatch hv

theorem require_ok : n.require name = .ok v ↔ n.param? name = some v := by
  unfold require
  cases n.param? name with
  | none => exact iff_of_false nofun nofun
  | some w => rw [Except.ok.injEq, Option.some_inj]

theorem number_ok (h : n.number name = .ok x) : x.isFinite = true := by
  obtain ⟨v, -, h⟩ := bind_ok.mp h
  exact (finite_ok h).2

theorem number?_ok (h : n.number? name = .ok (some x)) : x.isFinite = true := by
  unfold number? at h
  split at h
  · obtain ⟨y, hy, h⟩ := map_ok.mp h
    injection h with h
    subst h
    exact (finite_ok hy).2
  · exact nomatch h

theorem positive_ok (h : n.positive name x = .ok y) : y = x ∧ 0.0 < x := by
  unfold positive at h
  split at h
  · rename_i hpos
    injection h with h
    exact ⟨h.symm, hpos⟩
  · exact nomatch h

theorem nonNegative_ok (h : n.nonNegative name x = .ok y) : y = x ∧ 0.0 ≤ x := by
  unfold nonNegative at h
  split at h
  · rename_i hnn
    injection h with h
    exact ⟨h.symm, hnn⟩
  · exact nomatch h

/-! ## Radii -/

variable {radiusName diameterName : String}

/-- A radius that is read is finite, also as half of a diameter. -/
theorem radius?_ok (h : n.radius? radiusName diameterName = .ok (some x)) : x.isFinite = true := by
  obtain ⟨r, hr, h⟩ := bind_ok.mp h
  cases r with
  | some r =>
    injection h with h
    injection h with h
    subst h
    exact number?_ok hr
  | none =>
    obtain ⟨d, hd, h⟩ := bind_ok.mp h
    injection h with h
    cases d with
    | none => exact nomatch h
    | some d =>
      injection h with h
      subst h
      exact Double.isFinite_half (number?_ok hd)

theorem radius_ok (h : n.radius radiusName diameterName = .ok x) : x.isFinite = true ∧ 0.0 < x := by
  obtain ⟨r, hr, h⟩ := bind_ok.mp h
  cases r with
  | none => exact nomatch h
  | some r =>
    obtain ⟨rfl, hpos⟩ := positive_ok h
    exact ⟨radius?_ok hr, hpos⟩

/-! ## Extents -/

/-- The extents that are read are one finite number for each axis. -/
theorem extents_ok {axes : Nat} {l : List Float} (h : n.extents name axes = .ok l) :
    l.length = axes ∧ ∀ x ∈ l, x.isFinite = true := by
  obtain ⟨v, -, h⟩ := bind_ok.mp h
  have hall : ∀ item : Literal, (do return List.replicate axes (← n.finite name item)
      : Except Fault (List Float)) = .ok l → l.length = axes ∧ ∀ x ∈ l, x.isFinite = true := by
    intro item h
    obtain ⟨y, hy, h⟩ := bind_ok.mp h
    injection h with h
    subst h
    refine ⟨List.length_replicate, fun x hx => ?_⟩
    rw [(List.mem_replicate.mp hx).2]
    exact (finite_ok hy).2
  split at h
  · exact hall _ h
  · split at h
    · exact nomatch h
    · rename_i items _ hlength
      refine ⟨?_, fun x hx => ?_⟩
      · rw [← (mapM_ok h).length_eq, List.length_take]
        omega
      · obtain ⟨item, -, hitem⟩ := mem_of_mapM_ok h hx
        exact (finite_ok hitem).2
  · exact hall _ h

end Node

end SolidExport
