/-
  Points of a shape, and indexes that name them.

  A point is a vector that begins with finite numbers, one for each axis (`Literal.BeginsWith`).  An
  index is a number without its fraction that is one of the natural numbers below a count
  (`Double.IsIndex`); the range checks of the encoders accept just these (`isIndex_iff`,
  `exists_isIndex_iff`).  They compare doubles, and a count past `2 ^ 53` is itself rounded when it
  is compared; that rounding keeps the order, so no index past the end is accepted for any count.
-/
import SolidExport.Proofs.Double.Arithmetic
import SolidExport.Proofs.Draft
import SolidExport.Proofs.Shape.Reading
import SolidExport.Shape.Primitive

namespace SolidExport

/-! ## Indexes -/

namespace Double

/-- `IsIndex count x k` — the double `x` is the natural number `k`, which is below `count`.  The
    count is compared as a double, which is exact up to `2 ^ 53`. -/
def IsIndex (count : ℕ) (x : Float) (k : ℕ) : Prop :=
  toNat? x = some k ∧ k < count ∧ (count ≤ 2 ^ 53 ∨ x < Float.ofNat count)

variable {count k : ℕ} {x : Float}

/-- A natural number `k` is below a count as doubles exactly if it is below it, and the count is
    exact or the doubles say so too. -/
theorem HasValue.lt_ofNat_iff (hx : HasValue x k) :
    x < Float.ofNat count ↔ k < count ∧ (count ≤ 2 ^ 53 ∨ x < Float.ofNat count) := by
  constructor
  · intro hlt
    refine ⟨?_, Or.inr hlt⟩
    by_contra hge
    have hle : (count : ℚ) ≤ k := by exact_mod_cast not_lt.mp hge
    have hrounded := (rounds_ofNat count).le hx.rounds (Nat.cast_nonneg count) hle
    exact (lt_iff_not_le hx.isNaN (isNaN_ofNat count)).mp hlt hrounded
  · rintro ⟨hlt, hcount | hrounded⟩
    · rw [hx.lt_iff (hasValue_ofNat hcount)]
      exact_mod_cast hlt
    · exact hrounded

/-- **What a range check accepts.**  A natural number that is neither below zero nor at the count or
    above is an index. -/
theorem isIndex_iff :
    IsIndex count x k ↔ toNat? x = some k ∧ ¬ (x < 0.0 ∨ Float.ofNat count ≤ x) := by
  unfold IsIndex
  refine and_congr_right fun hnat => ?_
  have hx := toNat?_eq_some_iff.mp hnat
  have hnonneg : ¬ x < 0.0 := by
    rw [hx.lt_iff hasValue_zero]
    exact not_lt.mpr (Nat.cast_nonneg k)
  rw [← hx.lt_ofNat_iff, or_iff_right hnonneg, lt_iff_not_le hx.isNaN (isNaN_ofNat count)]

/-- A range check of a number without its fraction accepts indexes only, if the number is no NaN. -/
theorem exists_isIndex_iff {y : Float} (hy : y.isNaN = false) :
    (∃ k, IsIndex count (trunc y) k) ↔ ¬ (trunc y < 0.0 ∨ Float.ofNat count ≤ trunc y) := by
  constructor
  · rintro ⟨k, hk⟩
    exact (isIndex_iff.mp hk).2
  · intro hrange
    obtain ⟨hlo, hhi, hwhole⟩ := trunc_in_range hy (isNaN_ofNat count) hrange
    rcases value_or_infinite hlo with ⟨v, hv⟩ | hinf
    · obtain ⟨k, hk⟩ := hv.exists_toNat? hwhole
      exact ⟨k, isIndex_iff.mpr ⟨hk, hrange⟩⟩
    · have hfinite := isFinite_of_between hlo hhi
      rw [hinf.isFinite] at hfinite
      exact nomatch hfinite

end Double

/-! ## Literals -/

namespace Literal

/-- `v.TruncatesTo x` — the literal `v` is a number, and `x` is that number without its fraction. -/
def TruncatesTo (v : Literal) (x : Float) : Prop := ∃ y, v.toNumber = .ok y ∧ Double.trunc y = x

/-- `v.BeginsWith xs` — the literal `v` is a vector that begins with the finite numbers `xs`.  What
    follows them is not looked at. -/
def BeginsWith (v : Literal) (xs : List Float) : Prop :=
  ∃ line front rest, v = .vector line (front ++ rest) ∧
    List.Forall₂ (fun c x => c.toNumber = .ok x ∧ x.isFinite = true) front xs

variable {v : Literal} {x : Float}

theorem toInteger_ok : v.toInteger = .ok x ↔ v.TruncatesTo x := Outcome.map_ok

theorem get_ok {item : Literal} :
    v.get x = .ok item ↔ ∃ k, Double.toNat? x = some k ∧ v.items[k]? = some item := by
  unfold get
  rw [← Option.bind_eq_some_iff]
  cases (Double.toNat? x).bind (v.items[·]?) with
  | none => exact iff_of_false nofun nofun
  | some item' => rw [Except.ok.injEq, Option.some_inj]

theorem BeginsWith.isFinite {xs : List Float} (h : v.BeginsWith xs) :
    ∀ x ∈ xs, x.isFinite = true := by
  obtain ⟨line, front, rest, -, hall⟩ := h
  intro x hx
  obtain ⟨coordinate, -, hcoordinate⟩ := Outcome.exists_of_forall₂ hall hx
  exact hcoordinate.2

end Literal

/-! ## Vertices -/

/-- `vertexElement axes xs` — the element that is written for a point, with the coordinates `xs` by
    axis. -/
def vertexElement (axes : List String) (xs : List Float) : Element :=
  ⟨"vertex", axes.zip (xs.map Attribute.number), []⟩

namespace Shape

variable {n : Node} {e e' : Element} {u : Unit}

/-- A coordinate is read and written exactly if it is a finite number, and what follows is done
    behind it. -/
theorem coordinate_ok {axis name : String} {v : Literal} {more : Unit → Draft Unit} :
    (Draft.read (n.finite name v) >>= fun x => Draft.number axis x >>= more) e = .ok u e' ↔
      ∃ x, (v.toNumber = .ok x ∧ x.isFinite = true) ∧
        more () (e.set axis (.number x)) = .ok u e' := by
  rw [Draft.read_bind_ok]
  simp only [Node.finite_ok_iff, Draft.number_bind_ok]

end Shape

end SolidExport
