/-
  The text of a number is read back.

  A decimal that is laid out is a number of the grammar: digits, perhaps a point, perhaps an exponent.
  Wherever the point stands, it names the same value (`Layout.exists_numeral`).
-/
import SolidExport.Proofs.Decimal.Shortest
import SolidExport.Proofs.Double.Sign
import SolidExport.Proofs.Source.Signature

namespace SolidExport

open Source (Exponent Numeral Sign)

/-! ## Digits -/

/-- A digit has the value that the standard library gives it, so that its lemmas about digits can be
    used. -/
theorem digitValue?_of_isDigit {c : Char} (h : isDigit c = true) :
    digitValue? 10 c = some (c.toNat - '0'.toNat) := by
  have hc := Source.isDigit_iff.mp h
  have hlt : c.toNat - 48 < 10 := by omega
  unfold digitValue?
  dsimp only
  rw [if_pos hc, Option.filter_some, if_pos (decide_eq_true hlt)]
  rfl

/-- A text of digits has the value that the standard library gives it. -/
theorem digitsValue_eq {cs : List Char} (h : cs.all isDigit = true) :
    digitsValue 10 cs = Nat.ofDigitChars 10 cs 0 := by
  suffices hfold : ∀ start, cs.foldl (fun n c => 10 * n + (digitValue? 10 c).getD 0) start
      = Nat.ofDigitChars 10 cs start from hfold 0
  induction cs with
  | nil => exact fun start => rfl
  | cons c cs ih =>
    rw [List.all_cons, Bool.and_eq_true] at h
    intro start
    rw [List.foldl_cons, Nat.ofDigitChars_cons, digitValue?_of_isDigit h.1]
    exact ih h.2 _

theorem all_zeros (k : ℕ) : (List.replicate k '0').all isDigit = true :=
  List.all_eq_true.mpr fun _ hc => (List.mem_replicate.mp hc).2 ▸ rfl

section

variable {cs : List Char} (h : cs.all isDigit = true) (k : ℕ)

include h

/-- Putting `k` zeros behind digits multiplies their value by a power of ten. -/
theorem digitsValue_append_zeros :
    digitsValue 10 (cs ++ List.replicate k '0') = digitsValue 10 cs * 10 ^ k := by
  have hall : (cs ++ List.replicate k '0').all isDigit = true := by
    rw [List.all_append, h, all_zeros, Bool.and_self]
  rw [digitsValue_eq hall, digitsValue_eq h, Nat.ofDigitChars_append,
    Nat.ofDigitChars_replicate_zero, Nat.mul_comm]

/-- Zeros before digits say nothing, as behind the point of `0.001`. -/
theorem digitsValue_zeros_append :
    digitsValue 10 (List.replicate k '0' ++ cs) = digitsValue 10 cs := by
  have hall : (List.replicate k '0' ++ cs).all isDigit = true := by
    rw [List.all_append, h, all_zeros, Bool.and_self]
  rw [digitsValue_eq hall, digitsValue_eq h, Nat.ofDigitChars_append,
    Nat.ofDigitChars_replicate_zero, Nat.mul_zero]

end

namespace Decimal

theorem all_digitsOf (n : ℕ) : (digitsOf n).all isDigit = true := by
  rw [List.all_eq_true]
  intro c hc
  have hdigit := Nat.isDigit_of_mem_toDigits (by decide) (by decide) hc
  rw [Char.isDigit, Bool.and_eq_true, decide_eq_true_eq, decide_eq_true_eq] at hdigit
  exact Source.isDigit_iff.mpr hdigit

theorem digitsOf_ne_nil (n : ℕ) : digitsOf n ≠ [] := Nat.toDigits_ne_nil

@[simp] theorem digitsValue_digitsOf (n : ℕ) : digitsValue 10 (digitsOf n) = n := by
  rw [digitsValue_eq (all_digitsOf n)]
  exact Nat.ofDigitChars_ten_toDigits

end Decimal

/-! ## Decimals laid out -/

namespace Layout

variable {l : Layout} {d : Decimal}

/-- `exponent e` — the exponent part of a numeral, as it is written for a power `e` of ten: always
    with a sign, and with the letter in lower case. -/
def exponent (e : ℤ) : Exponent where
  capital := false
  sign := if e < 0 then .minus else .plus
  digits := Decimal.digitsOf e.natAbs
  all_digits := Decimal.all_digitsOf _
  nonempty := Decimal.digitsOf_ne_nil _

theorem chars_exponent (e : ℤ) : (exponent e).chars = exponentText e := by
  unfold exponent exponentText Exponent.chars
  by_cases he : e < 0
  · rw [if_pos he, if_pos he]
    rfl
  · rw [if_neg he, if_neg he]
    rfl

theorem value_exponent (e : ℤ) : (exponent e).value = e := by
  unfold exponent Exponent.value
  dsimp only
  rw [Decimal.digitsValue_digitsOf]
  have hminus : Sign.minus.isMinus = true := rfl
  have hplus : Sign.plus.isMinus = false := rfl
  by_cases he : e < 0
  · rw [if_pos he, hminus, if_pos rfl]
    omega
  · rw [if_neg he, hplus, if_neg Bool.false_ne_true]
    omega

/-- Digits with perhaps a point among them and perhaps an exponent are a numeral of the grammar.
    Its magnitude is the decimal `d` if their values come to the coefficient and the exponent of
    `d`. -/
theorem exists_of_parts (s : Sign) (whole : List Char) (fraction : Option (List Char)) (e : Option ℤ)
    (hdigits : (whole ++ fraction.getD []).all isDigit = true) (hne : whole ≠ [])
    (hcoefficient : digitsValue 10 (whole ++ fraction.getD []) = d.coefficient)
    (hexponent : e.getD 0 - (fraction.getD []).length = d.exponent) :
    ∃ n : Numeral, n.sign = s ∧
      n.unsignedChars = whole ++ (fraction.elim [] ('.' :: ·) ++ e.elim [] exponentText) ∧
      n.magnitude = d := by
  rw [List.all_append, Bool.and_eq_true] at hdigits
  have hchars : (e.map exponent).elim [] Exponent.chars = e.elim [] exponentText := by
    cases e with
    | none => rfl
    | some e => exact chars_exponent e
  have hvalue : (e.map exponent).elim 0 Exponent.value = e.getD 0 := by
    cases e with
    | none => rfl
    | some e => exact value_exponent e
  refine ⟨⟨s, whole, fraction, e.map exponent, hdigits.1, hdigits.2, Or.inl hne⟩, rfl, ?_, ?_⟩
  · unfold Numeral.unsignedChars
    rw [hchars]
  · unfold Numeral.magnitude
    rw [hvalue, hcoefficient, hexponent]

/-- **A decimal is laid out as a numeral of the grammar with its value**, whichever of the four
    forms the layout `l` gives it. -/
theorem exists_numeral (s : Sign) (l : Layout) (d : Decimal) :
    ∃ n : Numeral, n.sign = s ∧ n.unsignedChars = l.render d ∧ n.magnitude.value = d.value := by
  have hdigits := Decimal.all_digitsOf d.coefficient
  have hvalue := Decimal.digitsValue_digitsOf d.coefficient
  have hne := Decimal.digitsOf_ne_nil d.coefficient
  unfold render
  generalize Decimal.digitsOf d.coefficient = digits at hdigits hvalue hne
  dsimp only
  split_ifs with hwhole hpoint hzeros
  · -- zeros behind the digits, and no point
    obtain ⟨k, hk⟩ := Int.eq_ofNat_of_zero_le (show 0 ≤ d.exponent by omega)
    have hcount : ((digits.length : ℤ) + d.exponent - digits.length).toNat = k := by omega
    have hall : (digits ++ List.replicate k '0' ++ []).all isDigit = true := by
      rw [List.append_nil, List.all_append, hdigits, all_zeros, Bool.and_self]
    have hpadded : digitsValue 10 (digits ++ List.replicate k '0' ++ []) = d.coefficient * 10 ^ k := by
      rw [List.append_nil, digitsValue_append_zeros hdigits, hvalue]
    obtain ⟨n, hsign, hchars, hmagnitude⟩ := exists_of_parts (d := ⟨d.coefficient * 10 ^ k, 0⟩) s
      (digits ++ List.replicate k '0') none none hall (List.append_ne_nil_of_left_ne_nil hne _) hpadded rfl
    refine ⟨n, hsign, ?_, ?_⟩
    · rw [hcount]
      simpa using hchars
    · rw [hmagnitude]
      unfold Decimal.value
      rw [hk, zpow_zero, mul_one, zpow_natCast, Nat.cast_mul, Nat.cast_pow, Nat.cast_ofNat]
  · -- the point between two digits
    obtain ⟨k, hk⟩ := Int.eq_ofNat_of_zero_le hpoint.1.le
    have hsplit : digits.take k ++ digits.drop k = digits := List.take_append_drop k digits
    have hfront : digits.take k ≠ [] := by
      intro hnil
      rcases List.take_eq_nil_iff.mp hnil with hzero | hnil
      · omega
      · exact hne hnil
    have hexponent : (0 : ℤ) - (digits.drop k).length = d.exponent := by
      rw [List.length_drop]
      omega
    obtain ⟨n, hsign, hchars, rfl⟩ := exists_of_parts s _ (some (digits.drop k)) none
      (hsplit.symm ▸ hdigits) hfront (hsplit.symm ▸ hvalue) hexponent
    exact ⟨n, hsign, by simpa [hk] using hchars, rfl⟩
  · -- the point before the digits, with zeros between
    generalize hk : (-((digits.length : ℤ) + d.exponent)).toNat = k
    have hall : (List.replicate (k + 1) '0' ++ digits).all isDigit = true := by
      rw [List.all_append, hdigits, all_zeros, Bool.and_self]
    have hpadded : digitsValue 10 (List.replicate (k + 1) '0' ++ digits) = d.coefficient := by
      rw [digitsValue_zeros_append hdigits, hvalue]
    have hexponent : (0 : ℤ) - (List.replicate k '0' ++ digits).length = d.exponent := by
      rw [List.length_append, List.length_replicate]
      omega
    obtain ⟨n, hsign, hchars, rfl⟩ := exists_of_parts s ['0']
      (some (List.replicate k '0' ++ digits)) none hall (List.cons_ne_nil _ _) hpadded hexponent
    exact ⟨n, hsign, by simpa using hchars, rfl⟩
  · -- one digit before the point, and an exponent
    cases digits with
    | nil => exact absurd rfl hne
    | cons c rest =>
      rw [List.length_cons]
      generalize hpower : ((rest.length + 1 : ℕ) : ℤ) + d.exponent - 1 = power
      cases rest with
      | nil =>
        have hexponent : power - ([] : List Char).length = d.exponent := by
          rw [List.length_nil] at hpower ⊢
          omega
        obtain ⟨n, hsign, hchars, rfl⟩ := exists_of_parts s [c] none (some power) hdigits hne hvalue
          hexponent
        exact ⟨n, hsign, by simpa using hchars, rfl⟩
      | cons c' rest =>
        have hexponent : power - (c' :: rest).length = d.exponent := by omega
        obtain ⟨n, hsign, hchars, rfl⟩ := exists_of_parts s [c] (some (c' :: rest))
          (some power) hdigits (List.cons_ne_nil _ _) hvalue hexponent
        exact ⟨n, hsign, by simpa using hchars, rfl⟩

end Layout

/-! ## Reading -/

/-- A numeral of the grammar is a number that a user may type: none of the other forms gets in its
    way. -/
theorem readNumber?_chars (n : Numeral) :
    readNumber? (String.ofList n.chars) = some n.toFloat := by
  unfold readNumber?
  rw [String.toList_ofList, Source.trim_word n.isWord_chars]
  have hread := n.readFloat?_chars
  have hne : ∀ ds, Decimal.readFloat? ds = none → n.chars ≠ ds := fun ds => n.chars_ne
  generalize n.chars = cs at hread hne ⊢
  split
  · exact absurd rfl (hne _ rfl)
  · exact absurd rfl (hne _ rfl)
  · exact absurd rfl (hne _ rfl)
  · exact absurd rfl (hne _ rfl)
  · exact absurd rfl (hne _ rfl)
  · exact absurd rfl (hne _ rfl)
  · exact absurd rfl (hne _ rfl)
  · have hother : (Decimal.readSign cs).2 ≠ "Infinity".toList := by
      intro hinfinity
      have hnone : Decimal.readFloat? cs = none := by
        show ((Decimal.readUnsigned? (Decimal.readSign cs).2).map _).map _ = none
        rw [hinfinity]
        rfl
      rw [hnone] at hread
      exact nomatch hread
    dsimp only
    rw [if_neg hother, hread]

open Double (HasValue IsZero Rounds)

/-- **The text of a number is read back as that number**, for every finite one but zero, whose sign
    is not written. -/
theorem readNumber?_numberText {x : Float} {b : Binary} (hb : Binary.ofFloat? x = some b)
    (hm : 0 < b.significand) : readNumber? (numberText x) = some x := by
  obtain ⟨n, hsign, hchars, hvalue⟩ :=
    Layout.exists_numeral (if b.negative then .minus else .unsigned) Layout.standard b.shortest
  have hunpack := Double.unpack_of_ofFloat? hb hm
  obtain ⟨hfits, hmost⟩ := Double.fits_of_unpack hunpack
  have hmagnitude : HasValue n.magnitude.toFloat (b.significand * 2 ^ b.exponent) := by
    have hrounds := Double.rounds_toFloat n.magnitude
    unfold Rounds at hrounds
    rw [hvalue, Binary.rounded_shortest hfits hm] at hrounds
    rcases hrounds with ⟨hfinite, -⟩ | ⟨-, hpast⟩
    · exact hfinite
    · exact absurd (hfits.lt_range_iff.mpr hmost) hpast.not_gt
  have htext : numberText x = String.ofList n.chars := by
    unfold numberText Numeral.chars
    rw [hb, hsign, hchars]
    dsimp only
    rw [if_neg hm.ne']
    cases b.negative <;> rfl
  have hfloat : n.toFloat = x := by
    rw [← hmagnitude.signed_eq hb hm]
    unfold Numeral.toFloat
    rw [hsign]
    cases b.negative <;> rfl
  rw [htext, readNumber?_chars, hfloat]

/-- Zero is written without a sign, whichever it has. -/
theorem numberText_zero {x : Float} (h : IsZero x) : numberText x = "0" := by
  obtain ⟨negative, e, hb⟩ := Double.ofFloat?_of_zero h
  unfold numberText
  rw [hb]
  rfl

/-- The text of a finite number is read as a finite number, zeros included. -/
theorem exists_readNumber?_numberText {x : Float} (h : x.isFinite = true) :
    ∃ y, readNumber? (numberText x) = some y ∧ y.isFinite = true := by
  rcases Double.unpack_of_isFinite h with ⟨s, hs⟩ | ⟨s, m, e, hm, hs⟩
  · rw [numberText_zero ⟨s, hs⟩]
    exact ⟨0.0, rfl, rfl⟩
  · exact ⟨x, readNumber?_numberText (Double.ofFloat?_of_unpack hs) hm, h⟩

/-- The text of an infinity is its name, with a minus in front of the negative one. -/
theorem numberText_infinity {x : Float} {s : Float.Model.UnpackedFloat.Sign}
    (h : x.toModel.unpack = .infinity s) :
    numberText x = if s == .negative then "-Infinity" else "Infinity" := by
  have hnone : Binary.ofFloat? x = none :=
    Double.ofFloat?_of_not_finite (by rw [Double.isFinite_eq, h]; rfl)
  have hnumber : x.isNaN = false := by
    rw [Double.isNaN_eq, h]
    rfl
  have hzero : (0.0 : Float).toModel.unpack = .zero .positive := rfl
  unfold numberText
  rw [hnone]
  dsimp only
  rw [hnumber, if_neg Bool.false_ne_true]
  cases s with
  | positive =>
    have hsign : ¬ x < 0.0 := by
      rw [Double.lt_iff, h, hzero]
      exact nofun
    rw [if_neg hsign]
    rfl
  | negative =>
    have hsign : x < 0.0 := by
      rw [Double.lt_iff, h, hzero]
      rfl
    rw [if_pos hsign]
    rfl

end SolidExport
