import CanonicalLR.Text.Numeral
import Mathlib.Data.List.Induction

namespace CanonicalLR.Text

/-! Numbers in decimal digits.  Every number has one shortest form; any other form of it
differs from that one by zeros in front. -/

/-- Digits that write a number, the most significant one first. -/
structure Decimal (digits : List Char) (value : Nat) : Prop where
  digits_ne : digits ≠ []
  isDigit : ∀ c ∈ digits, c.isDigit = true
  value_eq : Nat.ofDigitChars 10 digits 0 = value

/-- A 64-bit number in decimal digits, with or without a plus sign in front. -/
inductive Numeral : List Char → Nat → Prop
  | plain {digits : List Char} {value : Nat} (hdigits : Decimal digits value)
      (hlimit : value < UInt64.size) : Numeral digits value
  | plus {digits : List Char} {value : Nat} (hdigits : Decimal digits value)
      (hlimit : value < UInt64.size) : Numeral ('+' :: digits) value

theorem decimal_toDigits (n : Nat) : Decimal (Nat.toDigits 10 n) n where
  digits_ne := Nat.toDigits_ne_nil
  isDigit _ hc := Nat.isDigit_of_mem_toDigits (by decide) (by decide) hc
  value_eq := Nat.ofDigitChars_ten_toDigits

@[simp] theorem toList_toString (n : Nat) : (toString n).toList = Nat.toDigits 10 n := by
  simp

theorem isDigit_plus : '+'.isDigit = false := rfl

namespace Decimal

variable {digits : List Char} {value : Nat}

theorem not_mem (h : Decimal digits value) {c : Char} (hc : c.isDigit = false) :
    c ∉ digits := by
  intro hmem
  rw [h.isDigit c hmem] at hc
  cases hc

end Decimal

/-! Reading back a digit at a time, from the end. -/

theorem digitChar_of_isDigit {c : Char} (h : c.isDigit = true) :
    c.toNat - '0'.toNat < 10 ∧ Nat.digitChar (c.toNat - '0'.toNat) = c := by
  obtain ⟨hlow, hhigh⟩ := Char.isDigit_iff_toNat.mp h
  have hzero : '0'.toNat = 48 := rfl
  have hnine : '9'.toNat = 57 := rfl
  have hlt : c.toNat - '0'.toNat < 10 := by omega
  refine ⟨hlt, Char.toNat_inj.mp ?_⟩
  rw [Nat.toNat_digitChar_of_lt_ten hlt]
  omega

theorem ofDigitChars_concat (digits : List Char) (c : Char) :
    Nat.ofDigitChars 10 (digits ++ [c]) 0 =
      10 * Nat.ofDigitChars 10 digits 0 + (c.toNat - '0'.toNat) := by
  rw [Nat.ofDigitChars_append, Nat.ofDigitChars_cons, Nat.ofDigitChars_nil]

/-- The shortest form of a number begins with a zero only if the number is zero. -/
theorem eq_nil_of_toDigits {n : Nat} {rest : List Char} (h : Nat.toDigits 10 n = '0' :: rest) :
    rest = [] := by
  induction n using Nat.strongRecOn generalizing rest with
  | ind n ih =>
      by_cases hlt : n < 10
      · rw [Nat.toDigits_of_lt_base hlt] at h
        exact (List.cons.inj h).2.symm
      · rw [Nat.toDigits_of_base_le (by decide) (by omega)] at h
        obtain ⟨c, front, hfront⟩ := List.exists_cons_of_ne_nil
          (Nat.toDigits_ne_nil (n := n / 10) (b := 10))
        rw [hfront, List.cons_append] at h
        obtain ⟨rfl, _⟩ := List.cons.inj h
        have hnil := ih (n / 10) (by omega) hfront
        have hvalue := Nat.ofDigitChars_ten_toDigits (n := n / 10)
        rw [hfront, hnil] at hvalue
        have hzero : n / 10 = 0 := hvalue.symm
        omega

/-- The induction is on the digits from the end, where the least significant one stands. -/
theorem toDigits_ofDigitChars {digits : List Char} (hne : digits ≠ [])
    (hdigits : ∀ c ∈ digits, c.isDigit = true)
    (hzero : ∀ rest, digits = '0' :: rest → rest = []) :
    Nat.toDigits 10 (Nat.ofDigitChars 10 digits 0) = digits := by
  induction digits using List.reverseRecOn with
  | nil => exact absurd rfl hne
  | append_singleton front c ih =>
      obtain ⟨hlt, hchar⟩ := digitChar_of_isDigit (hdigits c (by simp))
      rw [ofDigitChars_concat]
      by_cases hnil : front = []
      · subst hnil
        rw [Nat.ofDigitChars_nil, Nat.mul_zero, Nat.zero_add, Nat.toDigits_of_lt_base hlt, hchar]
        rfl
      · have hrest : ∀ rest, front ≠ '0' :: rest := by
          rintro rest rfl
          simpa using hzero (rest ++ [c]) rfl
        have hfront := ih hnil (fun d hd => hdigits d (by simp [hd]))
          fun rest heq => absurd heq (hrest rest)
        have hpos : 0 < Nat.ofDigitChars 10 front 0 := by
          refine Nat.pos_of_ne_zero fun hvalue => hrest [] ?_
          rw [← hfront, hvalue]
          rfl
        rw [← Nat.toDigits_append_toDigits (by decide) hpos hlt, hfront,
          Nat.toDigits_of_lt_base hlt, hchar]

theorem Decimal.toDigits_eq_iff {digits : List Char} {value : Nat} (h : Decimal digits value) :
    Nat.toDigits 10 value = digits ↔ ∀ rest, digits = '0' :: rest → rest = [] := by
  constructor
  · intro heq rest hrest
    exact eq_nil_of_toDigits (heq.trans hrest)
  · intro hzero
    rw [← h.value_eq]
    exact toDigits_ofDigitChars h.digits_ne h.isDigit hzero

theorem le_numeralLimit_iff {value : Nat} : value ≤ numeralLimit ↔ value < UInt64.size :=
  Nat.lt_succ_iff.symm

theorem unsigned_eq_self {text : List Char} (h : ∀ rest, text ≠ '+' :: rest) :
    unsigned text = text := by
  unfold unsigned
  split
  · exact absurd rfl (h _)
  · rfl

theorem decimal_of_numeral? {text : List Char} {value : Nat} (h : numeral? text = some value) :
    Decimal (unsigned text) value ∧ value < UInt64.size := by
  unfold numeral? at h
  dsimp only at h
  split at h
  next hdigits =>
    cases h
    obtain ⟨hne, hall, hle⟩ := hdigits
    exact ⟨⟨hne, List.all_eq_true.mp hall, rfl⟩, le_numeralLimit_iff.mp hle⟩
  · cases h

theorem numeral?_of_decimal {text : List Char} {value : Nat} (h : Decimal (unsigned text) value)
    (hlimit : value < UInt64.size) : numeral? text = some value := by
  have hvalue : digitsValue (unsigned text) = value := h.value_eq
  rw [numeral?, hvalue]
  exact if_pos ⟨h.digits_ne, List.all_eq_true.mpr h.isDigit, le_numeralLimit_iff.mpr hlimit⟩

theorem numeral?_eq_some_iff {text : List Char} {value : Nat} :
    numeral? text = some value ↔ Numeral text value := by
  constructor
  · intro h
    obtain ⟨hdigits, hlimit⟩ := decimal_of_numeral? h
    by_cases hplus : ∃ rest, text = '+' :: rest
    · obtain ⟨rest, rfl⟩ := hplus
      exact .plus hdigits hlimit
    · rw [unsigned_eq_self (not_exists.mp hplus)] at hdigits
      exact .plain hdigits hlimit
  · intro h
    cases h with
    | plus hdigits hlimit => exact numeral?_of_decimal hdigits hlimit
    | plain hdigits hlimit =>
        refine numeral?_of_decimal ?_ hlimit
        rw [unsigned_eq_self]
        · exact hdigits
        · rintro rest rfl
          exact hdigits.not_mem isDigit_plus List.mem_cons_self

/-- A numeral is the shortest form of its number unless it has a plus sign or a zero in front
that could be left out. -/
theorem Numeral.toDigits_eq_iff {text : List Char} {value : Nat} (h : Numeral text value) :
    Nat.toDigits 10 value = text ↔ '+' ∉ text ∧ ∀ rest, text = '0' :: rest → rest = [] := by
  cases h with
  | plain hdigits _ => rw [hdigits.toDigits_eq_iff, and_iff_right (hdigits.not_mem isDigit_plus)]
  | plus hdigits _ =>
      refine iff_of_false (fun heq => ?_) fun hplus => hplus.1 List.mem_cons_self
      exact (decimal_toDigits value).not_mem isDigit_plus (heq ▸ List.mem_cons_self)

end CanonicalLR.Text
