import CanonicalLR.Proofs.Text.Numeral
import CanonicalLR.Table.Action

namespace CanonicalLR.Action

/-! The texts of actions.  Every action with a 64-bit target is read from its own text, and
whatever else can be read differs from such a text in the form of its number only. -/

/-- A text that names an action: the letter of its kind and the numeral of its target. -/
inductive Spells : List Char → Action → Prop
  | shift {digits : List Char} {state : Nat} (h : Text.Numeral digits state) :
      Spells ('s' :: digits) (.shift state)
  | goto {digits : List Char} {state : Nat} (h : Text.Numeral digits state) :
      Spells ('g' :: digits) (.goto state)
  | reduce {digits : List Char} {rule : Nat} (h : Text.Numeral digits rule) :
      Spells ('r' :: digits) (.reduce rule)

@[simp] theorem toList_text (action : Action) :
    action.text.toList = action.letter :: Nat.toDigits 10 action.target := by
  simp [text]

theorem ofLetter?_letter (action : Action) :
    ofLetter? action.letter action.target = some action := by
  cases action <;> rfl

theorem eq_of_ofLetter? {letter : Char} {target : Nat} {action : Action}
    (h : ofLetter? letter target = some action) :
    letter = action.letter ∧ target = action.target := by
  unfold ofLetter? at h
  split at h <;> cases h <;> exact ⟨rfl, rfl⟩

theorem spells_iff {text : List Char} {action : Action} :
    Spells text action ↔
      ∃ digits, text = action.letter :: digits ∧ Text.Numeral digits action.target := by
  constructor
  · intro h
    cases h with
    | shift h => exact ⟨_, rfl, h⟩
    | goto h => exact ⟨_, rfl, h⟩
    | reduce h => exact ⟨_, rfl, h⟩
  · rintro ⟨digits, rfl, h⟩
    cases action with
    | shift state => exact .shift h
    | goto state => exact .goto h
    | reduce rule => exact .reduce h

theorem read?_eq_some_iff {text : List Char} {action : Action} :
    read? text = some action ↔ Spells text action := by
  rw [spells_iff]
  constructor
  · intro h
    cases text with
    | nil => cases h
    | cons letter digits =>
        obtain ⟨target, htarget, hletter⟩ := Option.bind_eq_some_iff.mp h
        obtain ⟨rfl, rfl⟩ := eq_of_ofLetter? hletter
        exact ⟨digits, rfl, Text.numeral?_eq_some_iff.mp htarget⟩
  · rintro ⟨digits, rfl, h⟩
    rw [read?, Text.numeral?_eq_some_iff.mpr h, Option.bind_some, ofLetter?_letter]

theorem read_eq_ok_iff {text : String} {action : Action} :
    read text = .ok action ↔ Spells text.toList action := by
  rw [← read?_eq_some_iff, read]
  cases read? text.toList <;> simp

theorem read_eq_error_iff {text : String} {error : InvalidAction} :
    read text = .error error ↔ error = ⟨text⟩ ∧ ∀ action, ¬ Spells text.toList action := by
  simp only [← read?_eq_some_iff, read]
  cases read? text.toList <;> simp [eq_comm]

theorem spells_text {action : Action} (h : action.target < UInt64.size) :
    Spells action.text.toList action :=
  spells_iff.mpr ⟨_, toList_text action, .plain (Text.decimal_toDigits _) h⟩

theorem read_text {action : Action} (h : action.target < UInt64.size) :
    read action.text = .ok action :=
  read_eq_ok_iff.mpr (spells_text h)

theorem Spells.text_eq_iff {text : String} {action : Action} (h : Spells text.toList action) :
    action.text = text ↔
      '+' ∉ text.toList ∧ ∀ letter rest, text.toList = letter :: '0' :: rest → rest = [] := by
  obtain ⟨digits, htext, hdigits⟩ := spells_iff.mp h
  have hplus : '+' ≠ action.letter := by
    cases action <;> simp [letter]
  have hzero : (∀ letter rest, text.toList = letter :: '0' :: rest → rest = []) ↔
      ∀ rest, digits = '0' :: rest → rest = [] := by
    rw [htext]
    constructor
    · intro hnone rest hrest
      exact hnone action.letter rest (by rw [hrest])
    · intro hnone letter rest hrest
      exact hnone rest (List.cons.inj hrest).2
  rw [← String.toList_inj, toList_text, hzero, htext, List.cons_inj_right,
    hdigits.toDigits_eq_iff]
  simp [hplus]

/-- Writing an action and reading it back gives the action.  Read are a letter and a 64-bit
numeral, with the meaning these have, and nothing else; what is refused is kept in the error. -/
theorem read_exact :
    (∀ action : Action, action.target < UInt64.size → read action.text = .ok action) ∧
    ∀ text : String,
      (∀ action, read text = .ok action ↔ Spells text.toList action) ∧
      (∀ action, read text = .ok action →
        (action.text = text ↔ '+' ∉ text.toList ∧
          ∀ letter rest, text.toList = letter :: '0' :: rest → rest = [])) ∧
      ∀ error, read text = .error error ↔
        error = ⟨text⟩ ∧ ∀ action, ¬ Spells text.toList action := by
  refine ⟨fun action => read_text, fun text => ⟨fun action => read_eq_ok_iff, ?_, ?_⟩⟩
  · intro action hread
    exact (read_eq_ok_iff.mp hread).text_eq_iff
  · intro error
    exact read_eq_error_iff

/-- The largest target there is, and an accepting reduction with a plus sign and zeros. -/
theorem read_exact_extreme :
    read "g18446744073709551615" = .ok (goto 18446744073709551615) ∧
      read "r+00" = .ok (reduce 0) ∧ (reduce 0).text ≠ "r+00" := by
  have hlargest : (goto 18446744073709551615).text = "g18446744073709551615" := by
    decide +kernel
  have hread : read "r+00" = .ok (reduce 0) := by
    decide +kernel
  refine ⟨hlargest ▸ read_exact.1 (goto 18446744073709551615) (by decide), hread, fun htext => ?_⟩
  exact absurd (((read_exact.2 "r+00").2.1 _ hread).mp htext).1 (by decide)

example : read "é1" = .error ⟨"é1"⟩ ∧ read "s18446744073709551616" =
    .error ⟨"s18446744073709551616"⟩ := by
  decide +kernel

end CanonicalLR.Action
