import CanonicalLR.Text.Blank

namespace CanonicalLR.Text

/-! Parts of a text between byte positions.  A text can only be cut between two of its
characters; a position inside a character, or behind the end, gives nothing. -/

def sliceFrom? : Nat → List Char → Option (List Char)
  | 0, text => some text
  | _ + 1, [] => none
  | start + 1, c :: text =>
      if c.utf8Size ≤ start + 1 then sliceFrom? (start + 1 - c.utf8Size) text else none

def sliceTo? : Nat → List Char → Option (List Char)
  | 0, _ => some []
  | _ + 1, [] => none
  | stop + 1, c :: text =>
      if c.utf8Size ≤ stop + 1 then (sliceTo? (stop + 1 - c.utf8Size) text).map (c :: ·)
      else none

def slice? (start stop : Nat) (text : List Char) : Option (List Char) :=
  (sliceTo? stop text).bind (sliceFrom? start)

@[simp] theorem sliceFrom?_zero (text : List Char) : sliceFrom? 0 text = some text := by
  cases text <;> rfl

@[simp] theorem sliceTo?_zero (text : List Char) : sliceTo? 0 text = some [] := by
  cases text <;> rfl

theorem sliceFrom?_cons (c : Char) (text : List Char) (start : Nat) :
    sliceFrom? (c.utf8Size + start) (c :: text) = sliceFrom? start text := by
  have hpos := c.utf8Size_pos
  obtain ⟨last, hlast⟩ := Nat.exists_eq_add_one.mpr (Nat.lt_add_right start hpos)
  rw [hlast, sliceFrom?, if_pos (by omega), ← hlast, Nat.add_sub_cancel_left]

theorem sliceTo?_cons (c : Char) (text : List Char) (stop : Nat) :
    sliceTo? (c.utf8Size + stop) (c :: text) = (sliceTo? stop text).map (c :: ·) := by
  have hpos := c.utf8Size_pos
  obtain ⟨last, hlast⟩ := Nat.exists_eq_add_one.mpr (Nat.lt_add_right stop hpos)
  rw [hlast, sliceTo?, if_pos (by omega), ← hlast, Nat.add_sub_cancel_left]

@[simp] theorem sliceFrom?_append (front rest : List Char) :
    sliceFrom? (byteLength front) (front ++ rest) = some rest := by
  induction front with
  | nil => exact sliceFrom?_zero rest
  | cons c front ih => rw [byteLength_cons, List.cons_append, sliceFrom?_cons, ih]

@[simp] theorem sliceTo?_append (front rest : List Char) :
    sliceTo? (byteLength front) (front ++ rest) = some front := by
  induction front with
  | nil => exact sliceTo?_zero rest
  | cons c front ih =>
      rw [byteLength_cons, List.cons_append, sliceTo?_cons, ih]
      rfl

theorem slice?_append (front middle rest : List Char) :
    slice? (byteLength front) (byteLength (front ++ middle)) (front ++ middle ++ rest) =
      some middle := by
  rw [slice?, sliceTo?_append, Option.bind_some, sliceFrom?_append]

/-- A text can be cut exactly where so many bytes of whole characters stand in front. -/
theorem sliceFrom?_eq_some_iff {start : Nat} {text rest : List Char} :
    sliceFrom? start text = some rest ↔
      ∃ front, text = front ++ rest ∧ start = byteLength front := by
  constructor
  · intro h
    induction text generalizing start with
    | nil =>
        cases start with
        | zero =>
            cases h
            exact ⟨[], rfl, rfl⟩
        | succ start => cases h
    | cons c text ih =>
        cases start with
        | zero =>
            cases h
            exact ⟨[], rfl, rfl⟩
        | succ start =>
            rw [sliceFrom?] at h
            split at h
            next hle =>
              obtain ⟨front, rfl, hstart⟩ := ih h
              refine ⟨c :: front, rfl, ?_⟩
              rw [byteLength_cons, ← hstart]
              omega
            · cases h
  · rintro ⟨front, rfl, rfl⟩
    exact sliceFrom?_append front rest

end CanonicalLR.Text
