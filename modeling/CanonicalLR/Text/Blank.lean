namespace CanonicalLR.Text

/-! Blank characters, and the texts, words and lines they delimit.  Everything
here works on lists of characters, so that cutting a text never has to speak
of positions inside it. -/

/-- Code points with the property White_Space, as closed ranges in increasing
order. -/
def blankRanges : List (Nat × Nat) :=
  [(0x0009, 0x000D), (0x0020, 0x0020), (0x0085, 0x0085), (0x00A0, 0x00A0),
   (0x1680, 0x1680), (0x2000, 0x200A), (0x2028, 0x2029), (0x202F, 0x202F),
   (0x205F, 0x205F), (0x3000, 0x3000)]

def isBlank (c : Char) : Bool :=
  blankRanges.any fun range => range.1 ≤ c.toNat && c.toNat ≤ range.2

def trimLeft (text : List Char) : List Char :=
  text.dropWhile isBlank

def trimRight (text : List Char) : List Char :=
  (text.reverse.dropWhile isBlank).reverse

def trim (text : List Char) : List Char :=
  trimRight (trimLeft text)

/-- The stretches between separators, empty ones included: one more than there
are separators. -/
def pieces (separates : Char → Bool) : List Char → List (List Char)
  | [] => [[]]
  | c :: text =>
      if separates c then [] :: pieces separates text
      else (pieces separates text).modifyHead (c :: ·)

@[simp] theorem pieces_nil (separates : Char → Bool) :
    pieces separates [] = [[]] := rfl

theorem pieces_cons (separates : Char → Bool) (c : Char) (text : List Char) :
    pieces separates (c :: text) =
      if separates c then [] :: pieces separates text
      else (pieces separates text).modifyHead (c :: ·) := rfl

theorem pieces_ne_nil (separates : Char → Bool) (text : List Char) :
    pieces separates text ≠ [] := by
  induction text with
  | nil => simp
  | cons c text ih =>
      rw [pieces_cons]
      split
      · simp
      · intro h
        exact ih (List.modifyHead_eq_nil_iff.mp h)

theorem pieces_append_cons {separates : Char → Bool} {c : Char}
    (hc : separates c = true) (first second : List Char) :
    pieces separates (first ++ c :: second) =
      pieces separates first ++ pieces separates second := by
  induction first with
  | nil => simp [pieces_cons, hc]
  | cons d first ih =>
      rw [List.cons_append, pieces_cons, pieces_cons, ih]
      split
      · rfl
      · obtain ⟨piece, rest, hpieces⟩ :=
          List.exists_cons_of_ne_nil (pieces_ne_nil separates first)
        rw [hpieces]
        rfl

theorem not_separates_of_mem_pieces {separates : Char → Bool} {text piece : List Char}
    (hpiece : piece ∈ pieces separates text) {c : Char} (hc : c ∈ piece) :
    separates c = false := by
  induction text generalizing piece with
  | nil =>
      rw [pieces_nil, List.mem_singleton] at hpiece
      subst hpiece
      exact absurd hc List.not_mem_nil
  | cons d text ih =>
      rw [pieces_cons] at hpiece
      split at hpiece
      next =>
        rcases List.mem_cons.mp hpiece with rfl | hpiece
        · exact absurd hc List.not_mem_nil
        · exact ih hpiece hc
      next hd =>
        obtain ⟨head, rest, hpieces⟩ :=
          List.exists_cons_of_ne_nil (pieces_ne_nil separates text)
        rw [hpieces, List.modifyHead_cons] at hpiece
        rcases List.mem_cons.mp hpiece with rfl | hpiece
        · rcases List.mem_cons.mp hc with rfl | hc
          · simpa using hd
          · exact ih (hpieces ▸ List.mem_cons_self) hc
        · exact ih (hpieces ▸ List.mem_cons_of_mem head hpiece) hc

/-- Lines end at a line feed and nowhere else. -/
def lines (text : List Char) : List (List Char) :=
  pieces (· == '\n') text

def unlines (lines : List String) : String :=
  String.join (lines.map (· ++ "\n"))

def words (text : List Char) : List (List Char) :=
  (pieces isBlank text).filter fun word => !word.isEmpty

/-! Offsets into a text count the bytes of its UTF-8 form. -/

def byteLength : List Char → Nat
  | [] => 0
  | c :: text => c.utf8Size + byteLength text

@[simp] theorem byteLength_nil : byteLength [] = 0 := rfl

@[simp] theorem byteLength_cons (c : Char) (text : List Char) :
    byteLength (c :: text) = c.utf8Size + byteLength text := rfl

@[simp] theorem byteLength_append (first second : List Char) :
    byteLength (first ++ second) = byteLength first + byteLength second := by
  induction first with
  | nil => simp
  | cons c first ih => simp [ih, Nat.add_assoc]

@[simp] theorem byteLength_reverse (text : List Char) :
    byteLength text.reverse = byteLength text := by
  induction text with
  | nil => rfl
  | cons c text ih => simp [ih, Nat.add_comm]

/-- A cell of at least the given width; padding counts characters. -/
def padRight (width : Nat) (text : String) : String :=
  text ++ String.ofList (List.replicate (width - text.length) ' ')

end CanonicalLR.Text
