import CanonicalLR.Text.Blank
import Mathlib.Data.List.DropRight
import Mathlib.Data.List.Induction
import Mathlib.Data.List.TakeWhile

namespace CanonicalLR.Text

/-! Texts between blanks.  Blanks around a text have no part in what is left when it is
trimmed, nor in its words. -/

def Blanks (text : List Char) : Prop :=
  ∀ c ∈ text, isBlank c = true

/-- A text without blanks at its ends. -/
structure Trimmed (text : List Char) : Prop where
  head : ∀ c, text.head? = some c → isBlank c = false
  last : ∀ c, text.getLast? = some c → isBlank c = false

theorem blanks_nil : Blanks [] :=
  fun _ h => absurd h List.not_mem_nil

theorem blanks_replicate (count : Nat) : Blanks (List.replicate count ' ') := by
  intro c hc
  rw [List.eq_of_mem_replicate hc]
  rfl

theorem trim_eq_nil_iff {text : List Char} : trim text = [] ↔ ∀ c ∈ text, isBlank c = true := by
  rw [trim, trimRight, List.reverse_eq_nil_iff, List.dropWhile_eq_nil_iff, trimLeft]
  simp only [List.mem_reverse]
  constructor
  · intro h
    refine List.dropWhile_eq_nil_iff.mp (Classical.byContradiction fun hne => ?_)
    have hhead := List.head_dropWhile_not isBlank hne
    rw [h _ (List.head_mem hne)] at hhead
    cases hhead
  · intro h c hc
    exact h c ((List.dropWhile_suffix isBlank).mem hc)

theorem trim_prefix_trimLeft (text : List Char) : trim text <+: trimLeft text :=
  List.rdropWhile_prefix isBlank (trimLeft text)

theorem trim_infix (text : List Char) : trim text <:+: text :=
  (trim_prefix_trimLeft text).isInfix.trans (List.dropWhile_suffix isBlank).isInfix

theorem trimLeft_trim (text : List Char) : trimLeft (trim text) = trim text := by
  cases htrim : trim text with
  | nil => rfl
  | cons c rest =>
      obtain ⟨more, hmore⟩ := htrim ▸ trim_prefix_trimLeft text
      have hne : trimLeft text ≠ [] := by simp [← hmore]
      have hhead : isBlank ((trimLeft text).head hne) = false :=
        List.head_dropWhile_not isBlank hne
      simp only [← hmore, List.cons_append, List.head_cons] at hhead
      exact List.dropWhile_cons_of_neg (by simp [hhead])

@[simp] theorem trim_trim (text : List Char) : trim (trim text) = trim text := by
  rw [trim, trimLeft_trim]
  exact List.rdropWhile_idempotent isBlank (trimLeft text)

theorem trimLeft_append {indent : List Char} (hindent : Blanks indent) (text : List Char) :
    trimLeft (indent ++ text) = trimLeft text :=
  List.dropWhile_append_of_pos hindent

theorem trimRight_append {tail : List Char} (htail : Blanks tail) (text : List Char) :
    trimRight (text ++ tail) = trimRight text := by
  rw [trimRight, trimRight, List.reverse_append, List.dropWhile_append_of_pos]
  intro c hc
  exact htail c (List.mem_reverse.mp hc)

theorem exists_trimRight_append (text : List Char) :
    ∃ tail, Blanks tail ∧ text = trimRight text ++ tail := by
  refine ⟨(text.reverse.takeWhile isBlank).reverse, fun c hc => ?_, ?_⟩
  · exact List.mem_takeWhile_imp (List.mem_reverse.mp hc)
  · rw [trimRight, ← List.reverse_append, List.takeWhile_append_dropWhile, List.reverse_reverse]

theorem exists_trim_between (text : List Char) :
    ∃ indent tail, Blanks indent ∧ Blanks tail ∧ text = indent ++ trim text ++ tail := by
  obtain ⟨tail, htail, hright⟩ := exists_trimRight_append (trimLeft text)
  refine ⟨text.takeWhile isBlank, tail, fun c hc => List.mem_takeWhile_imp hc, htail, ?_⟩
  calc
    text = text.takeWhile isBlank ++ trimLeft text := List.takeWhile_append_dropWhile.symm
    _ = text.takeWhile isBlank ++ trim text ++ tail := by
      rw [List.append_assoc]
      exact congrArg _ hright

theorem trim_between {indent tail : List Char} (hindent : Blanks indent) (htail : Blanks tail)
    (text : List Char) : trim (indent ++ text ++ tail) = trim text := by
  rw [trim, List.append_assoc, trimLeft_append hindent, trim, trimLeft, List.dropWhile_append]
  split
  next hnone =>
    rw [trimLeft, List.isEmpty_iff.mp hnone]
    exact trimRight_append (List.dropWhile_eq_nil_iff.mpr htail ▸ blanks_nil) []
  next => exact trimRight_append htail _

theorem trim_eq_self_iff {text : List Char} : trim text = text ↔ Trimmed text := by
  have hleft : trimLeft text = text ↔ ∀ c, text.head? = some c → isBlank c = false := by
    rw [trimLeft, List.dropWhile_eq_self_iff]
    cases text <;> simp
  have hright : trimRight text = text ↔ ∀ c, text.getLast? = some c → isBlank c = false := by
    rw [trimRight, ← List.rdropWhile, List.rdropWhile_eq_self_iff]
    cases text using List.reverseRecOn <;> simp
  constructor
  · intro h
    have hself : trimLeft text = text := by
      have htrim := trimLeft_trim text
      rwa [h] at htrim
    rw [trim, hself] at h
    exact ⟨hleft.mp hself, hright.mp h⟩
  · rintro ⟨hhead, hlast⟩
    rw [trim, hleft.mpr hhead, hright.mpr hlast]

theorem trim_trimmed (text : List Char) : Trimmed (trim text) :=
  trim_eq_self_iff.mp (trim_trim text)

theorem trimRight_append_left {front : List Char}
    (hlast : ∀ c, front.getLast? = some c → isBlank c = false) (text : List Char) :
    trimRight (front ++ text) = front ++ trimRight text := by
  have hfront : front.reverse.dropWhile isBlank = front.reverse := by
    cases front using List.reverseRecOn with
    | nil => rfl
    | append_singleton front c => simp [hlast c]
  rw [trimRight, trimRight, List.reverse_append, List.dropWhile_append]
  split
  next hnone => rw [hfront, List.isEmpty_iff.mp hnone, List.reverse_reverse, List.reverse_nil,
      List.append_nil]
  next => rw [List.reverse_append, List.reverse_reverse]

/-- What begins without a blank, and goes on behind something that is none, is only trimmed on
the right. -/
theorem trim_append_left {front : List Char} (hfront : Trimmed front) (hne : front ≠ [])
    (text : List Char) : trim (front ++ text) = front ++ trimRight text := by
  obtain ⟨c, rest, rfl⟩ := List.exists_cons_of_ne_nil hne
  have hleft : trimLeft (c :: rest ++ text) = c :: rest ++ text :=
    List.dropWhile_cons_of_neg (by simp [hfront.head c rfl])
  rw [trim, hleft, trimRight_append_left hfront.last]

/-! Texts are cut into pieces as lists are. -/

theorem pieces_eq_splitOnP (separates : Char → Bool) (text : List Char) :
    pieces separates text = text.splitOnP separates := by
  induction text with
  | nil => rfl
  | cons c text ih => rw [pieces_cons, List.splitOnP_cons_eq_if_modifyHead, ih]

theorem lines_eq_splitOn (text : List Char) : lines text = text.splitOn '\n' :=
  pieces_eq_splitOnP _ text

theorem lines_of_not_mem {text : List Char} (h : '\n' ∉ text) : lines text = [text] := by
  rw [lines_eq_splitOn, List.splitOn_eq_singleton h]

theorem lines_append_cons (first second : List Char) :
    lines (first ++ '\n' :: second) = lines first ++ lines second :=
  pieces_append_cons rfl first second

theorem not_mem_of_mem_lines {text line : List Char} (h : line ∈ lines text) : '\n' ∉ line := by
  intro hmem
  have hne := not_separates_of_mem_pieces h hmem
  simp at hne

theorem lines_intercalate {list : List (List Char)} (hlist : list ≠ [])
    (h : ∀ line ∈ list, '\n' ∉ line) : lines (['\n'].intercalate list) = list := by
  rw [lines_eq_splitOn, List.splitOn_intercalate '\n' h hlist]

theorem lines_intercalate_eq {texts : List (List Char)} (htexts : texts ≠ []) :
    lines (['\n'].intercalate texts) = texts.flatMap lines := by
  induction texts with
  | nil => exact absurd rfl htexts
  | cons text texts ih =>
      cases texts with
      | nil => simp
      | cons next texts =>
          rw [List.intercalate_cons_cons, List.append_assoc, List.singleton_append,
            lines_append_cons, ih (List.cons_ne_nil next texts)]
          rfl

theorem not_mem_intercalate {between : List Char} {texts : List (List Char)} {c : Char}
    (hbetween : c ∉ between) (h : ∀ text ∈ texts, c ∉ text) : c ∉ between.intercalate texts := by
  induction texts with
  | nil => simp
  | cons text texts ih =>
      have htext := h text List.mem_cons_self
      have htexts := ih fun other hother => h other (List.mem_cons_of_mem text hother)
      cases texts with
      | nil => simpa using htext
      | cons next texts => simp [htext, hbetween, htexts]

/-- Words that stand in a text one behind the other, apart from each other, with nothing but
blanks around them. -/
inductive Spaced : List (List Char) → List Char → Prop
  | blanks {gap : List Char} (hgap : Blanks gap) : Spaced [] gap
  | word {gap word rest : List Char} {words : List (List Char)} (hgap : Blanks gap)
      (hrest : Spaced words rest) (hapart : ∀ c, rest.head? = some c → isBlank c = true) :
      Spaced (word :: words) (gap ++ word ++ rest)

/-- A word is not empty, and no blank is a part of it. -/
structure IsWord (word : List Char) : Prop where
  ne_nil : word ≠ []
  not_blank : ∀ c ∈ word, isBlank c = false

instance (word : List Char) : Decidable (IsWord word) :=
  decidable_of_iff (word ≠ [] ∧ word.any isBlank = false)
    ⟨fun h => ⟨h.1, fun c hc => Bool.eq_false_iff.mpr (List.any_eq_false.mp h.2 c hc)⟩,
    fun h => ⟨h.ne_nil, List.any_eq_false.mpr fun c hc => Bool.eq_false_iff.mp (h.not_blank c hc)⟩⟩

theorem words_append_cons {c : Char} (hc : isBlank c = true) (first second : List Char) :
    words (first ++ c :: second) = words first ++ words second := by
  rw [words, pieces_append_cons hc, List.filter_append]
  rfl

theorem words_append {gap : List Char} (hgap : Blanks gap) (text : List Char) :
    words (gap ++ text) = words text := by
  induction gap with
  | nil => rfl
  | cons c gap ih =>
      have hc : isBlank c = true := hgap c List.mem_cons_self
      have hempty := words_append_cons hc [] (gap ++ text)
      rw [List.cons_append, ← List.nil_append (c :: (gap ++ text)), hempty,
        ih fun d hd => hgap d (List.mem_cons_of_mem c hd)]
      rfl

theorem words_append_right {tail : List Char} (htail : Blanks tail) (text : List Char) :
    words (text ++ tail) = words text := by
  cases tail with
  | nil => rw [List.append_nil]
  | cons c tail =>
      have hempty := words_append (fun d hd => htail d (List.mem_cons_of_mem c hd)) []
      rw [List.append_nil] at hempty
      rw [words_append_cons (htail c List.mem_cons_self), hempty]
      exact List.append_nil (words text)

theorem words_trimRight (text : List Char) : words (trimRight text) = words text := by
  obtain ⟨tail, htail, htext⟩ := exists_trimRight_append text
  have hwords := words_append_right htail (trimRight text)
  rw [← htext] at hwords
  exact hwords.symm

theorem words_of_blanks {gap : List Char} (hgap : Blanks gap) : words gap = [] := by
  have hwords := words_append hgap []
  rwa [List.append_nil] at hwords

theorem IsWord.words_eq {word : List Char} (h : IsWord word) : words word = [word] := by
  rw [words, pieces_eq_splitOnP, List.splitOnP_eq_singleton h.not_blank]
  simp [h.ne_nil]

theorem mem_words {text word : List Char} (h : word ∈ words text) : IsWord word := by
  obtain ⟨hpiece, hne⟩ := List.mem_filter.mp h
  exact ⟨by simpa using hne, fun c hc => not_separates_of_mem_pieces hpiece hc⟩

theorem words_cons_eq {gap word rest : List Char} (hgap : Blanks gap) (hword : IsWord word)
    (hapart : ∀ c, rest.head? = some c → isBlank c = true) :
    words (gap ++ word ++ rest) = word :: words rest := by
  rw [List.append_assoc, words_append hgap]
  cases rest with
  | nil => rw [List.append_nil, hword.words_eq, words_of_blanks blanks_nil]
  | cons c rest =>
      have hc := hapart c rfl
      have hrest := words_append_cons hc [] rest
      rw [words_append_cons hc, hword.words_eq, ← List.nil_append (c :: rest), hrest,
        words_of_blanks blanks_nil]
      rfl

theorem Spaced.words_eq {list : List (List Char)} {text : List Char} (h : Spaced list text)
    (hlist : ∀ word ∈ list, IsWord word) : words text = list := by
  induction h with
  | blanks hgap => exact words_of_blanks hgap
  | @word gap word rest list hgap _ hapart ih =>
      rw [words_cons_eq hgap (hlist word List.mem_cons_self) hapart,
        ih fun other hother => hlist other (List.mem_cons_of_mem word hother)]

/-- Every text consists of its words and blanks: a word begins where blanks end, and ends where
the next ones begin. -/
theorem spaced_words (text : List Char) : Spaced (words text) text := by
  have hgap : Blanks (text.takeWhile isBlank) := fun c hc => List.mem_takeWhile_imp hc
  have htext : text = text.takeWhile isBlank ++ trimLeft text :=
    List.takeWhile_append_dropWhile.symm
  cases hleft : trimLeft text with
  | nil =>
      rw [hleft, List.append_nil] at htext
      rw [← htext] at hgap
      rw [words_of_blanks hgap]
      exact .blanks hgap
  | cons c rest =>
      have hc : isBlank c = false := by
        have hhead := List.head?_dropWhile_not isBlank text
        rw [trimLeft] at hleft
        rwa [hleft] at hhead
      have hword : IsWord (c :: rest.takeWhile (!isBlank ·)) := by
        refine ⟨List.cons_ne_nil _ _, fun d hd => ?_⟩
        rcases List.mem_cons.mp hd with rfl | hd
        · exact hc
        · simpa using List.mem_takeWhile_imp hd
      have hapart : ∀ d, (rest.dropWhile (!isBlank ·)).head? = some d → isBlank d = true := by
        intro d hd
        have hhead := List.head?_dropWhile_not (!isBlank ·) rest
        rw [hd] at hhead
        simpa using hhead
      have hsplit : text = text.takeWhile isBlank ++ (c :: rest.takeWhile (!isBlank ·)) ++
          rest.dropWhile (!isBlank ·) := by
        rw [List.append_assoc, List.cons_append, List.takeWhile_append_dropWhile, ← hleft]
        exact htext
      have hlt : (rest.dropWhile (!isBlank ·)).length < text.length := by
        have hlength := congrArg List.length hsplit
        simp only [List.length_append, List.length_cons] at hlength
        omega
      have hrest := spaced_words (rest.dropWhile (!isBlank ·))
      rw [hsplit, words_cons_eq hgap hword hapart]
      exact .word hgap hrest hapart
termination_by text.length

end CanonicalLR.Text
