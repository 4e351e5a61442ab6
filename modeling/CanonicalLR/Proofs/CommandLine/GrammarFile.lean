import CanonicalLR.CommandLine.GrammarFile
import CanonicalLR.Proofs.Text.Blank
import Mathlib.Data.List.Forall2

namespace CanonicalLR.GrammarFile

/-! What grammar files hold and how it can be written.  A file is read line by line, and the
same terminals and productions can be spread over lines in many ways. -/

/-- A line that can be a production: not blank, no comment and no declaration. -/
structure IsProduction (text : List Char) : Prop where
  ne_nil : text ≠ []
  trimmed : Text.Trimmed text
  unbroken : '\n' ∉ text
  not_comment : ¬ ['#'] <+: text
  not_declaration : ¬ "terminals:".toList <+: text

instance (text : List Char) : Decidable (IsProduction text) :=
  decidable_of_iff (text ≠ [] ∧ Text.trim text = text ∧ '\n' ∉ text ∧ ¬ ['#'] <+: text ∧
      ¬ "terminals:".toList <+: text)
    ⟨fun ⟨hne, htrim, hunbroken, hcomment, hdeclaration⟩ =>
      ⟨hne, Text.trim_eq_self_iff.mp htrim, hunbroken, hcomment, hdeclaration⟩,
    fun h => ⟨h.ne_nil, Text.trim_eq_self_iff.mpr h.trimmed, h.unbroken, h.not_comment,
      h.not_declaration⟩⟩

/-- Terminals and productions that can be written to a file. -/
structure Writable (file : GrammarFile) : Prop where
  terminals : ∀ name ∈ file.terminals, Text.IsWord name.toList
  productions : ∀ text ∈ file.productions, IsProduction text.toList

namespace Line

/-- The ways to write what a line says. -/
inductive Written : List Char → Line → Prop
  | blank {line : List Char} (hline : Text.Blanks line) : Written line .skipped
  | comment {indent note : List Char} (hindent : Text.Blanks indent) :
      Written (indent ++ '#' :: note) .skipped
  | terminals {indent text : List Char} {names : List String} (hindent : Text.Blanks indent)
      (hnames : Text.Spaced (names.map String.toList) text) :
      Written (indent ++ "terminals:".toList ++ text) (.terminals names)
  | production {indent tail : List Char} {text : String} (hindent : Text.Blanks indent)
      (htail : Text.Blanks tail) : Written (indent ++ text.toList ++ tail) (.production text)

/-- What a line can say. -/
def Fits : Line → Prop
  | skipped => True
  | terminals names => ∀ name ∈ names, Text.IsWord name.toList
  | production text => IsProduction text.toList

theorem trimmed_comment : Text.Trimmed ['#'] :=
  Text.trim_eq_self_iff.mp rfl

theorem trimmed_terminalsMark : Text.Trimmed terminalsMark :=
  Text.trim_eq_self_iff.mp (by decide +kernel)

theorem ofTrimmed_comment (note : List Char) : ofTrimmed ('#' :: note) = skipped := by
  simp [ofTrimmed]

theorem ofTrimmed_terminals (text : List Char) :
    ofTrimmed (terminalsMark ++ text) = terminals ((Text.words text).map String.ofList) := by
  have hne : terminalsMark ++ text ≠ [] := nofun
  have hhead : (terminalsMark ++ text).head? ≠ some '#' := nofun
  have hbegins : terminalsMark.isPrefixOf (terminalsMark ++ text) = true :=
    List.isPrefixOf_iff_prefix.mpr (List.prefix_append _ _)
  rw [ofTrimmed, if_neg hne, if_neg hhead, if_pos hbegins, List.drop_left]

theorem ofTrimmed_production {text : List Char} (h : IsProduction text) :
    ofTrimmed text = production (String.ofList text) := by
  have hhead : text.head? ≠ some '#' := by
    intro hhead
    obtain ⟨rest, rfl⟩ := List.head?_eq_some_iff.mp hhead
    exact h.not_comment ⟨rest, rfl⟩
  have hbegins : ¬ terminalsMark.isPrefixOf text = true := fun hbegins =>
    h.not_declaration (List.isPrefixOf_iff_prefix.mp hbegins)
  rw [ofTrimmed, if_neg h.ne_nil, if_neg hhead, if_neg hbegins]

/-- What is written in one of these ways is read, wherever the blanks are put. -/
theorem read_of_written {line : List Char} {value : Line} (h : Written line value)
    (hvalue : value.Fits) : read line = value := by
  cases h with
  | blank hline => rw [read, Text.trim_eq_nil_iff.mpr hline, ofTrimmed, if_pos rfl]
  | @comment indent note hindent =>
      have htrim := Text.trim_between hindent Text.blanks_nil ('#' :: note)
      have hnote := Text.trim_append_left trimmed_comment (List.cons_ne_nil _ _) note
      rw [List.append_nil] at htrim
      rw [read, htrim]
      exact (congrArg ofTrimmed hnote).trans (ofTrimmed_comment _)
  | @terminals indent text names hindent hnames =>
      have htrim := Text.trim_between hindent Text.blanks_nil (terminalsMark ++ text)
      have hmark := Text.trim_append_left trimmed_terminalsMark nofun text
      have hwords : Text.words text = names.map String.toList :=
        hnames.words_eq fun word hword => by
          obtain ⟨name, hname, rfl⟩ := List.mem_map.mp hword
          exact hvalue name hname
      rw [List.append_nil, ← List.append_assoc, hmark] at htrim
      rw [read]
      refine (congrArg ofTrimmed htrim).trans ?_
      rw [ofTrimmed_terminals, Text.words_trimRight, hwords, List.map_map]
      simp
  | @production indent tail text hindent htail =>
      have hproduction : IsProduction text.toList := hvalue
      rw [read, Text.trim_between hindent htail, Text.trim_eq_self_iff.mpr hproduction.trimmed,
        ofTrimmed_production hproduction, String.ofList_toList]

theorem written_ofTrimmed {indent tail : List Char} (hindent : Text.Blanks indent)
    (htail : Text.Blanks tail) (text : List Char) :
    Written (indent ++ text ++ tail) (ofTrimmed text) := by
  unfold ofTrimmed
  split
  next hnil =>
    refine .blank fun c hc => ?_
    rw [hnil, List.append_nil] at hc
    exact (List.mem_append.mp hc).elim (hindent c) (htail c)
  next =>
    split
    next hhead =>
      obtain ⟨note, rfl⟩ := List.head?_eq_some_iff.mp hhead
      rw [List.append_assoc]
      exact .comment hindent
    next =>
      split
      next hbegins =>
        obtain ⟨names, rfl⟩ := List.isPrefixOf_iff_prefix.mp hbegins
        have hnames := Text.spaced_words (names ++ tail)
        rw [Text.words_append_right htail] at hnames
        rw [List.drop_left, ← List.append_assoc indent, List.append_assoc (indent ++ _)]
        refine .terminals hindent ?_
        rw [List.map_map]
        simpa using hnames
      next =>
        have hwritten : Written (indent ++ (String.ofList text).toList ++ tail)
            (.production (String.ofList text)) := .production hindent htail
        rwa [String.toList_ofList] at hwritten

/-- Every line is written in one of these ways. -/
theorem written_read (line : List Char) : Written line (read line) := by
  obtain ⟨indent, tail, hindent, htail, hline⟩ := Text.exists_trim_between line
  have hwritten := written_ofTrimmed hindent htail (Text.trim line)
  rwa [← hline] at hwritten

theorem fits_read {line : List Char} (hline : '\n' ∉ line) : (read line).Fits := by
  unfold read ofTrimmed
  split
  next => exact trivial
  next hne =>
    split
    next => exact trivial
    next hhead =>
      split
      next =>
        intro name hname
        obtain ⟨word, hword, rfl⟩ := List.mem_map.mp hname
        rw [String.toList_ofList]
        exact Text.mem_words hword
      next hbegins =>
        have hproduction : IsProduction (Text.trim line) := by
          refine ⟨hne, Text.trim_trimmed line, fun hmem => ?_, ?_, fun hmark => ?_⟩
          · exact hline ((Text.trim_infix line).subset hmem)
          · rintro ⟨note, hnote⟩
            rw [← hnote] at hhead
            exact hhead rfl
          · exact hbegins (List.isPrefixOf_iff_prefix.mpr hmark)
        rw [Fits, String.toList_ofList]
        exact hproduction

end Line

/-- Lines that write terminals and productions in their order: each of them declares some of the
terminals, is one of the productions, or is skipped. -/
inductive Writes : List (List Char) → GrammarFile → Prop
  | nil : Writes [] ⟨[], []⟩
  | skipped {line : List Char} {lines : List (List Char)} {file : GrammarFile}
      (hline : Line.Written line .skipped) (hlines : Writes lines file) :
      Writes (line :: lines) file
  | terminals {line : List Char} {lines : List (List Char)} {names terminals : List String}
      {productions : List String} (hline : Line.Written line (.terminals names))
      (hlines : Writes lines ⟨terminals, productions⟩) :
      Writes (line :: lines) ⟨names ++ terminals, productions⟩
  | production {line : List Char} {lines : List (List Char)} {text : String}
      {terminals productions : List String} (hline : Line.Written line (.production text))
      (hlines : Writes lines ⟨terminals, productions⟩) :
      Writes (line :: lines) ⟨terminals, text :: productions⟩

theorem ofLines_append (first second : List Line) :
    ofLines (first ++ second) =
      ⟨(ofLines first).terminals ++ (ofLines second).terminals,
        (ofLines first).productions ++ (ofLines second).productions⟩ := by
  simp [ofLines]

theorem writable_ofLines {lines : List Line} (h : ∀ line ∈ lines, line.Fits) :
    (ofLines lines).Writable := by
  constructor
  · intro name hname
    obtain ⟨line, hline, hdeclared⟩ := List.mem_flatMap.mp hname
    have hfits := h line hline
    cases line with
    | terminals names => exact hfits name hdeclared
    | _ => exact absurd hdeclared List.not_mem_nil
  · intro text htext
    obtain ⟨line, hline, hproduction⟩ := List.mem_filterMap.mp htext
    have hfits := h line hline
    cases line with
    | production text =>
        cases hproduction
        exact hfits
    | _ => cases hproduction

theorem writes_ofLines (lines : List (List Char)) :
    Writes lines (ofLines (lines.map Line.read)) := by
  induction lines with
  | nil => exact .nil
  | cons line lines ih =>
      have hline := Line.written_read line
      rw [List.map_cons]
      cases hread : Line.read line with
      | skipped => exact .skipped (hread ▸ hline) ih
      | terminals names => exact .terminals (hread ▸ hline) ih
      | production text => exact .production (hread ▸ hline) ih

/-- The induction is on the lines; what is left to be written stays writable. -/
theorem ofLines_of_writes {lines : List (List Char)} {file : GrammarFile} (h : Writes lines file)
    (hfile : file.Writable) : ofLines (lines.map Line.read) = file := by
  induction h with
  | nil => rfl
  | skipped hline _ ih =>
      have hread := Line.read_of_written hline trivial
      rw [List.map_cons, hread]
      exact ih hfile
  | @terminals line lines names terminals productions hline _ ih =>
      have hread := Line.read_of_written hline
        fun name hname => hfile.terminals name (List.mem_append_left _ hname)
      have hrest := ih ⟨fun name hname => hfile.terminals name (List.mem_append_right _ hname),
        hfile.productions⟩
      rw [List.map_cons, hread, ← List.singleton_append, ofLines_append, hrest]
      simp [ofLines, Line.declared, Line.production?]
  | @production line lines text terminals productions hline _ ih =>
      have hread := Line.read_of_written hline (hfile.productions text List.mem_cons_self)
      have hrest := ih ⟨hfile.terminals,
        fun other hother => hfile.productions other (List.mem_cons_of_mem text hother)⟩
      rw [List.map_cons, hread, ← List.singleton_append, ofLines_append, hrest]
      simp [ofLines, Line.declared, Line.production?]

theorem read_writable (content : String) : (read content).Writable := by
  refine writable_ofLines fun value hvalue => ?_
  obtain ⟨line, hline, rfl⟩ := List.mem_map.mp hvalue
  exact Line.fits_read (Text.not_mem_of_mem_lines hline)

theorem read_append (first second : String) :
    read (first ++ "\n" ++ second) =
      ⟨(read first).terminals ++ (read second).terminals,
        (read first).productions ++ (read second).productions⟩ := by
  have hlines : Text.lines (first ++ "\n" ++ second).toList =
      Text.lines first.toList ++ Text.lines second.toList := by
    rw [← Text.lines_append_cons]
    simp
  rw [read, hlines, List.map_append, ofLines_append]
  rfl

theorem read_of_writes {lines : List (List Char)} {file : GrammarFile}
    (hlines : ∀ line ∈ lines, '\n' ∉ line) (h : Writes lines file) (hfile : file.Writable) :
    read (String.ofList (['\n'].intercalate lines)) = file := by
  rw [read, String.toList_ofList]
  by_cases hnil : lines = []
  · subst hnil
    cases h
    rfl
  · rw [Text.lines_intercalate hnil hlines]
    exact ofLines_of_writes h hfile

/-- The contents of files that are joined by a line end are joined.  What is read can be
written, and of all the ways to write it each is read as the same. -/
theorem writings_exact :
    (∀ first second : String,
      (read (first ++ "\n" ++ second)).terminals =
        (read first).terminals ++ (read second).terminals ∧
      (read (first ++ "\n" ++ second)).productions =
        (read first).productions ++ (read second).productions) ∧
    (∀ content : String, (read content).Writable) ∧
    (∀ content : String, Writes (Text.lines content.toList) (read content)) ∧
    ∀ file : GrammarFile, file.Writable →
      ∀ lines : List (List Char), (∀ line ∈ lines, '\n' ∉ line) → Writes lines file →
        read (String.ofList (['\n'].intercalate lines)) = file := by
  refine ⟨fun first second => ?_, read_writable, fun content => writes_ofLines _, ?_⟩
  · rw [read_append]
    exact ⟨rfl, rfl⟩
  · intro file hfile lines hlines hwrites
    exact read_of_writes hlines hwrites hfile

/-- Blanks of all kinds, a comment that looks like a production, and terminals that look like
a comment and like a declaration. -/
def scattered : List (List Char) :=
  [['\u3000'] ++ '#' :: " S->a\r".toList,
   [] ++ "terminals:".toList ++ ([] ++ "é".toList ++ ([' '] ++ "#".toList ++ ['\r'])),
   ['\t'] ++ "S->é".toList ++ [' '],
   [],
   [' ', ' '] ++ "terminals:".toList ++ ([' '] ++ "terminals:".toList ++ [])]

theorem writings_exact_scattered :
    read "\u3000# S->a\r\nterminals:é #\r\n\tS->é \n\n  terminals: terminals:" =
      ⟨["é", "#", "terminals:"], ["S->é"]⟩ := by
  have hblank : ∀ c, Text.isBlank c = true → Text.Blanks [c] := by
    simp [Text.Blanks]
  have hnames : Text.Spaced (["é", "#"].map String.toList)
      ([] ++ "é".toList ++ ([' '] ++ "#".toList ++ ['\r'])) :=
    .word Text.blanks_nil
      (.word (hblank ' ' rfl) (.blanks (hblank '\r' rfl)) (by simp; rfl)) (by simp; rfl)
  have hlast : Text.Spaced (["terminals:"].map String.toList)
      ([' '] ++ "terminals:".toList ++ []) :=
    .word (hblank ' ' rfl) (.blanks Text.blanks_nil) nofun
  have hwrites : Writes scattered ⟨["é", "#", "terminals:"], ["S->é"]⟩ :=
    .skipped (.comment (hblank '\u3000' rfl)) (.terminals (.terminals Text.blanks_nil hnames)
      (.production (.production (hblank '\t' rfl) (hblank ' ' rfl))
        (.skipped (.blank Text.blanks_nil)
          (.terminals (.terminals (Text.blanks_replicate 2) hlast) .nil))))
  have hfile : Writable ⟨["é", "#", "terminals:"], ["S->é"]⟩ :=
    ⟨by decide +kernel, by decide +kernel⟩
  have htext : String.ofList (['\n'].intercalate scattered) =
      "\u3000# S->a\r\nterminals:é #\r\n\tS->é \n\n  terminals: terminals:" := by
    decide +kernel
  rw [← htext]
  exact writings_exact.2.2.2 _ hfile scattered (by decide +kernel) hwrites

end CanonicalLR.GrammarFile
