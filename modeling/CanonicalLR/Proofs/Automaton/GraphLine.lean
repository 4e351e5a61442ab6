import CanonicalLR.Automaton.Graph
import CanonicalLR.Proofs.Text.Numeral
import Mathlib.Data.List.Basic

namespace CanonicalLR

/-! Lines of a graph, and a reader for them.  The reader knows what the lines look like, but no
automaton; names may contain whatever they want but line feeds. -/

namespace Graph

/-! Reading a line. -/

/-- What follows a mark at the beginning of a text. -/
def after? (mark : String) (text : List Char) : Option (List Char) :=
  text.dropPrefix? mark.toList

def number? (text : List Char) : Option (Nat × List Char) :=
  if text.takeWhile Char.isDigit = [] then none
  else some (Nat.ofDigitChars 10 (text.takeWhile Char.isDigit) 0, text.dropWhile Char.isDigit)

/-- A label in quotes, and what follows.  A character behind a backslash stands for itself, and
the first quote that does not is the end. -/
def label? : List Char → Option (List Char × List Char)
  | [] => none
  | '"' :: rest => some ([], rest)
  | '\\' :: c :: rest => (label? rest).map fun (label, rest) => (c :: label, rest)
  | c :: rest => (label? rest).map fun (label, rest) => (c :: label, rest)

/-- A text with characters in place of their entities. -/
def decode : List Char → List Char
  | '&' :: 'a' :: 'm' :: 'p' :: ';' :: rest => '&' :: decode rest
  | '&' :: 'l' :: 't' :: ';' :: rest => '<' :: decode rest
  | '&' :: 'g' :: 't' :: ';' :: rest => '>' :: decode rest
  | c :: rest => c :: decode rest
  | [] => []

def isAngle (c : Char) : Bool :=
  c = '<' || c = '>'

/-- A text up to the next angle bracket, decoded, and what follows. -/
def content (text : List Char) : String × List Char :=
  (String.ofList (decode (text.takeWhile (!isAngle ·))), text.dropWhile (!isAngle ·))

/-- What a line of the graph can say. -/
inductive Entry where
  | node (index : Nat)
  | row (rule lookahead : String) (underlined : Bool)
  | edge (source target : Nat) (label : String)
deriving DecidableEq

namespace Entry

def isRow : Entry → Bool
  | row _ _ _ => true
  | _ => false

def isEdge : Entry → Bool
  | edge _ _ _ => true
  | _ => false

/-- The transition that an edge stands for, if its label is the name of a symbol. -/
def transition? (v : Vocabulary) : Entry → Option Transition
  | edge source target label => (v.symbol? label).map fun symbol => ⟨source, symbol, target⟩
  | _ => none

/-- The row that shows an item. -/
def ofItem (g : Grammar) (item : Item) : Entry :=
  row (item.ruleText g) (item.lookaheadText g) (item.atEnd g)

def ofTransition (g : Grammar) (transition : Transition) : Entry :=
  edge transition.source transition.target (g.name transition.symbol)

def node? (line : List Char) : Option Entry := do
  let (index, rest) ← number? (← after? "  State" line)
  if rest = " [shape=plain label=<".toList then some (node index) else none

def row? (line : List Char) : Option Entry := do
  let (rule, rest) := content (← after? "      <TR><TD>" line)
  let rest ← after? "</TD><TD>" rest
  match after? "<U>" rest with
  | some rest =>
      let (lookahead, rest) := content rest
      if rest = "</U></TD></TR>".toList then some (row rule lookahead true) else none
  | none =>
      let (lookahead, rest) := content rest
      if rest = "</TD></TR>".toList then some (row rule lookahead false) else none

def edge? (line : List Char) : Option Entry := do
  let (source, rest) ← number? (← after? "  State" line)
  let (target, rest) ← number? (← after? " -> State" rest)
  let (label, rest) ← label? (← after? " [label=\"" rest)
  if rest = "];".toList then some (edge source target (String.ofList label)) else none

def read? (line : List Char) : Option Entry :=
  (node? line).or ((row? line).or (edge? line))

end Entry

/-! What is written is read.  A mark in the text is found as it stands; another one is not
there as soon as the two differ. -/

theorem after?_append (mark : String) (rest : List Char) :
    after? mark (mark.toList ++ rest) = some rest :=
  List.dropPrefix?_append_of_beq rest (beq_self_eq_true _)

theorem after?_eq_none {mark other : String} (h : ¬ mark.toList <+: other.toList)
    (hother : ¬ other.toList <+: mark.toList) (rest : List Char) :
    after? mark (other.toList ++ rest) = none := by
  rw [after?, Option.eq_none_iff_forall_ne_some]
  intro found hfound
  obtain ⟨begin, hbegin, heq⟩ := List.dropPrefix?_eq_some_iff.mp hfound
  rw [eq_of_beq heq] at hbegin
  have hmark : mark.toList <+: other.toList ++ rest := ⟨found, hbegin.symm⟩
  exact (List.prefix_or_prefix_of_prefix hmark (List.prefix_append _ rest)).elim h hother

/-- A stretch of characters of one kind goes up to a mark that begins with another one. -/
theorem stretch_append_mark {p : Char → Bool} {front : List Char} {mark : String}
    (hfront : ∀ c ∈ front, p c = true) (hmark : mark.toList.head?.any (!p ·) = true)
    (rest : List Char) :
    (front ++ (mark.toList ++ rest)).takeWhile p = front ∧
      (front ++ (mark.toList ++ rest)).dropWhile p = mark.toList ++ rest := by
  rw [List.takeWhile_append_of_pos hfront, List.dropWhile_append_of_pos hfront]
  cases hchars : mark.toList with
  | nil => simp [hchars] at hmark
  | cons c chars =>
      have hc : p c = false := by simpa [hchars] using hmark
      simp [hc]

theorem number?_append (n : Nat) (mark : String)
    (hmark : mark.toList.head?.any (!Char.isDigit ·) = true) (rest : List Char) :
    number? (Nat.toDigits 10 n ++ (mark.toList ++ rest)) = some (n, mark.toList ++ rest) := by
  have hdecimal := Text.decimal_toDigits n
  obtain ⟨htake, hdrop⟩ := stretch_append_mark hdecimal.isDigit hmark rest
  rw [number?, htake, hdrop, if_neg hdecimal.digits_ne, hdecimal.value_eq]

theorem label?_append (label rest : List Char) :
    label? (label.flatMap quoted ++ '"' :: rest) = some (label, rest) := by
  induction label with
  | nil => rfl
  | cons c label ih =>
      rw [List.flatMap_cons, List.append_assoc]
      by_cases hslash : c = '\\'
      · subst hslash
        simp [quoted, label?, ih]
      by_cases hquote : c = '"'
      · subst hquote
        simp [quoted, label?, ih]
      simp [quoted, label?, hslash, ih]

theorem decode_flatMap_entity (text : List Char) : decode (text.flatMap entity) = text := by
  induction text with
  | nil => rfl
  | cons c text ih =>
      rw [List.flatMap_cons]
      by_cases hand : c = '&'
      · subst hand
        simp [entity, decode, ih]
      by_cases hless : c = '<'
      · subst hless
        simp [entity, decode, ih]
      by_cases hgreater : c = '>'
      · subst hgreater
        simp [entity, decode, ih]
      simp [entity, decode, hand, ih]

/-- A text with a code in place of a character. -/
def replaced (c : Char) (code text : List Char) : List Char :=
  text.flatMap fun d => if d = c then code else [d]

/-- Entities can be put in place one after the other, the ampersand before those that have one
in their code. -/
theorem toList_escapeHtml (text : String) : (escapeHtml text).toList =
    replaced '>' (entity '>')
      (replaced '<' (entity '<') (replaced '&' (entity '&') text.toList)) := by
  rw [escapeHtml, String.toList_ofList, replaced, replaced, replaced, List.flatMap_assoc,
    List.flatMap_assoc]
  refine congrArg (text.toList.flatMap ·) (funext fun c => ?_)
  by_cases hand : c = '&'
  · subst hand
    rfl
  by_cases hless : c = '<'
  · subst hless
    rfl
  by_cases hgreater : c = '>'
  · subst hgreater
    rfl
  simp [entity, hand, hless, hgreater]

theorem toList_escapeLabel (text : String) : (escapeLabel text).toList =
    replaced '"' (quoted '"') (replaced '\\' (quoted '\\') text.toList) := by
  rw [escapeLabel, String.toList_ofList, replaced, replaced, List.flatMap_assoc]
  refine congrArg (text.toList.flatMap ·) (funext fun c => ?_)
  by_cases hslash : c = '\\'
  · subst hslash
    rfl
  by_cases hquote : c = '"'
  · subst hquote
    rfl
  simp [quoted, hslash, hquote]

theorem mem_entity {c d : Char} (h : c ∈ entity d) :
    isAngle c = false ∧ (c = '\n' → d = '\n') := by
  unfold entity at h
  split at h
  case h_4 hand hless hgreater =>
    rw [List.mem_singleton.mp h]
    exact ⟨by simpa [isAngle] using ⟨hless, hgreater⟩, id⟩
  all_goals
    revert c
    simp [isAngle]

theorem not_isAngle_escapeHtml (text : String) :
    ∀ c ∈ (escapeHtml text).toList, isAngle c = false := by
  intro c hc
  rw [escapeHtml, String.toList_ofList] at hc
  obtain ⟨d, _, hd⟩ := List.mem_flatMap.mp hc
  exact (mem_entity hd).1

theorem content_append (text mark : String)
    (hmark : mark.toList.head?.any isAngle = true) (rest : List Char) :
    content ((escapeHtml text).toList ++ (mark.toList ++ rest)) = (text, mark.toList ++ rest) := by
  have hescape : ∀ c ∈ (escapeHtml text).toList, (!isAngle c) = true := by
    intro c hc
    rw [not_isAngle_escapeHtml text c hc]
    rfl
  obtain ⟨htake, hdrop⟩ := stretch_append_mark hescape (by simpa using hmark) rest
  rw [content, htake, hdrop, escapeHtml, String.toList_ofList, decode_flatMap_entity,
    String.ofList_toList]

theorem not_mem_escapeHtml {text : String} (h : '\n' ∉ text.toList) :
    '\n' ∉ (escapeHtml text).toList := by
  intro hmem
  rw [escapeHtml, String.toList_ofList] at hmem
  obtain ⟨d, hd, hmem⟩ := List.mem_flatMap.mp hmem
  exact h ((mem_entity hmem).2 rfl ▸ hd)

theorem not_mem_escapeLabel {text : String} (h : '\n' ∉ text.toList) :
    '\n' ∉ (escapeLabel text).toList := by
  intro hmem
  rw [escapeLabel, String.toList_ofList] at hmem
  obtain ⟨d, hd, hmem⟩ := List.mem_flatMap.mp hmem
  unfold quoted at hmem
  split at hmem
  case h_3 => exact h (List.mem_singleton.mp hmem ▸ hd)
  all_goals simp at hmem

theorem after?_underline (text mark : String) (hmark : ¬ "<U>".toList <+: mark.toList)
    (hother : ¬ mark.toList <+: "<U>".toList) :
    after? "<U>" ((escapeHtml text).toList ++ mark.toList) = none := by
  cases hchars : (escapeHtml text).toList with
  | nil =>
      have hnone := after?_eq_none hmark hother []
      rwa [List.append_nil] at hnone
  | cons c chars =>
      have hc := not_isAngle_escapeHtml text c (hchars ▸ List.mem_cons_self)
      have hne : c ≠ '<' := by
        rintro rfl
        cases hc
      have hunderline : "<U>".toList = ['<', 'U', '>'] := by
        simp
      simp [after?, hunderline, List.dropPrefix?, hne]

theorem toList_tableRow (left right : String) : (tableRow left right).toList =
    "      <TR><TD>".toList ++ (left.toList ++ ("</TD><TD>".toList ++
      (right.toList ++ "</TD></TR>".toList))) := by
  unfold tableRow
  simp only [String.toList_append, List.append_assoc]

namespace Entry

theorem row?_itemRow (g : Grammar) (item : Item) :
    row? (itemRow g item).toList = some (ofItem g item) := by
  have hrule := content_append (item.ruleText g) "</TD><TD>" (by simp [isAngle])
  rw [itemRow, toList_tableRow, row?, after?_append, Option.bind_eq_bind, Option.bind_some]
  simp only [hrule, after?_append, Option.bind_some]
  cases hend : item.atEnd g with
  | true =>
      have hlookahead := content_append (item.lookaheadText g) "</U>" (by simp [isAngle])
        "</TD></TR>".toList
      have hclose : "</U>".toList ++ "</TD></TR>".toList = "</U></TD></TR>".toList := by
        simp
      rw [hclose] at hlookahead
      simp only [if_true, String.toList_append, List.append_assoc, after?_append, hlookahead,
        hclose, ofItem, hend]
  | false =>
      have hlookahead := content_append (item.lookaheadText g) "</TD></TR>" (by simp [isAngle]) []
      rw [List.append_nil] at hlookahead
      have hnone := after?_underline (item.lookaheadText g) "</TD></TR>" (by simp) (by simp)
      simp only [Bool.false_eq_true, if_false, hnone, hlookahead, if_true, ofItem, hend]

theorem edge?_edge (g : Grammar) (transition : Transition) :
    edge? (Graph.edge g transition).toList = some (ofTransition g transition) := by
  have hsource := number?_append transition.source " -> State" (by simp)
  have htarget := number?_append transition.target " [label=\"" (by simp)
  have hlabel := label?_append (g.name transition.symbol).toList "];".toList
  have hquote : "\"];".toList = '"' :: "];".toList := by
    simp
  rw [← hquote] at hlabel
  simp only [Graph.edge, String.toList_append, List.append_assoc, edge?, after?_append,
    Text.toList_toString, hsource, htarget, escapeLabel, String.toList_ofList, hlabel,
    Option.bind_eq_bind, Option.bind_some, if_true, String.ofList_toList]
  rfl

theorem node?_nodeLine (index : Nat) :
    node? ("  State" ++ toString index ++ " [shape=plain label=<").toList = some (node index) := by
  have hindex := number?_append index " [shape=plain label=<" (by simp) []
  rw [List.append_nil] at hindex
  rw [String.toList_append, String.toList_append, List.append_assoc, Text.toList_toString, node?,
    after?_append, Option.bind_eq_bind, Option.bind_some, hindex, Option.bind_eq_bind,
    Option.bind_some]
  exact if_pos rfl

/-! No line is taken for one of another kind. -/

theorem node?_edge (g : Grammar) (transition : Transition) :
    node? (Graph.edge g transition).toList = none := by
  have hsource := number?_append transition.source " -> State" (by simp)
  have hne : ∀ rest, " -> State".toList ++ rest ≠ " [shape=plain label=<".toList := by
    intro rest heq
    have hprefix : ¬ " -> State".toList <+: " [shape=plain label=<".toList := by
      simp
    exact hprefix (heq ▸ List.prefix_append _ rest)
  simp only [Graph.edge, String.toList_append, List.append_assoc, node?, after?_append,
    Text.toList_toString, hsource, Option.bind_eq_bind, Option.bind_some, if_neg (hne _)]

theorem row?_state (rest : List Char) : row? ("  State".toList ++ rest) = none := by
  rw [row?, after?_eq_none (by simp) (by simp)]
  rfl

theorem node?_tableRow (left right : String) : node? (tableRow left right).toList = none := by
  rw [toList_tableRow, node?, after?_eq_none (by simp) (by simp)]
  rfl

theorem edge?_tableRow (left right : String) : edge? (tableRow left right).toList = none := by
  rw [toList_tableRow, edge?, after?_eq_none (by simp) (by simp)]
  rfl

theorem row?_headRow (index : Nat) : row? (headRow index).toList = none := by
  have hhead : ∀ rest, content ("<B>State #".toList ++ rest) = ("", "<B>State #".toList ++ rest) :=
    content_append "" "<B>State #" (by simp [isAngle])
  rw [headRow, toList_tableRow, row?, after?_append, Option.bind_eq_bind, Option.bind_some]
  simp only [String.toList_append, List.append_assoc, hhead]
  rw [after?_eq_none (by simp) (by simp)]
  rfl

theorem read?_nodeLine (index : Nat) :
    read? ("  State" ++ toString index ++ " [shape=plain label=<").toList = some (node index) := by
  rw [read?, node?_nodeLine, Option.some_or]

theorem read?_itemRow (g : Grammar) (item : Item) :
    read? (itemRow g item).toList = some (ofItem g item) := by
  rw [read?, row?_itemRow, itemRow, node?_tableRow, Option.none_or, Option.some_or]

theorem read?_edge (g : Grammar) (transition : Transition) :
    read? (Graph.edge g transition).toList = some (ofTransition g transition) := by
  have hrow : row? (Graph.edge g transition).toList = none := by
    simp only [Graph.edge, String.toList_append, List.append_assoc, row?_state]
  rw [read?, node?_edge, hrow, edge?_edge, Option.none_or, Option.none_or]

theorem read?_headRow (index : Nat) : read? (headRow index).toList = none := by
  rw [read?, row?_headRow, headRow, node?_tableRow, edge?_tableRow]
  rfl

end Entry

end Graph
end CanonicalLR
