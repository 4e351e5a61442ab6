import CanonicalLR.Proofs.Grammar.Production
import CanonicalLR.Proofs.Grammar.Vocabulary

namespace CanonicalLR

/-! Which descriptions are grammars.  What is wrong with a description has a place in the
order in which it is looked through: the alphabet, the list of productions, the sides of every
production, and only then the symbols on every right-hand side, since a right-hand side may
mention nonterminals that are introduced behind it. -/

/-! Right-hand sides. -/

namespace Production

/-- A rule that may stand at a place: its right-hand side is cut into known names, an end
marker among them closes the first rule, and no other rule belongs to the start symbol. -/
structure Readable (known : String → Prop) (start : String) (id : Nat) (lhs : String)
    (rhs : List Char) (names : List String) : Prop where
  cut : Cut known rhs names []
  endMarker_last : ∀ position, names[position]? = some endMarkerName →
    id = 0 ∧ position + 1 = names.length
  lhs_ne_start : id ≠ 0 → lhs ≠ start

/-- What can be wrong with the symbols of a production, in the order in which it is noticed. -/
inductive Unreadable (known : String → Prop) (start : String) (id : Nat) (text lhs : String)
    (rhs : List Char) : Nat → GrammarError → Prop
  | unknownSymbol {offset : Nat} (h : Stuck known rhs offset) :
      Unreadable known start id text lhs rhs 0 (.unknownSymbol text offset)
  | misplacedEndMarker {names : List String} {position : Nat} (hcut : Cut known rhs names [])
      (hmarker : names[position]? = some endMarkerName)
      (hplace : ¬ (id = 0 ∧ position + 1 = names.length)) :
      Unreadable known start id text lhs rhs 1 (.misplacedEndMarker text)
  | duplicateStartRule (hid : id ≠ 0) (hlhs : lhs = start) :
      Unreadable known start id text lhs rhs 2 (.duplicateStartRule start id)

section

variable {known : String → Prop} {start text lhs : String} {id rank : Nat} {rhs : List Char}
  {names : List String} {error other : GrammarError}

theorem Unreadable.unique (h : Unreadable known start id text lhs rhs rank error)
    (hother : Unreadable known start id text lhs rhs rank other) : error = other := by
  cases h with
  | unknownSymbol hstuck =>
      cases hother with
      | unknownSymbol hstuck' => rw [hstuck.unique hstuck']
  | _ =>
      cases hother
      rfl

/-- Behind a whole cut of the right-hand side, only its end marker or its owner can be wrong. -/
theorem Unreadable.of_cut (hne : ∀ name, known name → name ≠ "") (hcut : Cut known rhs names [])
    (h : Unreadable known start id text lhs rhs rank error) :
    rank = 1 ∧ (∃ position, names[position]? = some endMarkerName ∧
        ¬ (id = 0 ∧ position + 1 = names.length)) ∨
      rank = 2 ∧ id ≠ 0 ∧ lhs = start := by
  cases h with
  | unknownSymbol hstuck => exact absurd hstuck ((Cut.exists_whole_iff hne).mp ⟨_, hcut⟩ _)
  | @misplacedEndMarker others position hother hmarker hplace =>
      have hends := Cut.not_begins_nil hne
      obtain ⟨rfl, -⟩ := hcut.unique hends hother hends
      exact .inl ⟨rfl, position, hmarker, hplace⟩
  | duplicateStartRule hid hlhs => exact .inr ⟨rfl, hid, hlhs⟩

theorem Readable.not_unreadable (hne : ∀ name, known name → name ≠ "")
    (h : Readable known start id lhs rhs names) :
    ¬ Unreadable known start id text lhs rhs rank error := by
  intro hunreadable
  rcases hunreadable.of_cut hne h.cut with ⟨_, position, hmarker, hplace⟩ | ⟨_, hid, hlhs⟩
  · exact hplace (h.endMarker_last position hmarker)
  · exact h.lhs_ne_start hid hlhs

end

end Production

theorem mem_unmarkedPart {id : Nat} {rhs : List Symbol} {symbol : Symbol} :
    symbol ∈ unmarkedPart id rhs ↔
      ∃ position, rhs[position]? = some symbol ∧ ¬ (id = 0 ∧ position + 1 = rhs.length) := by
  rw [List.mem_iff_getElem?]
  refine exists_congr fun position => ?_
  unfold unmarkedPart
  split
  next hid =>
    rw [List.getElem?_dropLast]
    split
    next hlt =>
      refine (and_iff_left ?_).symm
      omega
    next hge =>
      refine ⟨nofun, fun ⟨h, hplace⟩ => ?_⟩
      have := (List.getElem?_eq_some_iff.mp h).1
      omega
  next hid => exact (and_iff_left fun h => hid h.1).symm

namespace Vocabulary

variable {v : Vocabulary} {id : Nat} {production : Production}

/-- End markers stand at the same places among symbols and among their names. -/
theorem Distinct.mem_unmarkedPart_iff (hv : v.Distinct) {rhs : List Symbol}
    (hrhs : ∀ symbol ∈ rhs, symbol ∈ v.symbols) :
    .terminal .endMarker ∈ unmarkedPart id rhs ↔
      ∃ position, (rhs.map v.name)[position]? = some endMarkerName ∧
        ¬ (id = 0 ∧ position + 1 = (rhs.map v.name).length) := by
  rw [mem_unmarkedPart]
  refine exists_congr fun position => ?_
  rw [List.length_map, List.getElem?_map, Option.map_eq_some_iff]
  refine and_congr_left fun _ => ⟨fun h => ⟨_, h, rfl⟩, ?_⟩
  rintro ⟨symbol, hsymbol, hname⟩
  have hmem := hrhs symbol (List.mem_of_getElem? hsymbol)
  rwa [hv.name_injective symbol hmem (.terminal .endMarker) (by simp) hname] at hsymbol

/-- The name of the start symbol is the only one at the first place. -/
theorem idxOf_eq_zero_iff (h : production.lhs ∈ v.nonterminals) :
    v.nonterminals.idxOf production.lhs = 0 ↔ production.lhs = v.nonterminalName 0 := by
  rw [nonterminalName]
  cases hnames : v.nonterminals with
  | nil =>
      rw [hnames] at h
      exact absurd h List.not_mem_nil
  | cons name names =>
      rw [List.idxOf_cons, List.getD_cons_zero]
      by_cases hname : name = production.lhs
      · simp [hname]
      · simp [beq_eq_false_iff_ne.mpr hname, Ne.symm hname]

theorem readable_of_readRule (hv : v.Distinct) (hlhs : production.lhs ∈ v.nonterminals)
    {rule : Rule} (h : v.readRule id production = .ok rule) :
    Production.Readable v.Known (v.nonterminalName 0) id production.lhs production.rhs
      (rule.rhs.map v.name) := by
  obtain ⟨hsegment, hrule, hread⟩ := readRule_eq_ok h
  constructor
  case cut => exact ((segment_eq_ok_iff hv).mp hsegment).2
  case endMarker_last =>
    intro position hmarker
    refine Classical.byContradiction fun hplace => hread.endMarker_not_mem ?_
    exact (hv.mem_unmarkedPart_iff hread.symbol_mem).mpr ⟨position, hmarker, hplace⟩
  case lhs_ne_start =>
    intro hid hstart
    exact hread.lhs_ne_zero hid (hrule.trans ((idxOf_eq_zero_iff hlhs).mpr hstart))

theorem readRule_text {rule : Rule} (h : v.readRule id production = .ok rule) :
    rule.text = production.text := by
  unfold readRule at h
  split at h
  · cases h
  · dsimp only at h
    split at h
    · cases h
    · split at h
      · cases h
      · cases h
        rfl

theorem readRule_of_text (h : v.readRule id production = .ok rule) (text : String) :
    v.readRule id { production with text := text } = .ok { rule with text := text } := by
  unfold readRule at h ⊢
  dsimp only
  split at h
  · cases h
  next =>
    dsimp only at h
    split at h
    · cases h
    next hmarker =>
      split at h
      · cases h
      next hstart =>
        cases h
        rw [if_neg hmarker, if_neg hstart]

/-- Only an unknown name keeps a right-hand side from being cut. -/
theorem readRule_eq_unknownSymbol_iff {offset : Nat} :
    v.readRule id production = .error (.unknownSymbol production.text offset) ↔
      v.segment production.rhs = .error offset := by
  unfold readRule
  cases v.segment production.rhs with
  | error other => simp
  | ok rhs =>
      dsimp only
      split
      · simp
      · split <;> simp

/-- What stopped the reading of a rule is the first thing that is wrong. -/
theorem unreadable_of_readRule (hv : v.Distinct) (hlhs : production.lhs ∈ v.nonterminals)
    {error : GrammarError} (h : v.readRule id production = .error error) :
    ∃ rank, Production.Unreadable v.Known (v.nonterminalName 0) id production.text
        production.lhs production.rhs rank error ∧
      ∀ earlier < rank, ∀ other, ¬ Production.Unreadable v.Known (v.nonterminalName 0) id
        production.text production.lhs production.rhs earlier other := by
  unfold readRule at h
  split at h
  next offset hsegment =>
    cases h
    refine ⟨0, .unknownSymbol ((segment_eq_error_iff hv).mp hsegment), fun earlier hlt => ?_⟩
    exact absurd hlt (Nat.not_lt_zero earlier)
  next rhs hsegment =>
    obtain ⟨hmem, hcut⟩ := (segment_eq_ok_iff hv).mp hsegment
    dsimp only at h
    split at h
    next hmarker =>
      cases h
      obtain ⟨position, hposition, hplace⟩ := (hv.mem_unmarkedPart_iff hmem).mp hmarker
      refine ⟨1, .misplacedEndMarker hcut hposition hplace, fun earlier hlt other hother => ?_⟩
      rcases hother.of_cut hv.known_ne hcut with ⟨rfl, _⟩ | ⟨rfl, _⟩ <;> omega
    next hmarker =>
      split at h
      next hstart =>
        cases h
        refine ⟨2, .duplicateStartRule hstart.1 ((idxOf_eq_zero_iff hlhs).mp hstart.2),
          fun earlier hlt other hother => ?_⟩
        rcases hother.of_cut hv.known_ne hcut with ⟨_, hplace⟩ | ⟨rfl, _⟩
        · exact hmarker ((hv.mem_unmarkedPart_iff hmem).mpr hplace)
        · omega
      · cases h

end Vocabulary

namespace Grammar

open Production (Sides Legible Misread Readable Unreadable)

/-- The names that right-hand sides may be made of. -/
inductive Named (alphabet productions : List String) : String → Prop
  | terminal {name : String} (hname : name ∈ alphabet) (hne : name ≠ "") :
      Named alphabet productions name
  | nonterminal {text lhs : String} {rhs : List Char} (htext : text ∈ productions)
      (hsides : Sides text lhs rhs) (hne : lhs ≠ "") : Named alphabet productions lhs
  | endMarker : Named alphabet productions endMarkerName

/-- Where something is wrong: on which of the four ways through a description, at which
production, and at which of its checks. -/
structure Place where
  way : Nat
  production : Nat
  rank : Nat
deriving DecidableEq

def Place.Before (place other : Place) : Prop :=
  place.way < other.way ∨ place.way = other.way ∧
    (place.production < other.production ∨
      place.production = other.production ∧ place.rank < other.rank)

/-- Everything that is wrong with a description, whether or not it is ever noticed. -/
inductive Fault (alphabet productions : List String) : Place → GrammarError → Prop
  | reservedTerminal (h : endMarkerName ∈ alphabet) :
      Fault alphabet productions ⟨0, 0, 0⟩ .reservedTerminal
  | noProductions (h : productions = []) : Fault alphabet productions ⟨1, 0, 0⟩ .noProductions
  | heading {id rank : Nat} {text : String} {error : GrammarError}
      (htext : productions[id]? = some text) (h : Misread alphabet text rank error) :
      Fault alphabet productions ⟨2, id, rank⟩ error
  | body {id rank : Nat} {first start text lhs : String} {rest rhs : List Char}
      {error : GrammarError} (hfirst : productions[0]? = some first)
      (hstart : Sides first start rest) (htext : productions[id]? = some text)
      (hsides : Sides text lhs rhs)
      (h : Unreadable (Named alphabet productions) start id text lhs rhs rank error) :
      Fault alphabet productions ⟨3, id, rank⟩ error

def FirstFault (alphabet productions : List String) (place : Place) (error : GrammarError) :
    Prop :=
  Fault alphabet productions place error ∧
    ∀ earlier other, earlier.Before place → ¬ Fault alphabet productions earlier other

/-- A description that describes a grammar. -/
structure Admissible (alphabet productions : List String) : Prop where
  endMarker_not_mem : endMarkerName ∉ alphabet
  productions_ne_nil : productions ≠ []
  legible : ∀ text ∈ productions, ∃ lhs rhs, Legible alphabet text lhs rhs
  readable : ∀ {id : Nat} {first start text lhs : String} {rest rhs : List Char},
    productions[0]? = some first → Sides first start rest → productions[id]? = some text →
    Sides text lhs rhs → ∃ names, Readable (Named alphabet productions) start id lhs rhs names

variable {alphabet productions : List String} {place other : Place}
  {error different : GrammarError}

theorem Place.trichotomy (place other : Place) :
    place.Before other ∨ place = other ∨ other.Before place := by
  obtain ⟨way, production, rank⟩ := place
  obtain ⟨way', production', rank'⟩ := other
  simp only [Place.Before, Place.mk.injEq]
  omega

theorem Named.ne {name : String} (h : Named alphabet productions name) : name ≠ "" := by
  cases h with
  | terminal _ hne => exact hne
  | nonterminal _ _ hne => exact hne
  | endMarker => decide

theorem Fault.unique (h : Fault alphabet productions place error)
    (hother : Fault alphabet productions place different) : error = different := by
  cases h with
  | heading htext hmisread =>
      cases hother with
      | heading htext' hmisread' =>
          obtain rfl := Option.some.inj (htext.symm.trans htext')
          exact hmisread.unique hmisread'
  | body hfirst hstart htext hsides hunreadable =>
      cases hother with
      | body hfirst' hstart' htext' hsides' hunreadable' =>
          obtain rfl := Option.some.inj (hfirst.symm.trans hfirst')
          obtain rfl := Option.some.inj (htext.symm.trans htext')
          obtain ⟨rfl, -⟩ := hstart.unique hstart'
          obtain ⟨rfl, rfl⟩ := hsides.unique hsides'
          exact hunreadable.unique hunreadable'
  | _ =>
      cases hother
      rfl

theorem FirstFault.unique (h : FirstFault alphabet productions place error)
    (hother : FirstFault alphabet productions other different) : error = different := by
  rcases place.trichotomy other with hbefore | rfl | hbefore
  · exact absurd h.1 (hother.2 place error hbefore)
  · exact h.1.unique hother.1
  · exact absurd hother.1 (h.2 other different hbefore)

theorem Admissible.not_fault (h : Admissible alphabet productions) :
    ¬ Fault alphabet productions place error := by
  intro hfault
  cases hfault with
  | reservedTerminal hmem => exact h.endMarker_not_mem hmem
  | noProductions hnil => exact h.productions_ne_nil hnil
  | heading htext hmisread =>
      obtain ⟨lhs, rhs, hlegible⟩ := h.legible _ (List.mem_of_getElem? htext)
      exact hlegible.not_misread _ _ hmisread
  | body hfirst hstart htext hsides hunreadable =>
      obtain ⟨names, hreadable⟩ := h.readable hfirst hstart htext hsides
      exact hreadable.not_unreadable (fun _ => Named.ne) hunreadable

end Grammar
end CanonicalLR
