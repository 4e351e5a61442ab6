import CanonicalLR.Proofs.Grammar.WellFormed

namespace CanonicalLR

/-! Cutting a text into names from left to right, always taking the longest known name that
the rest begins with.  Names are texts here, so cuts can be spoken of before the symbols of
a grammar have their numbers; segmentation finds the cut of a text, or the place where it
gets stuck. -/

structure Longest (known : String → Prop) (text : List Char) (name : String) : Prop where
  is_known : known name
  begins : name.toList <+: text
  length_le : ∀ other, known other → other.toList <+: text → other.length ≤ name.length

/-- The names that are taken off a text one by one, and what is left of it. -/
inductive Cut (known : String → Prop) : List Char → List String → List Char → Prop
  | nil (text : List Char) : Cut known text [] text
  | cons {text rest left : List Char} {name : String} {names : List String}
      (hlongest : Longest known text name) (htext : text = name.toList ++ rest)
      (hrest : Cut known rest names left) : Cut known text (name :: names) left

/-- A cut comes to a place behind so many bytes where no known name fits. -/
def Stuck (known : String → Prop) (text : List Char) (offset : Nat) : Prop :=
  ∃ names left, Cut known text names left ∧ left ≠ [] ∧
    (∀ name, known name → ¬ name.toList <+: left) ∧
    offset = Text.byteLength (names.flatMap String.toList)

section

variable {known : String → Prop} {text left : List Char} {name : String}
  {names : List String}

theorem eq_of_prefix {first second : String} (hfirst : first.toList <+: text)
    (hsecond : second.toList <+: text) (hlength : first.length = second.length) :
    first = second := by
  have hlist : first.toList.length = second.toList.length := by
    rw [String.length_toList, String.length_toList, hlength]
  have hfront := List.prefix_of_prefix_length_le hfirst hsecond (Nat.le_of_eq hlist)
  exact String.toList_inj.mp (hfront.eq_of_length hlist)

theorem length_lt_of_append {rest : List Char} (hne : name ≠ "")
    (htext : name.toList ++ rest = text) : rest.length < text.length := by
  have hpos : 0 < name.toList.length :=
    List.length_pos_iff.mpr fun hnil => hne (String.toList_eq_nil_iff.mp hnil)
  rw [← htext, List.length_append]
  omega

theorem Longest.unique {other : String} (h : Longest known text name)
    (hother : Longest known text other) : name = other :=
  eq_of_prefix h.begins hother.begins
    (Nat.le_antisymm (hother.length_le name h.is_known h.begins)
      (h.length_le other hother.is_known hother.begins))

theorem exists_longest {name : String} (hknown : known name)
    (hbegins : name.toList <+: text) : ∃ longest, Longest known text longest := by
  by_cases hmore : ∃ other, known other ∧ other.toList <+: text ∧ name.length < other.length
  · obtain ⟨other, hother, hfront, hlt⟩ := hmore
    have hle : other.length ≤ text.length := by
      rw [← String.length_toList]
      exact hfront.length_le
    exact exists_longest hother hfront
  · refine ⟨name, hknown, hbegins, fun other hother hfront => ?_⟩
    exact Nat.le_of_not_lt fun hlt => hmore ⟨other, hother, hfront, hlt⟩
termination_by text.length - name.length

namespace Cut

theorem text_eq (h : Cut known text names left) :
    text = names.flatMap String.toList ++ left := by
  induction h with
  | nil text => rfl
  | cons _ htext _ ih => rw [htext, ih, List.flatMap_cons, List.append_assoc]

theorem join_eq (h : Cut known text names []) : String.join names = String.ofList text := by
  rw [← String.toList_inj, String.toList_join, String.toList_ofList, h.text_eq, List.append_nil]

theorem known_of_mem (h : Cut known text names left) : ∀ name ∈ names, known name := by
  induction h with
  | nil text => simp
  | cons hlongest _ _ ih =>
      exact List.forall_mem_cons.mpr ⟨hlongest.is_known, ih⟩

/-- Nothing but the text decides a cut that cannot go on. -/
theorem unique {others : List String} {rest : List Char} (h : Cut known text names left)
    (hleft : ∀ name, known name → ¬ name.toList <+: left)
    (hother : Cut known text others rest)
    (hrest : ∀ name, known name → ¬ name.toList <+: rest) : names = others ∧ left = rest := by
  induction h generalizing others rest with
  | nil text =>
      cases hother with
      | nil => exact ⟨rfl, rfl⟩
      | cons hlongest => exact absurd hlongest.begins (hleft _ hlongest.is_known)
  | cons hlongest htext _ ih =>
      cases hother with
      | nil => exact absurd hlongest.begins (hrest _ hlongest.is_known)
      | cons hlongest' htext' hcut' =>
          obtain rfl := hlongest.unique hlongest'
          obtain rfl := List.append_cancel_left (htext.symm.trans htext')
          obtain ⟨rfl, rfl⟩ := ih hleft hcut' hrest
          exact ⟨rfl, rfl⟩

/-- Every text can be cut until no name fits. -/
theorem exists_maximal (hne : ∀ name, known name → name ≠ "") (text : List Char) :
    ∃ names left, Cut known text names left ∧
      ∀ name, known name → ¬ name.toList <+: left := by
  by_cases hsome : ∃ name, known name ∧ name.toList <+: text
  · obtain ⟨first, hfirst, hbegins⟩ := hsome
    obtain ⟨name, hlongest⟩ := exists_longest hfirst hbegins
    obtain ⟨rest, hrest⟩ := hlongest.begins
    have hshort := length_lt_of_append (hne name hlongest.is_known) hrest
    obtain ⟨names, left, hcut, hleft⟩ := exists_maximal hne rest
    exact ⟨name :: names, left, .cons hlongest hrest.symm hcut, hleft⟩
  · exact ⟨[], text, .nil text, fun name hname hbegins => hsome ⟨name, hname, hbegins⟩⟩
termination_by text.length

theorem not_begins_nil (hne : ∀ name, known name → name ≠ "") :
    ∀ name, known name → ¬ name.toList <+: [] := by
  intro name hname hbegins
  apply hne name hname
  rw [← String.toList_eq_nil_iff]
  exact List.prefix_nil.mp hbegins

/-- A text has a whole cut, or else a place where it gets stuck. -/
theorem exists_whole_iff (hne : ∀ name, known name → name ≠ "") :
    (∃ names, Cut known text names []) ↔ ∀ offset, ¬ Stuck known text offset := by
  constructor
  · rintro ⟨names, hcut⟩ offset ⟨others, left, hother, hleft, hends, _⟩
    exact hleft (hcut.unique (not_begins_nil hne) hother hends).2.symm
  · intro hstuck
    obtain ⟨names, left, hcut, hends⟩ := exists_maximal hne text
    by_cases hleft : left = []
    · exact ⟨names, hleft ▸ hcut⟩
    · exact absurd ⟨names, left, hcut, hleft, hends, rfl⟩ (hstuck _)

end Cut

theorem Stuck.unique {offset other : Nat} (h : Stuck known text offset)
    (hother : Stuck known text other) : offset = other := by
  obtain ⟨names, left, hcut, _, hends, rfl⟩ := h
  obtain ⟨others, rest, hcut', _, hends', rfl⟩ := hother
  rw [(hcut.unique hends hcut' hends').1]

end

namespace Vocabulary

variable {v : Vocabulary} {text : List Char} {symbols : List Symbol}

def Known (v : Vocabulary) (name : String) : Prop :=
  ∃ symbol ∈ v.symbols, v.name symbol = name

theorem known_name {symbol : Symbol} (h : symbol ∈ v.symbols) : v.Known (v.name symbol) :=
  ⟨symbol, h, rfl⟩

/-- Every symbol has a name of its own. -/
structure Distinct (v : Vocabulary) : Prop where
  name_ne : ∀ symbol ∈ v.symbols, v.name symbol ≠ ""
  name_injective : ∀ first ∈ v.symbols, ∀ second ∈ v.symbols,
    v.name first = v.name second → first = second

theorem Distinct.known_ne (hv : v.Distinct) : ∀ name, v.Known name → name ≠ "" := by
  rintro _ ⟨symbol, hsymbol, rfl⟩
  exact hv.name_ne symbol hsymbol

theorem Distinct.eq_of_map_name (hv : v.Distinct) {first second : List Symbol}
    (hfirst : ∀ symbol ∈ first, symbol ∈ v.symbols)
    (hsecond : ∀ symbol ∈ second, symbol ∈ v.symbols)
    (h : first.map v.name = second.map v.name) : first = second := by
  induction first generalizing second with
  | nil => exact (List.map_eq_nil_iff.mp h.symm).symm
  | cons symbol first ih =>
      obtain ⟨other, rest, rfl, hname, hrest⟩ := List.map_eq_cons_iff.mp h.symm
      obtain ⟨hsymbol, hfirst⟩ := List.forall_mem_cons.mp hfirst
      obtain ⟨hother, hsecond⟩ := List.forall_mem_cons.mp hsecond
      rw [hv.name_injective symbol hsymbol other hother hname.symm,
        ih hfirst hsecond hrest.symm]

theorem begins_iff {symbol : Symbol} :
    v.begins text symbol = true ↔ (v.name symbol).toList <+: text :=
  List.isPrefixOf_iff_prefix

theorem longer_cases (v : Vocabulary) (best : Option Symbol) (symbol : Symbol) :
    (v.longer best symbol = some symbol ∧
      ∀ other, best = some other → (v.name other).length < (v.name symbol).length) ∨
    ∃ other, best = some other ∧ v.longer best symbol = some other ∧
      (v.name symbol).length ≤ (v.name other).length := by
  cases best with
  | none => exact .inl ⟨rfl, by simp⟩
  | some other =>
      unfold longer
      dsimp only
      split
      next hlt =>
        refine .inl ⟨rfl, ?_⟩
        rintro _ ⟨⟩
        exact hlt
      next hle => exact .inr ⟨other, rfl, rfl, Nat.le_of_not_lt hle⟩

theorem length_le_of_foldl_longer {candidates : List Symbol} {best : Option Symbol}
    {symbol : Symbol} (h : candidates.foldl v.longer best = some symbol) :
    (∀ other ∈ candidates, (v.name other).length ≤ (v.name symbol).length) ∧
      ∀ other, best = some other → (v.name other).length ≤ (v.name symbol).length := by
  induction candidates generalizing best with
  | nil =>
      refine ⟨by simp, ?_⟩
      rintro other rfl
      cases h
      exact Nat.le_refl _
  | cons head candidates ih =>
      obtain ⟨hrest, hbest⟩ := ih h
      rcases v.longer_cases best head with ⟨heq, hlt⟩ | ⟨kept, rfl, heq, hle⟩
      · have hhead := hbest head heq
        refine ⟨List.forall_mem_cons.mpr ⟨hhead, hrest⟩, fun other hother => ?_⟩
        exact Nat.le_trans (Nat.le_of_lt (hlt other hother)) hhead
      · have hkept := hbest kept heq
        refine ⟨List.forall_mem_cons.mpr ⟨Nat.le_trans hle hkept, hrest⟩, ?_⟩
        rintro _ ⟨⟩
        exact hkept

theorem foldl_longer_ne_none {symbol : Symbol} (candidates : List Symbol) :
    candidates.foldl v.longer (some symbol) ≠ none := by
  induction candidates generalizing symbol with
  | nil => simp
  | cons head candidates ih =>
      rcases v.longer_cases (some symbol) head with ⟨heq, _⟩ | ⟨other, _, heq, _⟩
      · rw [List.foldl_cons, heq]
        exact ih
      · rw [List.foldl_cons, heq]
        exact ih

theorem longest_of_longestMatch {symbol : Symbol} (h : v.longestMatch text = some symbol) :
    symbol ∈ v.symbols ∧ Longest v.Known text (v.name symbol) := by
  rcases foldl_longer_mem h with hmem | hnone
  · obtain ⟨hsymbol, hbegins⟩ := List.mem_filter.mp hmem
    refine ⟨hsymbol, known_name hsymbol, begins_iff.mp hbegins, ?_⟩
    rintro _ ⟨other, hother, rfl⟩ hfront
    exact (length_le_of_foldl_longer h).1 other
      (List.mem_filter.mpr ⟨hother, begins_iff.mpr hfront⟩)
  · cases hnone

theorem not_begins_of_longestMatch (h : v.longestMatch text = none) :
    ∀ name, v.Known name → ¬ name.toList <+: text := by
  rintro _ ⟨symbol, hsymbol, rfl⟩ hfront
  have hmem := List.mem_filter.mpr ⟨hsymbol, begins_iff.mpr hfront⟩
  unfold longestMatch at h
  cases hfilter : v.symbols.filter (v.begins text) with
  | nil =>
      rw [hfilter] at hmem
      exact absurd hmem List.not_mem_nil
  | cons head candidates =>
      rw [hfilter] at h
      exact foldl_longer_ne_none candidates h

/-! Segmentation takes one name after the other. -/

theorem segmentFrom_append {symbol : Symbol} {rest : List Char} (offset : Nat)
    (hne : v.name symbol ≠ "")
    (h : v.longestMatch ((v.name symbol).toList ++ rest) = some symbol) :
    v.segmentFrom offset 0 ((v.name symbol).toList ++ rest) =
      (v.segmentFrom (offset + Text.byteLength (v.name symbol).toList) 0 rest).map
        (symbol :: ·) := by
  obtain ⟨c, name, hname⟩ :=
    List.exists_cons_of_ne_nil (fun hnil => hne (String.toList_eq_nil_iff.mp hnil))
  have hlength : (v.name symbol).length - 1 = name.length := by
    rw [← String.length_toList, hname, List.length_cons, Nat.add_sub_cancel]
  rw [hname, List.cons_append] at h ⊢
  rw [segmentFrom]
  simp only [h, hlength]
  rw [segmentFrom_eq_drop, List.take_left, List.drop_left, Text.byteLength_cons,
    ← Nat.add_assoc]

theorem segmentFrom_eq_error {offset : Nat} {c : Char} (h : v.longestMatch (c :: text) = none) :
    v.segmentFrom offset 0 (c :: text) = .error offset := by
  rw [segmentFrom]
  simp only [h]

/-- What segmentation finds in a text, when so many bytes stand in front of it. -/
inductive Segmented (v : Vocabulary) (offset : Nat) (text : List Char) :
    Except Nat (List Symbol) → Prop
  | ok {symbols : List Symbol} (hsymbols : ∀ symbol ∈ symbols, symbol ∈ v.symbols)
      (hcut : Cut v.Known text (symbols.map v.name) []) : Segmented v offset text (.ok symbols)
  | error {names : List String} {left : List Char} (hcut : Cut v.Known text names left)
      (hleft : left ≠ []) (hends : ∀ name, v.Known name → ¬ name.toList <+: left) :
      Segmented v offset text
        (.error (offset + Text.byteLength (names.flatMap String.toList)))

theorem Segmented.cons {symbol : Symbol} {rest : List Char} {offset : Nat}
    {result : Except Nat (List Symbol)} (hsymbol : symbol ∈ v.symbols)
    (hlongest : Longest v.Known text (v.name symbol))
    (htext : text = (v.name symbol).toList ++ rest)
    (h : v.Segmented (offset + Text.byteLength (v.name symbol).toList) rest result) :
    v.Segmented offset text (result.map (symbol :: ·)) := by
  cases h with
  | ok hsymbols hcut =>
      exact .ok (List.forall_mem_cons.mpr ⟨hsymbol, hsymbols⟩) (.cons hlongest htext hcut)
  | @error names left hcut hleft hends =>
      have herror : v.Segmented offset text _ :=
        .error (.cons hlongest htext hcut) hleft hends
      rwa [List.flatMap_cons, Text.byteLength_append, ← Nat.add_assoc] at herror

theorem segmentFrom_segmented (hv : v.Distinct) (offset : Nat) (text : List Char) :
    v.Segmented offset text (v.segmentFrom offset 0 text) := by
  cases text with
  | nil => exact .ok (by simp) (.nil [])
  | cons c text =>
      cases hmatch : v.longestMatch (c :: text) with
      | none =>
          rw [segmentFrom_eq_error hmatch]
          exact .error (.nil _) (List.cons_ne_nil c text) (not_begins_of_longestMatch hmatch)
      | some symbol =>
          obtain ⟨hsymbol, hlongest⟩ := longest_of_longestMatch hmatch
          obtain ⟨rest, hrest⟩ := hlongest.begins
          have hne := hv.name_ne symbol hsymbol
          have hshort := length_lt_of_append hne hrest
          rw [← hrest] at hmatch hlongest ⊢
          rw [segmentFrom_append offset hne hmatch]
          exact (segmentFrom_segmented hv _ rest).cons hsymbol hlongest rfl
termination_by text.length
decreasing_by
  exact hshort

theorem segment_eq_ok_iff (hv : v.Distinct) :
    v.segment text = .ok symbols ↔
      (∀ symbol ∈ symbols, symbol ∈ v.symbols) ∧ Cut v.Known text (symbols.map v.name) [] := by
  have hends := Cut.not_begins_nil hv.known_ne
  have hfound := segmentFrom_segmented hv 0 text
  rw [segment]
  constructor
  · intro h
    rw [h] at hfound
    cases hfound with
    | ok hsymbols hcut => exact ⟨hsymbols, hcut⟩
  · rintro ⟨hsymbols, hcut⟩
    generalize v.segmentFrom 0 0 text = result at hfound
    cases hfound with
    | @ok others hothers hother =>
        rw [hv.eq_of_map_name hothers hsymbols (hother.unique hends hcut hends).1]
    | error hother hleft hstuck =>
        exact absurd (hother.unique hstuck hcut hends).2 hleft

theorem segment_eq_error_iff (hv : v.Distinct) {offset : Nat} :
    v.segment text = .error offset ↔ Stuck v.Known text offset := by
  have hfound := segmentFrom_segmented hv 0 text
  rw [segment]
  constructor
  · intro h
    rw [h] at hfound
    generalize hresult : Except.error offset = result at hfound
    cases hfound with
    | ok => cases hresult
    | error hcut hleft hends =>
        cases hresult
        exact ⟨_, _, hcut, hleft, hends, Nat.zero_add _⟩
  · intro hstuck
    generalize v.segmentFrom 0 0 text = result at hfound
    cases hfound with
    | ok _ hcut => exact absurd hstuck ((Cut.exists_whole_iff hv.known_ne).mp ⟨_, hcut⟩ offset)
    | error hcut hleft hends =>
        rw [hstuck.unique ⟨_, _, hcut, hleft, hends, rfl⟩, Nat.zero_add]

end Vocabulary
end CanonicalLR
