namespace CanonicalLR

/-! Finite sets as strictly increasing lists.  A set has one such list, so
equality of sets is equality of lists and is decidable. -/

structure OrderedSet (α : Type) [Ord α] where
  toList : List α
  increasing : toList.Pairwise fun first second => compare first second = .lt

namespace OrderedSet

variable {α : Type} [Ord α]

theorem eq_of_toList {first second : OrderedSet α}
    (h : first.toList = second.toList) : first = second := by
  cases first
  cases second
  cases h
  rfl

instance [DecidableEq α] : DecidableEq (OrderedSet α) := fun first second =>
  if h : first.toList = second.toList then isTrue (eq_of_toList h)
  else isFalse fun heq => h (congrArg toList heq)

instance : Membership α (OrderedSet α) where
  mem set a := a ∈ set.toList

instance [DecidableEq α] (a : α) (set : OrderedSet α) : Decidable (a ∈ set) :=
  inferInstanceAs (Decidable (a ∈ set.toList))

def empty : OrderedSet α := ⟨[], .nil⟩

def singleton (a : α) : OrderedSet α := ⟨[a], by simp⟩

def size (set : OrderedSet α) : Nat := set.toList.length

/-! Insertion walks to the place of the new element. -/

def place (a : α) : List α → List α
  | [] => [a]
  | b :: rest =>
      match compare a b with
      | .lt => a :: b :: rest
      | .eq => b :: rest
      | .gt => b :: place a rest

theorem eq_or_mem_of_mem_place {a x : α} {list : List α} (h : x ∈ place a list) :
    x = a ∨ x ∈ list := by
  induction list with
  | nil => simpa [place] using h
  | cons b rest ih =>
      unfold place at h
      split at h
      · simpa using h
      · exact .inr h
      · rcases List.mem_cons.mp h with rfl | h
        · simp
        · rcases ih h with rfl | h <;> simp [*]

theorem place_increasing [Std.TransOrd α] (a : α) {list : List α}
    (h : list.Pairwise fun first second => compare first second = .lt) :
    (place a list).Pairwise fun first second => compare first second = .lt := by
  induction list with
  | nil => simp [place]
  | cons b rest ih =>
      obtain ⟨hb, hrest⟩ := List.pairwise_cons.mp h
      unfold place
      split
      next hlt =>
        refine List.pairwise_cons.mpr ⟨fun c hc => ?_, h⟩
        rcases List.mem_cons.mp hc with rfl | hc
        · exact hlt
        · exact Std.TransCmp.lt_trans hlt (hb c hc)
      next => exact h
      next hgt =>
        refine List.pairwise_cons.mpr ⟨fun c hc => ?_, ih hrest⟩
        rcases eq_or_mem_of_mem_place hc with rfl | hc
        · exact Std.OrientedCmp.gt_iff_lt.mp hgt
        · exact hb c hc

def insert [Std.TransOrd α] (a : α) (set : OrderedSet α) : OrderedSet α :=
  ⟨place a set.toList, place_increasing a set.increasing⟩

def union [Std.TransOrd α] (first second : OrderedSet α) : OrderedSet α :=
  second.toList.foldl (fun set a => set.insert a) first

def ofList [Std.TransOrd α] (list : List α) : OrderedSet α :=
  list.foldl (fun set a => set.insert a) empty

/-! Membership decides a set, whatever the order in which it was put together. -/

@[simp] theorem not_mem_empty (x : α) : ¬ x ∈ (empty : OrderedSet α) :=
  List.not_mem_nil

@[simp] theorem mem_singleton {a x : α} : x ∈ singleton a ↔ x = a :=
  List.mem_singleton

theorem mem_place [Std.LawfulEqOrd α] {a x : α} {list : List α} :
    x ∈ place a list ↔ x = a ∨ x ∈ list := by
  refine ⟨eq_or_mem_of_mem_place, ?_⟩
  induction list with
  | nil => simp [place]
  | cons b rest ih =>
      intro h
      unfold place
      split
      next => simpa using h
      next heq =>
        have hab : a = b := Std.LawfulEqOrd.eq_of_compare heq
        subst hab
        simpa using h
      next =>
        rcases h with rfl | h
        · exact List.mem_cons_of_mem b (ih (.inl rfl))
        · rcases List.mem_cons.mp h with rfl | h
          · exact List.mem_cons_self
          · exact List.mem_cons_of_mem b (ih (.inr h))

section Members

variable [Std.TransOrd α] [Std.LawfulEqOrd α]

@[simp] theorem mem_insert {a x : α} {set : OrderedSet α} :
    x ∈ set.insert a ↔ x = a ∨ x ∈ set :=
  mem_place

theorem mem_foldl_insert {x : α} {list : List α} {set : OrderedSet α} :
    x ∈ list.foldl (fun set a => set.insert a) set ↔ x ∈ set ∨ x ∈ list := by
  induction list generalizing set with
  | nil => simp
  | cons a list ih =>
      rw [List.foldl_cons, ih, mem_insert, List.mem_cons, or_comm (a := x = a), or_assoc]

@[simp] theorem mem_union {x : α} {first second : OrderedSet α} :
    x ∈ first.union second ↔ x ∈ first ∨ x ∈ second :=
  mem_foldl_insert

@[simp] theorem mem_ofList {x : α} {list : List α} : x ∈ ofList list ↔ x ∈ list := by
  rw [ofList, mem_foldl_insert]
  simp

omit [Std.TransOrd α] in
theorem nodup (set : OrderedSet α) : set.toList.Nodup := by
  refine set.increasing.imp fun {a b} hlt heq => ?_
  subst heq
  rw [Std.ReflOrd.compare_self] at hlt
  cases hlt

theorem eq_of_mem_iff {first second : OrderedSet α}
    (h : ∀ x, x ∈ first ↔ x ∈ second) : first = second := by
  apply eq_of_toList
  have hperm : first.toList.Perm second.toList :=
    (List.perm_ext_iff_of_nodup first.nodup second.nodup).mpr h
  refine hperm.eq_of_pairwise ?_ first.increasing second.increasing
  intro a b _ _ hab hba
  exact absurd hba (Std.OrientedCmp.not_lt_of_lt hab)

end Members

/-! Sets are compared like their increasing lists, element by element; of two
sets one of which begins the other, the shorter one comes first. -/

instance : Ord (OrderedSet α) where
  compare first second := compare first.toList second.toList

instance [Std.TransOrd α] : Std.TransOrd (OrderedSet α) where
  eq_swap := Std.OrientedOrd.eq_swap (α := List α)
  isLE_trans := Std.TransOrd.isLE_trans (α := List α)

instance [Std.LawfulEqOrd α] : Std.LawfulEqOrd (OrderedSet α) where
  compare_self := Std.ReflOrd.compare_self (α := List α)
  eq_of_compare h := eq_of_toList (Std.LawfulEqOrd.eq_of_compare (α := List α) h)

end OrderedSet
end CanonicalLR
