import Mathlib.Logic.Function.Basic

namespace CanonicalLR.Indexed

/-! Computations on vectors.  Reading or changing a place that a vector does not have ends a
computation without a result, so a computation that has one never did so.

A vector of which every place is known from its index is written as a function. -/

variable {α β σ τ : Type}

/-- Changes the entry at an index, which has to be there. -/
def update? (entries : List α) (index : Nat) (f : α → α) : Option (List α) :=
  entries[index]?.map fun a => entries.set index (f a)

theorem update?_map {g : α → β} {f : α → α} {f' : β → β} (hcomm : ∀ a, f' (g a) = g (f a))
    (entries : List α) (index : Nat) :
    update? (entries.map g) index f' = (update? entries index f).map (List.map g) := by
  unfold update?
  rw [List.getElem?_map]
  cases entries[index]? with
  | none => rfl
  | some a => simp [hcomm, List.map_set]

/-- The entries from one index up to another, if the vector reaches so far. -/
def part? (entries : List α) (start stop : Nat) : Option (List α) :=
  if start ≤ stop ∧ stop ≤ entries.length then some ((entries.drop start).take (stop - start))
  else none

theorem part?_append (before inside behind : List α) :
    part? (before ++ inside ++ behind) before.length (before.length + inside.length) =
      some inside := by
  rw [part?, if_pos (by simp only [List.length_append]; omega), List.append_assoc,
    List.drop_left, Nat.add_sub_cancel_left, List.take_left]

def vector (length : Nat) (entry : Nat → α) : List α :=
  (List.range length).map entry

@[simp] theorem length_vector (length : Nat) (entry : Nat → α) :
    (vector length entry).length = length := by
  simp [vector]

theorem getElem?_vector {length index : Nat} (h : index < length) (entry : Nat → α) :
    (vector length entry)[index]? = some (entry index) := by
  simp [vector, h]

theorem getElem?_vector_of_le {length index : Nat} (h : length ≤ index) (entry : Nat → α) :
    (vector length entry)[index]? = none := by
  simp [vector, h]

theorem vector_congr {length : Nat} {entry other : Nat → α}
    (h : ∀ index < length, entry index = other index) :
    vector length entry = vector length other :=
  List.map_congr_left fun index hindex => h index (List.mem_range.mp hindex)

theorem replicate_eq_vector (length : Nat) (a : α) :
    List.replicate length a = vector length fun _ => a := by
  simp [vector, List.map_const']

theorem update?_vector {length index : Nat} (h : index < length) (entry : Nat → α)
    (f : α → α) :
    update? (vector length entry) index f =
      some (vector length (Function.update entry index (f (entry index)))) := by
  rw [update?, getElem?_vector h, Option.map_some]
  refine congrArg some (List.ext_getElem? fun other => ?_)
  by_cases hother : other < length
  · rw [List.getElem?_set, getElem?_vector hother, getElem?_vector hother, length_vector,
      Function.update_apply]
    by_cases heq : index = other
    · rw [if_pos heq, if_pos h, if_pos heq.symm]
    · rw [if_neg heq, if_neg (Ne.symm heq)]
  · rw [List.getElem?_set, getElem?_vector_of_le (Nat.le_of_not_lt hother),
      getElem?_vector_of_le (Nat.le_of_not_lt hother), if_neg (by omega)]

theorem vector_succ (length : Nat) (entry : Nat → α) :
    vector (length + 1) entry = vector length entry ++ [entry length] := by
  simp [vector, List.range_succ]

/-! Rows of one length that stand one behind the other. -/

theorem getElem?_flatten {rows : List (List α)} {width : Nat}
    (hrows : ∀ row ∈ rows, row.length = width) {column : Nat} (hcolumn : column < width)
    (index : Nat) :
    rows.flatten[index * width + column]? = rows[index]?.bind (·[column]?) := by
  induction rows generalizing index with
  | nil => rfl
  | cons row rows ih =>
      have hwidth := hrows row List.mem_cons_self
      cases index with
      | zero =>
          rw [List.flatten_cons, List.getElem?_append_left (by omega), Nat.zero_mul, Nat.zero_add]
          rfl
      | succ index =>
          have hplace : (index + 1) * width + column - row.length = index * width + column := by
            rw [Nat.succ_mul, hwidth]
            omega
          rw [List.flatten_cons, List.getElem?_append_right (by rw [Nat.succ_mul]; omega), hplace]
          exact ih (fun other hother => hrows other (List.mem_cons_of_mem row hother)) index

theorem set_flatten {rows : List (List α)} {width : Nat}
    (hrows : ∀ row ∈ rows, row.length = width) {column : Nat} (hcolumn : column < width)
    (index : Nat) (a : α) :
    rows.flatten.set (index * width + column) a =
      (rows.modify index (·.set column a)).flatten := by
  induction rows generalizing index with
  | nil => simp
  | cons row rows ih =>
      have hwidth := hrows row List.mem_cons_self
      cases index with
      | zero =>
          rw [List.flatten_cons, List.set_append_left _ _ (by omega), Nat.zero_mul, Nat.zero_add]
          rfl
      | succ index =>
          have hplace : (index + 1) * width + column - row.length = index * width + column := by
            rw [Nat.succ_mul, hwidth]
            omega
          rw [List.flatten_cons, List.set_append_right _ _ (by rw [Nat.succ_mul]; omega), hplace,
            ih fun other hother => hrows other (List.mem_cons_of_mem row hother)]
          rfl

/-! A loop whose steps all have a result computes what the plain steps do. -/

/-- A relation between two computations that each step keeps holds in the end. -/
theorem foldlM_of_step {f : σ → α → Option σ} {step : τ → α → τ} {list : List α}
    (R : σ → τ → Prop)
    (hstep : ∀ a ∈ list, ∀ s t, R s t → ∃ next, f s a = some next ∧ R next (step t a))
    {s : σ} {t : τ} (h : R s t) :
    ∃ last, list.foldlM f s = some last ∧ R last (list.foldl step t) := by
  induction list generalizing s t with
  | nil => exact ⟨s, rfl, h⟩
  | cons a list ih =>
      obtain ⟨next, hnext, hR⟩ := hstep a List.mem_cons_self s t h
      obtain ⟨last, hlast, hend⟩ :=
        ih (fun b hb => hstep b (List.mem_cons_of_mem a hb)) hR
      refine ⟨last, ?_, hend⟩
      rw [List.foldlM_cons, hnext]
      exact hlast

/-- A loop whose state is known from the elements it has passed. -/
theorem foldlM_eq_state {f : σ → α → Option σ} {list : List α} (state : List α → σ)
    (hstep : ∀ done a rest, list = done ++ a :: rest →
      f (state done) a = some (state (done ++ [a]))) :
    list.foldlM f (state []) = some (state list) := by
  have hgo : ∀ rest done, list = done ++ rest →
      rest.foldlM f (state done) = some (state list) := by
    intro rest
    induction rest with
    | nil =>
        intro done hlist
        rw [hlist, List.append_nil]
        rfl
    | cons a rest ih =>
        intro done hlist
        rw [List.foldlM_cons, hstep done a rest hlist]
        exact ih (done ++ [a]) (by rw [hlist, List.append_assoc, List.singleton_append])
  exact hgo list [] rfl

theorem foldlM_eq_some {f : σ → α → Option σ} {step : σ → α → σ} {list : List α}
    (h : ∀ a ∈ list, ∀ s, f s a = some (step s a)) (s : σ) :
    list.foldlM f s = some (list.foldl step s) := by
  have hstep : ∀ a ∈ list, ∀ s t : σ, s = t → ∃ next, f s a = some next ∧ next = step t a := by
    rintro a ha s _ rfl
    exact ⟨_, h a ha s, rfl⟩
  obtain ⟨last, hlast, rfl⟩ := foldlM_of_step (· = ·) hstep (rfl : s = s)
  exact hlast

theorem mapM_eq_some {f : α → Option β} {g : α → β} {list : List α}
    (h : ∀ a ∈ list, f a = some (g a)) : list.mapM f = some (list.map g) := by
  induction list with
  | nil => rfl
  | cons a list ih =>
      rw [List.mapM_cons, h a List.mem_cons_self,
        ih fun b hb => h b (List.mem_cons_of_mem a hb)]
      rfl

/-- A loop of which a step may end the whole with an error. -/
def mapExcept? {ε : Type} (f : α → Option (Except ε β)) :
    List α → Option (Except ε (List β))
  | [] => some (.ok [])
  | a :: list =>
      (f a).bind fun
        | .error error => some (.error error)
        | .ok b => (mapExcept? f list).map fun rest => rest.map (b :: ·)

theorem mapExcept?_eq_some {ε : Type} {f : α → Option (Except ε β)} {g : α → Except ε β}
    {list : List α} (h : ∀ a ∈ list, f a = some (g a)) :
    mapExcept? f list = some (list.mapM g) := by
  induction list with
  | nil => rfl
  | cons a list ih =>
      rw [mapExcept?, h a List.mem_cons_self, List.mapM_cons,
        ih fun b hb => h b (List.mem_cons_of_mem a hb)]
      cases g a with
      | error error => rfl
      | ok b => cases list.mapM g <;> rfl

end CanonicalLR.Indexed
