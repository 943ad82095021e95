import Mathlib.Data.List.Basic

/-!
# Lists

Facts about lists that more than one part of the theory needs: where an element stands in two lists
in a row, how far the elements that pass a test go, what is left when one element is removed, and in
how many parts a list is split.
-/

namespace FloatLang

variable {α : Type} {xs ys xs' ys' : List α} {x x' : α} {test : α → Bool}

/-! ### Where an element stands -/

/-- An element of two lists in a row stands in one of them. -/
theorem cases_append_eq_append_cons (h : xs ++ ys = xs' ++ x :: ys') :
    (∃ mid, xs = xs' ++ x :: mid ∧ ys' = mid ++ ys) ∨
      ∃ mid, xs' = xs ++ mid ∧ ys = mid ++ x :: ys' := by
  rcases List.append_eq_append_iff.1 h with ⟨mid, rfl, hys⟩ | ⟨mid, rfl, hmid⟩
  · exact .inr ⟨mid, rfl, hys⟩
  · cases mid with
    | nil => exact .inr ⟨[], by simp, hmid.symm⟩
    | cons y mid =>
      obtain ⟨rfl, rfl⟩ := List.cons.inj hmid
      exact .inl ⟨mid, rfl, rfl⟩

/-- Of two elements of a list, one stands behind the other, unless they are the same. -/
theorem cases_append_cons_eq_append_cons (h : xs ++ x :: ys = xs' ++ x' :: ys') :
    (xs = xs' ∧ ys = ys') ∨ (∃ mid, xs = xs' ++ x' :: mid) ∨ ∃ mid, xs' = xs ++ x :: mid := by
  rcases cases_append_eq_append_cons h with ⟨mid, hxs, -⟩ | ⟨mid, hxs', hys⟩
  · exact .inr (.inl ⟨mid, hxs⟩)
  · cases mid with
    | nil => exact .inl ⟨(hxs'.trans (List.append_nil xs)).symm, (List.cons.inj hys).2⟩
    | cons y mid =>
      obtain ⟨rfl, -⟩ := List.cons.inj hys
      exact .inr (.inr ⟨mid, hxs'⟩)

/-- The first `n` elements of a sequence, the next one, and the `k` elements behind it. -/
theorem map_range_split (f : Nat → α) (n k : Nat) :
    (List.range (n + 1 + k)).map f =
      (List.range n).map f ++ f n :: (List.range k).map fun i => f (n + 1 + i) := by
  rw [List.range_add, List.range_succ, List.map_append, List.map_append, List.map_singleton,
    List.append_assoc, List.singleton_append, List.map_map]
  rfl

/-! ### Tests -/

/-- What passes a test goes on until something does not. -/
theorem span_append (hxs : ∀ x ∈ xs, test x = true) (hys : ∀ y ∈ ys.head?, test y = false) :
    (xs ++ ys).takeWhile test = xs ∧ (xs ++ ys).dropWhile test = ys := by
  rw [List.takeWhile_append_of_pos hxs, List.dropWhile_append_of_pos hxs]
  cases ys with
  | nil => simp
  | cons y ys => simp [hys y rfl]

/-- Removing the first element that passes a test removes all of them, if no two pass it. -/
theorem eraseP_eq_filter (h : xs.Pairwise fun x y => test x = true → test y = false) :
    xs.eraseP test = xs.filter (!test ·) := by
  induction xs with
  | nil => rfl
  | cons x xs ih =>
    obtain ⟨hlater, hrest⟩ := List.pairwise_cons.1 h
    by_cases hx : test x = true
    · have hall : ∀ y ∈ xs, (!test y) = true := fun y hy => by rw [hlater y hy hx]; rfl
      rw [List.eraseP_cons_of_pos hx, List.filter_cons_of_neg (by simp [hx]),
        List.filter_eq_self.2 hall]
    · rw [List.eraseP_cons_of_neg hx, List.filter_cons_of_pos (by simp [hx]), ih hrest]

/-! ### Parts -/

/-- There is one part more than there are separators. -/
theorem length_splitOn [DecidableEq α] (x : α) (xs : List α) :
    (xs.splitOn x).length = xs.count x + 1 := by
  induction xs with
  | nil => rfl
  | cons y ys ih =>
    rw [List.splitOn_cons_eq_if_modifyHead, List.count_cons]
    split
    next hy => rw [List.length_cons, ih]
    next hy => rw [List.length_modifyHead, ih, Nat.add_zero]

/-- No part has a separator in it. -/
theorem notMem_of_mem_splitOn [DecidableEq α] (h : ys ∈ xs.splitOn x) : x ∉ ys := by
  induction xs generalizing ys with
  | nil =>
    obtain rfl : ys = [] := by simpa using h
    exact List.not_mem_nil
  | cons z xs ih =>
    rw [List.splitOn_cons_eq_if_modifyHead] at h
    split at h
    next hz =>
      rcases List.mem_cons.1 h with rfl | h
      · exact List.not_mem_nil
      · exact ih h
    next hz =>
      obtain ⟨first, parts, hparts⟩ := List.exists_cons_of_ne_nil (List.splitOn_ne_nil x xs)
      rw [hparts, List.modifyHead_cons, List.mem_cons] at h
      rw [hparts] at ih
      rcases h with rfl | h
      · rw [List.mem_cons, not_or]
        exact ⟨fun heq => hz (beq_iff_eq.2 heq.symm), ih List.mem_cons_self⟩
      · exact ih (List.mem_cons_of_mem _ h)

/-- What is in front of the first separator is in front of the first part. -/
theorem splitOn_append [DecidableEq α] (h : x ∉ xs) (ys : List α) :
    (xs ++ ys).splitOn x = (ys.splitOn x).modifyHead (xs ++ ·) := by
  induction xs with
  | nil =>
    rw [List.nil_append]
    cases ys.splitOn x <;> rfl
  | cons y xs ih =>
    obtain ⟨hne, hrest⟩ := not_or.1 (mt List.mem_cons.2 h)
    rw [List.cons_append, List.splitOn_cons_eq_if_modifyHead, if_neg (by simpa using Ne.symm hne),
      ih hrest]
    cases ys.splitOn x <;> rfl

/-- A translation that makes separators of separators only translates part by part. -/
theorem splitOn_flatMap {β : Type} [DecidableEq α] [DecidableEq β] {f : α → List β} {b : β}
    (hx : f x = [b]) (hf : ∀ y, y ≠ x → b ∉ f y) (xs : List α) :
    (xs.flatMap f).splitOn b = (xs.splitOn x).map (·.flatMap f) := by
  induction xs with
  | nil => rfl
  | cons y xs ih =>
    rw [List.flatMap_cons, List.splitOn_cons_eq_if_modifyHead]
    by_cases hy : y = x
    · rw [hy, hx, List.singleton_append, List.splitOn_cons_eq_if_modifyHead, ih]
      simp
    · rw [splitOn_append (hf y hy), ih, if_neg (by simpa using hy)]
      cases xs.splitOn x <;> rfl

end FloatLang
