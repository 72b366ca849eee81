import Mathlib.Data.List.Basic

/-! Lists whose elements are found one by one, all of them or none; the element at a place
when a list grows or one of its elements changes. -/

namespace Lists

variable {α β : Type} {f : α → Option β} {xs : List α}

theorem mem_of_mapM_eq_some {ys : List β} (h : xs.mapM f = some ys) {y : β} (hy : y ∈ ys) :
    ∃ x ∈ xs, f x = some y := by
  induction xs generalizing ys with
  | nil =>
    cases h
    cases hy
  | cons x xs ih =>
    simp only [List.mapM_cons, Option.bind_eq_bind, Option.bind_eq_some_iff] at h
    obtain ⟨z, hz, zs, hzs, heq⟩ := h
    cases heq
    rcases List.mem_cons.mp hy with rfl | hy
    · exact ⟨x, List.mem_cons_self, hz⟩
    · obtain ⟨w, hw, hwy⟩ := ih hzs hy
      exact ⟨w, List.mem_cons_of_mem x hw, hwy⟩

theorem mapM_cover {ys : List β} (h : xs.mapM f = some ys) {x : α} (hx : x ∈ xs) :
    ∃ y ∈ ys, f x = some y := by
  induction xs generalizing ys with
  | nil => cases hx
  | cons z xs ih =>
    simp only [List.mapM_cons, Option.bind_eq_bind, Option.bind_eq_some_iff] at h
    obtain ⟨y, hy, zs, hzs, heq⟩ := h
    cases heq
    rcases List.mem_cons.mp hx with rfl | hx
    · exact ⟨y, List.mem_cons_self, hy⟩
    · obtain ⟨w, hw, hxw⟩ := ih hzs hx
      exact ⟨w, List.mem_cons_of_mem y hw, hxw⟩

theorem exists_of_mapM_eq_none (h : xs.mapM f = none) : ∃ x ∈ xs, f x = none := by
  induction xs with
  | nil => cases h
  | cons x xs ih =>
    cases hx : f x with
    | none => exact ⟨x, List.mem_cons_self, hx⟩
    | some y =>
      cases hxs : xs.mapM f with
      | none =>
        obtain ⟨z, hz, hnone⟩ := ih hxs
        exact ⟨z, List.mem_cons_of_mem x hz, hnone⟩
      | some ys => simp [List.mapM_cons, hx, hxs] at h

theorem getElem?_concat {x y : α} {j : Nat} (h : (xs ++ [x])[j]? = some y) :
    xs[j]? = some y ∨ j = xs.length ∧ y = x := by
  by_cases hj : j < xs.length
  · rw [List.getElem?_append_left hj] at h
    exact .inl h
  · rw [List.getElem?_append_right (Nat.le_of_not_lt hj)] at h
    have hzero : j - xs.length = 0 := by
      have := (List.getElem?_eq_some_iff.mp h).1
      simp only [List.length_singleton] at this
      omega
    rw [hzero] at h
    exact .inr ⟨by omega, (Option.some.inj h).symm⟩

theorem mem_set_cases {i : Nat} {x y : α} (h : y ∈ xs.set i x) :
    y = x ∨ ∃ j, xs[j]? = some y ∧ j ≠ i := by
  obtain ⟨j, hj⟩ := List.getElem?_of_mem h
  rw [List.getElem?_set] at hj
  split at hj
  · split at hj
    · exact .inl (Option.some.inj hj).symm
    · cases hj
  · rename_i hij
    exact .inr ⟨j, hj, fun h => hij h.symm⟩

theorem take_extend {ys : List α} (h : xs <+: ys) {k : Nat} (hk : k ≤ xs.length) :
    ys.take k = xs.take k := by
  obtain ⟨zs, rfl⟩ := h
  exact List.take_append_of_le_length hk

theorem getElem?_extend {ys : List α} (h : xs <+: ys) {k : Nat} {x : α}
    (hk : xs[k]? = some x) : ys[k]? = some x := by
  obtain ⟨hlt, rfl⟩ := List.getElem?_eq_some_iff.mp hk
  exact List.prefix_iff_getElem?.mp h k hlt

end Lists
