import Mathlib.Logic.Function.Basic
import Mathlib.Logic.Relation

/-! Disjoint sets as a forest of parent pointers, with path compression and
without ranks: one union hangs one root under another. -/

namespace Disjoint

variable {α : Type*}

/-- Every walk up the parents reaches a root within `height` steps; a root is its
own parent. -/
structure Forest (α : Type*) where
  parent : α → α
  height : Nat
  ranked : ∃ rank : α → Nat, ∀ a, rank a ≤ height ∧ (parent a ≠ a → rank (parent a) < rank a)

namespace Forest

def discrete : Forest α where
  parent a := a
  height := 0
  ranked := ⟨fun _ => 0, fun _ => ⟨Nat.le_refl _, fun h => absurd rfl h⟩⟩

variable [DecidableEq α]

def climb (parent : α → α) : Nat → α → α
  | 0, a => a
  | n + 1, a => if parent a = a then a else climb parent n (parent a)

def root (f : Forest α) (a : α) : α := climb f.parent f.height a

theorem parent_root (f : Forest α) (a : α) : f.parent (f.root a) = f.root a := by
  obtain ⟨rank, hrank⟩ := f.ranked
  suffices h : ∀ n a, rank a ≤ n → f.parent (climb f.parent n a) = climb f.parent n a from
    h f.height a (hrank a).1
  intro n
  induction n with
  | zero =>
    intro a ha
    by_contra hne
    have := (hrank a).2 hne
    omega
  | succ n ih =>
    intro a ha
    by_cases hroot : f.parent a = a
    · simp [climb, hroot]
    · have := (hrank a).2 hroot
      simpa [climb, hroot] using ih (f.parent a) (by omega)

theorem root_eq_of (f : Forest α) {g : α → α} (hparent : ∀ a, g (f.parent a) = g a)
    (hroot : ∀ a, f.parent a = a → g a = a) (a : α) : f.root a = g a := by
  have hclimb : ∀ n a, g (climb f.parent n a) = g a := by
    intro n
    induction n with
    | zero => exact fun _ => rfl
    | succ n ih =>
      intro a
      by_cases h : f.parent a = a
      · simp [climb, h]
      · simp only [climb, h, if_false, ih, hparent]
  exact (hroot _ (f.parent_root a)).symm.trans (hclimb f.height a)

theorem root_of_parent_eq (f : Forest α) {a : α} (h : f.parent a = a) : f.root a = a := by
  have hclimb : ∀ n, climb f.parent n a = a := by
    intro n
    cases n with
    | zero => rfl
    | succ n => simp [climb, h]
  exact hclimb f.height

theorem root_root (f : Forest α) (a : α) : f.root (f.root a) = f.root a :=
  f.root_of_parent_eq (f.parent_root a)

theorem root_parent (f : Forest α) (a : α) : f.root (f.parent a) = f.root a := by
  obtain ⟨rank, hrank⟩ := f.ranked
  have hclimb : ∀ n a, rank a ≤ n → climb f.parent n (f.parent a) = climb f.parent n a := by
    intro n
    induction n with
    | zero =>
      intro a ha
      by_contra hne
      have := (hrank a).2 hne
      omega
    | succ n ih =>
      intro a ha
      by_cases hroot : f.parent a = a
      · rw [hroot]
      · have hlt := (hrank a).2 hroot
        by_cases hroot' : f.parent (f.parent a) = f.parent a
        · have hfix : ∀ n, climb f.parent n (f.parent a) = f.parent a := by
            intro n
            cases n with
            | zero => rfl
            | succ n => simp [climb, hroot']
          simp [climb, hroot, hroot', hfix]
        · simpa [climb, hroot, hroot'] using ih (f.parent a) (by omega)
  exact hclimb f.height a (hrank a).1

/-- `a` hangs directly under its root from now on. -/
def compress (f : Forest α) (a : α) : Forest α where
  parent := Function.update f.parent a (f.root a)
  height := f.height
  ranked := by
    obtain ⟨rank, hrank⟩ := f.ranked
    refine ⟨rank, fun b => ⟨(hrank b).1, fun hne => ?_⟩⟩
    by_cases hb : b = a
    · subst hb
      rw [Function.update_self] at hne ⊢
      have hup : ∀ n c, rank (climb f.parent n c) ≤ rank c := by
        intro n
        induction n with
        | zero => exact fun _ => Nat.le_refl _
        | succ n ih =>
          intro c
          by_cases hc : f.parent c = c
          · simp [climb, hc]
          · have := ih (f.parent c)
            have := (hrank c).2 hc
            simp only [climb, hc, if_false]
            omega
      have hnot : f.parent b ≠ b := fun h => hne (f.root_of_parent_eq h)
      have hle : rank (f.root (f.parent b)) ≤ rank (f.parent b) := hup f.height (f.parent b)
      have hlt := (hrank b).2 hnot
      rw [f.root_parent] at hle
      omega
    · rw [Function.update_of_ne hb] at hne ⊢
      exact (hrank b).2 hne

theorem root_compress (f : Forest α) (a b : α) : (f.compress a).root b = f.root b := by
  apply root_eq_of
  · intro c
    by_cases hc : c = a
    · subst hc
      simp [compress, root_root]
    · simp [compress, Function.update_of_ne hc, root_parent]
  · intro c hfix
    by_cases hc : c = a
    · subst hc
      simpa [compress] using hfix
    · exact f.root_of_parent_eq (by simpa [compress, Function.update_of_ne hc] using hfix)

/-- The root `b` hangs under the root `a` from now on. -/
def link (f : Forest α) (a b : α) (ha : f.parent a = a) : Forest α where
  parent := Function.update f.parent b a
  height := f.height + 1
  ranked := by
    obtain ⟨rank, hrank⟩ := f.ranked
    refine ⟨fun c => if c = a then 0 else rank c + 1, fun c => ⟨?_, fun hne => ?_⟩⟩
    · have := (hrank c).1
      grind
    · by_cases hcb : c = b
      · subst hcb
        rw [Function.update_self] at hne ⊢
        simp [Ne.symm hne]
      · rw [Function.update_of_ne hcb] at hne ⊢
        have hca : c ≠ a := fun h => hne (h ▸ ha)
        have := (hrank c).2 hne
        grind

theorem root_link (f : Forest α) {a b : α} (ha : f.parent a = a) (hb : f.parent b = b) (c : α) :
    (f.link a b ha).root c = if f.root c = b then a else f.root c := by
  have hroota := f.root_of_parent_eq ha
  have hrootb := f.root_of_parent_eq hb
  apply (f.link a b ha).root_eq_of
  · intro c
    by_cases hc : c = b
    · subst hc
      simp [link, hroota, hrootb]
    · simp [link, Function.update_of_ne hc, root_parent]
  · intro c hfix
    by_cases hc : c = b
    · subst hc
      have hac : a = c := by simpa [link] using hfix
      simp [hrootb, hac]
    · have hrootc := f.root_of_parent_eq (by simpa [link, Function.update_of_ne hc] using hfix)
      simp [hrootc, hc]

def find (f : Forest α) (a : α) : α × Forest α := (f.root a, f.compress a)

/-- Finds the root of `a`, then that of `b`, and hangs the second under the first. -/
def union (f : Forest α) (a b : α) : Forest α :=
  ((f.find a).2.find b).2.link (f.find a).1 ((f.find a).2.find b).1 <| by
    have h := ((f.compress a).compress b).parent_root a
    rwa [root_compress, root_compress] at h

theorem root_union (f : Forest α) (a b c : α) :
    (f.union a b).root c = if f.root c = f.root b then f.root a else f.root c := by
  have ha := ((f.compress a).compress b).parent_root a
  have hb := ((f.compress a).compress b).parent_root b
  rw [root_compress, root_compress] at ha
  rw [root_compress] at hb
  have h := root_link ((f.compress a).compress b) ha hb c
  simp only [root_compress] at h
  simpa only [union, find, root_compress] using h

/-- After a series of unions two elements share a root exactly when the joined
pairs, and the sets there were before, connect them. -/
theorem root_eq_iff (f : Forest α) (ps : List (α × α)) (x y : α) :
    (ps.foldl (fun f p => f.union p.1 p.2) f).root x =
        (ps.foldl (fun f p => f.union p.1 p.2) f).root y ↔
      Relation.EqvGen (fun a b => f.root a = f.root b ∨ (a, b) ∈ ps) x y := by
  induction ps generalizing f with
  | nil =>
    constructor
    · exact fun h => .rel _ _ (.inl h)
    · intro h
      induction h with
      | rel _ _ h => simpa using h
      | refl => rfl
      | symm _ _ _ ih => exact ih.symm
      | trans _ _ _ _ _ ih₁ ih₂ => exact ih₁.trans ih₂
  | cons p ps ih =>
    obtain ⟨a, b⟩ := p
    rw [List.foldl_cons, ih]
    constructor
    · intro h
      clear ih
      induction h with
      | refl => exact .refl _
      | symm _ _ _ ih => exact .symm _ _ ih
      | trans _ _ _ _ _ ih₁ ih₂ => exact .trans _ _ _ ih₁ ih₂
      | rel c d h =>
        have hab : Relation.EqvGen
            (fun c d => f.root c = f.root d ∨ (c, d) ∈ (a, b) :: ps) a b :=
          .rel _ _ (.inr (by simp))
        rcases h with h | h
        · rw [root_union, root_union] at h
          have hjoin {c d : α} (h : f.root c = f.root d) : Relation.EqvGen
              (fun c d => f.root c = f.root d ∨ (c, d) ∈ (a, b) :: ps) c d :=
            .rel _ _ (.inl h)
          by_cases hc : f.root c = f.root b <;> by_cases hd : f.root d = f.root b
          · exact hjoin (hc.trans hd.symm)
          · simp only [hc, hd, if_true, if_false] at h
            exact .trans _ _ _ (hjoin hc) (.trans _ _ _ (.symm _ _ hab) (hjoin h))
          · simp only [hc, hd, if_true, if_false] at h
            exact .trans _ _ _ (hjoin h) (.trans _ _ _ hab (hjoin hd.symm))
          · simp only [hc, hd, if_false] at h
            exact hjoin h
        · exact .rel _ _ (.inr (List.mem_cons_of_mem _ h))
    · intro h
      refine h.mono fun c d hcd => ?_
      rw [root_union, root_union]
      rcases hcd with h | h
      · exact .inl (by simp [h])
      · rcases List.mem_cons.mp h with h | h
        · obtain ⟨rfl, rfl⟩ := Prod.mk.inj h
          left
          split <;> simp_all
        · exact .inr h

end Forest

end Disjoint
