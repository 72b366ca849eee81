import Mathlib.Data.Set.Finite.Basic
import Mathlib.Data.Set.Finite.Lemmas
import Mathlib.Logic.Relation
import Mathlib.Order.Preorder.Finite

/-! Which nodes of a finite directed graph can be reached from a root, when all that is
known of each is that something precedes it. -/

namespace Rooted

open Relation

variable {α : Type*} {r : α → α → Prop} {root : α}

/-- `c` lies on a cycle with the root, or its cycles are entered from a node that they do
not lead back to. -/
def Entered (r : α → α → Prop) (root c : α) : Prop :=
  ReflTransGen r c root ∧ ReflTransGen r root c ∨
    ∃ x y, r x y ∧ ReflTransGen r c y ∧ ReflTransGen r y c ∧ ¬ReflTransGen r c x

/-- Of finitely many nodes, one that leads back to all those leading to it. -/
theorem exists_topmost {nodes : Set α} (hfin : nodes.Finite) (hne : nodes.Nonempty) :
    ∃ m ∈ nodes, ∀ a ∈ nodes, ReflTransGen r a m → ReflTransGen r m a := by
  obtain ⟨m, hm, hmin⟩ := hfin.exists_minimalFor (fun m => {a | ReflTransGen r a m}) nodes hne
  refine ⟨m, hm, fun a ha ham => ?_⟩
  have hle : {b | ReflTransGen r b a} ⊆ {b | ReflTransGen r b m} := fun _ hb => hb.trans ham
  exact hmin ha hle (show ReflTransGen r m m from .refl)

theorem entered_of_reach {c : α} (h : ReflTransGen r root c) : Entered r root c := by
  by_cases hback : ReflTransGen r c root
  · exact .inl ⟨hback, h⟩
  · suffices henter : ∀ b, ReflTransGen r root b → ReflTransGen r c b →
        ∃ x y, r x y ∧ ReflTransGen r c y ∧ ReflTransGen r y b ∧ ¬ReflTransGen r c x from
      .inr (henter c h .refl)
    intro b hb
    induction hb with
    | refl => exact fun hcb => absurd hcb hback
    | @tail x y hpath hstep ih =>
      intro hcy
      by_cases hcx : ReflTransGen r c x
      · obtain ⟨x', y', hxy, hcy', hyx, hnot⟩ := ih hcx
        exact ⟨x', y', hxy, hcy', hyx.tail hstep, hnot⟩
      · exact ⟨x, y, hstep, hcy, .refl, hcx⟩

/-- Where every node but the root has a predecessor, the root reaches all of them if and
only if every cycle is entered. -/
theorem reach_iff_entered {nodes : Set α} (hfin : nodes.Finite)
    (hclosed : ∀ a b, r a b → a ∈ nodes ∧ b ∈ nodes)
    (hpred : ∀ b ∈ nodes, b ≠ root → ∃ a, r a b) :
    (∀ b ∈ nodes, ReflTransGen r root b) ↔ ∀ c, TransGen r c c → Entered r root c := by
  constructor
  · intro hreach c hcycle
    obtain ⟨b, hcb, -⟩ := TransGen.head'_iff.mp hcycle
    exact entered_of_reach (hreach c (hclosed c b hcb).1)
  · intro hentered
    by_contra hnot
    let out : Set α := {b | b ∈ nodes ∧ ¬ReflTransGen r root b}
    have hne : out.Nonempty := by
      push Not at hnot
      exact hnot
    obtain ⟨m, ⟨hm, hmout⟩, htop⟩ := exists_topmost (r := r) (hfin.subset fun _ h => h.1) hne
    have habove {a b : α} (hab : r a b) (hb : ReflTransGen r b m) : ReflTransGen r m a := by
      have ha : a ∈ out := ⟨(hclosed a b hab).1, fun hroot => hmout ((hroot.tail hab).trans hb)⟩
      exact htop a ha (.head hab hb)
    obtain ⟨a, ham⟩ := hpred m hm fun heq => hmout (heq ▸ .refl)
    have hcycle := TransGen.tail' (habove ham .refl) ham
    rcases hentered m hcycle with ⟨-, hroot⟩ | ⟨x, y, hxy, -, hym, hnotx⟩
    · exact hmout hroot
    · exact hnotx (habove hxy hym)

end Rooted
