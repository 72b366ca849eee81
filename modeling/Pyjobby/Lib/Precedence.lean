import Mathlib.Data.Set.Finite.List
import Mathlib.Data.Set.Finite.Lemmas
import Mathlib.Order.WellFounded
import Mathlib.Logic.Relation

/-! Which of several precedence relations can deadlock: cycles, and the elements
that everything they wait for lets through. -/

namespace Precedence

open Relation

variable {α : Type*}

/-- `r a b` reads `a` waits for `b`: nothing waits for itself through others. -/
def Acyclic (r : α → α → Prop) : Prop := ∀ a, ¬ TransGen r a a

/-- What becomes available if everything available gets done. -/
inductive Available (r : α → α → Prop) : α → Prop
  | of {a : α} (h : ∀ b, r a b → Available r b) : Available r a

theorem not_transGen_of_acc {r : α → α → Prop} {a : α} (h : Acc (fun b a => r a b) a) :
    ¬ TransGen r a a := by
  induction h with
  | intro a _ ih =>
    intro hcycle
    obtain ⟨b, hab, hba⟩ := TransGen.head'_iff.mp hcycle
    exact ih b hab (TransGen.tail' hba hab)

theorem available_of_acyclic {r : α → α → Prop} {nodes : List α}
    (hmem : ∀ a b, r a b → b ∈ nodes) (h : Acyclic r) (a : α) : Available r a := by
  let R : {x // x ∈ nodes} → {x // x ∈ nodes} → Prop := fun b a => TransGen r a b
  have : Finite {x // x ∈ nodes} := nodes.finite_toSet
  have : Std.Irrefl R := ⟨fun a => h a⟩
  have : IsTrans _ R := ⟨fun a b c hab hbc => hbc.trans hab⟩
  have hwf : WellFounded R := Finite.wellFounded_of_trans_of_irrefl R
  have hnode : ∀ b : {x // x ∈ nodes}, Available r b := by
    intro b
    induction b using hwf.induction with
    | _ b ih => exact .of fun c hc => ih ⟨c, hmem b c hc⟩ (.single hc)
  exact .of fun b hb => hnode ⟨b, hmem a b hb⟩

/-- `a` holds up `b`: along `e` it waits for something that comes after `b`. -/
def Hooks (d e : α → α → Prop) (a b : α) : Prop := ∃ m, e a m ∧ ReflTransGen d m b

theorem transGen_or {d e : α → α → Prop} {a b : α} (h : TransGen (fun a b => d a b ∨ e a b) a b) :
    TransGen d a b ∨ ∃ f f' m, ReflTransGen d a f ∧ ReflTransGen (Hooks d e) f f' ∧ e f' m ∧
      ReflTransGen d m b := by
  induction h with
  | single h =>
    rcases h with h | h
    · exact .inl (.single h)
    · exact .inr ⟨a, a, _, .refl, .refl, h, .refl⟩
  | @tail b c _ h ih =>
    rcases ih with ih | ⟨f, f', m, haf, hff, hm, hmb⟩
    · rcases h with h | h
      · exact .inl (ih.tail h)
      · exact .inr ⟨b, b, c, ih.to_reflTransGen, .refl, h, .refl⟩
    · rcases h with h | h
      · exact .inr ⟨f, f', m, haf, hff, hm, hmb.tail h⟩
      · exact .inr ⟨f, b, c, haf, hff.tail ⟨m, hm, hmb⟩, h, .refl⟩

/-- Adding the waits `e` to the order `d` closes a cycle exactly when some of them
hold up one another in a ring. -/
theorem acyclic_or_iff {d e : α → α → Prop} (hd : Acyclic d) :
    Acyclic (fun a b => d a b ∨ e a b) ↔ Acyclic (Hooks d e) := by
  constructor
  · intro h a hring
    refine h a (hring.lift' id ?_)
    rintro b c ⟨m, hm, hmc⟩
    exact TransGen.trans_left (.single (.inr hm)) (hmc.lift id fun _ _ => .inl)
  · intro h a hcycle
    rcases transGen_or hcycle with hcycle | ⟨f, f', m, haf, hff, hm, hma⟩
    · exact hd a hcycle
    · exact h f (TransGen.tail' hff ⟨m, hm, hma.trans haf⟩)

theorem acyclic_map {β : Type*} {r : α → α → Prop} {s : β → β → Prop} (hd : Acyclic r)
    (f : β → α) (hf : ∀ a b, s a b → r (f a) (f b)) : Acyclic s :=
  fun a hcycle => hd (f a) (hcycle.lift f hf)

end Precedence
