import Mathlib.Data.Fintype.Card
import Mathlib.Logic.Relation

/-!
# Relations without cycles
-/

namespace Relation

variable {α : Type} {r r' : α → α → Prop} {a : α}

/-- New edges out of `a`, to nodes that do not lead to `a`, close no cycle. -/
theorem acyclic_of_edges (h : ∀ x y, r' x y → r x y ∨ x = a ∧ ¬ ReflTransGen r y a)
    (hr : ∀ x, ¬ TransGen r x x) (x : α) : ¬ TransGen r' x x := by
  -- a path is an old one, or it comes through `a`
  have split : ∀ {y z}, TransGen r' y z → TransGen r y z ∨
      ReflTransGen r y a ∧ ∃ b, ¬ ReflTransGen r b a ∧ ReflTransGen r b z := by
    intro y z hyz
    induction hyz with
    | single hyz =>
      rcases h _ _ hyz with hyz | ⟨rfl, hb⟩
      · exact .inl (.single hyz)
      · exact .inr ⟨.refl, _, hb, .refl⟩
    | tail _ hzu ih =>
      rcases h _ _ hzu with hzu | ⟨rfl, hb⟩
      · rcases ih with ih | ⟨ha, b, hb, ih⟩
        · exact .inl (ih.tail hzu)
        · exact .inr ⟨ha, b, hb, ih.tail hzu⟩
      · rcases ih with ih | ⟨ha, -⟩
        · exact .inr ⟨ih.to_reflTransGen, _, hb, .refl⟩
        · exact .inr ⟨ha, _, hb, .refl⟩
  intro hx
  rcases split hx with hx | ⟨ha, b, hb, hbx⟩
  · exact hr x hx
  · exact hb (hbx.trans ha)

/-- Between three nodes a shortest path has at most two edges. -/
theorem ReflTransGen.short [Fintype α] (hcard : Fintype.card α ≤ 3) {x y : α}
    (h : ReflTransGen r x y) : x = y ∨ r x y ∨ ∃ z, r x z ∧ r z y := by
  induction h using ReflTransGen.head_induction_on with
  | refl => exact .inl rfl
  | @head x z hxz _ ih =>
    rcases ih with rfl | hzy | ⟨b, hzb, hby⟩
    · exact .inr (.inl hxz)
    · exact .inr (.inr ⟨z, hxz, hzy⟩)
    · by_contra hn
      push Not at hn
      -- otherwise the four nodes are different
      have hxz' : x ≠ z := by
        rintro rfl
        exact hn.2.2 b hzb hby
      have hxb : x ≠ b := by
        rintro rfl
        exact hn.2.1 hby
      have hzb' : z ≠ b := by
        rintro rfl
        exact hn.2.2 z hxz hby
      have hzy : z ≠ y := by
        rintro rfl
        exact hn.2.1 hxz
      have hby' : b ≠ y := by
        rintro rfl
        exact hn.2.2 z hxz hzb
      classical
      have hfour : ({x, z, b, y} : Finset α).card = 4 := by
        simp [hxz', hxb, hn.1, hzb', hzy, hby']
      have := Finset.card_le_univ ({x, z, b, y} : Finset α)
      omega

end Relation
