/-!
# Properties that hold at every depth

Types, values, datums and terms are trees whose nodes have direct parts. A property holds
everywhere in a tree when it holds of the tree and, at every depth, of its parts. Induction on
`Everywhere` is induction on the tree with the property at hand in each node.
-/

namespace DocQuery

/-- The property `holds` is true of a tree and of everything below it. -/
inductive Everywhere {α : Type} (parts : α → List α) (holds : α → Prop) : α → Prop where
  | intro {a : α} (top : holds a) (rest : ∀ b ∈ parts a, Everywhere parts holds b) :
    Everywhere parts holds a

namespace Everywhere

variable {α : Type} {parts : α → List α} {holds also : α → Prop} {a : α}

theorem at_top (h : Everywhere parts holds a) : holds a := by
  cases h with
  | intro top _ => exact top

/-- What is `Everywhere` in a tree is `Everywhere` in each of its direct `parts`. -/
theorem at_part (h : Everywhere parts holds a) {b : α} (hb : b ∈ parts a) :
    Everywhere parts holds b := by
  cases h with
  | intro _ rest => exact rest b hb

/-- A tree without `parts` has the property `Everywhere` when it has it. -/
theorem of_leaf (hparts : parts a = []) (top : holds a) : Everywhere parts holds a := by
  refine .intro top fun b hb => ?_
  rw [hparts] at hb
  cases hb

/-- Two properties hold `Everywhere` together when each does. -/
theorem and (h : Everywhere parts holds a) (h' : Everywhere parts also a) :
    Everywhere parts (fun b => holds b ∧ also b) a := by
  induction h with
  -- The second property goes down into the parts along with the first.
  | intro top rest ih => exact .intro ⟨top, h'.at_top⟩ fun b hb => ih b hb (h'.at_part hb)

/-- What follows from `Everywhere parts holds` of a tree holds `Everywhere` that it does: at each
    node the whole subtree is at hand. -/
theorem imp_everywhere (h : Everywhere parts holds a)
    (himp : ∀ b, Everywhere parts holds b → also b) : Everywhere parts also a := by
  induction h with
  | intro top rest ih => exact .intro (himp _ (.intro top rest)) ih

theorem imp (h : Everywhere parts holds a) (himp : ∀ b, holds b → also b) :
    Everywhere parts also a :=
  h.imp_everywhere fun b hb => himp b hb.at_top

/-- A property of all trees holds `Everywhere`. The recursion on `parts` ends as they are
    smaller. -/
theorem of_forall [SizeOf α] (hparts : ∀ a : α, ∀ b ∈ parts a, sizeOf b < sizeOf a)
    (h : ∀ a, holds a) (a : α) : Everywhere parts holds a :=
  .intro (h a) fun b hb =>
    have := hparts a b hb
    of_forall hparts h b
termination_by sizeOf a

end Everywhere

end DocQuery
