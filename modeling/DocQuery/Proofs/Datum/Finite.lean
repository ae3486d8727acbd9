import DocQuery.Proofs.Datum.Wire

/-!
# Documents with finite numbers
-/

namespace DocQuery.Datum

/-- A `number` is finite. -/
def FiniteNode : Datum → Prop
  | number x => x.isFinite = true
  | _ => True

/-- The numbers of a datum are finite at every depth: `FiniteNode` of all `parts`. -/
abbrev Finite : Datum → Prop := Everywhere parts FiniteNode

end DocQuery.Datum
