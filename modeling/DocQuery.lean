import DocQuery.Term.Text
import DocQuery.Term.Wire
import DocQuery.Term.Stored
import DocQuery.Compile.Compiler
import DocQuery.Compile.Defaults
import DocQuery.Schema.Accept
import DocQuery.Main
import DocQuery.Proofs.Number.Exact
import DocQuery.Proofs.Schema.Naming
import DocQuery.Proofs.Term.Wire
import DocQuery.Proofs.Codec.Infer
import DocQuery.Proofs.Codec.Session
import DocQuery.Proofs.Codec.Transparent
import DocQuery.Proofs.Codec.Typed
import DocQuery.Proofs.Codec.Leaf
import DocQuery.Proofs.Codec.Enum
import DocQuery.Proofs.Term.Slots
import DocQuery.Proofs.Compile.Scope
import DocQuery.Proofs.Compile.Linear
import DocQuery.Proofs.Compile.Emission
import DocQuery.Proofs.Compile.Hygiene
import DocQuery.Proofs.Codec.Conforming
import DocQuery.Proofs.Codec.Canonical
import DocQuery.Proofs.Compile.Sendable
import DocQuery.Proofs.Json.Lawful
import DocQuery.Proofs.Term.Parsed
import DocQuery.Proofs.Compile.Alike
import DocQuery.Proofs.Compile.Caches
import DocQuery.Proofs.Term.Reread
import DocQuery.Proofs.Compile.FieldAccess
import DocQuery.Proofs.Compile.RecordInit
import DocQuery.Proofs.Compile.Strict
import DocQuery.Proofs.Compile.Renaming
import DocQuery.Proofs.Expr.Free
import DocQuery.Proofs.Codec.Tagged
import DocQuery.Proofs.Compile.FieldNames
import DocQuery.Proofs.Time.Offset
import DocQuery.Proofs.Codec.Join
import DocQuery.Proofs.Codec.Inferred
import DocQuery.Proofs.Codec.Dropped
import DocQuery.Proofs.Number.Shortest
import DocQuery.Proofs.Number.Decimal
import DocQuery.Proofs.Json.Spelling
import DocQuery.Proofs.Json.Escape
import DocQuery.Proofs.Json.RoundTrip
import DocQuery.Proofs.Datum.Text
import DocQuery.Proofs.Codec.Integer
import DocQuery.Proofs.Compile.Arity
import DocQuery.Proofs.Expr.Numeric
import DocQuery.Proofs.Text.Items
import DocQuery.Proofs.Codec.Anonymous
import DocQuery.Proofs.Schema.Order
import DocQuery.Proofs.Expr.Comparison
import DocQuery.Proofs.Schema.Shape
import DocQuery.Proofs.Schema.Assignable
import DocQuery.Proofs.Codec.Null
import DocQuery.Proofs.Codec.Relevant
import DocQuery.Proofs.Codec.Default
import DocQuery.Proofs.Codec.Millis
import DocQuery.Proofs.Codec.Spans
import DocQuery.Proofs.Number.Error
import DocQuery.Proofs.Compile.Registrations
import DocQuery.Proofs.Datum.Settled
import DocQuery.Proofs.Compile.Template
import DocQuery.Proofs.Compile.ScopeHistory
