import DocQuery.Compile.Registry

/-!
# Default registrations

The members, methods, constructors and operators of times, options, lists, strings, maps and spans
that the query language has terms for.
-/

namespace DocQuery.Registry

def timeAccessors : List (String × TermKind) :=
  [("year", .year), ("month", .month), ("day", .day), ("hour", .hours), ("minute", .minutes),
    ("second", .seconds), ("day_of_week", .dayOfWeek), ("day_of_year", .dayOfYear),
    ("date", .date), ("time_of_day", .timeOfDay)]

/-- Members by type key. -/
def defaultMembers : List (TypeKey × String × Override) :=
  [TypeKey.instant, .zoned].flatMap (fun owner =>
    timeAccessors.map fun (name, kind) => (owner, name, .accessor kind))
  ++ [(.option, "value", .receiver "Option::value")]

/-- A comparison of the target with null. -/
def nullTest (kind : TermKind) : Template := .node kind [.target, .literal .null] []

/-- Templates of members and methods by type key. -/
def defaultTemplates : List (TypeKey × String × Template) :=
  [(.instant, "now", .node .now [] []),
    (.zoned, "now", .node .now [] []),
    (.option, "is_some", nullTest .ne),
    (.option, "is_none", nullTest .eq),
    (.list, "len", .ofTarget .count),
    (.list, "is_empty", .ofTarget .isEmpty),
    (.list, "contains", .ofTargetAndArg .contains),
    (.list, "concat", .ofTargetAndArg .union),
    (.list, "append", .ofTargetAndArg .append),
    (.list, "first", .node .nth [.target, .literal (.ofInt 0)] []),
    (.list, "slice", .node .slice [.target, .arg 0, .arg 1] []),
    (.list, "any", .ofTargetAndArg .contains),
    (.list, "filter", .ofTargetAndArg .filter),
    (.list, "map", .ofTargetAndArg .map),
    (.string, "len", .ofTarget .count),
    (.string, "to_uppercase", .ofTarget .upcase),
    (.string, "to_lowercase", .ofTarget .downcase),
    (.string, "split", .ofTargetAndArg .split),
    (.string, "matches", .node .ne [.ofTargetAndArg .matchText, .literal .null] []),
    (.string, "is_empty", .node .eq [.target, .literal (.string "")] []),
    (.map, "len", .ofTarget .count),
    (.map, "keys", .ofTarget .keys),
    (.map, "values", .ofTarget .values),
    (.map, "contains_key", .ofTargetAndArg .hasFields),
    (.map, "get", .ofTargetAndArg .getField)]

/-- An argument times a factor. -/
def scaled (index : Nat) (factor : Int) : Template :=
  .node .mul [.arg index, .literal (.ofInt factor)] []

/-- Templates of constructors by type key. A span is a number of seconds, and a time is given in
universal time. -/
def defaultConstructors : List (TypeKey × String × Template) :=
  [(.span, "seconds", .arg 0),
    (.span, "minutes", scaled 0 60),
    (.span, "hours", scaled 0 3600),
    (.span, "days", scaled 0 86400),
    (.span, "milliseconds", .node .div [.arg 0, .literal (.ofInt 1000)] []),
    (.span, "new", .node .add [scaled 0 3600, scaled 1 60, .arg 2] [])]
  ++ [TypeKey.instant, .zoned].flatMap fun owner =>
    [(owner, "from_ymd", .node .time [.arg 0, .arg 1, .arg 2, .literal (.string "Z")] []),
      (owner, "from_ymd_hms", .node .time
        [.arg 0, .arg 1, .arg 2, .arg 3, .arg 4, .arg 5, .literal (.string "Z")] [])]

/-- Operators by the keys of their operands. -/
def defaultOperators : List (TypeKey × TypeKey × BinaryOp × Override) :=
  [(.map, .string, .index, .nodeOf .getField),
    (.list, .dynamic, .index, .nodeOf .nth),
    (.option, .dynamic, .coalesce, .nodeOf .default)]

/-- Adds the default registrations. -/
def addDefaults (r : Registry) : Registry :=
  let r := defaultMembers.foldl (fun r (owner, name, o) => r.addMember owner name o) r
  let r := defaultTemplates.foldl (fun r (owner, name, t) => r.addTemplate owner name none t) r
  let r := defaultConstructors.foldl
    (fun r (type, name, t) => r.addConstructorTemplate type name t) r
  defaultOperators.foldl (fun r (left, right, op, o) => r.addBinary left right op o) r

/-- The registry of the default registrations. -/
def defaults : Registry := empty.addDefaults

end DocQuery.Registry
