/-!
# Kinds of terms

Every operation of the query language has a number on the wire, a protocol name in capitals and a
short name. The three are injective, so each of them finds the kind again.
-/

namespace DocQuery

inductive TermKind where
  | datum
  | makeArray
  | makeObj
  | var
  | javascript
  | error
  | implicitVar
  | db
  | table
  | get
  | eq
  | ne
  | lt
  | le
  | gt
  | ge
  | not
  | add
  | sub
  | mul
  | div
  | mod
  | append
  | slice
  | getField
  | hasFields
  | pluck
  | without
  | merge
  | reduce
  | map
  | filter
  | concatMap
  | orderBy
  | distinct
  | count
  | union
  | nth
  | innerJoin
  | outerJoin
  | eqJoin
  | coerceTo
  | typeOf
  | update
  | delete
  | replace
  | insert
  | dbCreate
  | dbDrop
  | dbList
  | tableCreate
  | tableDrop
  | tableList
  | funcall
  | branch
  | or
  | and
  | forEach
  | func
  | skip
  | limit
  | zip
  | asc
  | desc
  | getAll
  | prepend
  | insertAt
  | deleteAt
  | changeAt
  | spliceAt
  | isEmpty
  | setInsert
  | setIntersection
  | setUnion
  | setDifference
  | default
  | contains
  | keys
  | difference
  | matchText
  | iso8601
  | toIso8601
  | epochTime
  | toEpochTime
  | now
  | inTimezone
  | during
  | date
  | timeOfDay
  | timezone
  | year
  | month
  | day
  | dayOfWeek
  | dayOfYear
  | hours
  | minutes
  | seconds
  | time
  | upcase
  | downcase
  | group
  | sum
  | avg
  | min
  | max
  | split
  | ungroup
  | binary
  | uuid
  | bracket
  | between
  | floor
  | ceil
  | round
  | values
deriving DecidableEq

namespace TermKind

/-- All kinds, by their numbers. -/
def all : List TermKind :=
  [.datum, .makeArray, .makeObj, .var, .javascript, .error, .implicitVar, .db, .table, .get, .eq,
   .ne, .lt, .le, .gt, .ge, .not, .add, .sub, .mul, .div, .mod, .append, .slice, .getField,
   .hasFields, .pluck, .without, .merge, .reduce, .map, .filter, .concatMap, .orderBy, .distinct,
   .count, .union, .nth, .innerJoin, .outerJoin, .eqJoin, .coerceTo, .typeOf, .update, .delete,
   .replace, .insert, .dbCreate, .dbDrop, .dbList, .tableCreate, .tableDrop, .tableList,
   .funcall, .branch, .or, .and, .forEach, .func, .skip, .limit, .zip, .asc, .desc, .getAll,
   .prepend, .insertAt, .deleteAt, .changeAt, .spliceAt, .isEmpty, .setInsert, .setIntersection,
   .setUnion, .setDifference, .default, .contains, .keys, .difference, .matchText, .iso8601,
   .toIso8601, .epochTime, .toEpochTime, .now, .inTimezone, .during, .date, .timeOfDay,
   .timezone, .year, .month, .day, .dayOfWeek, .dayOfYear, .hours, .minutes, .seconds, .time,
   .upcase, .downcase, .group, .sum, .avg, .min, .max, .split, .ungroup, .binary, .uuid,
   .bracket, .between, .floor, .ceil, .round, .values]

/-- The number on the wire. -/
def id : TermKind → Nat
  | .datum => 1
  | .makeArray => 2
  | .makeObj => 3
  | .var => 10
  | .javascript => 11
  | .error => 12
  | .implicitVar => 13
  | .db => 14
  | .table => 15
  | .get => 16
  | .eq => 17
  | .ne => 18
  | .lt => 19
  | .le => 20
  | .gt => 21
  | .ge => 22
  | .not => 23
  | .add => 24
  | .sub => 25
  | .mul => 26
  | .div => 27
  | .mod => 28
  | .append => 29
  | .slice => 30
  | .getField => 31
  | .hasFields => 32
  | .pluck => 33
  | .without => 34
  | .merge => 35
  | .reduce => 37
  | .map => 38
  | .filter => 39
  | .concatMap => 40
  | .orderBy => 41
  | .distinct => 42
  | .count => 43
  | .union => 44
  | .nth => 45
  | .innerJoin => 48
  | .outerJoin => 49
  | .eqJoin => 50
  | .coerceTo => 51
  | .typeOf => 52
  | .update => 53
  | .delete => 54
  | .replace => 55
  | .insert => 56
  | .dbCreate => 57
  | .dbDrop => 58
  | .dbList => 59
  | .tableCreate => 60
  | .tableDrop => 61
  | .tableList => 62
  | .funcall => 64
  | .branch => 65
  | .or => 66
  | .and => 67
  | .forEach => 68
  | .func => 69
  | .skip => 70
  | .limit => 71
  | .zip => 72
  | .asc => 73
  | .desc => 74
  | .getAll => 78
  | .prepend => 80
  | .insertAt => 82
  | .deleteAt => 83
  | .changeAt => 84
  | .spliceAt => 85
  | .isEmpty => 86
  | .setInsert => 88
  | .setIntersection => 89
  | .setUnion => 90
  | .setDifference => 91
  | .default => 92
  | .contains => 93
  | .keys => 94
  | .difference => 95
  | .matchText => 97
  | .iso8601 => 99
  | .toIso8601 => 100
  | .epochTime => 101
  | .toEpochTime => 102
  | .now => 103
  | .inTimezone => 104
  | .during => 105
  | .date => 106
  | .timeOfDay => 126
  | .timezone => 127
  | .year => 128
  | .month => 129
  | .day => 130
  | .dayOfWeek => 131
  | .dayOfYear => 132
  | .hours => 133
  | .minutes => 134
  | .seconds => 135
  | .time => 136
  | .upcase => 141
  | .downcase => 142
  | .group => 144
  | .sum => 145
  | .avg => 146
  | .min => 147
  | .max => 148
  | .split => 149
  | .ungroup => 150
  | .binary => 155
  | .uuid => 169
  | .bracket => 170
  | .between => 182
  | .floor => 183
  | .ceil => 184
  | .round => 185
  | .values => 186

/-- The protocol name. -/
def name : TermKind → String
  | .datum => "DATUM"
  | .makeArray => "MAKE_ARRAY"
  | .makeObj => "MAKE_OBJ"
  | .var => "VAR"
  | .javascript => "JAVASCRIPT"
  | .error => "ERROR"
  | .implicitVar => "IMPLICIT_VAR"
  | .db => "DB"
  | .table => "TABLE"
  | .get => "GET"
  | .eq => "EQ"
  | .ne => "NE"
  | .lt => "LT"
  | .le => "LE"
  | .gt => "GT"
  | .ge => "GE"
  | .not => "NOT"
  | .add => "ADD"
  | .sub => "SUB"
  | .mul => "MUL"
  | .div => "DIV"
  | .mod => "MOD"
  | .append => "APPEND"
  | .slice => "SLICE"
  | .getField => "GET_FIELD"
  | .hasFields => "HAS_FIELDS"
  | .pluck => "PLUCK"
  | .without => "WITHOUT"
  | .merge => "MERGE"
  | .reduce => "REDUCE"
  | .map => "MAP"
  | .filter => "FILTER"
  | .concatMap => "CONCAT_MAP"
  | .orderBy => "ORDER_BY"
  | .distinct => "DISTINCT"
  | .count => "COUNT"
  | .union => "UNION"
  | .nth => "NTH"
  | .innerJoin => "INNER_JOIN"
  | .outerJoin => "OUTER_JOIN"
  | .eqJoin => "EQ_JOIN"
  | .coerceTo => "COERCE_TO"
  | .typeOf => "TYPE_OF"
  | .update => "UPDATE"
  | .delete => "DELETE"
  | .replace => "REPLACE"
  | .insert => "INSERT"
  | .dbCreate => "DB_CREATE"
  | .dbDrop => "DB_DROP"
  | .dbList => "DB_LIST"
  | .tableCreate => "TABLE_CREATE"
  | .tableDrop => "TABLE_DROP"
  | .tableList => "TABLE_LIST"
  | .funcall => "FUNCALL"
  | .branch => "BRANCH"
  | .or => "OR"
  | .and => "AND"
  | .forEach => "FOR_EACH"
  | .func => "FUNC"
  | .skip => "SKIP"
  | .limit => "LIMIT"
  | .zip => "ZIP"
  | .asc => "ASC"
  | .desc => "DESC"
  | .getAll => "GET_ALL"
  | .prepend => "PREPEND"
  | .insertAt => "INSERT_AT"
  | .deleteAt => "DELETE_AT"
  | .changeAt => "CHANGE_AT"
  | .spliceAt => "SPLICE_AT"
  | .isEmpty => "IS_EMPTY"
  | .setInsert => "SET_INSERT"
  | .setIntersection => "SET_INTERSECTION"
  | .setUnion => "SET_UNION"
  | .setDifference => "SET_DIFFERENCE"
  | .default => "DEFAULT"
  | .contains => "CONTAINS"
  | .keys => "KEYS"
  | .difference => "DIFFERENCE"
  | .matchText => "MATCH"
  | .iso8601 => "ISO8601"
  | .toIso8601 => "TO_ISO8601"
  | .epochTime => "EPOCH_TIME"
  | .toEpochTime => "TO_EPOCH_TIME"
  | .now => "NOW"
  | .inTimezone => "IN_TIMEZONE"
  | .during => "DURING"
  | .date => "DATE"
  | .timeOfDay => "TIME_OF_DAY"
  | .timezone => "TIMEZONE"
  | .year => "YEAR"
  | .month => "MONTH"
  | .day => "DAY"
  | .dayOfWeek => "DAY_OF_WEEK"
  | .dayOfYear => "DAY_OF_YEAR"
  | .hours => "HOURS"
  | .minutes => "MINUTES"
  | .seconds => "SECONDS"
  | .time => "TIME"
  | .upcase => "UPCASE"
  | .downcase => "DOWNCASE"
  | .group => "GROUP"
  | .sum => "SUM"
  | .avg => "AVG"
  | .min => "MIN"
  | .max => "MAX"
  | .split => "SPLIT"
  | .ungroup => "UNGROUP"
  | .binary => "BINARY"
  | .uuid => "UUID"
  | .bracket => "BRACKET"
  | .between => "BETWEEN"
  | .floor => "FLOOR"
  | .ceil => "CEIL"
  | .round => "ROUND"
  | .values => "VALUES"

/-- The short name, by which a stored term gives its kind. -/
def shortName : TermKind → String
  | .datum => "Datum"
  | .makeArray => "MakeArray"
  | .makeObj => "MakeObj"
  | .var => "Var"
  | .javascript => "Javascript"
  | .error => "Error"
  | .implicitVar => "ImplicitVar"
  | .db => "Db"
  | .table => "Table"
  | .get => "Get"
  | .eq => "Eq"
  | .ne => "Ne"
  | .lt => "Lt"
  | .le => "Le"
  | .gt => "Gt"
  | .ge => "Ge"
  | .not => "Not"
  | .add => "Add"
  | .sub => "Sub"
  | .mul => "Mul"
  | .div => "Div"
  | .mod => "Mod"
  | .append => "Append"
  | .slice => "Slice"
  | .getField => "GetField"
  | .hasFields => "HasFields"
  | .pluck => "Pluck"
  | .without => "Without"
  | .merge => "Merge"
  | .reduce => "Reduce"
  | .map => "Map"
  | .filter => "Filter"
  | .concatMap => "ConcatMap"
  | .orderBy => "OrderBy"
  | .distinct => "Distinct"
  | .count => "Count"
  | .union => "Union"
  | .nth => "Nth"
  | .innerJoin => "InnerJoin"
  | .outerJoin => "OuterJoin"
  | .eqJoin => "EqJoin"
  | .coerceTo => "CoerceTo"
  | .typeOf => "TypeOf"
  | .update => "Update"
  | .delete => "Delete"
  | .replace => "Replace"
  | .insert => "Insert"
  | .dbCreate => "DbCreate"
  | .dbDrop => "DbDrop"
  | .dbList => "DbList"
  | .tableCreate => "TableCreate"
  | .tableDrop => "TableDrop"
  | .tableList => "TableList"
  | .funcall => "Funcall"
  | .branch => "Branch"
  | .or => "Or"
  | .and => "And"
  | .forEach => "ForEach"
  | .func => "Func"
  | .skip => "Skip"
  | .limit => "Limit"
  | .zip => "Zip"
  | .asc => "Asc"
  | .desc => "Desc"
  | .getAll => "GetAll"
  | .prepend => "Prepend"
  | .insertAt => "InsertAt"
  | .deleteAt => "DeleteAt"
  | .changeAt => "ChangeAt"
  | .spliceAt => "SpliceAt"
  | .isEmpty => "IsEmpty"
  | .setInsert => "SetInsert"
  | .setIntersection => "SetIntersection"
  | .setUnion => "SetUnion"
  | .setDifference => "SetDifference"
  | .default => "Default"
  | .contains => "Contains"
  | .keys => "Keys"
  | .difference => "Difference"
  | .matchText => "Match"
  | .iso8601 => "Iso8601"
  | .toIso8601 => "ToIso8601"
  | .epochTime => "EpochTime"
  | .toEpochTime => "ToEpochTime"
  | .now => "Now"
  | .inTimezone => "InTimezone"
  | .during => "During"
  | .date => "Date"
  | .timeOfDay => "TimeOfDay"
  | .timezone => "Timezone"
  | .year => "Year"
  | .month => "Month"
  | .day => "Day"
  | .dayOfWeek => "DayOfWeek"
  | .dayOfYear => "DayOfYear"
  | .hours => "Hours"
  | .minutes => "Minutes"
  | .seconds => "Seconds"
  | .time => "Time"
  | .upcase => "Upcase"
  | .downcase => "Downcase"
  | .group => "Group"
  | .sum => "Sum"
  | .avg => "Avg"
  | .min => "Min"
  | .max => "Max"
  | .split => "Split"
  | .ungroup => "Ungroup"
  | .binary => "Binary"
  | .uuid => "Uuid"
  | .bracket => "Bracket"
  | .between => "Between"
  | .floor => "Floor"
  | .ceil => "Ceil"
  | .round => "Round"
  | .values => "Values"

/-- The kind with a number, where there is one. -/
def ofId? (id : Nat) : Option TermKind := all.find? fun kind => kind.id == id

/-- The kind with a short name, where there is one. -/
def ofShortName? (name : String) : Option TermKind := all.find? fun kind => kind.shortName == name

end TermKind

end DocQuery
