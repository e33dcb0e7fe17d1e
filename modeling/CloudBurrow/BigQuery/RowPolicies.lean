import CloudBurrow.Registry.Layout

namespace CloudBurrow.BigQuery

open Utf8

section Tokens

inductive Kind where
  | word
  | quoted
  | string
  | punct
deriving DecidableEq

structure Token where
  kind : Kind
  text : Bytes
  glued : Bool
deriving DecidableEq

namespace Token

def is (t : Token) (word : String) : Bool := t.kind = .word && toUpper t.text = ascii word

def punct (t : Token) (p : String) : Bool := t.kind = .punct && t.text = ascii p

def isAny (t : Token) (words : List String) : Bool := words.any t.is

def isName (t : Token) : Bool := t.kind = .word || t.kind = .quoted

end Token

def splitStatements : List Token → List (List Token)
  | [] => [[]]
  | t :: ts =>
    if t.punct ";" then [] :: splitStatements ts
    else match splitStatements ts with
      | [] => [[t]]
      | stmt :: stmts => (t :: stmt) :: stmts

def opensBracket (t : Token) : Bool := t.punct "(" || t.punct "["

def closesBracket (t : Token) : Bool := t.punct ")" || t.punct "]"

def afterKeyword (kw : String) (depth : Int) (cases : Nat) : List Token → List Token
  | [] => []
  | t :: ts =>
    if opensBracket t then afterKeyword kw (depth + 1) cases ts
    else if closesBracket t then afterKeyword kw (depth - 1) cases ts
    else if depth = 0 ∧ t.is "CASE" then afterKeyword kw depth (cases + 1) ts
    else if depth = 0 ∧ 0 < cases ∧ t.is "END" then afterKeyword kw depth (cases - 1) ts
    else if depth = 0 ∧ cases = 0 ∧ t.is kw then ts
    else afterKeyword kw depth cases ts

def stripOnce : List Token → Option (List Token)
  | [] => none
  | t :: ts =>
    if t.isName && ts.head?.any (Token.punct · ":") then some ts.tail
    else if t.kind ≠ .word then none
    else if (t.is "BEGIN" && !ts.head?.any (Token.isAny · ["TRANSACTION", "TRAN"])) || t.is "ELSE" then some ts
    else if t.isAny ["LOOP", "REPEAT"] then some ts
    else if t.is "EXCEPTION" && ts.head?.any (Token.is · "WHEN") then some (afterKeyword "THEN" 0 0 ts.tail)
    else if t.isAny ["IF", "ELSEIF", "CASE", "WHEN"] then some (afterKeyword "THEN" 0 0 ts)
    else if t.isAny ["WHILE", "FOR"] then some (afterKeyword "DO" 0 0 ts)
    else none

def stripLoop : Nat → List Token → List Token
  | 0, stmt => stmt
  | fuel + 1, stmt =>
    match stripOnce stmt with
    | none => stmt
    | some rest => stripLoop fuel rest

def stripControlFlow (stmt : List Token) : List Token := stripLoop stmt.length stmt

def reservedWords : List String :=
  ["ALL", "AND", "ANY", "ARRAY", "AS", "ASC", "ASSERT_ROWS_MODIFIED", "AT", "BETWEEN", "BY", "CASE", "CAST", "COLLATE",
    "CONTAINS", "CREATE", "CROSS", "CUBE", "CURRENT", "DEFAULT", "DEFINE", "DESC", "DISTINCT", "ELSE", "END", "ENUM",
    "ESCAPE", "EXCEPT", "EXCLUDE", "EXISTS", "EXTRACT", "FALSE", "FETCH", "FOLLOWING", "FOR", "FROM", "FULL",
    "GRAPH_TABLE", "GROUP", "GROUPING", "GROUPS", "HASH", "HAVING", "IF", "IGNORE", "IN", "INNER", "INTERSECT",
    "INTERVAL", "INTO", "IS", "JOIN", "LATERAL", "LEFT", "LIKE", "LIMIT", "LOOKUP", "MERGE", "NATURAL", "NEW", "NO",
    "NOT", "NULL", "NULLS", "OF", "ON", "OR", "ORDER", "OUTER", "OVER", "PARTITION", "PRECEDING", "PROTO", "QUALIFY",
    "RANGE", "RECURSIVE", "RESPECT", "RIGHT", "ROLLUP", "ROWS", "SELECT", "SET", "SOME", "STRUCT", "TABLESAMPLE",
    "THEN", "TO", "TREAT", "TRUE", "UNBOUNDED", "UNION", "UNNEST", "USING", "WHEN", "WHERE", "WINDOW", "WITH",
    "WITHIN", "OFFSET", "VALUE", "VALUES", "ASSERT", "IMMEDIATE", "ELSEIF", "UNTIL", "WHILE", "RETURN", "DO", "LOOP",
    "REPEAT", "BEGIN", "EXCEPTION", "CALL", "DECLARE", "EXECUTE", "RAISE", "ZONE", "UPDATE", "DELETE", "INSERT",
    "TRUNCATE", "TABLE", "VIEW", "SCHEMA", "FUNCTION", "DROP", "ALTER"]

def Token.reserved (t : Token) : Bool := t.isAny reservedWords

end Tokens

section Paths

def dashes (name : Bytes) : List Token → Bytes × List Token
  | dash :: w :: ts =>
    if dash.punct "-" ∧ w.kind = .word then dashes (name ++ ascii "-" ++ w.text) ts else (name, dash :: w :: ts)
  | ts => (name, ts)

def pathName (first : Bool) (t : Token) (ts : List Token) : Option (List Bytes × List Token) :=
  match t.kind with
  | .quoted => some (t.text.splitOn 46, ts)
  | .word =>
    let named := if first then dashes t.text ts else (t.text, ts)
    some ([named.1], named.2)
  | _ => none

def pathFrom (first : Bool) : Nat → List Token → List Bytes × List Token
  | 0, ts => ([], ts)
  | _ + 1, [] => ([], [])
  | fuel + 1, t :: ts =>
    match pathName first t ts with
    | none => ([], t :: ts)
    | some (parts, []) => (parts, [])
    | some (parts, dot :: rest) =>
      if dot.punct "." then (parts ++ (pathFrom false fuel rest).1, (pathFrom false fuel rest).2)
      else (parts, dot :: rest)

def path (ts : List Token) : List Bytes × List Token := pathFrom true ts.length ts

abbrev Table := Bytes × Bytes

def resolve (project : Bytes) : List Bytes → Option Table
  | [dataset, table] => some (dataset, table)
  | [p, dataset, table] => if p = project then some (dataset, table) else none
  | _ => none

structure Visit where
  pos : Nat
  parts : List Bytes
  rest : List Token

def walk (skip : Token → Bool) (pos : Nat) : Nat → List Token → List Visit
  | 0, _ => []
  | _ + 1, [] => []
  | fuel + 1, t :: ts =>
    if !t.isName || skip t then walk skip (pos + 1) fuel ts
    else
      let p := path (t :: ts)
      ⟨pos, p.1, p.2⟩ :: walk skip (pos + ((t :: ts).length - p.2.length)) fuel p.2

def visits (skip : Token → Bool) (ts : List Token) : List Visit := walk skip 0 ts.length ts

end Paths

section Sources

def extractLoop (prev : Option Token) (parens : List Bool) : List Token → List Bool
  | [] => []
  | t :: ts =>
    let parens :=
      if t.punct "(" then prev.any (Token.is · "EXTRACT") :: parens
      else if t.punct ")" then parens.tail
      else parens
    parens.head?.getD false :: extractLoop (some t) parens ts

def extract (stmt : List Token) : List Bool := extractLoop none [] stmt

inductive Mark where
  | opens
  | closes
  | source
  | comma
  | usingWord
  | ends
  | other
deriving DecidableEq

def endWords : List String :=
  ["WHERE", "GROUP", "HAVING", "QUALIFY", "WINDOW", "ORDER", "LIMIT", "UNION", "INTERSECT", "EXCEPT", "ON", "SELECT",
    "SET", "WHEN"]

def mark (stmt : List Token) (i : Nat) (t : Token) : Mark :=
  let before (k : Nat) (words : List String) : Bool := decide (k ≤ i) && (stmt[i - k]?).any (Token.isAny · words)
  if opensBracket t then .opens
  else if closesBracket t then .closes
  else if t.is "FROM" && (extract stmt)[i]?.getD false then .other
  else if t.is "FROM" && decide (2 ≤ i) && before 1 ["DISTINCT"] && before 2 ["IS", "NOT"] then .other
  else if t.is "FROM" && decide (i = 1) && before 1 ["DELETE"] then .other
  else if t.isAny ["FROM", "JOIN"] then .source
  else if t.punct "," then .comma
  else if t.is "USING" then .usingWord
  else if t.isAny endWords then .ends
  else .other

def marks (stmt : List Token) : List Mark := stmt.mapIdx (mark stmt)

structure Scan where
  pos : Nat
  depth : Int
  fromAt : Int → Bool
  sources : List Nat

def Scan.found (s : Scan) : Scan := { s with sources := (s.pos + 1) :: s.sources }

def Scan.close (s : Scan) : Scan := { s with fromAt := Function.update s.fromAt s.depth false }

def Scan.step (merge : Bool) (s : Scan) (m : Mark) : Scan :=
  let s' :=
    match m with
    | .opens => { s with depth := s.depth + 1 }
    | .closes => { s.close with depth := s.depth - 1 }
    | .source => { s.found with fromAt := Function.update s.fromAt s.depth true }
    | .comma => if s.fromAt s.depth then s.found else s
    | .usingWord => if merge ∧ s.depth = 0 then s.found.close else s.close
    | .ends => s.close
    | .other => s
  { s' with pos := s.pos + 1 }

def Scan.start : Scan := ⟨0, 0, fun _ => false, []⟩

def scan (stmt : List Token) : Scan :=
  (marks stmt).foldl (Scan.step (stmt.head?.any (Token.is · "MERGE"))) .start

def sources (stmt : List Token) : List Nat := (scan stmt).sources

def target (stmt : List Token) : Option Nat :=
  match stmt with
  | [] => none
  | t :: ts =>
    if t.is "UPDATE" then some 1
    else if t.isAny ["DELETE", "MERGE"] then some (if ts.head?.any (Token.isAny · ["FROM", "INTO"]) then 2 else 1)
    else if t.is "TRUNCATE" && ts.head?.any (Token.is · "TABLE") then some 2
    else none

end Sources

section Policies

structure RowPolicy where
  filter : Bytes
  grantees : List Bytes
deriving DecidableEq

structure ProtectedTable where
  table : Table
  created : Bytes
  policies : List RowPolicy
deriving DecidableEq

structure Item where
  table : Table
  place : Option (Nat × Nat)
deriving DecidableEq

structure Sql where
  toks : Option (List Token)
  items : List Item
deriving DecidableEq

structure TableMeta where
  created : Bytes
  view : Option Sql
deriving DecidableEq

structure Records where
  project : Bytes
  tables : List ProtectedTable
  tableInfo : Table → Option TableMeta

def callerIdentity (project : Bytes) : Bytes :=
  ascii "cloudburrow-local@" ++ project ++ ascii ".iam.gserviceaccount.com"

def grants (grantee project : Bytes) : Bool :=
  let g := Registry.trimSpace grantee
  if g = ascii "allUsers" ∨ g = ascii "allAuthenticatedUsers" then true
  else if (ascii "serviceAccount:").isPrefixOf g then
    equalFold (Registry.trimPrefix (ascii "serviceAccount:") g) (callerIdentity project)
  else false

namespace Records

variable (db : Records)

def livePolicies (t : Table) : List RowPolicy :=
  match db.tables.find? fun p => p.table = t with
  | none => []
  | some p => if (db.tableInfo t).any fun m => m.created = p.created then p.policies else []

def isProtected (t : Table) : Bool := db.livePolicies t ≠ []

def policiesInProject : Bool := db.tables.any fun p => db.isProtected p.table

def policyFilter (t : Table) : List Bytes :=
  ((db.livePolicies t).filter fun pol => pol.grantees.any (grants · db.project)).map RowPolicy.filter

def view (t : Table) : Option Sql := (db.tableInfo t).bind TableMeta.view

end Records

structure Catalog extends Records where
  tablesOnly : ∀ t, toRecords.isProtected t = true → toRecords.view t = none

inductive Refusal where
  | wildcardRead
  | dml
  | tableFunction
  | timeTravel
  | nestedViews
  | viewRead (view table : Table)
deriving DecidableEq

def viewReadsProtected (db : Catalog) : Nat → Table → Option Refusal
  | 0, v => (db.view v).map fun _ => .nestedViews
  | n + 1, v =>
    match (db.view v).bind Sql.toks with
    | none => none
    | some toks =>
      (visits (fun _ => false) toks).findSome? fun visit =>
        match resolve db.project visit.parts with
        | none => none
        | some t =>
          if t = v then none
          else if db.isProtected t then some (.viewRead v t)
          else viewReadsProtected db n t

end Policies

section Filtering

structure Edit where
  stmt : Nat
  pos : Nat
  table : Table
  filters : List Bytes
  aliased : Bool
deriving DecidableEq

def star : UInt8 := 42

def wildcard (visit : Visit) (table : Bytes) : Option Bytes :=
  if table.getLast? = some star then some table.dropLast
  else if visit.rest.head?.any fun t => t.punct "*" && t.glued then some table
  else none

def needsAlias (rest : List Token) : Bool :=
  match rest with
  | [] => true
  | t :: _ => !t.is "AS" && (!t.isName || t.reserved || t.is "TABLESAMPLE")

variable (db : Catalog)

def collect {α β ε : Type} (f : α → Except ε (List β)) : List α → Except ε (List β)
  | [] => .ok []
  | a :: as => do
    let bs ← f a
    let rest ← collect f as
    return bs ++ rest

def filterPath (k offset : Nat) (body : List Token) (visit : Visit) : Except Refusal (List Edit) :=
  match resolve db.project visit.parts with
  | none => .ok []
  | some t =>
    match wildcard visit t.2 with
    | some start =>
      if db.tables.any fun p => p.table.1 = t.1 && start.isPrefixOf p.table.2 && db.isProtected p.table then
        .error .wildcardRead
      else .ok []
    | none =>
      if target body = some visit.pos ∧ db.isProtected t then .error .dml
      else if visit.pos ∈ sources body then
        if visit.rest.head?.any (Token.punct · "(") then .error .tableFunction
        else if db.isProtected t then
          if visit.rest.head?.any (Token.is · "FOR") then .error .timeTravel
          else .ok [⟨k, offset + visit.pos, t, db.policyFilter t, needsAlias visit.rest⟩]
        else match viewReadsProtected db 5 t with
          | some why => .error why
          | none => .ok []
      else .ok []

def filterStatement (k : Nat) (stmt : List Token) : Except Refusal (List Edit) :=
  let body := stripControlFlow stmt
  collect (filterPath db k (stmt.length - body.length) body) (visits Token.reserved body)

def filterQuery (sql : Sql) : Except Refusal (List Edit) :=
  if db.policiesInProject then
    match sql.toks with
    | none => .ok []
    | some toks => collect (fun p => filterStatement db p.2 p.1) (splitStatements toks).zipIdx
  else .ok []

end Filtering

end CloudBurrow.BigQuery
