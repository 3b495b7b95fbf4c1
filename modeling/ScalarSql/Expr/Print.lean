import ScalarSql.Expr.Basic

/-!
# The text of an expression
-/

namespace ScalarSql

namespace Expr

def commaJoined : List String → String
  | [] => ""
  | [s] => s
  | s :: rest => s ++ ", " ++ commaJoined rest

/-- A text in quotes, each quote inside written twice. -/
def quoted (s : String) : String :=
  String.ofList ('\'' :: (s.toList.flatMap fun c => if c = '\'' then ['\'', '\''] else [c]) ++ ['\''])

mutual

/-- The expression as it is written; a sub-select is only hinted at. -/
def display : Expr → String
  | .node _ .null => "NULL"
  | .node _ (.integer (.inline v)) => Decimal.intText v.toInt
  | .node _ (.integer (.text t)) => t
  | .node _ (.float t) => t
  | .node _ (.string s) => quoted s
  | .node _ (.blob hex) => "x'" ++ hex ++ "'"
  | .node _ (.boolean b) => if b then "TRUE" else "FALSE"
  | .node _ (.param _ (some name)) => name
  | .node _ (.param index none) => "?" ++ Decimal.intText index
  | .node _ (.ident name) => name
  | .node _ (.column ref) => ref.name
  | .node _ (.aggColumn _ ref) => ref.name
  | .node _ (.aggCall _ name args) => name ++ "(" ++ commaJoined (displayItems args) ++ ")"
  | .node _ (.register reg _) => "r[" ++ Decimal.intText reg ++ "]"
  | .node _ (.unary op x) =>
    if op.isAfter then display x ++ " " ++ op.sign
    else if op = .not then "NOT " ++ display x
    else op.sign ++ display x
  | .node _ (.binary op l r) => "(" ++ display l ++ " " ++ op.sign ++ " " ++ display r ++ ")"
  | .node _ (.collate x name) => display x ++ " COLLATE " ++ name
  | .node _ (.cast x type) => "CAST(" ++ display x ++ " AS " ++ type ++ ")"
  | .node _ (.call name args _) => name ++ "(" ++ commaJoined (displayItems args) ++ ")"
  | .node _ (.caseOf base arms otherwise) =>
    "CASE" ++ (match base with | some b => " " ++ display b | none => "") ++ displayArms arms ++
      (match otherwise with | some e => " ELSE " ++ display e | none => "") ++ " END"
  | .node _ (.between x low high) => display x ++ " BETWEEN " ++ display low ++ " AND " ++ display high
  | .node _ (.inList _ x items) => display x ++ " IN (" ++ commaJoined (displayItems items) ++ ")"
  | .node _ (.inSelect _ x _) => display x ++ " IN (SELECT ...)"
  | .node _ (.hasRows _ _) => "EXISTS (SELECT ...)"
  | .node _ (.subquery _ _) => "(SELECT ...)"
  | .node _ (.selectColumn _ _ column _) => "(SELECT ...)[" ++ Decimal.intText column ++ "]"
  | .node _ (.vector items) => "(" ++ commaJoined (displayItems items) ++ ")"
  | .node _ (.ifNullRow _ x) => display x
  | .node _ (.raise action _) => "RAISE(" ++ action.name ++ ")"
termination_by structural e => e

def displayItems : List (Item Expr) → List String
  | [] => []
  | ⟨e, _, _⟩ :: rest => display e :: displayItems rest
termination_by structural items => items

def displayArms : List (Expr × Expr) → String
  | [] => ""
  | (condition, result) :: rest =>
    " WHEN " ++ display condition ++ " THEN " ++ display result ++ displayArms rest
termination_by structural arms => arms

end

end Expr

end ScalarSql
