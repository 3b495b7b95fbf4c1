import ScalarSql.Code.Membership
import ScalarSql.Code.Operator
import ScalarSql.Code.Reference

/-!
# The code of an expression

`Expr.coded` builds the code of an expression from the code of its parts.
-/

namespace ScalarSql

def Item.toCode (item : Item Coded) : Item Code := { item with expr := item.expr.toCode }

/-- The arm of a sub-select from its parts and the code of its columns and its filter. -/
def ArmCode.of (parts : SelectParts Expr Select) (columns : List (Item Coded))
    (filter : Option Coded) : ArmCode :=
  { sources := parts.sources
    aggregated := parts.flags.aggregate || parts.groupBy.isSome
    limited := parts.limit.isSome
    columns := columns.map Item.toCode
    filter }

mutual

def Expr.coded : Expr → Coded
  | .node info kind => Kind.coded (.node info kind) kind
termination_by structural e => e

def Kind.coded (e : Expr) : Kind Expr Select → Coded
  | .null => .load e fun reg => Gen.emit (.of .null 0 reg)
  | .integer (.inline v) => .load e fun reg => Gen.emit (.of .integer v.toInt reg)
  | .integer (.text t) => .load e (Gen.loadInteger t false)
  | .float t => .load e (Gen.loadReal t false)
  | .string s => .load e fun reg => Gen.emit (.of .text 0 reg 0 (.text s))
  | .blob hex => .load e (Gen.loadBlob hex)
  | .boolean b => .load e fun reg => Gen.emit (.of .integer (if b then 1 else 0) reg)
  | .param index name =>
    .load e fun reg => Gen.emit (.of .param index reg 0 (Operand.ofOption .text name))
  | .ident name =>
    match e.truthName? with
    | some b => .load e fun reg => Gen.emit (.of .integer (if b then 1 else 0) reg)
    | none => .fail e (.unresolvedIdentifier name)
  | .column ⟨cursor, column, table, fixed⟩ =>
    let fixedCode := optionCoded fixed
    .of e (Gen.column ⟨cursor, column, table, fixed⟩ (fixedCode.map Coded.toCode))
  | .aggColumn index ⟨cursor, column, table, fixed⟩ =>
    let fixedCode := optionCoded fixed
    .of e fun reg => do
      match (← get).aggColumns[index]? with
      | some found => return found
      | none => Gen.column ⟨cursor, column, table, fixed⟩ (fixedCode.map Coded.toCode) reg
  | .aggCall index name _ =>
    .of e fun _ => do
      match (← get).aggCalls[index]? with
      | some found => return found
      | none => throw (.misuseOfAggregate name)
  | .register reg _ => .register e reg
  | .unary op operand => .unary e op operand.coded
  | .binary op left right => .binary e op left.coded right.coded
  | .collate operand _ => .collate e operand.coded
  | .cast operand type => .cast e operand.coded type
  | .call name args window =>
    let argCodes := itemsCoded args
    .of e (Gen.call e name (argCodes.map Item.toCode) (window.map Window.call))
  | .caseOf base arms otherwise =>
    .caseOf e (optionCoded base) (armsCoded arms) (optionCoded otherwise)
  | .between operand low high => .between e operand.coded low.coded high.coded
  | .inList id operand items =>
    let itemCodes := itemsCoded items
    .membership e id operand.coded (.list (itemCodes.map Item.toCode))
  | .inSelect id operand select =>
    .membership e id operand.coded (.select select select.coded)
  | .hasRows id select => .hasRows e id select.coded
  | .subquery id select => .subquery e id select.width select.coded
  | .selectColumn share source column expected =>
    let sourceCode := source.coded
    .of e fun _ => Gen.sharedColumn share sourceCode column expected
  | .vector items =>
    let itemCodes := itemsCoded items
    { Coded.fail e .rowValueMisused with fields := itemCodes.map fun item => item.expr.toCode }
  | .ifNullRow cursor operand => .ifNullRow e cursor operand.coded
  | .raise action message => .raise e action message
termination_by structural kind => kind

def optionCoded : Option Expr → Option Coded
  | none => none
  | some e => some e.coded
termination_by structural e => e

def itemsCoded : List (Item Expr) → List (Item Coded)
  | [] => []
  | ⟨e, descending, resultColumn⟩ :: rest =>
    { expr := e.coded, descending, resultColumn } :: itemsCoded rest
termination_by structural items => items

def armsCoded : List (Expr × Expr) → List (Coded × Coded)
  | [] => []
  | (condition, result) :: rest => (condition.coded, result.coded) :: armsCoded rest
termination_by structural arms => arms

/-- The code of the arms of a sub-select, in the order in which they run. -/
def Select.coded : Select → List ArmCode
  | .mk ⟨id, columns, sources, filter, groupBy, having, orderBy, limit, flags, prior⟩ =>
    optionSelectCoded prior ++
      [.of ⟨id, columns, sources, filter, groupBy, having, orderBy, limit, flags, prior⟩
        (itemsCoded columns) (optionCoded filter)]
termination_by structural s => s

def optionSelectCoded : Option Select → List ArmCode
  | none => []
  | some s => s.coded
termination_by structural s => s

end

end ScalarSql
