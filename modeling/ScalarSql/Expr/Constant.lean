import ScalarSql.Expr.Match
import ScalarSql.Expr.Typing

/-!
# Constant expressions

An expression is constant if it can be evaluated once, before any row is visited. There are several
questions of that kind, one for each `ConstMode`.
-/

namespace ScalarSql

/-- What counts as constant. -/
inductive ConstMode where
  /-- No columns, no functions that may change their mind, no sub-selects. -/
  | plain
  /-- As `plain`, and nothing from the ON clause of an outer join. -/
  | notJoin
  /-- Columns of the table on the given cursor are allowed. -/
  | tableConstant (cursor : Int)
  /-- All functions are allowed; parameters only while stored text is read again. -/
  | constantOrFunction (reparse : Bool)
deriving DecidableEq, Repr, Inhabited

namespace ConstMode

def allowsCalls : ConstMode → Bool
  | .constantOrFunction _ => true
  | _ => false

end ConstMode

namespace Expr

mutual

def isConstant (mode : ConstMode) : Expr → Bool
  | .node info kind =>
    !(mode == .notJoin && info.flags.fromJoin) &&
      match kind with
      | .call _ args window =>
        (mode.allowsCalls || info.flags.constantCall) && window.isNone && itemsConstant mode args
      | .ident name => (truthName? (.node info (.ident name))).isSome
      | .column ⟨cursor, _, _, fixed⟩ =>
        match fixed with
        | some e => if mode = .notJoin then false else isConstant mode e
        | none => mode == .tableConstant cursor
      | .aggColumn _ ⟨cursor, _, _, fixed⟩ =>
        if fixed.isSome && mode != .notJoin then true else mode == .tableConstant cursor
      | .aggCall .. => false
      | .ifNullRow .. => false
      | .register .. => false
      | .raise .. => false
      | .hasRows .. => false
      | .subquery .. => false
      | .inSelect .. => false
      | .param .. => mode != .constantOrFunction false
      | .null => true
      | .integer _ => true
      | .float _ => true
      | .string _ => true
      | .blob _ => true
      | .boolean _ => true
      | .unary _ operand => isConstant mode operand
      | .binary _ left right => isConstant mode left && isConstant mode right
      | .collate operand _ => isConstant mode operand
      | .cast operand _ => isConstant mode operand
      | .caseOf base arms otherwise =>
        optionConstant mode base && armsConstant mode arms && optionConstant mode otherwise
      | .between operand low high =>
        isConstant mode operand && isConstant mode low && isConstant mode high
      | .inList _ operand items => isConstant mode operand && itemsConstant mode items
      | .selectColumn _ source _ _ => isConstant mode source
      | .vector items => itemsConstant mode items
termination_by structural e => e

def optionConstant (mode : ConstMode) : Option Expr → Bool
  | none => true
  | some e => isConstant mode e
termination_by structural e => e

def itemsConstant (mode : ConstMode) : List (Item Expr) → Bool
  | [] => true
  | ⟨e, _, _⟩ :: rest => isConstant mode e && itemsConstant mode rest
termination_by structural items => items

def armsConstant (mode : ConstMode) : List (Expr × Expr) → Bool
  | [] => true
  | (condition, result) :: rest =>
    isConstant mode condition && isConstant mode result && armsConstant mode rest
termination_by structural arms => arms

end

/-! ## Literals in stored text -/

mutual

/-- The expression with TRUE and FALSE in place of identifiers of these names and, while stored text
is read again, NULL in place of parameters. Sub-selects and shared sub-queries stay as they are. -/
def settleLiterals (mode : ConstMode) : Expr → Expr
  | .node info kind =>
    .node info <|
      match kind with
      | .ident name =>
        match truthName? (.node info (.ident name)) with
        | some b => .boolean b
        | none => .ident name
      | .param index name =>
        if mode = .constantOrFunction true then .null else .param index name
      | .column ⟨cursor, column, table, fixed⟩ =>
        .column ⟨cursor, column, table, settleOption mode fixed⟩
      | .aggCall index name args => .aggCall index name (settleItems mode args)
      | .call name args window => .call name (settleItems mode args) window
      | .register reg source => .register reg (settleLiterals mode source)
      | .unary op operand => .unary op (settleLiterals mode operand)
      | .binary op left right => .binary op (settleLiterals mode left) (settleLiterals mode right)
      | .collate operand name => .collate (settleLiterals mode operand) name
      | .cast operand type => .cast (settleLiterals mode operand) type
      | .caseOf base arms otherwise =>
        .caseOf (settleOption mode base) (settleArms mode arms) (settleOption mode otherwise)
      | .between operand low high =>
        .between (settleLiterals mode operand) (settleLiterals mode low)
          (settleLiterals mode high)
      | .inList id operand items =>
        .inList id (settleLiterals mode operand) (settleItems mode items)
      | .inSelect id operand select => .inSelect id (settleLiterals mode operand) select
      | .vector items => .vector (settleItems mode items)
      | .ifNullRow cursor operand => .ifNullRow cursor (settleLiterals mode operand)
      | kind => kind
termination_by structural e => e

def settleOption (mode : ConstMode) : Option Expr → Option Expr
  | none => none
  | some e => some (settleLiterals mode e)
termination_by structural e => e

def settleItems (mode : ConstMode) : List (Item Expr) → List (Item Expr)
  | [] => []
  | ⟨e, d, c⟩ :: rest => ⟨settleLiterals mode e, d, c⟩ :: settleItems mode rest
termination_by structural items => items

def settleArms (mode : ConstMode) : List (Expr × Expr) → List (Expr × Expr)
  | [] => []
  | (condition, result) :: rest =>
    (settleLiterals mode condition, settleLiterals mode result) :: settleArms mode rest
termination_by structural arms => arms

end

/-! ## Constant within a group -/

/-- Whether the expression matches a term of GROUP BY whose collating sequence is BINARY, so that it
has one value in each group. -/
def matchesTerm (e : Expr) : List (Item Expr) → Lookup Bool
  | [] => return false
  | term :: rest => do
    if compare none e term.expr == .different then matchesTerm e rest
    else
      match ← term.expr.collation with
      | some c => if c.isBinary then return true else matchesTerm e rest
      | none => return true

mutual

/-- Whether the expression is constant if the terms of GROUP BY count as constant. -/
def isConstantOrGroupBy (groupBy : List (Item Expr)) : Expr → Lookup Bool
  | .node info kind => do
    if ← matchesTerm (.node info kind) groupBy then return true
    match kind with
    | .inSelect .. => return false
    | .hasRows .. => return false
    | .subquery .. => return false
    | .column ref => return isConstant .plain (.node info (.column ref))
    | .aggColumn index ref => return isConstant .plain (.node info (.aggColumn index ref))
    | .aggCall .. => return false
    | .ifNullRow .. => return false
    | .register .. => return false
    | .raise .. => return false
    | .ident name => return isConstant .plain (.node info (.ident name))
    | .param index name => return isConstant .plain (.node info (.param index name))
    | .call _ args window =>
      if window.isSome || !info.flags.constantCall then return false
      else itemsConstantOrGroupBy groupBy args
    | .unary _ operand => isConstantOrGroupBy groupBy operand
    | .binary _ left right =>
      if ← isConstantOrGroupBy groupBy left then isConstantOrGroupBy groupBy right
      else return false
    | .collate operand _ => isConstantOrGroupBy groupBy operand
    | .cast operand _ => isConstantOrGroupBy groupBy operand
    | .caseOf base arms otherwise =>
      if !(← optionConstantOrGroupBy groupBy base) then return false
      else if !(← armsConstantOrGroupBy groupBy arms) then return false
      else optionConstantOrGroupBy groupBy otherwise
    | .between operand low high =>
      if !(← isConstantOrGroupBy groupBy operand) then return false
      else if !(← isConstantOrGroupBy groupBy low) then return false
      else isConstantOrGroupBy groupBy high
    | .inList _ operand items =>
      if ← isConstantOrGroupBy groupBy operand then itemsConstantOrGroupBy groupBy items
      else return false
    | .selectColumn _ source _ _ => isConstantOrGroupBy groupBy source
    | .vector items => itemsConstantOrGroupBy groupBy items
    | .null => return true
    | .integer _ => return true
    | .float _ => return true
    | .string _ => return true
    | .blob _ => return true
    | .boolean _ => return true
termination_by structural e => e

def optionConstantOrGroupBy (groupBy : List (Item Expr)) : Option Expr → Lookup Bool
  | none => return true
  | some e => isConstantOrGroupBy groupBy e
termination_by structural e => e

def itemsConstantOrGroupBy (groupBy : List (Item Expr)) : List (Item Expr) → Lookup Bool
  | [] => return true
  | ⟨e, _, _⟩ :: rest => do
    if ← isConstantOrGroupBy groupBy e then itemsConstantOrGroupBy groupBy rest
    else return false
termination_by structural items => items

def armsConstantOrGroupBy (groupBy : List (Item Expr)) : List (Expr × Expr) → Lookup Bool
  | [] => return true
  | (condition, result) :: rest => do
    if !(← isConstantOrGroupBy groupBy condition) then return false
    else if !(← isConstantOrGroupBy groupBy result) then return false
    else armsConstantOrGroupBy groupBy rest
termination_by structural arms => arms

end

end Expr

end ScalarSql
