import ScalarSql.Expr.Shape

/-!
# Structural match and implication

Two expressions match if they have the same structure; sub-selects match by identity. `implies` says
that one condition being true makes another true; it may miss cases.
-/

namespace ScalarSql

/-- The outcome of a structural match. -/
inductive Match where
  | equal
  /-- They are the same once COLLATE at the top of one side is removed. -/
  | equalUnderCollate
  | different
deriving DecidableEq, Repr, Inhabited

namespace Match

def name : Match → String
  | .equal => "Equal"
  | .equalUnderCollate => "EqualModuloTopCollate"
  | .different => "Different"

def ofBool (b : Bool) : Match := if b then .equal else .different

/-- The outcome for the operands under COLLATE, seen from outside of it. -/
def underCollate : Match → Match
  | .different => .different
  | _ => .equalUnderCollate

end Match

/-- Whether two column references are to the same column. A column on the cursor `tab` also matches
the column of the statement's own row. -/
def ColumnRef.matches {ε δ : Type} (tab : Option Int) (x : ColumnRef ε) (y : ColumnRef δ) : Bool :=
  x.column == y.column && (x.cursor == y.cursor || (tab == some x.cursor && y.cursor < 0))

namespace Expr

/-- The outcome for `b`, given the outcome for what is under COLLATE at its top. -/
def seenFrom (b : Expr) (m : Match) : Match :=
  match b.kind with
  | .collate .. => m.underCollate
  | _ => m

/-- Whether two nodes are both aggregates over distinct values or both not. Integers of 32 bits match
by their value alone. -/
def sameDistinct (i : NodeInfo) (a : Kind Expr Select) (b : Expr) : Bool :=
  match a, b.kind with
  | .integer (.inline _), .integer (.inline _) => true
  | _, _ => i.flags.distinct == b.flags.distinct

mutual

def compare (tab : Option Int) : Expr → Expr → Match
  | .node i (.collate x c), b =>
    match b with
    | .node j (.collate y d) =>
      .ofBool (i.flags.distinct == j.flags.distinct && Text.sameName c d &&
        compare tab x y == .equal)
    | b => (compare tab x b).underCollate
  | .node i a, b =>
    seenFrom b (.ofBool (sameDistinct i a b.skipCollate &&
      match a, b.skipCollate.kind with
      | .integer (.inline v), .integer (.inline w) => v == w
      | .null, .null => true
      | .integer v, .integer w => v == w
      | .float s, .float t => s == t
      | .string s, .string t => s == t
      | .blob s, .blob t => s == t
      | .ident s, .ident t => s == t
      | .boolean v, .boolean w => v == w
      | .param n s, .param m t => n == m && s == t
      | .column x, .column y => x.matches tab y
      | .aggColumn n x, .aggColumn m y => n == m && x.matches tab y
      | .aggCall n s xs, .aggCall m t ys => n == m && Text.sameName s t && sameItems tab xs ys
      | .call s xs v, .call t ys w =>
        Text.sameName s t && sameWindow v w && sameItems tab xs ys
      | .register r x, .register q y => r == q && compare tab x y == .equal
      | .unary o x, .unary p y => o == p && compare tab x y == .equal
      | .binary o x y, .binary p z w =>
        o == p && compare tab x z == .equal && compare tab y w == .equal
      | .cast x s, .cast y t => s == t && compare tab x y == .equal
      | .caseOf x xs u, .caseOf y ys w =>
        sameOption tab x y && sameArms tab xs ys && sameOption tab u w
      | .between x u v, .between y w z =>
        compare tab x y == .equal && compare tab u w == .equal && compare tab v z == .equal
      | .inList _ x xs, .inList _ y ys => compare tab x y == .equal && sameItems tab xs ys
      | .inSelect _ x s, .inSelect _ y t => compare tab x y == .equal && s.id == t.id
      | .hasRows _ s, .hasRows _ t => s.id == t.id
      | .subquery _ s, .subquery _ t => s.id == t.id
      | .selectColumn p x n _, .selectColumn q y m _ =>
        n == m && (p == q || compare tab x y == .equal)
      | .vector xs, .vector ys => sameItems tab xs ys
      | .ifNullRow c x, .ifNullRow d y => c == d && compare tab x y == .equal
      | _, _ => false))
termination_by structural a => a

def sameOption (tab : Option Int) : Option Expr → Option Expr → Bool
  | none, none => true
  | some x, some y => compare tab x y == .equal
  | _, _ => false
termination_by structural x => x

/-- Whether two windows are the same one, or have the same name and equal terms. -/
def sameWindow : Option (Window Expr) → Option (Window Expr) → Bool
  | none, none => true
  | some ⟨i, n, ps, os, _⟩, some ⟨j, m, qs, rs, _⟩ =>
    i == j || (n == m && sameItems none ps qs && sameItems none os rs)
  | _, _ => false
termination_by structural v => v

/-- Whether two lists have equal expressions and the same order of sorting throughout. -/
def sameItems (tab : Option Int) : List (Item Expr) → List (Item Expr) → Bool
  | [], [] => true
  | ⟨x, d, _⟩ :: xs, ⟨y, e, _⟩ :: ys => d == e && compare tab x y == .equal && sameItems tab xs ys
  | _, _ => false
termination_by structural xs => xs

def sameArms (tab : Option Int) : List (Expr × Expr) → List (Expr × Expr) → Bool
  | [], [] => true
  | (c, x) :: xs, (d, y) :: ys =>
    compare tab c d == .equal && compare tab x y == .equal && sameArms tab xs ys
  | _, _ => false
termination_by structural xs => xs

end

def compareItems (tab : Option Int) (xs ys : List (Item Expr)) : Match :=
  .ofBool (sameItems tab xs ys)

/-! ## Implication -/

/-- Whether a condition on the operands can only be other than NULL if both operands are: `none` if
nothing follows, else whether that also holds when the condition is false, given whether it may be
false already. -/
def strictness (op : BinaryOp) (mayBeFalse : Bool) : Option Bool :=
  match op with
  | .eq | .ne | .lt | .le | .gt | .ge | .add | .sub | .bitOr | .shiftLeft | .shiftRight | .concat =>
    some true
  | .mul | .rem | .bitAnd | .div => some mayBeFalse
  | .and | .or | .is | .isNot => none

/-- Whether `p` being true makes `x` other than NULL. With `mayBeFalse`, whether `p` being other than
NULL does. -/
def impliesNotNull (tab : Option Int) (x : Expr) : (mayBeFalse : Bool) → Expr → Bool
  | mayBeFalse, .node info kind =>
    if compare tab (.node info kind) x == .equal then
      match x.kind with
      | .null => false
      | _ => true
    else
      match kind with
      | .inList _ operand _ => impliesNotNull tab x true operand
      | .inSelect _ operand _ => !mayBeFalse && impliesNotNull tab x true operand
      | .between operand low high =>
        !mayBeFalse &&
          (impliesNotNull tab x true low || impliesNotNull tab x true high ||
            impliesNotNull tab x true operand)
      | .binary op left right =>
        match strictness op mayBeFalse with
        | some m => impliesNotNull tab x m right || impliesNotNull tab x m left
        | none => false
      | .collate operand _ => impliesNotNull tab x mayBeFalse operand
      | .unary op operand =>
        match op with
        | .positive | .negate => impliesNotNull tab x mayBeFalse operand
        | .isTrue | .isFalse => !mayBeFalse && impliesNotNull tab x true operand
        | .bitNot | .not => impliesNotNull tab x true operand
        | _ => false
      | _ => false
termination_by structural _ p => p

/-- Whether `a` being true makes `b` true. -/
def implies (tab : Option Int) (a : Expr) : Expr → Bool
  | .node info kind =>
    compare tab a (.node info kind) == .equal ||
      match kind with
      | .binary .or left right => implies tab a left || implies tab a right
      | .unary .notNull operand => impliesNotNull tab operand false a
      | _ => false
termination_by structural b => b

end Expr

end ScalarSql
