import TimeCodeSecurity.Py.Syntax

/-! # Statically decided tests

`ast.unparse`, by which two operands of a test are compared, is a parameter.
-/
namespace TimeCodeSecurity.Scanner
open Py
set_option autoImplicit false

def constantTruthiness : Constant → Option Bool
  | .none => some false
  | .bool b => some b
  | .int n => some (n ≠ 0)
  | .float q => some (q ≠ 0)
  | .str s => some (s ≠ "")
  | .bytes s => some (s ≠ "")
  | .ellipsis => none

mutual

def literalTruthiness : Expr → Option Bool
  | .constant _ value => constantTruthiness value
  | .unaryOp _ .not operand => (literalTruthiness operand).map (!·)
  | .boolOp _ .and values =>
    let parts := literalTruthinesses values
    if parts.any (· = some false) then some false
    else if parts.all (· = some true) then some true else none
  | .boolOp _ .or values =>
    let parts := literalTruthinesses values
    if parts.any (· = some true) then some true
    else if parts.all (· = some false) then some false else none
  | _ => none

def literalTruthinesses : List Expr → List (Option Bool)
  | [] => []
  | e :: es => literalTruthiness e :: literalTruthinesses es

end

/-- One of the operands of `op` is the negation of another. -/
def complementPair (unparse : Expr → String) (op : BoolOp) : Expr → Bool
  | .boolOp _ op' values =>
    let negated := values.filterMap fun
      | .unaryOp _ .not operand => some (unparse operand)
      | _ => none
    let plain := values.filterMap fun
      | .unaryOp _ .not _ => none
      | value => some (unparse value)
    op' = op && negated.any fun key => key ∈ plain
  | _ => false

def isUnreachableTest (unparse : Expr → String) (test : Expr) : Bool :=
  literalTruthiness test = some false || complementPair unparse .and test

def isTautologyTest (unparse : Expr → String) (test : Expr) : Bool :=
  literalTruthiness test = some true || complementPair unparse .or test

end TimeCodeSecurity.Scanner
