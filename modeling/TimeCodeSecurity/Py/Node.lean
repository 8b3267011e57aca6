import TimeCodeSecurity.Foundations.TreeWalk
import TimeCodeSecurity.Py.Syntax

/-! # Nodes and walks

`ast.iter_child_nodes` and `ast.walk`. Operators and contexts, which have no children and which no
analysis asks a walk for, are not nodes here.
-/
namespace TimeCodeSecurity.Py
set_option autoImplicit false

inductive Node
  | expr (e : Expr)
  | stmt (s : Stmt)
  | arguments (a : Arguments Expr)
  | arg (a : Arg Expr)
  | keyword (k : Keyword Expr)
  | comprehension (c : Comprehension Expr)
  | withItem (w : WithItem)
  | handler (h : ExceptHandler Stmt)
  | matchCase (c : MatchCase Stmt)
  | pattern (p : Pattern)

/-! ## Children -/

def exprNodes (es : List Expr) : List Node := es.map .expr
def optNodes (e : Option Expr) : List Node := (e.map Node.expr).toList
def stmtNodes (ss : List Stmt) : List Node := ss.map .stmt

/-- `keys` may hold `None`, for `**` in a dictionary display and for a missing default. -/
def someNodes (es : List (Option Expr)) : List Node := es.flatMap optNodes

def Expr.children : Expr → List Node
  | .boolOp _ _ values => exprNodes values
  | .namedExpr _ target value => [.expr target, .expr value]
  | .binOp _ left _ right => [.expr left, .expr right]
  | .unaryOp _ _ operand => [.expr operand]
  | .lambda _ args body => [.arguments args, .expr body]
  | .ifExp _ test body orelse => [.expr test, .expr body, .expr orelse]
  | .dict _ keys values => someNodes keys ++ exprNodes values
  | .set _ elts => exprNodes elts
  | .listComp _ elt gens => .expr elt :: gens.map .comprehension
  | .setComp _ elt gens => .expr elt :: gens.map .comprehension
  | .dictComp _ key value gens => .expr key :: .expr value :: gens.map .comprehension
  | .generatorExp _ elt gens => .expr elt :: gens.map .comprehension
  | .await _ value => [.expr value]
  | .yield _ value => optNodes value
  | .yieldFrom _ value => [.expr value]
  | .compare _ left _ comparators => .expr left :: exprNodes comparators
  | .call _ func args keywords => .expr func :: (exprNodes args ++ keywords.map .keyword)
  | .formattedValue _ value _ formatSpec => .expr value :: optNodes formatSpec
  | .joinedStr _ values => exprNodes values
  | .constant _ _ => []
  | .attr _ value _ _ => [.expr value]
  | .subscript _ value index _ => [.expr value, .expr index]
  | .starred _ value _ => [.expr value]
  | .name _ _ _ => []
  | .list _ elts _ => exprNodes elts
  | .tuple _ elts _ => exprNodes elts
  | .slice _ lower upper step => optNodes lower ++ (optNodes upper ++ optNodes step)

def Pattern.children : Pattern → List Node
  | .matchValue value => [.expr value]
  | .matchSingleton _ => []
  | .matchSequence patterns => patterns.map .pattern
  | .matchMapping keys patterns _ => exprNodes keys ++ patterns.map .pattern
  | .matchClass cls patterns kwdPatterns =>
    .expr cls :: (patterns.map .pattern ++ kwdPatterns.map fun kp => .pattern kp.2)
  | .matchStar _ => []
  | .matchAs pattern _ => (pattern.map Node.pattern).toList
  | .matchOr patterns => patterns.map .pattern

def Stmt.children : Stmt → List Node
  | .functionDef _ _ _ args body decorators returns =>
    .arguments args :: (stmtNodes body ++ (exprNodes decorators ++ optNodes returns))
  | .classDef _ _ bases keywords body decorators =>
    exprNodes bases ++ (keywords.map .keyword ++ (stmtNodes body ++ exprNodes decorators))
  | .ret _ value => optNodes value
  | .delete _ targets => exprNodes targets
  | .assign _ targets value => exprNodes targets ++ [.expr value]
  | .augAssign _ target _ value => [.expr target, .expr value]
  | .annAssign _ target annot value => .expr target :: .expr annot :: optNodes value
  | .forLoop _ _ target iter body orelse =>
    .expr target :: .expr iter :: (stmtNodes body ++ stmtNodes orelse)
  | .whileLoop _ test body orelse => .expr test :: (stmtNodes body ++ stmtNodes orelse)
  | .ifStmt _ test body orelse => .expr test :: (stmtNodes body ++ stmtNodes orelse)
  | .withStmt _ _ items body => items.map .withItem ++ stmtNodes body
  | .matchStmt _ subject cases => .expr subject :: cases.map .matchCase
  | .raise _ exc cause => optNodes exc ++ optNodes cause
  | .tryStmt _ _ body handlers orelse finalbody =>
    stmtNodes body ++ (handlers.map .handler ++ (stmtNodes orelse ++ stmtNodes finalbody))
  | .assert _ test msg => .expr test :: optNodes msg
  | .importStmt _ _ => []
  | .importFrom _ _ _ _ => []
  | .global _ _ => []
  | .nonlocal _ _ => []
  | .expr _ value => [.expr value]
  | .pass _ => []
  | .breakStmt _ => []
  | .continueStmt _ => []

def Arguments.children (a : Arguments Expr) : List Node :=
  a.posonlyargs.map .arg ++ (a.args.map .arg ++ ((a.vararg.map Node.arg).toList ++
    (a.kwonlyargs.map .arg ++ (someNodes a.kwDefaults ++ ((a.kwarg.map Node.arg).toList ++
      exprNodes a.defaults)))))

/-- `ast.iter_child_nodes`. -/
def Node.children : Node → List Node
  | .expr e => e.children
  | .stmt s => s.children
  | .arguments a => a.children
  | .arg a => optNodes a.annot
  | .keyword k => [.expr k.value]
  | .comprehension c => .expr c.target :: .expr c.iter :: exprNodes c.ifs
  | .withItem w => .expr w.contextExpr :: optNodes w.optionalVars
  | .handler h => optNodes h.type ++ stmtNodes h.body
  | .matchCase c => .pattern c.pattern :: (optNodes c.guard ++ stmtNodes c.body)
  | .pattern p => p.children

def Node.isExprPart : Node → Bool
  | .expr _ | .arguments _ | .arg _ | .keyword _ | .comprehension _ => true
  | _ => false

@[simp] theorem all_isExprPart_exprNodes (es : List Expr) :
    (exprNodes es).all Node.isExprPart = true := by
  simp [exprNodes, Node.isExprPart]

@[simp] theorem all_isExprPart_optNodes (e : Option Expr) :
    (optNodes e).all Node.isExprPart = true := by
  cases e <;> simp [optNodes, Node.isExprPart]

@[simp] theorem all_isExprPart_someNodes (es : List (Option Expr)) :
    (someNodes es).all Node.isExprPart = true := by
  simp only [someNodes, List.all_flatMap, all_isExprPart_optNodes, List.all_eq_true, implies_true]

@[simp] theorem all_isExprPart_optArg (a : Option (Arg Expr)) :
    ((a.map Node.arg).toList).all Node.isExprPart = true := by
  cases a <;> simp [Node.isExprPart]

theorem Node.isExprPart_children {n m : Node} (hn : n.isExprPart = true) (hm : m ∈ n.children) :
    m.isExprPart = true := by
  have hall : n.children.all Node.isExprPart = true := by
    cases n with
    | expr e =>
      cases e <;> simp only [Node.children, Expr.children, List.all_cons, List.all_append,
        List.all_nil, List.all_map, all_isExprPart_exprNodes, all_isExprPart_optNodes,
        all_isExprPart_someNodes, Node.isExprPart, Bool.and_self] <;>
        simp [Node.isExprPart]
    | arguments a =>
      simp only [Node.children, Arguments.children, List.all_append, List.all_map,
        all_isExprPart_exprNodes, all_isExprPart_someNodes, all_isExprPart_optArg]
      simp [Node.isExprPart]
    | arg a => exact all_isExprPart_optNodes _
    | keyword k => rfl
    | comprehension c => simp [Node.children, Node.isExprPart]
    | stmt s => simp [Node.isExprPart] at hn
    | withItem w => simp [Node.isExprPart] at hn
    | handler h => simp [Node.isExprPart] at hn
    | matchCase c => simp [Node.isExprPart] at hn
    | pattern q => simp [Node.isExprPart] at hn
  exact List.all_eq_true.mp hall m hm

/-! ## The number of nodes -/

mutual

def Expr.weight : Expr → ℕ
  | .boolOp _ _ values => 1 + exprsWeight values
  | .namedExpr _ target value => 1 + target.weight + value.weight
  | .binOp _ left _ right => 1 + left.weight + right.weight
  | .unaryOp _ _ operand => 1 + operand.weight
  | .lambda _ args body => 1 + argumentsWeight args + body.weight
  | .ifExp _ test body orelse => 1 + test.weight + body.weight + orelse.weight
  | .dict _ keys values => 1 + someWeight keys + exprsWeight values
  | .set _ elts => 1 + exprsWeight elts
  | .listComp _ elt gens => 1 + elt.weight + comprehensionsWeight gens
  | .setComp _ elt gens => 1 + elt.weight + comprehensionsWeight gens
  | .dictComp _ key value gens => 1 + key.weight + value.weight + comprehensionsWeight gens
  | .generatorExp _ elt gens => 1 + elt.weight + comprehensionsWeight gens
  | .await _ value => 1 + value.weight
  | .yield _ value => 1 + optWeight value
  | .yieldFrom _ value => 1 + value.weight
  | .compare _ left _ comparators => 1 + left.weight + exprsWeight comparators
  | .call _ func args keywords => 1 + func.weight + exprsWeight args + keywordsWeight keywords
  | .formattedValue _ value _ formatSpec => 1 + value.weight + optWeight formatSpec
  | .joinedStr _ values => 1 + exprsWeight values
  | .constant _ _ => 1
  | .attr _ value _ _ => 1 + value.weight
  | .subscript _ value index _ => 1 + value.weight + index.weight
  | .starred _ value _ => 1 + value.weight
  | .name _ _ _ => 1
  | .list _ elts _ => 1 + exprsWeight elts
  | .tuple _ elts _ => 1 + exprsWeight elts
  | .slice _ lower upper step => 1 + optWeight lower + optWeight upper + optWeight step

def exprsWeight : List Expr → ℕ
  | [] => 0
  | e :: es => e.weight + exprsWeight es

def optWeight : Option Expr → ℕ
  | none => 0
  | some e => e.weight

def someWeight : List (Option Expr) → ℕ
  | [] => 0
  | e :: es => optWeight e + someWeight es

def argWeight : Arg Expr → ℕ
  | ⟨_, annot⟩ => 1 + optWeight annot

def argsWeight : List (Arg Expr) → ℕ
  | [] => 0
  | a :: as => argWeight a + argsWeight as

def optArgWeight : Option (Arg Expr) → ℕ
  | none => 0
  | some a => argWeight a

def argumentsWeight : Arguments Expr → ℕ
  | ⟨posonlyargs, args, vararg, kwonlyargs, kwDefaults, kwarg, defaults⟩ =>
    1 + argsWeight posonlyargs + argsWeight args + optArgWeight vararg + argsWeight kwonlyargs +
      someWeight kwDefaults + optArgWeight kwarg + exprsWeight defaults

def keywordWeight : Keyword Expr → ℕ
  | ⟨_, value⟩ => 1 + value.weight

def keywordsWeight : List (Keyword Expr) → ℕ
  | [] => 0
  | k :: ks => keywordWeight k + keywordsWeight ks

def comprehensionWeight : Comprehension Expr → ℕ
  | ⟨target, iter, ifs⟩ => 1 + target.weight + iter.weight + exprsWeight ifs

def comprehensionsWeight : List (Comprehension Expr) → ℕ
  | [] => 0
  | c :: cs => comprehensionWeight c + comprehensionsWeight cs

end

mutual

def Pattern.weight : Pattern → ℕ
  | .matchValue value => 1 + value.weight
  | .matchSingleton _ => 1
  | .matchSequence patterns => 1 + patternsWeight patterns
  | .matchMapping keys patterns _ => 1 + exprsWeight keys + patternsWeight patterns
  | .matchClass cls patterns kwdPatterns =>
    1 + cls.weight + patternsWeight patterns + kwdPatternsWeight kwdPatterns
  | .matchStar _ => 1
  | .matchAs pattern _ => 1 + optPatternWeight pattern
  | .matchOr patterns => 1 + patternsWeight patterns

def patternsWeight : List Pattern → ℕ
  | [] => 0
  | p :: ps => p.weight + patternsWeight ps

def optPatternWeight : Option Pattern → ℕ
  | none => 0
  | some p => p.weight

def kwdPatternsWeight : List (String × Pattern) → ℕ
  | [] => 0
  | (_, p) :: ps => p.weight + kwdPatternsWeight ps

end

def WithItem.weight (w : WithItem) : ℕ := 1 + w.contextExpr.weight + optWeight w.optionalVars

def withItemsWeight : List WithItem → ℕ
  | [] => 0
  | w :: ws => w.weight + withItemsWeight ws

mutual

def Stmt.weight : Stmt → ℕ
  | .functionDef _ _ _ args body decorators returns =>
    1 + argumentsWeight args + stmtsWeight body + exprsWeight decorators + optWeight returns
  | .classDef _ _ bases keywords body decorators =>
    1 + exprsWeight bases + keywordsWeight keywords + stmtsWeight body + exprsWeight decorators
  | .ret _ value => 1 + optWeight value
  | .delete _ targets => 1 + exprsWeight targets
  | .assign _ targets value => 1 + exprsWeight targets + value.weight
  | .augAssign _ target _ value => 1 + target.weight + value.weight
  | .annAssign _ target annot value =>
    1 + target.weight + annot.weight + optWeight value
  | .forLoop _ _ target iter body orelse =>
    1 + target.weight + iter.weight + stmtsWeight body + stmtsWeight orelse
  | .whileLoop _ test body orelse => 1 + test.weight + stmtsWeight body + stmtsWeight orelse
  | .ifStmt _ test body orelse => 1 + test.weight + stmtsWeight body + stmtsWeight orelse
  | .withStmt _ _ items body => 1 + withItemsWeight items + stmtsWeight body
  | .matchStmt _ subject cases => 1 + subject.weight + casesWeight cases
  | .raise _ exc cause => 1 + optWeight exc + optWeight cause
  | .tryStmt _ _ body handlers orelse finalbody =>
    1 + stmtsWeight body + handlersWeight handlers + stmtsWeight orelse + stmtsWeight finalbody
  | .assert _ test msg => 1 + test.weight + optWeight msg
  | .importStmt _ _ => 1
  | .importFrom _ _ _ _ => 1
  | .global _ _ => 1
  | .nonlocal _ _ => 1
  | .expr _ value => 1 + value.weight
  | .pass _ => 1
  | .breakStmt _ => 1
  | .continueStmt _ => 1

def stmtsWeight : List Stmt → ℕ
  | [] => 0
  | s :: ss => s.weight + stmtsWeight ss

def handlerWeight : ExceptHandler Stmt → ℕ
  | ⟨_, type, _, body⟩ => 1 + optWeight type + stmtsWeight body

def handlersWeight : List (ExceptHandler Stmt) → ℕ
  | [] => 0
  | h :: hs => handlerWeight h + handlersWeight hs

def caseWeight : MatchCase Stmt → ℕ
  | ⟨pattern, guard, body⟩ => 1 + pattern.weight + optWeight guard + stmtsWeight body

def casesWeight : List (MatchCase Stmt) → ℕ
  | [] => 0
  | c :: cs => caseWeight c + casesWeight cs

end

def Node.weight : Node → ℕ
  | .expr e => e.weight
  | .stmt s => s.weight
  | .arguments a => argumentsWeight a
  | .arg a => argWeight a
  | .keyword k => keywordWeight k
  | .comprehension c => comprehensionWeight c
  | .withItem w => w.weight
  | .handler h => handlerWeight h
  | .matchCase c => caseWeight c
  | .pattern p => p.weight

def nodesWeight (ns : List Node) : ℕ := (ns.map Node.weight).sum

@[simp] theorem nodesWeight_nil : nodesWeight [] = 0 := rfl

@[simp] theorem nodesWeight_cons (n : Node) (ns : List Node) :
    nodesWeight (n :: ns) = n.weight + nodesWeight ns := by
  simp [nodesWeight]

@[simp] theorem nodesWeight_append (ms ns : List Node) :
    nodesWeight (ms ++ ns) = nodesWeight ms + nodesWeight ns := by
  simp [nodesWeight]

@[simp] theorem nodesWeight_exprNodes (es : List Expr) :
    nodesWeight (exprNodes es) = exprsWeight es := by
  induction es with
  | nil => rfl
  | cons e es ih => simpa [exprNodes, exprsWeight, Node.weight] using ih

@[simp] theorem nodesWeight_stmtNodes (ss : List Stmt) :
    nodesWeight (stmtNodes ss) = stmtsWeight ss := by
  induction ss with
  | nil => rfl
  | cons s ss ih => simpa [stmtNodes, stmtsWeight, Node.weight] using ih

@[simp] theorem nodesWeight_optNodes (e : Option Expr) :
    nodesWeight (optNodes e) = optWeight e := by
  cases e <;> simp [optNodes, optWeight, Node.weight]

@[simp] theorem nodesWeight_someNodes (es : List (Option Expr)) :
    nodesWeight (someNodes es) = someWeight es := by
  induction es with
  | nil => rfl
  | cons e es ih => simpa [someNodes, someWeight] using ih

@[simp] theorem nodesWeight_args (as : List (Arg Expr)) :
    nodesWeight (as.map .arg) = argsWeight as := by
  induction as with
  | nil => rfl
  | cons a as ih => simpa [argsWeight, Node.weight] using ih

@[simp] theorem nodesWeight_optArg (a : Option (Arg Expr)) :
    nodesWeight (a.map Node.arg).toList = optArgWeight a := by
  cases a <;> simp [optArgWeight, Node.weight]

@[simp] theorem nodesWeight_keywords (ks : List (Keyword Expr)) :
    nodesWeight (ks.map .keyword) = keywordsWeight ks := by
  induction ks with
  | nil => rfl
  | cons k ks ih => simpa [keywordsWeight, Node.weight] using ih

@[simp] theorem nodesWeight_comprehensions (cs : List (Comprehension Expr)) :
    nodesWeight (cs.map .comprehension) = comprehensionsWeight cs := by
  induction cs with
  | nil => rfl
  | cons c cs ih => simpa [comprehensionsWeight, Node.weight] using ih

@[simp] theorem nodesWeight_patterns (ps : List Pattern) :
    nodesWeight (ps.map .pattern) = patternsWeight ps := by
  induction ps with
  | nil => rfl
  | cons p ps ih => simpa [patternsWeight, Node.weight] using ih

@[simp] theorem nodesWeight_optPattern (p : Option Pattern) :
    nodesWeight (p.map Node.pattern).toList = optPatternWeight p := by
  cases p <;> simp [optPatternWeight, Node.weight]

@[simp] theorem nodesWeight_kwdPatterns (ps : List (String × Pattern)) :
    nodesWeight (ps.map fun kp => .pattern kp.2) = kwdPatternsWeight ps := by
  induction ps with
  | nil => rfl
  | cons p ps ih => simpa [kwdPatternsWeight, Node.weight] using ih

@[simp] theorem nodesWeight_withItems (ws : List WithItem) :
    nodesWeight (ws.map .withItem) = withItemsWeight ws := by
  induction ws with
  | nil => rfl
  | cons w ws ih => simpa [withItemsWeight, Node.weight] using ih

@[simp] theorem nodesWeight_handlers (hs : List (ExceptHandler Stmt)) :
    nodesWeight (hs.map .handler) = handlersWeight hs := by
  induction hs with
  | nil => rfl
  | cons h hs ih => simpa [handlersWeight, Node.weight] using ih

@[simp] theorem nodesWeight_cases (cs : List (MatchCase Stmt)) :
    nodesWeight (cs.map .matchCase) = casesWeight cs := by
  induction cs with
  | nil => rfl
  | cons c cs ih => simpa [casesWeight, Node.weight] using ih

theorem Expr.weight_eq (e : Expr) : e.weight = 1 + nodesWeight e.children := by
  cases e <;> simp [Expr.weight, Expr.children, Node.weight] <;> omega

theorem Pattern.weight_eq (p : Pattern) : p.weight = 1 + nodesWeight p.children := by
  cases p <;> simp [Pattern.weight, Pattern.children, Node.weight] <;> omega

theorem Stmt.weight_eq (s : Stmt) : s.weight = 1 + nodesWeight s.children := by
  cases s <;> simp [Stmt.weight, Stmt.children, Node.weight] <;> omega

theorem Node.weight_eq (n : Node) : n.weight = 1 + nodesWeight n.children := by
  cases n with
  | expr e => exact e.weight_eq
  | stmt s => exact s.weight_eq
  | pattern p => exact p.weight_eq
  | arguments a =>
    cases a
    simp [Node.weight, Node.children, Arguments.children, argumentsWeight]
    omega
  | arg a =>
    cases a
    simp [Node.weight, Node.children, argWeight]
  | keyword k =>
    cases k
    simp [Node.weight, Node.children, keywordWeight]
  | comprehension c =>
    cases c
    simp [Node.weight, Node.children, comprehensionWeight]
    omega
  | withItem w =>
    simp [Node.weight, Node.children, WithItem.weight]
    omega
  | handler h =>
    cases h
    simp [Node.weight, Node.children, handlerWeight]
    omega
  | matchCase c =>
    cases c
    simp [Node.weight, Node.children, caseWeight]
    omega

theorem Node.sized : TreeWalk.Sized Node.children Node.weight := fun n => by
  have h := n.weight_eq
  unfold nodesWeight at h
  omega

def Node.walk (n : Node) : List Node := TreeWalk.queue Node.children n.weight [n]

/-- The pre-order of `_ordered_nodes`. -/
def Node.preorder (n : Node) : List Node := TreeWalk.stack Node.children n.weight [n]

abbrev Node.Below : Node → Node → Prop := TreeWalk.Below Node.children

theorem Node.mem_walk_iff {n m : Node} : m ∈ n.walk ↔ n.Below m := by
  rw [Node.walk, TreeWalk.mem_queue_iff Node.sized (by simp)]
  simp

end TimeCodeSecurity.Py
