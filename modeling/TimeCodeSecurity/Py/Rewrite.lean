import TimeCodeSecurity.Py.Node

/-! # Edits of a tree

A tree whose nodes are changed in place: a call is replaced by a call, an assignment by an assignment.
What stands below a replaced node is what the replacement brings along.
-/
namespace TimeCodeSecurity.Py
set_option autoImplicit false

def Expr.isCall : Expr → Bool
  | .call .. => true
  | _ => false

def Stmt.isAssignment : Stmt → Bool
  | .assign .. | .annAssign .. => true
  | _ => false

structure Edit where
  expr : Expr → Option Expr
  stmt : Stmt → Option Stmt
  expr_call : ∀ e e', expr e = some e' → e.isCall = true ∧ e'.isCall = true
  stmt_assignment : ∀ s s', stmt s = some s' → s.isAssignment = true ∧ s'.isAssignment = true

variable (ed : Edit)

/-! ## Expressions -/

mutual

def Expr.descend : Expr → Expr
  | .boolOp pos op values => .boolOp pos op (editExprs values)
  | .namedExpr pos target value =>
    .namedExpr pos ((ed.expr target).getD target.descend) ((ed.expr value).getD value.descend)
  | .binOp pos left op right =>
    .binOp pos ((ed.expr left).getD left.descend) op ((ed.expr right).getD right.descend)
  | .unaryOp pos op operand => .unaryOp pos op ((ed.expr operand).getD operand.descend)
  | .lambda pos args body => .lambda pos (editArguments args) ((ed.expr body).getD body.descend)
  | .ifExp pos test body orelse =>
    .ifExp pos ((ed.expr test).getD test.descend) ((ed.expr body).getD body.descend)
      ((ed.expr orelse).getD orelse.descend)
  | .dict pos keys values => .dict pos (editOptExprs keys) (editExprs values)
  | .set pos elts => .set pos (editExprs elts)
  | .listComp pos elt gens =>
    .listComp pos ((ed.expr elt).getD elt.descend) (editComprehensions gens)
  | .setComp pos elt gens =>
    .setComp pos ((ed.expr elt).getD elt.descend) (editComprehensions gens)
  | .dictComp pos key value gens =>
    .dictComp pos ((ed.expr key).getD key.descend) ((ed.expr value).getD value.descend)
      (editComprehensions gens)
  | .generatorExp pos elt gens =>
    .generatorExp pos ((ed.expr elt).getD elt.descend) (editComprehensions gens)
  | .await pos value => .await pos ((ed.expr value).getD value.descend)
  | .yield pos value => .yield pos (editOpt value)
  | .yieldFrom pos value => .yieldFrom pos ((ed.expr value).getD value.descend)
  | .compare pos left ops comparators =>
    .compare pos ((ed.expr left).getD left.descend) ops (editExprs comparators)
  | .call pos func args keywords =>
    .call pos ((ed.expr func).getD func.descend) (editExprs args) (editKeywords keywords)
  | .formattedValue pos value conversion formatSpec =>
    .formattedValue pos ((ed.expr value).getD value.descend) conversion (editOpt formatSpec)
  | .joinedStr pos values => .joinedStr pos (editExprs values)
  | .constant pos value => .constant pos value
  | .attr pos value attr ctx => .attr pos ((ed.expr value).getD value.descend) attr ctx
  | .subscript pos value index ctx =>
    .subscript pos ((ed.expr value).getD value.descend) ((ed.expr index).getD index.descend) ctx
  | .starred pos value ctx => .starred pos ((ed.expr value).getD value.descend) ctx
  | .name pos id ctx => .name pos id ctx
  | .list pos elts ctx => .list pos (editExprs elts) ctx
  | .tuple pos elts ctx => .tuple pos (editExprs elts) ctx
  | .slice pos lower upper step => .slice pos (editOpt lower) (editOpt upper) (editOpt step)

def editExprs : List Expr → List Expr
  | [] => []
  | e :: es => (ed.expr e).getD e.descend :: editExprs es

def editOpt : Option Expr → Option Expr
  | none => none
  | some e => some ((ed.expr e).getD e.descend)

def editOptExprs : List (Option Expr) → List (Option Expr)
  | [] => []
  | e :: es => editOpt e :: editOptExprs es

def editArg : Arg Expr → Arg Expr
  | ⟨arg, annot⟩ => ⟨arg, editOpt annot⟩

def editArgs : List (Arg Expr) → List (Arg Expr)
  | [] => []
  | a :: as => editArg a :: editArgs as

def editOptArg : Option (Arg Expr) → Option (Arg Expr)
  | none => none
  | some a => some (editArg a)

def editArguments : Arguments Expr → Arguments Expr
  | ⟨posonlyargs, args, vararg, kwonlyargs, kwDefaults, kwarg, defaults⟩ =>
    ⟨editArgs posonlyargs, editArgs args, editOptArg vararg, editArgs kwonlyargs,
      editOptExprs kwDefaults, editOptArg kwarg, editExprs defaults⟩

def editKeyword : Keyword Expr → Keyword Expr
  | ⟨arg, value⟩ => ⟨arg, (ed.expr value).getD value.descend⟩

def editKeywords : List (Keyword Expr) → List (Keyword Expr)
  | [] => []
  | k :: ks => editKeyword k :: editKeywords ks

def editComprehension : Comprehension Expr → Comprehension Expr
  | ⟨target, iter, ifs⟩ =>
    ⟨(ed.expr target).getD target.descend, (ed.expr iter).getD iter.descend, editExprs ifs⟩

def editComprehensions : List (Comprehension Expr) → List (Comprehension Expr)
  | [] => []
  | c :: cs => editComprehension c :: editComprehensions cs

end

def Expr.edit (e : Expr) : Expr := (ed.expr e).getD (e.descend ed)

mutual

def Pattern.edit : Pattern → Pattern
  | .matchValue value => .matchValue (value.edit ed)
  | .matchSingleton value => .matchSingleton value
  | .matchSequence patterns => .matchSequence (editPatterns patterns)
  | .matchMapping keys patterns rest => .matchMapping (editExprs ed keys) (editPatterns patterns) rest
  | .matchClass cls patterns kwdPatterns =>
    .matchClass (cls.edit ed) (editPatterns patterns) (editKwdPatterns kwdPatterns)
  | .matchStar name => .matchStar name
  | .matchAs pattern name => .matchAs (editOptPattern pattern) name
  | .matchOr patterns => .matchOr (editPatterns patterns)

def editPatterns : List Pattern → List Pattern
  | [] => []
  | p :: ps => p.edit :: editPatterns ps

def editOptPattern : Option Pattern → Option Pattern
  | none => none
  | some p => some p.edit

def editKwdPatterns : List (String × Pattern) → List (String × Pattern)
  | [] => []
  | (name, p) :: ps => (name, p.edit) :: editKwdPatterns ps

end

def editWithItem (w : WithItem) : WithItem :=
  ⟨w.contextExpr.edit ed, editOpt ed w.optionalVars⟩

mutual

def Stmt.descend : Stmt → Stmt
  | .functionDef pos isAsync name args body decorators returns =>
    .functionDef pos isAsync name (editArguments ed args) (editStmts body) (editExprs ed decorators)
      (editOpt ed returns)
  | .classDef pos name bases keywords body decorators =>
    .classDef pos name (editExprs ed bases) (editKeywords ed keywords) (editStmts body)
      (editExprs ed decorators)
  | .ret pos value => .ret pos (editOpt ed value)
  | .delete pos targets => .delete pos (editExprs ed targets)
  | .assign pos targets value => .assign pos (editExprs ed targets) (value.edit ed)
  | .augAssign pos target op value => .augAssign pos (target.edit ed) op (value.edit ed)
  | .annAssign pos target annot value =>
    .annAssign pos (target.edit ed) (annot.edit ed) (editOpt ed value)
  | .forLoop pos isAsync target iter body orelse =>
    .forLoop pos isAsync (target.edit ed) (iter.edit ed) (editStmts body) (editStmts orelse)
  | .whileLoop pos test body orelse =>
    .whileLoop pos (test.edit ed) (editStmts body) (editStmts orelse)
  | .ifStmt pos test body orelse =>
    .ifStmt pos (test.edit ed) (editStmts body) (editStmts orelse)
  | .withStmt pos isAsync items body =>
    .withStmt pos isAsync (items.map (editWithItem ed)) (editStmts body)
  | .matchStmt pos subject cases => .matchStmt pos (subject.edit ed) (editCases cases)
  | .raise pos exc cause => .raise pos (editOpt ed exc) (editOpt ed cause)
  | .tryStmt pos isStar body handlers orelse finalbody =>
    .tryStmt pos isStar (editStmts body) (editHandlers handlers) (editStmts orelse)
      (editStmts finalbody)
  | .assert pos test msg => .assert pos (test.edit ed) (editOpt ed msg)
  | .importStmt pos names => .importStmt pos names
  | .importFrom pos module names level => .importFrom pos module names level
  | .global pos names => .global pos names
  | .nonlocal pos names => .nonlocal pos names
  | .expr pos value => .expr pos (value.edit ed)
  | .pass pos => .pass pos
  | .breakStmt pos => .breakStmt pos
  | .continueStmt pos => .continueStmt pos

def editStmts : List Stmt → List Stmt
  | [] => []
  | s :: ss => (ed.stmt s).getD s.descend :: editStmts ss

def editHandler : ExceptHandler Stmt → ExceptHandler Stmt
  | ⟨pos, type, name, body⟩ => ⟨pos, editOpt ed type, name, editStmts body⟩

def editHandlers : List (ExceptHandler Stmt) → List (ExceptHandler Stmt)
  | [] => []
  | h :: hs => editHandler h :: editHandlers hs

def editCase : MatchCase Stmt → MatchCase Stmt
  | ⟨pattern, guard, body⟩ => ⟨pattern.edit ed, editOpt ed guard, editStmts body⟩

def editCases : List (MatchCase Stmt) → List (MatchCase Stmt)
  | [] => []
  | c :: cs => editCase c :: editCases cs

end

def Stmt.edit (s : Stmt) : Stmt := (ed.stmt s).getD (s.descend ed)

/-! ## Where nothing is edited -/

def Clear (n : Node) : Prop := ∀ x, n.Below (.expr x) → ed.expr x = none

def Node.Fixed : Node → Prop
  | .expr e => e.edit ed = e
  | .arguments a => editArguments ed a = a
  | .arg a => editArg ed a = a
  | .keyword k => editKeyword ed k = k
  | .comprehension c => editComprehension ed c = c
  | .withItem w => editWithItem ed w = w
  | .pattern p => p.edit ed = p
  | .stmt _ | .handler _ | .matchCase _ => True

def AllFixed (ns : List Node) : Prop := ∀ n ∈ ns, n.Fixed ed

variable {ed}

@[simp] theorem allFixed_nil : AllFixed ed [] := fun _ hn => absurd hn List.not_mem_nil

@[simp] theorem allFixed_cons {n : Node} {ns : List Node} :
    AllFixed ed (n :: ns) ↔ n.Fixed ed ∧ AllFixed ed ns := List.forall_mem_cons

@[simp] theorem allFixed_append {ms ns : List Node} :
    AllFixed ed (ms ++ ns) ↔ AllFixed ed ms ∧ AllFixed ed ns := List.forall_mem_append

theorem Clear.child {n m : Node} (h : Clear ed n) (hm : m ∈ n.children) : Clear ed m :=
  fun x hx => h x (.head hm hx)

section
variable {es : List Expr} {ps : List Pattern}

theorem editExprs_fixed (h : AllFixed ed (exprNodes es)) : editExprs ed es = es := by
  induction es with
  | nil => rfl
  | cons e es ih =>
    have he : e.edit ed = e := h _ List.mem_cons_self
    have hes := ih fun n hn => h n (List.mem_cons_of_mem _ hn)
    rw [Expr.edit] at he
    rw [editExprs, he, hes]

theorem editOpt_fixed {e : Option Expr} (h : AllFixed ed (optNodes e)) : editOpt ed e = e := by
  cases e with
  | none => rfl
  | some e =>
    have he : e.edit ed = e := h _ List.mem_cons_self
    rw [Expr.edit] at he
    rw [editOpt, he]

theorem editOptExprs_fixed {es : List (Option Expr)} (h : AllFixed ed (someNodes es)) :
    editOptExprs ed es = es := by
  induction es with
  | nil => rfl
  | cons e es ih =>
    have he := editOpt_fixed (e := e) fun n hn => h n (List.mem_append_left _ hn)
    have hes := ih fun n hn => h n (List.mem_append_right _ hn)
    rw [editOptExprs, he, hes]

theorem editArgs_fixed {as : List (Arg Expr)} (h : AllFixed ed (as.map Node.arg)) :
    editArgs ed as = as := by
  induction as with
  | nil => rfl
  | cons a as ih =>
    have ha : editArg ed a = a := h _ List.mem_cons_self
    rw [editArgs, ha, ih fun n hn => h n (List.mem_cons_of_mem _ hn)]

theorem editOptArg_fixed {a : Option (Arg Expr)} (h : AllFixed ed ((a.map Node.arg).toList)) :
    editOptArg ed a = a := by
  cases a with
  | none => rfl
  | some a =>
    have ha : editArg ed a = a := h _ List.mem_cons_self
    rw [editOptArg, ha]

theorem editKeywords_fixed {ks : List (Keyword Expr)} (h : AllFixed ed (ks.map Node.keyword)) :
    editKeywords ed ks = ks := by
  induction ks with
  | nil => rfl
  | cons k ks ih =>
    have hk : editKeyword ed k = k := h _ List.mem_cons_self
    rw [editKeywords, hk, ih fun n hn => h n (List.mem_cons_of_mem _ hn)]

theorem editComprehensions_fixed {cs : List (Comprehension Expr)}
    (h : AllFixed ed (cs.map Node.comprehension)) : editComprehensions ed cs = cs := by
  induction cs with
  | nil => rfl
  | cons c cs ih =>
    have hc : editComprehension ed c = c := h _ List.mem_cons_self
    rw [editComprehensions, hc, ih fun n hn => h n (List.mem_cons_of_mem _ hn)]

theorem editWithItems_fixed {ws : List WithItem} (h : AllFixed ed (ws.map Node.withItem)) :
    ws.map (editWithItem ed) = ws := by
  induction ws with
  | nil => rfl
  | cons w ws ih =>
    have hw : editWithItem ed w = w := h _ List.mem_cons_self
    rw [List.map_cons, hw, ih fun n hn => h n (List.mem_cons_of_mem _ hn)]

theorem editPatterns_fixed (h : AllFixed ed (ps.map Node.pattern)) : editPatterns ed ps = ps := by
  induction ps with
  | nil => rfl
  | cons p ps ih =>
    have hp : p.edit ed = p := h _ List.mem_cons_self
    rw [editPatterns, hp, ih fun n hn => h n (List.mem_cons_of_mem _ hn)]

theorem editOptPattern_fixed {p : Option Pattern}
    (h : AllFixed ed ((p.map Node.pattern).toList)) : editOptPattern ed p = p := by
  cases p with
  | none => rfl
  | some p =>
    have hp : p.edit ed = p := h _ List.mem_cons_self
    rw [editOptPattern, hp]

theorem editKwdPatterns_fixed {ps : List (String × Pattern)}
    (h : AllFixed ed (ps.map fun kp => Node.pattern kp.2)) : editKwdPatterns ed ps = ps := by
  induction ps with
  | nil => rfl
  | cons p ps ih =>
    obtain ⟨name, p⟩ := p
    have hp : p.edit ed = p := h _ List.mem_cons_self
    rw [editKwdPatterns, hp, ih fun n hn => h n (List.mem_cons_of_mem _ hn)]

end

theorem Expr.descend_fixed {e : Expr} (h : AllFixed ed e.children) : e.descend ed = e := by
  have hone : ∀ e : Expr, (Node.expr e).Fixed ed → (ed.expr e).getD (e.descend ed) = e :=
    fun _ h => h
  have harguments : ∀ a, (Node.arguments a).Fixed ed → editArguments ed a = a := fun _ h => h
  cases e <;> simp only [Expr.children, allFixed_append, allFixed_cons, allFixed_nil, and_true] at h <;>
    simp only [Expr.descend, hone, harguments, editExprs_fixed, editOpt_fixed, editOptExprs_fixed,
      editKeywords_fixed, editComprehensions_fixed, h]

theorem Pattern.edit_fixed {p : Pattern} (h : AllFixed ed p.children) : p.edit ed = p := by
  have hone : ∀ e : Expr, (Node.expr e).Fixed ed → e.edit ed = e := fun _ h => h
  cases p <;> simp only [Pattern.children, allFixed_append, allFixed_cons, allFixed_nil,
      and_true] at h <;>
    simp only [Pattern.edit, hone, editExprs_fixed, editPatterns_fixed, editOptPattern_fixed,
      editKwdPatterns_fixed, h]

theorem Clear.fixed {n : Node} (h : Clear ed n) : n.Fixed ed := by
  induction n using Node.sized.induction with
  | step n ih =>
    have hchildren : AllFixed ed n.children := fun m hm => ih m hm (h.child hm)
    have hone : ∀ e : Expr, (Node.expr e).Fixed ed → e.edit ed = e := fun _ h => h
    cases n with
    | expr e =>
      have hnone : ed.expr e = none := h e .refl
      have hdescend := Expr.descend_fixed hchildren
      simp only [Node.Fixed, Expr.edit, hnone, Option.getD_none]
      exact hdescend
    | arguments a =>
      cases a
      simp only [Node.children, Arguments.children, allFixed_append] at hchildren
      simp only [Node.Fixed, editArguments, editArgs_fixed, editOptArg_fixed, editOptExprs_fixed,
        editExprs_fixed, hchildren]
    | arg a =>
      cases a
      simp only [Node.children] at hchildren
      simp only [Node.Fixed, editArg, editOpt_fixed, hchildren]
    | keyword k =>
      cases k
      simp only [Node.children, allFixed_cons, allFixed_nil, and_true] at hchildren
      have hvalue := hone _ hchildren
      rw [Expr.edit] at hvalue
      simp only [Node.Fixed, editKeyword, hvalue]
    | comprehension c =>
      cases c
      simp only [Node.children, allFixed_cons] at hchildren
      have htarget := hone _ hchildren.1
      have hiter := hone _ hchildren.2.1
      rw [Expr.edit] at htarget hiter
      simp only [Node.Fixed, editComprehension, htarget, hiter, editExprs_fixed hchildren.2.2]
    | withItem w =>
      simp only [Node.children, allFixed_cons] at hchildren
      simp only [Node.Fixed, editWithItem, hone _ hchildren.1, editOpt_fixed hchildren.2]
    | pattern p => exact Pattern.edit_fixed hchildren
    | stmt s => trivial
    | handler hd => trivial
    | matchCase c => trivial

end TimeCodeSecurity.Py
