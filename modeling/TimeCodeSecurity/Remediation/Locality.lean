import TimeCodeSecurity.Remediation.Unparse

/-! # Where an edit shows in the print

An edit shows in the own text of the statements that hold an edited expression, and nowhere else: what is
printed around such a statement is what was printed there before.
-/
namespace TimeCodeSecurity.Remediation
open Py Layout
set_option autoImplicit false

def ownPart : Node → List Node
  | .stmt _ => []
  | .handler h => optNodes h.type
  | .matchCase c => .pattern c.pattern :: optNodes c.guard
  | n => [n]

def ownNodes (s : Stmt) : List Node := s.children.flatMap ownPart

variable (ed : Edit)

def Touches (s : Stmt) : Prop := (ed.stmt s).isSome = true ∨ ∃ n ∈ ownNodes s, ¬Clear ed n

def Item.edit : Item → Item
  | .module body => .module (editStmts ed body)
  | .stmt indent isElif s => .stmt indent isElif (s.edit ed)

variable {ed}

/-! ## Shapes that stay -/

def isExpression : Stmt → Bool
  | .expr .. => true
  | _ => false

theorem shape_of_isAssignment {s : Stmt} (h : s.isAssignment = true) :
    isDefinition s = false ∧ isIf s = false ∧ isExpression s = false := by
  cases s <;> simp_all [Stmt.isAssignment, isDefinition, isIf, isExpression]

theorem isDefinition_edit (s : Stmt) : isDefinition (s.edit ed) = isDefinition s := by
  unfold Stmt.edit
  cases hs : ed.stmt s with
  | none => cases s <;> rfl
  | some s' =>
    obtain ⟨h, h'⟩ := ed.stmt_assignment s s' hs
    rw [Option.getD_some, (shape_of_isAssignment h).1, (shape_of_isAssignment h').1]

theorem isIf_edit (s : Stmt) : isIf (s.edit ed) = isIf s := by
  unfold Stmt.edit
  cases hs : ed.stmt s with
  | none => cases s <;> rfl
  | some s' =>
    obtain ⟨h, h'⟩ := ed.stmt_assignment s s' hs
    rw [Option.getD_some, (shape_of_isAssignment h).2.1, (shape_of_isAssignment h').2.1]

theorem isExpression_edit (s : Stmt) : isExpression (s.edit ed) = isExpression s := by
  unfold Stmt.edit
  cases hs : ed.stmt s with
  | none => cases s <;> rfl
  | some s' =>
    obtain ⟨h, h'⟩ := ed.stmt_assignment s s' hs
    rw [Option.getD_some, (shape_of_isAssignment h).2.2, (shape_of_isAssignment h').2.2]

theorem lead_edit (indent : ℕ) (s : Stmt) : lead indent (s.edit ed) = lead indent s := by
  rw [lead, lead, isDefinition_edit]

theorem stmt_expr_edit (pos : Pos) (value : Expr) :
    (Stmt.expr pos value).edit ed = .expr pos (value.edit ed) := by
  unfold Stmt.edit
  cases hs : ed.stmt (.expr pos value) with
  | none => rfl
  | some s' => cases (ed.stmt_assignment _ _ hs).1

theorem isStringConstant_edit (e : Expr) : isStringConstant (e.edit ed) = isStringConstant e := by
  unfold Expr.edit
  cases he : ed.expr e with
  | none => cases e <;> rfl
  | some e' =>
    obtain ⟨h, h'⟩ := ed.expr_call e e' he
    have hcall : ∀ e : Expr, e.isCall = true → isStringConstant e = false := by
      intro e h
      cases e with
      | call => rfl
      | _ => cases h
    rw [Option.getD_some, hcall e h, hcall e' h']

theorem edit_of_isStringConstant {e : Expr} (h : isStringConstant e = true) : e.edit ed = e := by
  have hclear : Clear ed (.expr e) := by
    intro x hx
    cases e with
    | constant pos value =>
      rcases TreeWalk.below_iff.mp hx with heq | ⟨c, hc, -⟩
      · obtain rfl := Node.expr.inj heq
        cases he : ed.expr (.constant pos value) with
        | none => rfl
        | some e' => cases (ed.expr_call _ _ he).1
      · exact absurd hc List.not_mem_nil
    | _ => cases h
  exact hclear.fixed

theorem splitDocstring_of_not_isExpression {s : Stmt} (h : isExpression s = false)
    (rest : List Stmt) : splitDocstring (s :: rest) = (none, s :: rest) := by
  cases s <;> simp_all [isExpression, splitDocstring]

theorem splitDocstring_edit (body : List Stmt) : splitDocstring (editStmts ed body) =
    ((splitDocstring body).1, editStmts ed (splitDocstring body).2) := by
  cases body with
  | nil => rfl
  | cons s rest =>
    have hs : editStmts ed (s :: rest) = s.edit ed :: editStmts ed rest := rfl
    cases hexpr : isExpression s with
    | false =>
      have hedit : isExpression (s.edit ed) = false := (isExpression_edit s).trans hexpr
      rw [hs, splitDocstring_of_not_isExpression hedit, splitDocstring_of_not_isExpression hexpr, hs]
    | true =>
      obtain ⟨pos, value, rfl⟩ : ∃ pos value, s = .expr pos value := by
        cases s <;> simp_all [isExpression]
      rw [hs, stmt_expr_edit, splitDocstring, splitDocstring, isStringConstant_edit]
      split
      · rename_i h
        rw [edit_of_isStringConstant h]
      · rw [hs, stmt_expr_edit]

theorem blockPieces_edit (indent : ℕ) (body : List Stmt) :
    blockPieces indent (editStmts ed body) =
      (blockPieces indent body).map (Piece.map (Item.edit ed)) := by
  induction body with
  | nil => rfl
  | cons s body ih =>
    have hs : editStmts ed (s :: body) = s.edit ed :: editStmts ed body := rfl
    unfold blockPieces at ih ⊢
    rw [hs, List.flatMap_cons, List.flatMap_cons, List.map_append, ih, lead_edit]
    rfl

theorem clausePieces_edit (keyword : String) (indent : ℕ) (body : List Stmt) :
    clausePieces keyword indent (editStmts ed body) =
      (clausePieces keyword indent body).map (Piece.map (Item.edit ed)) := by
  cases body with
  | nil => rfl
  | cons s body =>
    have hs : editStmts ed (s :: body) = s.edit ed :: editStmts ed body := rfl
    have hblock : blockPieces (indent + 1) (editStmts ed (s :: body)) =
        (blockPieces (indent + 1) (s :: body)).map (Piece.map (Item.edit ed)) :=
      blockPieces_edit (indent + 1) (s :: body)
    rw [hs] at hblock ⊢
    simp only [clausePieces, hblock, List.map_cons]
    rfl

theorem orelsePieces_edit (indent : ℕ) (body : List Stmt) : orelsePieces indent (editStmts ed body) =
    (orelsePieces indent body).map (Piece.map (Item.edit ed)) := by
  match body with
  | [] => rfl
  | [s] =>
    have hs : editStmts ed [s] = [s.edit ed] := rfl
    rw [hs, orelsePieces, orelsePieces, isIf_edit]
    split
    · rfl
    · exact clausePieces_edit "else" indent [s]
  | s :: s' :: body => exact clausePieces_edit "else" indent (s :: s' :: body)

variable (P : ExprPrinter)

theorem bodyPieces_edit (indent : ℕ) (body : List Stmt) : bodyPieces P indent (editStmts ed body) =
    (bodyPieces P indent body).map (Piece.map (Item.edit ed)) := by
  rw [bodyPieces, bodyPieces, splitDocstring_edit]
  cases h : splitDocstring body with
  | mk doc rest =>
    cases doc with
    | none => exact blockPieces_edit indent rest
    | some doc =>
      simp only [List.map_cons, blockPieces_edit]
      rfl

theorem modulePieces_edit (body : List Stmt) : modulePieces P (editStmts ed body) =
    (modulePieces P body).map (Piece.map (Item.edit ed)) := by
  rw [modulePieces, modulePieces, splitDocstring_edit]
  cases h : splitDocstring body with
  | mk doc rest =>
    match doc, rest with
    | some doc, rest =>
      simp only [List.map_cons, blockPieces_edit]
      rfl
    | none, [] => rfl
    | none, s :: rest =>
      have hs : editStmts ed (s :: rest) = s.edit ed :: editStmts ed rest := rfl
      simp only [hs, List.map_cons, blockPieces_edit]
      rfl

@[simp] theorem ownPart_stmtNodes (body : List Stmt) : (stmtNodes body).flatMap ownPart = [] := by
  simp [stmtNodes, ownPart]

theorem ownPart_map {α : Type} {f : α → Node} (h : ∀ a, ownPart (f a) = [f a]) (xs : List α) :
    (xs.map f).flatMap ownPart = xs.map f := by
  induction xs with
  | nil => rfl
  | cons x xs ih => rw [List.map_cons, List.flatMap_cons, ih, h, List.singleton_append]

@[simp] theorem ownPart_exprNodes (es : List Expr) : (exprNodes es).flatMap ownPart = exprNodes es :=
  ownPart_map (fun _ => rfl) es

@[simp] theorem ownPart_optNodes (e : Option Expr) : (optNodes e).flatMap ownPart = optNodes e := by
  cases e <;> rfl

@[simp] theorem ownPart_keywords (ks : List (Keyword Expr)) :
    (ks.map Node.keyword).flatMap ownPart = ks.map Node.keyword :=
  ownPart_map (fun _ => rfl) ks

@[simp] theorem ownPart_withItems (ws : List WithItem) :
    (ws.map Node.withItem).flatMap ownPart = ws.map Node.withItem :=
  ownPart_map (fun _ => rfl) ws

theorem handlerPieces_edit (indent : ℕ) (isStar : Bool) {hs : List (ExceptHandler Stmt)}
    (h : AllFixed ed ((hs.map Node.handler).flatMap ownPart)) :
    (editHandlers ed hs).flatMap (handlerPieces P indent isStar) =
      (hs.flatMap (handlerPieces P indent isStar)).map (Piece.map (Item.edit ed)) := by
  induction hs with
  | nil => rfl
  | cons hd hs ih =>
    rw [List.map_cons, List.flatMap_cons, allFixed_append] at h
    obtain ⟨pos, type, name, body⟩ := hd
    have htype : editOpt ed type = type := editOpt_fixed h.1
    rw [editHandlers, List.flatMap_cons, List.flatMap_cons, List.map_append, ih h.2]
    simp only [editHandler, handlerPieces, htype, blockPieces_edit, List.map_cons]
    rfl

theorem casePieces_edit (indent : ℕ) {cs : List (MatchCase Stmt)}
    (h : AllFixed ed ((cs.map Node.matchCase).flatMap ownPart)) :
    (editCases ed cs).flatMap (casePieces P indent) =
      (cs.flatMap (casePieces P indent)).map (Piece.map (Item.edit ed)) := by
  induction cs with
  | nil => rfl
  | cons c cs ih =>
    rw [List.map_cons, List.flatMap_cons, allFixed_append] at h
    obtain ⟨pattern, guard, body⟩ := c
    have hown : AllFixed ed (.pattern pattern :: optNodes guard) := h.1
    rw [allFixed_cons] at hown
    have hpattern : pattern.edit ed = pattern := hown.1
    have hguard : editOpt ed guard = guard := editOpt_fixed hown.2
    rw [editCases, List.flatMap_cons, List.flatMap_cons, List.map_append, ih h.2]
    simp only [editCase, casePieces, hpattern, hguard, blockPieces_edit, List.map_cons]
    rfl

theorem stmtPieces_edit (indent : ℕ) (isElif : Bool) {s : Stmt} (h : ¬Touches ed s) :
    stmtPieces P indent isElif (s.edit ed) =
      (stmtPieces P indent isElif s).map (Piece.map (Item.edit ed)) := by
  rw [Touches, not_or] at h
  have hedit : s.edit ed = s.descend ed := by
    rw [Stmt.edit, Option.not_isSome_iff_eq_none.mp h.1, Option.getD_none]
  have hown : AllFixed ed (ownNodes s) := by
    intro n hn
    by_contra hfixed
    exact h.2 ⟨n, hn, fun hclear => hfixed hclear.fixed⟩
  have hone : ∀ e : Expr, (Node.expr e).Fixed ed → e.edit ed = e := fun _ h => h
  have harguments : ∀ a, (Node.arguments a).Fixed ed → editArguments ed a = a := fun _ h => h
  rw [hedit]
  cases s <;> simp only [ownNodes, Stmt.children, List.flatMap_append, List.flatMap_cons,
      List.flatMap_nil, ownPart, ownPart_stmtNodes, ownPart_exprNodes, ownPart_optNodes,
      ownPart_keywords, ownPart_withItems, allFixed_append, allFixed_cons, allFixed_nil, and_true,
      List.singleton_append, List.nil_append, List.append_nil] at hown
  case raise pos exc cause =>
    have hexc : editOpt ed exc = exc := editOpt_fixed hown.1
    have hcause : editOpt ed cause = cause := editOpt_fixed hown.2
    rw [Stmt.descend, hexc, hcause]
    cases exc <;> rfl
  all_goals
    simp only [Stmt.descend, stmtPieces, hone, harguments, editExprs_fixed, editOpt_fixed,
      editKeywords_fixed, editWithItems_fixed, blockPieces_edit, bodyPieces_edit, clausePieces_edit,
      orelsePieces_edit, handlerPieces_edit, casePieces_edit, hown, List.map_cons, List.map_append,
      List.map_nil]
    try rfl

/-! ## Sizes -/

def Item.size : Item → ℕ
  | .module body => stmtsWeight body + 1
  | .stmt _ _ s => s.weight

theorem weight_le_of_mem {s : Stmt} {body : List Stmt} (h : s ∈ body) :
    s.weight ≤ stmtsWeight body := by
  induction body with
  | nil => exact absurd h List.not_mem_nil
  | cons t body ih =>
    rw [stmtsWeight]
    rcases List.mem_cons.mp h with rfl | h
    · omega
    · have hle := ih h
      omega

/-- The nodes among the pieces are no larger than `n`. -/
def Bounded (n : ℕ) (ps : List (Piece Item)) : Prop := ∀ m, .node m ∈ ps → m.size ≤ n

theorem bounded_text {n : ℕ} {t : String} {ps : List (Piece Item)} (h : Bounded n ps) :
    Bounded n (.text t :: ps) := by
  intro m hm
  exact h m ((List.mem_cons.mp hm).resolve_left fun heq => nomatch heq)

theorem bounded_nil {n : ℕ} : Bounded n [] := fun _ hm => absurd hm List.not_mem_nil

theorem bounded_append {n : ℕ} {ps qs : List (Piece Item)} (hp : Bounded n ps) (hq : Bounded n qs) :
    Bounded n (ps ++ qs) := by
  intro m hm
  rcases List.mem_append.mp hm with hm | hm
  · exact hp m hm
  · exact hq m hm

theorem bounded_block {n : ℕ} (indent : ℕ) {body : List Stmt} (h : stmtsWeight body ≤ n) :
    Bounded n (blockPieces indent body) := by
  intro m hm
  obtain ⟨s, hs, hm⟩ := List.mem_flatMap.mp hm
  simp only [List.mem_cons, reduceCtorEq, Piece.node.injEq, List.not_mem_nil, or_false,
    false_or] at hm
  rw [hm]
  exact (weight_le_of_mem hs).trans h

theorem bounded_clause {n : ℕ} (keyword : String) (indent : ℕ) {body : List Stmt}
    (h : stmtsWeight body ≤ n) : Bounded n (clausePieces keyword indent body) := by
  cases body with
  | nil => exact bounded_nil
  | cons s body => exact bounded_text (bounded_block (indent + 1) h)

theorem bounded_orelse {n : ℕ} (indent : ℕ) {body : List Stmt} (h : stmtsWeight body ≤ n) :
    Bounded n (orelsePieces indent body) := by
  match body with
  | [] => exact bounded_nil
  | [s] =>
    rw [orelsePieces]
    split
    · refine bounded_text fun m hm => ?_
      obtain rfl := Piece.node.inj (List.mem_singleton.mp hm)
      exact (weight_le_of_mem (List.mem_singleton_self s)).trans h
    · exact bounded_clause "else" indent h
  | s :: s' :: body => exact bounded_clause "else" indent h

theorem stmtsWeight_splitDocstring (body : List Stmt) :
    stmtsWeight (splitDocstring body).2 ≤ stmtsWeight body := by
  unfold splitDocstring
  split
  · split
    · simp only [stmtsWeight]
      omega
    · exact le_rfl
  · exact le_rfl

theorem bounded_body {n : ℕ} (indent : ℕ) {body : List Stmt} (h : stmtsWeight body ≤ n) :
    Bounded n (bodyPieces P indent body) := by
  have hsplit := (stmtsWeight_splitDocstring body).trans h
  rw [bodyPieces]
  cases hbody : splitDocstring body with
  | mk doc rest =>
    rw [hbody] at hsplit
    cases doc with
    | none => exact bounded_block indent hsplit
    | some doc => exact bounded_text (bounded_block indent hsplit)

theorem bounded_handlers {n : ℕ} (indent : ℕ) (isStar : Bool) {hs : List (ExceptHandler Stmt)}
    (h : handlersWeight hs ≤ n) : Bounded n (hs.flatMap (handlerPieces P indent isStar)) := by
  induction hs with
  | nil => exact bounded_nil
  | cons hd hs ih =>
    cases hd
    rw [handlersWeight, handlerWeight] at h
    rw [List.flatMap_cons]
    exact bounded_append (bounded_text (bounded_block (indent + 1) (by simp only; omega)))
      (ih (by omega))

theorem bounded_cases {n : ℕ} (indent : ℕ) {cs : List (MatchCase Stmt)} (h : casesWeight cs ≤ n) :
    Bounded n (cs.flatMap (casePieces P indent)) := by
  induction cs with
  | nil => exact bounded_nil
  | cons c cs ih =>
    cases c
    rw [casesWeight, caseWeight] at h
    rw [List.flatMap_cons]
    exact bounded_append (bounded_text (bounded_block (indent + 1) (by simp only; omega)))
      (ih (by omega))

theorem bounded_stmt (indent : ℕ) (isElif : Bool) (s : Stmt) :
    Bounded (s.weight - 1) (stmtPieces P indent isElif s) := by
  cases s with
  | functionDef pos isAsync name args body decorators returns =>
    exact bounded_text (bounded_body P (indent + 1) (by rw [Stmt.weight]; omega))
  | classDef pos name bases keywords body decorators =>
    exact bounded_text (bounded_body P (indent + 1) (by rw [Stmt.weight]; omega))
  | forLoop pos isAsync target iter body orelse =>
    exact bounded_text (bounded_append (bounded_block (indent + 1) (by rw [Stmt.weight]; omega))
      (bounded_clause "else" indent (by rw [Stmt.weight]; omega)))
  | whileLoop pos test body orelse =>
    exact bounded_text (bounded_append (bounded_block (indent + 1) (by rw [Stmt.weight]; omega))
      (bounded_clause "else" indent (by rw [Stmt.weight]; omega)))
  | ifStmt pos test body orelse =>
    exact bounded_text (bounded_append (bounded_block (indent + 1) (by rw [Stmt.weight]; omega))
      (bounded_orelse indent (by rw [Stmt.weight]; omega)))
  | withStmt pos isAsync items body =>
    exact bounded_text (bounded_block (indent + 1) (by rw [Stmt.weight]; omega))
  | matchStmt pos subject cs =>
    exact bounded_text (bounded_cases P (indent + 1) (by rw [Stmt.weight]; omega))
  | tryStmt pos isStar body handlers orelse finalbody =>
    exact bounded_text (bounded_append (bounded_block (indent + 1) (by rw [Stmt.weight]; omega))
      (bounded_append (bounded_handlers P indent isStar (by rw [Stmt.weight]; omega))
        (bounded_append (bounded_clause "else" indent (by rw [Stmt.weight]; omega))
          (bounded_clause "finally" indent (by rw [Stmt.weight]; omega)))))
  | raise pos exc cause => cases exc <;> exact bounded_text bounded_nil
  | _ => exact bounded_text bounded_nil

theorem bounded_module (body : List Stmt) : Bounded (stmtsWeight body) (modulePieces P body) := by
  have hsplit := stmtsWeight_splitDocstring body
  rw [modulePieces]
  cases hbody : splitDocstring body with
  | mk doc rest =>
    rw [hbody] at hsplit
    match doc, rest with
    | some doc, rest => exact bounded_text (bounded_block 0 hsplit)
    | none, [] => exact bounded_nil
    | none, s :: rest =>
      simp only [stmtsWeight] at hsplit
      intro m hm
      rcases List.mem_cons.mp hm with heq | hm
      · obtain rfl := Piece.node.inj heq
        rw [Item.size]
        omega
      · exact bounded_block 0 (by omega) m hm

theorem size_lt (n m : Item) (h : .node m ∈ itemPieces P n) : m.size < n.size := by
  cases n with
  | module body =>
    have hle := bounded_module P body m h
    rw [Item.size]
    omega
  | stmt indent isElif s =>
    have hle := bounded_stmt P indent isElif s m h
    have hpos := s.weight_eq
    rw [Item.size]
    omega

def StandsAt (tree : Module) (path : List ℕ) (s : Stmt) : Prop :=
  ∃ indent isElif, nodeAt (itemPieces P) (.module tree) path = some (.stmt indent isElif s)

def cutAt (tree : Module) (path : List ℕ) : Option (String × Item × String) :=
  cut (itemPieces P) (depthBound tree) (.module tree) path

theorem cutAt_edit {tree : Module} {path : List ℕ} {before behind : String} {m : Item}
    (h : cutAt P tree path = some (before, m, behind))
    (honly : ∀ path' s, StandsAt P tree path' s → Touches ed s → path' = path) :
    cutAt P (editStmts ed tree) path = some (before, m.edit ed, behind) := by
  have hkeeps : ∀ path' n, nodeAt (itemPieces P) (.module tree) path' = some n → path' ≠ path →
      Keeps (itemPieces P) (Item.edit ed) n := by
    intro path' n hn hne
    cases n with
    | module body => exact modulePieces_edit P body
    | stmt indent isElif s =>
      exact stmtPieces_edit P indent isElif fun ht => hne (honly path' s ⟨indent, isElif, hn⟩ ht)
  have hsize : (Item.module tree).size < depthBound tree := by
    rw [Item.size, depthBound]
    omega
  have hsize' : (Item.module (editStmts ed tree)).size < depthBound (editStmts ed tree) := by
    rw [Item.size, depthBound]
    omega
  -- a depth that is enough for both modules
  have hmax : cut (itemPieces P) (max (depthBound tree) (depthBound (editStmts ed tree)))
      (.module tree) path = some (before, m, behind) := by
    rw [← h]
    exact cut_stable (size_lt P) (by omega) hsize path
  have hedit := cut_change hmax hkeeps
  rw [← hedit]
  have hlt := hsize'.trans_le (le_max_right (depthBound tree) _)
  exact cut_stable (size_lt P) hsize' hlt path

theorem unparse_of_cutAt {tree : Module} {path : List ℕ} {before behind : String} {m : Item}
    (h : cutAt P tree path = some (before, m, behind)) :
    unparse P tree = before ++ render (itemPieces P) (depthBound tree - path.length) m ++ behind :=
  render_of_cut h

end TimeCodeSecurity.Remediation
