import TimeCodeSecurity.Py.Node
import TimeCodeSecurity.Scanner.TestAnswers
import Mathlib.Data.List.Induction

/-! # Dead branches and runs

Nodes by their places in the modules, which stand for `id(node)`, the set of dead ones, and runs of a project:
a node runs only after the one it stands in, and a branch of an `if` only after the test came out that way.
Everything else that control does is left open, so each real run is one of these.
-/
namespace TimeCodeSecurity.Scanner
open Py
set_option autoImplicit false

/-- The number of the module and the way down from it. -/
abbrev NodeId := ℕ × List ℕ

def NodeId.child (a : NodeId) (i : ℕ) : NodeId := (a.1, a.2 ++ [i])

abbrev Located := NodeId × Node

def childrenFrom (a : NodeId) : ℕ → List Node → List Located
  | _, [] => []
  | i, n :: ns => (a.child i, n) :: childrenFrom a (i + 1) ns

def Located.children (x : Located) : List Located := childrenFrom x.1 0 x.2.children

/-- `ast.walk` from a node. -/
def Located.walk (x : Located) : List Located :=
  TreeWalk.queue Located.children x.2.weight [x]

def moduleNodes (k : ℕ) (body : Module) : List Located := childrenFrom (k, []) 0 (stmtNodes body)

/-- All nodes of the modules but the roots. -/
def projectNodes (modules : List Module) : List Located :=
  (modules.zipIdx.flatMap fun m => moduleNodes m.2 m.1).flatMap Located.walk

/-- Which branch of an `if` the child with number `i` is in: the test comes first, then the body. -/
def branchOf (body : List Stmt) (i : ℕ) : Option Bool :=
  if i = 0 then none else if i ≤ body.length then some true else some false

section
variable (unparse : Expr → String)

/-- The branch of a test that `_compute_dead_node_ids` takes. -/
def deadBranch (test : Expr) : Option Bool :=
  if isUnreachableTest unparse test then some true
  else if isTautologyTest unparse test then some false
  else none

def deadUnder (x : Located) : List Located :=
  match x.2 with
  | .stmt (.ifStmt _ test body orelse) =>
    let unreachable :=
      match deadBranch unparse test with
      | some true => childrenFrom x.1 1 (stmtNodes body)
      | some false => childrenFrom x.1 (1 + body.length) (stmtNodes orelse)
      | none => []
    unreachable.flatMap Located.walk
  | _ => []

/-- `_compute_dead_node_ids`. -/
def deadNodeIds (modules : List Module) : List NodeId :=
  ((projectNodes modules).flatMap (deadUnder unparse)).map Prod.fst

end

inductive RunEvent
  | ran (a : NodeId)
  | tested (a : NodeId) (answers : List (Expr × Bool)) (outcome : Bool)

/-- The node with number `i` in `x` may be entered after `tr`. -/
def mayEnter (tr : List RunEvent) (x : Located) (i : ℕ) : Prop :=
  match x.2 with
  | .stmt (.ifStmt _ _ body _) =>
    ∀ b, branchOf body i = some b → ∃ answers, .tested x.1 answers b ∈ tr
  | _ => True

inductive Allowed (modules : List Module) (tr : List RunEvent) : RunEvent → Prop
  | top {k i body} : modules[k]? = some body → i < body.length → Allowed modules tr (.ran (k, [i]))
  | inner {x : Located} {i : ℕ} : x ∈ projectNodes modules → .ran x.1 ∈ tr → i < x.2.children.length →
      mayEnter tr x i → Allowed modules tr (.ran (x.1.child i))
  | test {a pos test body orelse answers b} :
      (a, Node.stmt (.ifStmt pos test body orelse)) ∈ projectNodes modules → .ran a ∈ tr →
      Evaluation test answers b → Allowed modules tr (.tested a answers b)

/-- Runs, the last event at the end. -/
inductive Run (modules : List Module) : List RunEvent → Prop
  | start : Run modules []
  | step {tr ev} : Run modules tr → Allowed modules tr ev → Run modules (tr ++ [ev])

theorem Run.allowed {modules : List Module} {tr : List RunEvent} (h : Run modules tr) {ev : RunEvent}
    (hev : ev ∈ tr) : ∃ pre, pre <+: tr ∧ Allowed modules pre ev := by
  induction h with
  | start => cases hev
  | @step tr last _ hlast ih =>
    rcases List.mem_append.mp hev with hev | hev
    · obtain ⟨pre, hpre, hal⟩ := ih hev
      exact ⟨pre, hpre.trans (List.prefix_append _ _), hal⟩
    · rw [List.mem_singleton.mp hev]
      exact ⟨tr, List.prefix_append _ _, hlast⟩

/-! ## Places tell nodes apart -/

theorem mem_childrenFrom_iff {a : NodeId} {i : ℕ} {ns : List Node} {x : Located} :
    x ∈ childrenFrom a i ns ↔ ∃ j, x.1 = a.child (i + j) ∧ ns[j]? = some x.2 := by
  induction ns generalizing i with
  | nil => simp [childrenFrom]
  | cons n ns ih =>
    rw [childrenFrom, List.mem_cons, ih]
    constructor
    · intro h
      rcases h with rfl | ⟨j, hplace, hnode⟩
      · exact ⟨0, rfl, rfl⟩
      · refine ⟨j + 1, ?_, hnode⟩
        rw [hplace, Nat.add_assoc, Nat.add_comm 1 j]
    · intro ⟨j, hplace, hnode⟩
      cases j with
      | zero => exact .inl (Prod.ext hplace (Option.some.inj hnode).symm)
      | succ j =>
        refine .inr ⟨j, ?_, hnode⟩
        rw [hplace, Nat.add_assoc, Nat.add_comm 1 j]

theorem Located.sized : TreeWalk.Sized Located.children (fun x => x.2.weight) := by
  intro x
  have hsum : ∀ (a : NodeId) (i : ℕ) (ns : List Node),
      ((childrenFrom a i ns).map fun x => x.2.weight).sum = (ns.map Node.weight).sum := by
    intro a i ns
    induction ns generalizing i with
    | nil => rfl
    | cons n ns ih => simp [childrenFrom, ih]
  rw [Located.children, hsum]
  exact Node.sized x.2

theorem Located.mem_walk_iff {x y : Located} :
    y ∈ x.walk ↔ TreeWalk.Below Located.children x y := by
  rw [Located.walk, TreeWalk.mem_queue_iff Located.sized (by simp)]
  simp

def descend : List Node → List ℕ → Option Node
  | _, [] => none
  | ns, [i] => ns[i]?
  | ns, i :: j :: rest => (ns[i]?).bind fun n => descend n.children (j :: rest)

def nodeAt (modules : List Module) (a : NodeId) : Option Node :=
  (modules[a.1]?).bind fun body => descend (stmtNodes body) a.2

theorem descend_concat (ns : List Node) (path : List ℕ) (hne : path ≠ []) (i : ℕ) :
    descend ns (path ++ [i]) = (descend ns path).bind fun n => n.children[i]? := by
  induction path generalizing ns with
  | nil => exact absurd rfl hne
  | cons j rest ih =>
    cases rest with
    | nil => rfl
    | cons k rest =>
      rw [List.cons_append, List.cons_append, descend, descend, Option.bind_assoc]
      congr 1
      funext n
      exact ih n.children (List.cons_ne_nil k rest)

theorem nodeAt_child {modules : List Module} {a : NodeId} {n : Node} (hne : a.2 ≠ [])
    (h : nodeAt modules a = some n) (i : ℕ) : nodeAt modules (a.child i) = n.children[i]? := by
  obtain ⟨body, hbody, hn⟩ := Option.bind_eq_some_iff.mp h
  rw [nodeAt, NodeId.child, hbody, Option.bind_some, descend_concat _ _ hne, hn, Option.bind_some]

theorem exists_root_of_mem {modules : List Module} {x : Located} (hx : x ∈ projectNodes modules) :
    ∃ k i body n, modules[k]? = some body ∧ (stmtNodes body)[i]? = some n ∧
      TreeWalk.Below Located.children ((k, [i]), n) x := by
  obtain ⟨y, hy, hbelow⟩ := List.mem_flatMap.mp hx
  obtain ⟨⟨body, k⟩, hm, hroot⟩ := List.mem_flatMap.mp hy
  obtain ⟨i, hplace, hnode⟩ := mem_childrenFrom_iff.mp hroot
  have hk : modules[k]? = some body := List.mem_zipIdx_iff_getElem?.mp hm
  rw [Located.mem_walk_iff] at hbelow
  have hy : y = ((k, [i]), y.2) := Prod.ext (by rw [hplace, Nat.zero_add]; rfl) rfl
  rw [hy] at hbelow
  exact ⟨k, i, body, y.2, hk, hnode, hbelow⟩

theorem nodeAt_of_mem {modules : List Module} {x : Located} (hx : x ∈ projectNodes modules) :
    x.1.2 ≠ [] ∧ nodeAt modules x.1 = some x.2 := by
  obtain ⟨k, i, body, n, hk, hnode, hbelow⟩ := exists_root_of_mem hx
  induction hbelow with
  | refl =>
    refine ⟨List.cons_ne_nil i [], ?_⟩
    rw [nodeAt, hk]
    exact hnode
  | @tail y z hy hz ih =>
    have hmem : y ∈ projectNodes modules := by
      refine List.mem_flatMap.mpr ⟨((k, [i]), n), ?_, Located.mem_walk_iff.mpr hy⟩
      refine List.mem_flatMap.mpr ⟨(body, k), List.mem_zipIdx_iff_getElem?.mpr hk, ?_⟩
      exact mem_childrenFrom_iff.mpr ⟨i, by rw [Nat.zero_add]; rfl, hnode⟩
    obtain ⟨hne, hat⟩ := ih hmem
    obtain ⟨j, hplace, hnode⟩ := mem_childrenFrom_iff.mp hz
    rw [Nat.zero_add] at hplace
    rw [hplace]
    refine ⟨?_, ?_⟩
    · rw [NodeId.child]
      simp
    · rw [nodeAt_child hne hat, hnode]

theorem eq_of_place {modules : List Module} {a : NodeId} {n n' : Node}
    (h : (a, n) ∈ projectNodes modules) (h' : (a, n') ∈ projectNodes modules) : n = n' :=
  Option.some.inj ((nodeAt_of_mem h).2.symm.trans (nodeAt_of_mem h').2)

theorem child_inj {a b : NodeId} {i j : ℕ} (h : a.child i = b.child j) : a = b ∧ i = j := by
  have hpath : a.2 = b.2 ∧ i = j := List.append_singleton_inj.mp (Prod.ext_iff.mp h).2
  have hmod : a.1 = b.1 := (Prod.ext_iff.mp h).1
  exact ⟨Prod.ext hmod hpath.1, hpath.2⟩

section
variable {modules : List Module} {tr : List RunEvent}

theorem Run.parent_ran (h : Run modules tr) {a : NodeId} {i : ℕ} (hne : a.2 ≠ [])
    (hran : .ran (a.child i) ∈ tr) : .ran a ∈ tr := by
  obtain ⟨pre, hpre, hal⟩ := h.allowed hran
  generalize hplace : a.child i = b at hal
  cases hal with
  | top hk hi =>
    have hlen := congrArg (fun c : NodeId => c.2.length) hplace
    have hpos := List.length_pos_of_ne_nil hne
    simp only [NodeId.child, List.length_append, List.length_singleton] at hlen
    omega
  | @inner x j _ hparent _ _ =>
    obtain ⟨heq, _⟩ := child_inj hplace
    rw [heq]
    exact hpre.subset hparent

theorem Run.ancestor_ran (h : Run modules tr) (a : NodeId) (hne : a.2 ≠ []) (below : List ℕ)
    (hran : .ran (a.1, a.2 ++ below) ∈ tr) : .ran a ∈ tr := by
  induction below using List.reverseRecOn with
  | nil =>
    rw [List.append_nil] at hran
    exact hran
  | append_singleton below i ih =>
    rw [← List.append_assoc] at hran
    refine ih (h.parent_ran (a := (a.1, a.2 ++ below)) ?_ hran)
    simp [hne]

theorem Run.tested_of_entered (h : Run modules tr) {a : NodeId} {pos : Pos} {test : Expr}
    {body orelse : List Stmt} (ha : (a, Node.stmt (.ifStmt pos test body orelse)) ∈ projectNodes modules)
    {i : ℕ} {b : Bool} (hb : branchOf body i = some b) (hran : .ran (a.child i) ∈ tr) :
    ∃ answers, .tested a answers b ∈ tr := by
  obtain ⟨pre, hpre, hal⟩ := h.allowed hran
  generalize hplace : a.child i = c at hal
  cases hal with
  | top hk hi =>
    have hlen := congrArg (fun c : NodeId => c.2.length) hplace
    have hpos : 0 < a.2.length := List.length_pos_of_ne_nil (nodeAt_of_mem ha).1
    simp only [NodeId.child, List.length_append, List.length_singleton] at hlen
    omega
  | @inner x j hx _ hj hmay =>
    obtain ⟨rfl, rfl⟩ := child_inj hplace
    have hnode : x.2 = .stmt (.ifStmt pos test body orelse) := eq_of_place hx ha
    rw [mayEnter, hnode] at hmay
    obtain ⟨answers, hmem⟩ := hmay b hb
    exact ⟨answers, hpre.subset hmem⟩

theorem Run.evaluation (h : Run modules tr) {a : NodeId} {pos : Pos} {test : Expr}
    {body orelse : List Stmt} (ha : (a, Node.stmt (.ifStmt pos test body orelse)) ∈ projectNodes modules)
    {answers : List (Expr × Bool)} {b : Bool} (ht : .tested a answers b ∈ tr) :
    Evaluation test answers b := by
  obtain ⟨pre, _, hal⟩ := h.allowed ht
  cases hal with
  | test ha' _ heval =>
    have hnode := eq_of_place ha' ha
    cases hnode
    exact heval

end

/-! ## Dead branches stay dead -/

section
variable (unparse : Expr → String)

/-- Nowhere in the run did an operand and the negation of one that prints alike come out the same. -/
def NegationsDiffer (tr : List RunEvent) : Prop :=
  ∀ a answers b, .tested a answers b ∈ tr → ¬ ∃ c, PairComesOut unparse answers c

theorem ne_of_deadBranch {test : Expr} {answers : List (Expr × Bool)} {b : Bool}
    (heval : Evaluation test answers b) (hno : ¬ ∃ c, PairComesOut unparse answers c) :
    (isUnreachableTest unparse test = true → b = false) ∧
      (isTautologyTest unparse test = true → b = true) := by
  constructor
  · intro hflag
    rw [isUnreachableTest, Bool.or_eq_true, decide_eq_true_eq] at hflag
    rcases hflag with hlit | hpair
    · exact answer_of_literal test hlit heval.answers
    · cases b with
      | false => rfl
      | true => exact absurd ⟨_, pairComesOut_of_complementPair hpair heval⟩ hno
  · intro hflag
    rw [isTautologyTest, Bool.or_eq_true, decide_eq_true_eq] at hflag
    rcases hflag with hlit | hpair
    · exact answer_of_literal test hlit heval.answers
    · cases b with
      | true => rfl
      | false => exact absurd ⟨_, pairComesOut_of_complementPair hpair heval⟩ hno

theorem exists_of_mem_deadUnder {x y : Located} (h : y ∈ deadUnder unparse x) :
    ∃ pos test body orelse b i n, x.2 = .stmt (.ifStmt pos test body orelse) ∧
      deadBranch unparse test = some b ∧ branchOf body i = some b ∧
      TreeWalk.Below Located.children (x.1.child i, n) y := by
  rw [deadUnder] at h
  split at h
  next pos test body orelse hx =>
    refine ⟨pos, test, body, orelse, ?_⟩
    have hchild : ∀ b start branch, deadBranch unparse test = some b →
        (∀ j n, (stmtNodes branch)[j]? = some n → branchOf body (start + j) = some b) →
        y ∈ (childrenFrom x.1 start (stmtNodes branch)).flatMap Located.walk →
        ∃ b i n, deadBranch unparse test = some b ∧ branchOf body i = some b ∧
          TreeWalk.Below Located.children (x.1.child i, n) y := by
      intro b start branch hdead hbranch hy
      obtain ⟨z, hz, hyz⟩ := List.mem_flatMap.mp hy
      obtain ⟨j, hplace, hnode⟩ := mem_childrenFrom_iff.mp hz
      rw [Located.mem_walk_iff] at hyz
      have hz : z = (x.1.child (start + j), z.2) := Prod.ext hplace rfl
      rw [hz] at hyz
      exact ⟨b, start + j, z.2, hdead, hbranch j z.2 hnode, hyz⟩
    have hfound : ∃ b i n, deadBranch unparse test = some b ∧ branchOf body i = some b ∧
        TreeWalk.Below Located.children (x.1.child i, n) y := by
      cases hdead : deadBranch unparse test with
      | none =>
        rw [hdead] at h
        cases h
      | some b =>
        rw [hdead] at h
        rw [← hdead]
        cases b with
        | true =>
          refine hchild true 1 body hdead (fun j n hn => ?_) h
          have hlt : j < (stmtNodes body).length := (List.getElem?_eq_some_iff.mp hn).1
          rw [stmtNodes, List.length_map] at hlt
          rw [branchOf, if_neg (by omega), if_pos (by omega)]
        | false =>
          refine hchild false (1 + body.length) orelse hdead (fun j n hn => ?_) h
          rw [branchOf, if_neg (by omega), if_neg (by omega)]
    obtain ⟨b, i, n, hrest⟩ := hfound
    exact ⟨b, i, n, hx, hrest⟩
  next => cases h

theorem place_below {x y : Located} (h : TreeWalk.Below Located.children x y) :
    ∃ below, y.1 = (x.1.1, x.1.2 ++ below) := by
  induction h with
  | refl => exact ⟨[], by rw [List.append_nil]⟩
  | @tail y z _ hz ih =>
    obtain ⟨below, hy⟩ := ih
    obtain ⟨j, hplace, _⟩ := mem_childrenFrom_iff.mp hz
    exact ⟨below ++ [j], by rw [hplace, Nat.zero_add, hy, NodeId.child, List.append_assoc]⟩

theorem not_ran_of_dead {modules : List Module} {tr : List RunEvent} (h : Run modules tr)
    (hsteady : NegationsDiffer unparse tr) {a : NodeId} (ha : a ∈ deadNodeIds unparse modules) :
    .ran a ∉ tr := by
  intro hran
  obtain ⟨y, hy, rfl⟩ := List.mem_map.mp ha
  obtain ⟨x, hx, hyx⟩ := List.mem_flatMap.mp hy
  obtain ⟨pos, test, body, orelse, b, i, n, hnode, hdead, hbranch, hbelow⟩ :=
    exists_of_mem_deadUnder unparse hyx
  have hx : (x.1, Node.stmt (.ifStmt pos test body orelse)) ∈ projectNodes modules := hnode ▸ hx
  -- the statement of the branch ran, so the test had come out for it
  obtain ⟨below, hplace⟩ := place_below hbelow
  rw [hplace] at hran
  have hentered := h.ancestor_ran (x.1.child i) (by simp [NodeId.child]) below hran
  obtain ⟨answers, ht⟩ := h.tested_of_entered hx hbranch hentered
  have hne := ne_of_deadBranch unparse (h.evaluation hx ht) (hsteady _ _ _ ht)
  rw [deadBranch] at hdead
  split_ifs at hdead with hun htaut
  · have hb := hne.1 hun
    rw [hb] at hdead
    cases hdead
  · have hb := hne.2 htaut
    rw [hb] at hdead
    cases hdead

/-- In a run in which no operand comes out the same as its negation, a test that is called unreachable
never comes out true, one that is called a tautology never comes out false, and no dead node runs. -/
theorem dead_branches_never_run (modules : List Module) (tr : List RunEvent) (h : Run modules tr)
    (hsteady : NegationsDiffer unparse tr) :
    (∀ a pos test body orelse answers b,
      (a, Node.stmt (.ifStmt pos test body orelse)) ∈ projectNodes modules → .tested a answers b ∈ tr →
      (isUnreachableTest unparse test = true → b = false) ∧
        (isTautologyTest unparse test = true → b = true)) ∧
      ∀ a ∈ deadNodeIds unparse modules, .ran a ∉ tr :=
  ⟨fun a _ _ _ _ answers b ha ht =>
    ne_of_deadBranch unparse (h.evaluation ha ht) (hsteady a answers b ht),
    fun _ ha => not_ran_of_dead unparse h hsteady ha⟩

end

/-- `ast.unparse` of a name and of a call without arguments. -/
def unparseCall : Expr → String
  | .name _ id _ => id
  | .call _ (.name _ id _) [] [] => id ++ "()"
  | _ => ""

def callOf (id : String) (col : ℕ) : Expr :=
  .call ⟨1, col, 1, col + 3⟩ (.name ⟨1, col, 1, col + 1⟩ id .load) [] []

def readyCall : Expr := callOf "f" 3
def notReadyCall : Expr := .unaryOp ⟨1, 11, 1, 18⟩ .not (callOf "f" 15)

def twoCallsTest : Expr := .boolOp ⟨1, 3, 1, 18⟩ .and [readyCall, notReadyCall]

def twoCallsIf : Stmt := .ifStmt ⟨1, 0, 2, 7⟩ twoCallsTest [.expr ⟨2, 4, 2, 7⟩ (callOf "g" 4)] []

/-- `if f() and not f(): g()`. -/
def twoCalls : List Module := [[twoCallsIf]]

theorem twoCallsIf_mem : ((0, [0]), Node.stmt twoCallsIf) ∈ projectNodes twoCalls :=
  List.mem_of_getElem? (i := 0) rfl

theorem run_reaching_if : Run twoCalls [.ran (0, [0])] :=
  Run.start.step (.top rfl (by decide))

theorem run_tested {answers : List (Expr × Bool)} {b : Bool} (h : Evaluation twoCallsTest answers b) :
    Run twoCalls [.ran (0, [0]), .tested (0, [0]) answers b] :=
  run_reaching_if.step (.test twoCallsIf_mem List.mem_cons_self h)

/-- When the first call answers false the test ends there. -/
theorem branch_dead_when_f_is_false :
    (0, [0, 1]) ∈ deadNodeIds unparseCall twoCalls ∧
      RunEvent.ran (0, [0, 1]) ∉ [.ran (0, [0]), .tested (0, [0]) [(readyCall, false)] false] := by
  have hdead : (0, [0, 1]) ∈ deadNodeIds unparseCall twoCalls := by decide
  refine ⟨hdead, (dead_branches_never_run unparseCall twoCalls _
    (run_tested (.boolOp (.stop (.atom rfl)))) ?_).2 _ hdead⟩
  intro a answers b ht hpair
  obtain ⟨c, x, pos, y, _, _, hneg, _⟩ := hpair
  simp only [List.mem_cons, reduceCtorEq, RunEvent.tested.injEq, List.not_mem_nil, false_or, or_false] at ht
  obtain ⟨_, rfl, _⟩ := ht
  have hno := List.mem_singleton.mp hneg
  cases hno

/-- `f` answers true and then false: the body runs, and it is among the dead nodes. -/
theorem changing_answer_runs_dead_code :
    isUnreachableTest unparseCall twoCallsTest = true ∧
      (0, [0, 1]) ∈ deadNodeIds unparseCall twoCalls ∧
      ∃ tr, Run twoCalls tr ∧ .ran (0, [0, 1]) ∈ tr := by
  refine ⟨by decide, by decide, ?_⟩
  have heval : Evaluation twoCallsTest [(readyCall, true), (notReadyCall, true)] true :=
    .boolOp (.next (.atom rfl) (.next (.not (.atom rfl)) .done))
  have henter : mayEnter [.ran (0, [0]), .tested (0, [0]) [(readyCall, true), (notReadyCall, true)] true]
      ((0, [0]), .stmt twoCallsIf) 1 := by
    intro b hb
    cases hb
    exact ⟨_, List.mem_cons_of_mem _ (List.mem_singleton_self _)⟩
  exact ⟨_, (run_tested heval).step (.inner twoCallsIf_mem List.mem_cons_self (by decide) henter),
    List.mem_append_right _ (List.mem_singleton_self _)⟩

end TimeCodeSecurity.Scanner
