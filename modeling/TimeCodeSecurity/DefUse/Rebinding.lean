import TimeCodeSecurity.DefUse.Aliases
import TimeCodeSecurity.DefUse.PathSoundness

/-! # Simultaneous rebinding

What an assignment does to the taint of variables, apart from the tracker: every right-hand side is
evaluated in the state before the statement, and then all targets are bound anew. A literal and a call of a
sanitizer are clean, and any other expression is tainted when it reads a tainted name.
-/
namespace TimeCodeSecurity.DefUse
open Py LocalDefUseTracker
open Execution (parameterNames)
set_option autoImplicit false

/-! ## The names an expression reads -/

mutual

def exprReads : Expr → List String
  | .boolOp _ _ values => listReads values
  | .namedExpr _ _ value => exprReads value
  | .binOp _ left _ right => exprReads left ++ exprReads right
  | .unaryOp _ _ operand => exprReads operand
  | .lambda _ args body =>
    argumentReads args ++ (exprReads body).filter (· ∉ parameterNames args)
  | .ifExp _ test body orelse => exprReads test ++ (exprReads body ++ exprReads orelse)
  | .dict _ keys values => someReads keys ++ listReads values
  | .set _ elts => listReads elts
  | .listComp _ elt gens | .setComp _ elt gens | .generatorExp _ elt gens =>
    generatorReads (exprReads elt) gens
  | .dictComp _ key value gens => generatorReads (exprReads key ++ exprReads value) gens
  | .await _ value => exprReads value
  | .yield _ value => optReads value
  | .yieldFrom _ value => exprReads value
  | .compare _ left _ comparators => exprReads left ++ listReads comparators
  | .call _ func args keywords => exprReads func ++ (listReads args ++ keywordReads keywords)
  | .formattedValue _ value _ formatSpec => exprReads value ++ optReads formatSpec
  | .joinedStr _ values => listReads values
  | .constant _ _ => []
  | .attr _ value _ _ => exprReads value
  | .subscript _ value slice _ => exprReads value ++ exprReads slice
  | .starred _ value _ => exprReads value
  | .name _ id _ => [id]
  | .list _ elts _ => listReads elts
  | .tuple _ elts _ => listReads elts
  | .slice _ lower upper step => optReads lower ++ (optReads upper ++ optReads step)

def listReads : List Expr → List String
  | [] => []
  | e :: es => exprReads e ++ listReads es

def optReads : Option Expr → List String
  | none => []
  | some e => exprReads e

def someReads : List (Option Expr) → List String
  | [] => []
  | e :: es => optReads e ++ someReads es

def keywordReads : List (Keyword Expr) → List String
  | [] => []
  | ⟨_, value⟩ :: ks => exprReads value ++ keywordReads ks

def argumentReads : Arguments Expr → List String
  | ⟨_, _, _, _, kwDefaults, _, defaults⟩ => someReads kwDefaults ++ listReads defaults

/-- Each generator binds its target for what comes after it, `inner` included. -/
def generatorReads (inner : List String) : List (Comprehension Expr) → List String
  | [] => inner
  | ⟨target, iter, ifs⟩ :: gens =>
    exprReads iter ++ (listReads ifs ++ generatorReads inner gens).filter (· ∉ boundNames target)

end

mutual

/-- The names that `_is_node_tainted` looks at. -/
def visibleReads : Expr → List String
  | .name _ id _ => [id]
  | .binOp _ left _ right => visibleReads left ++ visibleReads right
  | .joinedStr _ values => visibleAll values
  | .call _ func args keywords => visibleReads func ++ (visibleAll args ++ visibleKeywords keywords)
  | .attr _ value _ _ => visibleReads value
  | .subscript _ value slice _ => visibleReads value ++ visibleReads slice
  | .formattedValue _ value _ _ => visibleReads value
  | _ => []

def visibleAll : List Expr → List String
  | [] => []
  | e :: es => visibleReads e ++ visibleAll es

def visibleKeywords : List (Keyword Expr) → List String
  | [] => []
  | ⟨_, value⟩ :: ks => visibleReads value ++ visibleKeywords ks

end

abbrev Taint := String → Bool

def valueTaint (σ : Taint) (value : Expr) : Bool :=
  !isSafeLiteral value && (extractSanitizerName value).isNone && (exprReads value).any σ

def unpacks (targets values : List Expr) : Bool :=
  if targets.any isStarred then targets.length ≤ values.length + 1 else targets.length = values.length

mutual

def receives (σ : Taint) (value : Expr) : Expr → List (String × Bool)
  | .name _ id _ => [(id, valueTaint σ value)]
  | .starred _ target _ => receives σ value target
  | .tuple _ elts _ | .list _ elts _ =>
    match value with
    | .tuple _ values _ | .list _ values _ =>
      if values.any isStarred then receivesWhole σ value elts
      else if unpacks elts values then receivesEach σ values elts else []
    | value => receivesWhole σ value elts
  | _ => []

def receivesWhole (σ : Taint) (value : Expr) : List Expr → List (String × Bool)
  | [] => []
  | target :: targets =>
    (boundNames target).map (·, valueTaint σ value) ++ receivesWhole σ value targets

def receivesEach (σ : Taint) : List Expr → List Expr → List (String × Bool)
  | values, .starred _ target _ :: targets =>
    receives σ (.list {} (values.take (values.length - targets.length)) .load) target ++
      receivesEach σ (values.drop (values.length - targets.length)) targets
  | value :: values, target :: targets => receives σ value target ++ receivesEach σ values targets
  | _, _ => []

end

def gains (σ : Taint) : Stmt → List (String × Bool)
  | .assign _ targets value => targets.flatMap (receives σ value)
  | .annAssign _ (.name _ id _) _ (some value) => [(id, valueTaint σ value)]
  | .augAssign _ (.name _ id _) _ value => [(id, σ id || valueTaint σ value)]
  | _ => []

def gained (σ : Taint) (s : Stmt) (x : String) : Option Bool :=
  ((gains σ s).reverse.find? (·.1 = x)).map Prod.snd

def rebind (σ : Taint) (s : Stmt) : Taint := fun x => (gained σ s x).getD (σ x)

/-- The parameters are tainted but for `self`. -/
def startTaint (args : Arguments Expr) : Taint := fun x => x ∈ parameterNames args && x ≠ "self"

def referenceTaint (args : Arguments Expr) (body : List Stmt) : Taint :=
  body.foldl rebind (startTaint args)

def IsAssignment : Stmt → Prop
  | .assign .. | .annAssign .. | .augAssign .. => True
  | _ => False

/-! ## The tracker and simultaneous rebinding

The tracker records the names of a statement one after the other, and not all of them. It keeps step with
the reference exactly where each name it records is given, in its turn, what the statement gives it, and
each name it does not record already has that (`tracking_exact_iff`).
-/
open LastWrites

def seenTaint (σ : Taint) (value : Expr) : Bool :=
  !isSafeLiteral value && (extractSanitizerName value).isNone && (visibleReads value).any σ

def Entry.seen (σ : Taint) : Entry → Bool
  | .track _ value => seenTaint σ value
  | .augment x value => σ x || (visibleReads value).any σ

def turn (σ : Taint) (e : Entry) : Taint := fun x => if x = e.name then e.seen σ else σ x

/-- What the statement gives each name is what its last entry sees in its turn, and what the name has
before where it has no entry. -/
def Meets (σ : Taint) (s : Stmt) : Prop :=
  ∀ x g, gained σ s x = some g →
    (∀ before e after, walk s = before ++ e :: after → e.name = x → (∀ e' ∈ after, e'.name ≠ x) →
      e.seen (before.foldl turn σ) = g) ∧
    ((∀ e ∈ walk s, e.name ≠ x) → σ x = g)

def Agrees (T : LocalDefUseTracker) (σ : Taint) : Prop := ∀ x, T.isVariableTainted x = σ x

variable {T : LocalDefUseTracker} {σ : Taint} {x : String}

mutual

theorem isNodeTainted_eq (T : LocalDefUseTracker) (e : Expr) :
    T.isNodeTainted e = (visibleReads e).any T.isVariableTainted := by
  cases e with
  | name pos id ctx => simp [isNodeTainted, visibleReads]
  | binOp pos left op right =>
    simp [isNodeTainted, visibleReads, isNodeTainted_eq T left, isNodeTainted_eq T right]
  | joinedStr pos values => simp [isNodeTainted, visibleReads, anyTainted_eq T values]
  | call pos func args keywords =>
    simp [isNodeTainted, visibleReads, isNodeTainted_eq T func, anyTainted_eq T args,
      anyKeywordTainted_eq T keywords, Bool.or_assoc]
  | attr pos value attr ctx => simp [isNodeTainted, visibleReads, isNodeTainted_eq T value]
  | subscript pos value slice ctx =>
    simp [isNodeTainted, visibleReads, isNodeTainted_eq T value, isNodeTainted_eq T slice]
  | formattedValue pos value conversion formatSpec =>
    simp [isNodeTainted, visibleReads, isNodeTainted_eq T value]
  | _ => rfl

theorem anyTainted_eq (T : LocalDefUseTracker) (es : List Expr) :
    T.anyTainted es = (visibleAll es).any T.isVariableTainted := by
  cases es with
  | nil => rfl
  | cons e es => simp [anyTainted, visibleAll, isNodeTainted_eq T e, anyTainted_eq T es]

theorem anyKeywordTainted_eq (T : LocalDefUseTracker) (ks : List (Keyword Expr)) :
    T.anyKeywordTainted ks = (visibleKeywords ks).any T.isVariableTainted := by
  match ks with
  | [] => rfl
  | ⟨_, value⟩ :: ks =>
    simp [anyKeywordTainted, visibleKeywords, isNodeTainted_eq T value, anyKeywordTainted_eq T ks]

end

theorem Agrees.isNodeTainted (h : Agrees T σ) (e : Expr) : T.isNodeTainted e = (visibleReads e).any σ := by
  rw [isNodeTainted_eq, funext h]

theorem Agrees.trackVariable (h : Agrees T σ) (name : String) (value : Expr) :
    (T.trackVariable name value).isVariableTainted name = seenTaint σ value := by
  unfold LocalDefUseTracker.trackVariable seenTaint
  split_ifs with hlit hsan
  · simp [hlit]
  · simp [Option.isSome_iff_ne_none.mp hsan]
  · rw [Option.not_isSome_iff_eq_none.mp hsan]
    have hclean : isSafeLiteral value = false := by simpa using hlit
    rw [hclean, ← h.isNodeTainted]
    cases value <;> simp [LocalDefUseTracker.isNodeTainted] <;> split_ifs <;> simp_all

theorem Agrees.apply (h : Agrees T σ) (e : Entry) : Agrees (Entry.apply T e) (turn σ e) := by
  intro x
  unfold turn
  cases e with
  | track name value =>
    by_cases hx : x = name
    · subst hx
      simp only [Entry.name, if_true]
      exact h.trackVariable x value
    · rw [isVariableTainted_apply_track hx, h x]
      simp [Entry.name, hx]
  | augment name value =>
    have hnode := h.isNodeTainted value
    have hname := h name
    by_cases hx : x = name
    · subst hx
      simp only [Entry.apply, Entry.name, Entry.seen, if_true]
      split_ifs with htainted hvalue
      · simp [htainted, ← hname]
      · simp [← hnode, hvalue]
      · simp [← hnode, ← hname, hvalue, htainted]
    · simp only [Entry.apply, Entry.name, hx, if_false]
      split_ifs
      · exact h x
      · simp [hx, h x]
      · exact h x

theorem Agrees.foldl (h : Agrees T σ) (E : List Entry) :
    Agrees (E.foldl Entry.apply T) (E.foldl turn σ) := by
  induction E generalizing T σ with
  | nil => exact h
  | cons e E ih => exact ih (h.apply e)

theorem foldl_turn_of_untouched (σ : Taint) {E : List Entry} (h : ∀ e ∈ E, e.name ≠ x) :
    E.foldl turn σ x = σ x := by
  induction E generalizing σ with
  | nil => rfl
  | cons e E ih =>
    have he : x ≠ e.name := fun heq => h e List.mem_cons_self heq.symm
    rw [List.foldl_cons, ih _ fun e' he' => h e' (List.mem_cons_of_mem _ he')]
    simp [turn, he]

theorem foldl_turn_of_last (σ : Taint) {before after : List Entry} {e : Entry} (he : e.name = x)
    (hafter : ∀ e' ∈ after, e'.name ≠ x) :
    (before ++ e :: after).foldl turn σ x = e.seen (before.foldl turn σ) := by
  rw [List.foldl_append, List.foldl_cons, foldl_turn_of_untouched _ hafter]
  simp [turn, he]

/-! ## What is recorded is bound -/

theorem receivesWhole_names (σ : Taint) (value : Expr) {targets : List Expr} {t : Expr} (ht : t ∈ targets)
    (hx : x ∈ boundNames t) : x ∈ (receivesWhole σ value targets).map Prod.fst := by
  induction targets with
  | nil => cases ht
  | cons s targets ih =>
    rw [receivesWhole, List.map_append, List.mem_append]
    rcases List.mem_cons.mp ht with rfl | ht
    · refine .inl ?_
      simpa using hx
    · exact .inr (ih ht)

theorem receivesEach_names (σ : Taint) {targets values : List Expr} (hlen : targets.length = values.length)
    {e : Entry} (he : e ∈ elementEntries targets values) :
    e.name ∈ (receivesEach σ values targets).map Prod.fst := by
  fun_induction elementEntries targets values with
  | case1 pos id ctx targets value values ih =>
    rw [receivesEach, receives, List.map_append, List.mem_append]
    · rcases List.mem_cons.mp he with rfl | he
      · exact .inl (by simp [Entry.name])
      · exact .inr (ih (by simpa using hlen) he)
    · exact fun _ _ _ heq => by cases heq
  | case2 t targets value values hne ih =>
    have hlen' : targets.length = values.length := by simpa using hlen
    have hrest := ih hlen' he
    by_cases hstar : ∃ pos target ctx, t = .starred pos target ctx
    · obtain ⟨pos, target, ctx, rfl⟩ := hstar
      have hone : (value :: values).length - targets.length = 1 := by
        rw [List.length_cons]
        omega
      rw [receivesEach, hone, List.map_append, List.mem_append]
      exact .inr hrest
    · rw [receivesEach, List.map_append, List.mem_append]
      · exact .inr hrest
      · exact fun pos target ctx heq => hstar ⟨pos, target, ctx, heq⟩
  | case3 => cases he

theorem receives_names (σ : Taint) {elts values : List Expr} (hlen : elts.length = values.length) {e : Entry}
    (he : e ∈ elementEntries elts values) (p p' : Pos) (c c' : Ctx) :
    e.name ∈ (receives σ (.tuple p values c) (.tuple p' elts c')).map Prod.fst := by
  rw [receives]
  split_ifs with hstar hfit
  · obtain ⟨t, ht, hname⟩ := elementEntries_name he
    exact receivesWhole_names σ _ ht hname
  · exact receivesEach_names σ hlen he
  · refine absurd ?_ hfit
    unfold unpacks
    split_ifs
    · simp [hlen]
    · simp [hlen]

theorem entry_gained (σ : Taint) {s : Stmt} (hs : IsAssignment s) {e : Entry} (he : e ∈ walk s) :
    gained σ s e.name ≠ none := by
  have hmem : e.name ∈ (gains σ s).map Prod.fst := by
    cases s with
    | assign pos targets value =>
      rw [walk, assignEntries] at he
      rw [gains]
      split at he
      next pos elts ctx hhead =>
        split at he
        · split_ifs at he with hlen
          · obtain ⟨p, hp, hname⟩ := List.mem_map.mp (receives_names σ hlen he _ _ _ _)
            exact List.mem_map.mpr ⟨p, List.mem_flatMap.mpr ⟨_, List.mem_of_mem_head? hhead, hp⟩, hname⟩
          · cases he
        · cases he
      next pos id ctx hhead =>
        obtain rfl := List.mem_singleton.mp he
        have hfirst : (id, valueTaint σ value) ∈ receives σ value (.name pos id ctx) := by simp [receives]
        exact List.mem_map.mpr ⟨_, List.mem_flatMap.mpr ⟨_, List.mem_of_mem_head? hhead, hfirst⟩, rfl⟩
      next => cases he
    | annAssign pos target annot value =>
      cases target <;> cases value <;> simp_all [walk, annEntries, gains, Entry.name]
    | augAssign pos target op value =>
      cases target <;> simp_all [walk, augEntries, gains, Entry.name]
    | _ => exact absurd hs (by simp [IsAssignment])
  obtain ⟨p, hp, hname⟩ := List.mem_map.mp hmem
  intro hnone
  rw [gained, Option.map_eq_none_iff, List.find?_eq_none] at hnone
  exact absurd hname (by simpa using hnone p (List.mem_reverse.mpr hp))

theorem Agrees.step_iff (h : Agrees T σ) {s : Stmt} (hs : IsAssignment s) :
    Agrees (processStatement s T) (rebind σ s) ↔ Meets σ s := by
  have hturns : Agrees (processStatement s T) ((walk s).foldl turn σ) := by
    rw [processStatement_eq]
    exact h.foldl (walk s)
  have hsame : Agrees (processStatement s T) (rebind σ s) ↔
      ∀ x, (walk s).foldl turn σ x = (gained σ s x).getD (σ x) := by
    unfold Agrees
    simp only [hturns _]
    rfl
  rw [hsame]
  constructor
  · intro hall x g hg
    have hx := hall x
    rw [hg, Option.getD_some] at hx
    constructor
    · intro before e after hwalk he hafter
      rw [← hx, hwalk, foldl_turn_of_last σ he hafter]
    · intro huntouched
      rw [← hx, foldl_turn_of_untouched σ huntouched]
  · intro hmeets x
    by_cases htouched : ∃ e ∈ walk s, e.name = x
    · obtain ⟨e, after, ⟨before, hwalk⟩, he, hafter⟩ := exists_last htouched
      have hin : e ∈ walk s := by simp [← hwalk]
      obtain ⟨g, hg⟩ := Option.ne_none_iff_exists'.mp (he ▸ entry_gained σ hs hin)
      rw [hg, Option.getD_some, ← hwalk, foldl_turn_of_last σ he hafter]
      exact (hmeets x g hg).1 before e after hwalk.symm he hafter
    · have huntouched : ∀ e ∈ walk s, e.name ≠ x := fun e he heq => htouched ⟨e, he, heq⟩
      rw [foldl_turn_of_untouched σ huntouched]
      cases hg : gained σ s x with
      | none => rfl
      | some g => exact (hmeets x g hg).2 huntouched

/-! ## A run -/

theorem analyzeFunction_concat (args : Arguments Expr) (body : List Stmt) (s : Stmt) :
    analyzeFunction args (body ++ [s]) = processStatement s (analyzeFunction args body) := by
  have hwalk : walkAll (body ++ [s]) = walkAll body ++ walk s := by
    induction body with
    | nil => simp [walkAll]
    | cons t body ih => rw [List.cons_append, walkAll, ih, walkAll, List.append_assoc]
  rw [analyzeFunction_eq, hwalk, List.foldl_append, ← analyzeFunction_eq, processStatement_eq]

theorem referenceTaint_concat (args : Arguments Expr) (body : List Stmt) (s : Stmt) :
    referenceTaint args (body ++ [s]) = rebind (referenceTaint args body) s := by
  rw [referenceTaint, List.foldl_append]
  rfl

theorem agrees_start_iff (args : Arguments Expr) : Agrees (startTracker args) (startTaint args) ↔
    ∀ x ∈ parameterNames args, x ≠ "self" → x ∈ args.args.map (·.arg) := by
  have hsub : ∀ x ∈ args.args.map (·.arg), x ∈ parameterNames args := by
    intro x hx
    obtain ⟨a, ha, rfl⟩ := List.mem_map.mp hx
    exact List.mem_map_of_mem (by simp [ha])
  have hmarked : ∀ x, (startTracker args).isVariableTainted x = true ↔
      x ∈ args.args.map (·.arg) ∧ x ≠ "self" := by
    intro x
    simp only [startTracker, isVariableTainted, markedParameters, List.mem_toFinset, List.mem_filter,
      Finset.notMem_empty, not_false_eq_true, decide_true, Bool.and_true, decide_eq_true_eq]
  have hreference : ∀ x, startTaint args x = true ↔ x ∈ parameterNames args ∧ x ≠ "self" := by
    intro x
    simp [startTaint]
  constructor
  · intro h x hx hself
    exact ((hmarked x).mp ((h x).trans ((hreference x).mpr ⟨hx, hself⟩))).1
  · intro h x
    rw [Bool.eq_iff_iff, hmarked, hreference]
    exact ⟨fun hx => ⟨hsub x hx.1, hx.2⟩, fun hx => ⟨h x hx.1 hx.2, hx.2⟩⟩

/-- Over a sequence of assignments the tracker keeps step with the reference exactly when every parameter
but `self` is an ordinary one and every statement meets the condition. -/
theorem tracking_exact_iff (args : Arguments Expr) (body : List Stmt) (hbody : ∀ s ∈ body, IsAssignment s) :
    (∀ pre, pre <+: body → ∀ x,
      (analyzeFunction args pre).isVariableTainted x = referenceTaint args pre x) ↔
    (∀ x ∈ parameterNames args, x ≠ "self" → x ∈ args.args.map (·.arg)) ∧
      ∀ pre s, pre ++ [s] <+: body → Meets (referenceTaint args pre) s := by
  have hassign : ∀ {pre s}, pre ++ [s] <+: body → IsAssignment s :=
    fun hpre => hbody _ (hpre.subset (List.mem_append_right _ (List.mem_singleton_self _)))
  constructor
  · intro hall
    refine ⟨(agrees_start_iff args).mp (hall [] List.nil_prefix), fun pre s hpre => ?_⟩
    have hbefore : Agrees (analyzeFunction args pre) (referenceTaint args pre) :=
      hall pre ((List.prefix_append pre [s]).trans hpre)
    have hafter : Agrees (analyzeFunction args (pre ++ [s])) (referenceTaint args (pre ++ [s])) :=
      hall (pre ++ [s]) hpre
    rw [analyzeFunction_concat, referenceTaint_concat] at hafter
    exact (hbefore.step_iff (hassign hpre)).mp hafter
  · rintro ⟨hstart, hsteps⟩ pre
    induction pre using List.reverseRecOn with
    | nil => exact fun _ => (agrees_start_iff args).mpr hstart
    | append_singleton pre s ih =>
      intro hpre
      have hbefore : Agrees (analyzeFunction args pre) (referenceTaint args pre) :=
        ih ((List.prefix_append pre [s]).trans hpre)
      rw [analyzeFunction_concat, referenceTaint_concat]
      exact (hbefore.step_iff (hassign hpre)).mpr (hsteps pre s hpre)

theorem tracking_exact_of_copy : (∀ pre, pre <+: [copyOfSrc "b"] → ∀ x,
      (analyzeFunction oneParameter pre).isVariableTainted x = referenceTaint oneParameter pre x) ∧
    referenceTaint oneParameter [copyOfSrc "b"] "b" = true := by
  refine ⟨?_, by decide⟩
  refine (tracking_exact_iff oneParameter [copyOfSrc "b"] ?_).mpr ⟨by decide, fun pre s hpre => ?_⟩
  · exact List.forall_mem_singleton.mpr trivial
  obtain ⟨rfl, rfl⟩ : pre = [] ∧ s = copyOfSrc "b" := by
    have hle := hpre.length_le
    obtain ⟨rest, hrest⟩ := hpre
    cases pre with
    | nil => exact ⟨rfl, (List.cons_eq_cons.mp hrest).1⟩
    | cons => simp at hle
  intro x g hg
  have hx : x = "b" := by
    by_contra hne
    have hnone : gained (referenceTaint oneParameter []) (copyOfSrc "b") x = none := by
      simp [gained, gains, copyOfSrc, receives, Ne.symm hne]
    rw [hnone] at hg
    cases hg
  subst hx
  have hwalk : walk (copyOfSrc "b") = [.track "b" (.name {} "src" .load)] := rfl
  have hg' : gained (referenceTaint oneParameter []) (copyOfSrc "b") "b" = some true := by decide
  obtain rfl := Option.some.inj (hg.symm.trans hg')
  constructor
  · intro before e after heq he hafter
    rw [hwalk] at heq
    cases before with
    | nil =>
      obtain ⟨rfl, -⟩ := List.cons_eq_cons.mp heq
      decide
    | cons => simp at heq
  · intro huntouched
    exact absurd rfl (huntouched _ (hwalk ▸ List.mem_singleton_self _))

/-- `a = "safe"` and then the swap `a, b = b, a`: the tracker gives `b` the taint that `a` has just got. -/
theorem swap_keeps_taint : ¬ ∀ (args : Arguments Expr) (body : List Stmt), (∀ s ∈ body, IsAssignment s) →
    ∀ x, (analyzeFunction args body).isVariableTainted x = referenceTaint args body x := by
  intro h
  let pair (first second : String) (ctx : Ctx) : Expr := .tuple {} [.name {} first ctx, .name {} second ctx] ctx
  let args : Arguments Expr := { args := [{ arg := "a" }, { arg := "b" }] }
  let body : List Stmt := [literal "a", .assign {} [pair "a" "b" .store] (pair "b" "a" .load)]
  have hbody : ∀ s ∈ body, IsAssignment s := by simp [body, literal, IsAssignment]
  exact absurd (h args body hbody "b") (by decide)

end TimeCodeSecurity.DefUse
