import TimeCodeSecurity.CrossFile.CallerAnalysis

/-! # The filter of caller modules against the analysis it stands in for

`_module_emits` decides on the recorded facts whether a module is read again. On direct calls of the
definitions that got a row it sees whatever the analysis sees. Dispatches it never sees, since it hands
the code of the receiver kind to a function that reads it as the code of a reference kind; and of two
definitions with one qualified name it knows the later one only.
-/
namespace TimeCodeSecurity.CrossFile
open Py
set_option autoImplicit false

variable {P : Project}

theorem resolveSiteContract_callShape (callerMod : String) (receivers : Receivers) (c : CallNode) :
    resolveSiteContract P callerMod (callShape c) receivers =
      resolveCalleeContract P callerMod receivers c.func := by
  obtain ⟨line, func, args, keywords⟩ := c
  cases func with
  | attr pos value name ctx =>
    cases value with
    | call pos' ctor as ks => cases ctor <;> rfl
    | _ => rfl
  | _ => rfl

theorem bindTargets_nil (callerMod ctor : String) (bindings : Receivers) :
    bindTargets P callerMod bindings ([], ctor) = bindings := by
  unfold bindTargets
  split <;> rfl

theorem foldl_bindNode (callerMod : String) (ns : List Node) (bindings : Receivers) :
    ns.foldl (bindNode P callerMod) bindings =
      ((ns.filterMap constructorAssign).filter fun r => r.1 ≠ []).foldl (bindTargets P callerMod)
        bindings := by
  induction ns generalizing bindings with
  | nil => rfl
  | cons n ns ih =>
    rw [List.foldl_cons, ih, bindNode]
    cases h : constructorAssign n with
    | none => rw [List.filterMap_cons_none h]
    | some recv =>
      obtain ⟨targets, ctor⟩ := recv
      rw [List.filterMap_cons_some h]
      cases targets with
      | nil => simp [bindTargets_nil]
      | cons t ts => simp

theorem factReceivers_funcFactsOf (callerMod callerFunc : String) (f : FuncNode) :
    factReceivers P callerMod callerFunc (funcFactsOf f) =
      instanceBindings P callerMod callerFunc f :=
  (foldl_bindNode callerMod _ _).symm

theorem mem_callsIn_node {f : FuncNode} {s : Stmt} (hs : s ∈ f.body) {c : CallNode}
    (hc : c ∈ callsIn (.stmt s)) : c ∈ callsIn f.node := by
  obtain ⟨n, hn, hcall⟩ := List.mem_filterMap.mp hc
  refine List.mem_filterMap.mpr ⟨n, ?_, hcall⟩
  rw [Node.mem_walk_iff] at hn ⊢
  refine .head ?_ hn
  simp only [FuncNode.node, Node.children, Stmt.children, List.mem_cons, List.mem_append]
  exact .inr (.inl (List.mem_map.mpr ⟨s, hs, rfl⟩))

theorem mem_body_of_taintedStatements {unparse : Expr → String} {callerMod : String}
    {receivers : Receivers} {tainted : List String} {body : List Stmt} {ts : List String × Stmt}
    (h : ts ∈ taintedStatements P unparse callerMod receivers tainted body) : ts.2 ∈ body := by
  induction body generalizing tainted with
  | nil => exact absurd h List.not_mem_nil
  | cons s body ih =>
    rcases List.mem_cons.mp h with rfl | h
    · exact List.mem_cons_self
    · exact List.mem_cons_of_mem s (ih h)

/-- `f` is a definition of `q`, and `shadowed` says whether a later one of that name follows. -/
def Defines (tree : Module) (q : String) (f : FuncNode) (shadowed : Prop) : Prop :=
  ∃ before after, contractedFunctions tree = before ++ (q, f) :: after ∧
    (q ∈ after.map Prod.fst ↔ shadowed)

theorem lookup_foldl_insert (defs : List (String × FuncNode)) (d : Dict FuncFacts) (q : String)
    (row : FuncFacts) :
    (defs.foldl (fun d fn => d.insert fn.1 (funcFactsOf fn.2)) d).lookup q = some row ↔
      (∃ before f after, defs = before ++ (q, f) :: after ∧ q ∉ after.map Prod.fst ∧
        funcFactsOf f = row) ∨ q ∉ defs.map Prod.fst ∧ d.lookup q = some row := by
  induction defs generalizing d with
  | nil => simp
  | cons fn defs ih =>
    obtain ⟨q', f'⟩ := fn
    rw [List.foldl_cons, ih, DictOf.lookup_insert_eq]
    constructor
    · rintro (⟨before, f, after, rfl, hq, hrow⟩ | ⟨hq, hlook⟩)
      · exact .inl ⟨(q', f') :: before, f, after, rfl, hq, hrow⟩
      · split at hlook
        next heq =>
          subst heq
          exact .inl ⟨[], f', defs, rfl, hq, Option.some.inj hlook⟩
        next hne => exact .inr ⟨by simp [hne, hq], hlook⟩
    · rintro (⟨before, f, after, heq, hq, hrow⟩ | ⟨hq, hlook⟩)
      · cases before with
        | nil =>
          obtain ⟨hfn, rfl⟩ := List.cons.inj heq
          obtain ⟨rfl, rfl⟩ := Prod.mk.inj hfn
          exact .inr ⟨hq, by simp [hrow]⟩
        | cons b before =>
          obtain ⟨-, rfl⟩ := List.cons.inj heq
          exact .inl ⟨before, f, after, rfl, hq, hrow⟩
      · rw [List.map_cons, List.mem_cons, not_or] at hq
        exact .inr ⟨hq.2, by rw [if_neg hq.1, hlook]⟩

theorem lookup_harvestModule {unparse : Expr → String} {summaries : List FunctionSummary}
    {tree : Module} {q : String} {row : FuncFacts} :
    (harvestModule unparse summaries tree).funcs.lookup q = some row ↔
      ∃ f, Defines tree q f False ∧ funcFactsOf f = row := by
  unfold harvestModule Defines
  simp only [lookup_foldl_insert, AList.lookup_empty]
  constructor
  · rintro (⟨before, f, after, heq, hq, hrow⟩ | ⟨-, h⟩)
    · exact ⟨f, ⟨before, after, heq, iff_false_intro hq⟩, hrow⟩
    · exact absurd h (by simp)
  · rintro ⟨f, ⟨before, after, heq, hq⟩, hrow⟩
    exact .inl ⟨before, f, after, heq, hq.mp, hrow⟩

theorem exists_defines {tree : Module} {fn : String × FuncNode}
    (h : fn ∈ contractedFunctions tree) :
    Defines tree fn.1 fn.2 True ∨ Defines tree fn.1 fn.2 False := by
  obtain ⟨before, after, heq⟩ := List.append_of_mem h
  by_cases hq : fn.1 ∈ after.map Prod.fst
  · exact .inl ⟨before, after, heq, iff_true_intro hq⟩
  · exact .inr ⟨before, after, heq, iff_false_intro hq⟩

theorem Defines.mem {tree : Module} {q : String} {f : FuncNode} {b : Prop}
    (h : Defines tree q f b) : (q, f) ∈ contractedFunctions tree := by
  obtain ⟨before, after, heq, -⟩ := h
  rw [heq]
  exact List.mem_append_right _ List.mem_cons_self

/-- The call resolves directly to a contract with a sink. -/
def CallsSink (P : Project) (st : PropState) (modName : String) (receivers : Receivers)
    (c : CallNode) : Prop :=
  ∃ key, resolveCalleeContract P modName receivers c.func = some key ∧ st.sinks key ≠ []

/-- The call is a dispatch on something spelled neither as a name, a construction nor an attribute,
and some handler with a sink is registered under the empty name. -/
def DispatchesToNameless (P : Project) (st : PropState) (modName : String) (c : CallNode) : Prop :=
  (callShape c).fkind = .attr ∧ (callShape c).fname ∈ dispatchAttrs ∧ (callShape c).rkind = .other ∧
    ∃ key ∈ dispatchTargets P (callShape c).fname (resolveNameReference P modName ""),
      (P.contracts.lookup key).isSome = true ∧ st.sinks key ≠ []

theorem siteReference_of_rkind {site : CallShape} (hname : site.rkind = .name → site.rbase = "")
    (hother : site.rkind = .other → site.rname = "") (modName : String) (ref : FuncKey) :
    siteReference P modName site = some ref ↔
      site.rkind = .other ∧ ref = resolveNameReference P modName "" := by
  unfold siteReference resolveReferenceFact
  cases hkind : site.rkind with
  | other => simp [RecvKind.code, hother hkind, eq_comm]
  | name => simp [RecvKind.code, hname hkind]
  | ctor => simp [RecvKind.code]
  | attr => simp [RecvKind.code]

theorem callShape_rbase {c : CallNode} (h : (callShape c).rkind = .name) :
    (callShape c).rbase = "" := by
  obtain ⟨line, func, args, keywords⟩ := c
  cases func with
  | attr pos value name ctx =>
    cases value with
    | call pos' ctor as ks => cases ctor <;> rfl
    | attr => exact absurd h (by simp [callShape, calleeShape])
    | _ => rfl
  | _ => rfl

theorem callShape_rname {c : CallNode} (h : (callShape c).rkind = .other) :
    (callShape c).rname = "" := by
  obtain ⟨line, func, args, keywords⟩ := c
  cases func with
  | attr pos value name ctx =>
    cases value with
    | call pos' ctor as ks => cases ctor <;> first | rfl | exact absurd h (by simp [callShape, calleeShape])
    | attr => exact absurd h (by simp [callShape, calleeShape])
    | name => exact absurd h (by simp [callShape, calleeShape])
    | _ => rfl
  | _ => rfl

theorem siteEmits_callShape {st : PropState} {modName : String} {receivers : Receivers}
    {c : CallNode} :
    siteEmits P st.sinks modName receivers (callShape c) = true ↔
      CallsSink P st modName receivers c ∨ DispatchesToNameless P st modName c := by
  unfold siteEmits CallsSink DispatchesToNameless
  rw [resolveSiteContract_callShape]
  simp only [Bool.or_eq_true, Option.any_eq_true, decide_eq_true_eq, Bool.and_eq_true,
    List.any_eq_true, siteReference_of_rkind callShape_rbase callShape_rname]
  refine or_congr Iff.rfl ?_
  constructor
  · rintro ⟨⟨hattr, hname⟩, ref, ⟨hkind, rfl⟩, hkey⟩
    exact ⟨hattr, hname, hkind, hkey⟩
  · rintro ⟨hattr, hname, hkind, hkey⟩
    exact ⟨⟨hattr, hname⟩, _, ⟨hkind, rfl⟩, hkey⟩

theorem moduleEmits_iff {unparse : Expr → String} {summaries : List FunctionSummary}
    {st : PropState} {modName : String} {tree : Module} :
    moduleEmits P st.sinks modName (harvestModule unparse summaries tree) = true ↔
      ∃ q f, Defines tree q f False ∧ ∃ c ∈ callsIn f.node,
        CallsSink P st modName (instanceBindings P modName q f) c ∨
          DispatchesToNameless P st modName c := by
  have hrow : ∀ q f, (∃ call ∈ (funcFactsOf f).calls, siteEmits P st.sinks modName
        (factReceivers P modName q (funcFactsOf f)) call.2 = true) ↔
      ∃ c ∈ callsIn f.node, CallsSink P st modName (instanceBindings P modName q f) c ∨
        DispatchesToNameless P st modName c := by
    intro q f
    rw [factReceivers_funcFactsOf]
    simp only [funcFactsOf, List.mem_map, exists_exists_and_eq_and, siteEmits_callShape]
  unfold moduleEmits
  simp only [List.any_eq_true, Prod.exists, DictOf.mem_items_iff, lookup_harvestModule]
  constructor
  · rintro ⟨q, row, ⟨f, hf, rfl⟩, hcalls⟩
    exact ⟨q, f, hf, (hrow q f).mp (by simpa using hcalls)⟩
  · rintro ⟨q, f, hf, hcalls⟩
    exact ⟨q, _, ⟨f, hf, rfl⟩, by simpa using (hrow q f).mpr hcalls⟩

/-! ## What the analysis reports -/

def HandsOver (P : Project) (unparse : Expr → String) (st : PropState) (modName : String)
    (tainted : List String) (receivers : Receivers) (c : CallNode) (callee : FuncKey) : Prop :=
  ∃ sink ∈ st.sinks callee, sink.paramIdx ∈ taintedSlots P unparse modName c callee tainted receivers

theorem emitContractFindings_ne_nil {unparse : Expr → String} {st : PropState} {caller : Caller}
    {c : CallNode} {callee : FuncKey} {tainted : List String} {receivers : Receivers} :
    emitContractFindings P unparse st caller c callee tainted receivers ≠ [] ↔
      HandsOver P unparse st caller.modName tainted receivers c callee := by
  unfold emitContractFindings HandsOver
  simp only [ne_eq, List.flatMap_eq_nil_iff, List.map_eq_nil_iff, List.filter_eq_nil_iff,
    decide_eq_true_eq]
  constructor
  · intro h
    by_contra hno
    exact h fun slot hslot sink hsink heq => hno ⟨sink, hsink, heq ▸ hslot⟩
  · rintro ⟨sink, hsink, hslot⟩ h
    exact h _ hslot sink hsink rfl

def AnalyzedCall (P : Project) (unparse : Expr → String) (modName q : String) (f : FuncNode)
    (tainted : List String) (c : CallNode) : Prop :=
  ∃ s, (tainted, s) ∈ taintedStatements P unparse modName (instanceBindings P modName q f)
    (initialTaint f) f.body ∧ c ∈ callsIn (.stmt s)

/-- A direct call of the definition hands a tainted argument to a sink. -/
def DirectHandOver (P : Project) (unparse : Expr → String) (st : PropState) (modName q : String)
    (f : FuncNode) : Prop :=
  ∃ tainted c, AnalyzedCall P unparse modName q f tainted c ∧
    ∃ callee, resolveCalleeContract P modName (instanceBindings P modName q f) c.func = some callee ∧
      HandsOver P unparse st modName tainted (instanceBindings P modName q f) c callee

/-- A dispatch of the definition hands a tainted argument to a sink of a handler. -/
def DispatchHandOver (P : Project) (unparse : Expr → String) (st : PropState) (modName q : String)
    (f : FuncNode) : Prop :=
  ∃ tainted c, AnalyzedCall P unparse modName q f tainted c ∧
    ∃ e ∈ resolveEventEmission P modName c,
      HandsOver P unparse st modName tainted (instanceBindings P modName q f) e.2 e.1

theorem checkCallAgainstContracts_ne_nil {unparse : Expr → String} {st : PropState}
    {caller : Caller} {c : CallNode} {tainted : List String} {receivers : Receivers} :
    checkCallAgainstContracts P unparse st caller c tainted receivers ≠ [] ↔
      ∃ callee, resolveCalleeContract P caller.modName receivers c.func = some callee ∧
        HandsOver P unparse st caller.modName tainted receivers c callee := by
  unfold checkCallAgainstContracts
  cases resolveCalleeContract P caller.modName receivers c.func with
  | none => simp
  | some callee => simpa using emitContractFindings_ne_nil

theorem emitEventFindings_ne_nil {unparse : Expr → String} {st : PropState} {caller : Caller}
    {c : CallNode} {tainted : List String} {receivers : Receivers} :
    emitEventFindings P unparse st caller c tainted receivers ≠ [] ↔
      ∃ e ∈ resolveEventEmission P caller.modName c,
        HandsOver P unparse st caller.modName tainted receivers e.2 e.1 := by
  unfold emitEventFindings
  rw [ne_eq, List.flatMap_eq_nil_iff, not_forall₂]
  exact exists_congr fun e => by rw [exists_prop, ← ne_eq, emitContractFindings_ne_nil]

theorem analyzeFunctionBody_ne_nil {unparse : Expr → String} {st : PropState} {modName file q : String}
    {f : FuncNode} :
    analyzeFunctionBody P unparse st ⟨modName, file, q⟩ f ≠ [] ↔
      DirectHandOver P unparse st modName q f ∨ DispatchHandOver P unparse st modName q f := by
  unfold analyzeFunctionBody DirectHandOver DispatchHandOver AnalyzedCall
  simp only [ne_eq, List.flatMap_eq_nil_iff, List.append_eq_nil_iff, not_forall, Prod.forall]
  constructor
  · rintro ⟨tainted, s, hs, c, hc, hno⟩
    rcases not_and_or.mp hno with hdirect | hevent
    · exact .inl ⟨tainted, c, ⟨s, hs, hc⟩, checkCallAgainstContracts_ne_nil.mp hdirect⟩
    · exact .inr ⟨tainted, c, ⟨s, hs, hc⟩, emitEventFindings_ne_nil.mp hevent⟩
  · rintro (⟨tainted, c, ⟨s, hs, hc⟩, h⟩ | ⟨tainted, c, ⟨s, hs, hc⟩, h⟩)
    · have hfound : checkCallAgainstContracts P unparse st ⟨modName, file, q⟩ c tainted
          (instanceBindings P modName q f) ≠ [] := checkCallAgainstContracts_ne_nil.mpr h
      exact ⟨tainted, s, hs, c, hc, fun hno => hfound hno.1⟩
    · have hfound : emitEventFindings P unparse st ⟨modName, file, q⟩ c tainted
          (instanceBindings P modName q f) ≠ [] := emitEventFindings_ne_nil.mpr h
      exact ⟨tainted, s, hs, c, hc, fun hno => hfound hno.2⟩

theorem analyzeModuleCalls_ne_nil {unparse : Expr → String} {st : PropState} {modName file : String}
    {tree : Module} :
    analyzeModuleCalls P unparse st modName file tree ≠ [] ↔
      ∃ fn ∈ contractedFunctions tree, DirectHandOver P unparse st modName fn.1 fn.2 ∨
        DispatchHandOver P unparse st modName fn.1 fn.2 := by
  unfold analyzeModuleCalls
  rw [ne_eq, List.flatMap_eq_nil_iff, not_forall₂]
  exact exists_congr fun fn => by rw [exists_prop, ← ne_eq, analyzeFunctionBody_ne_nil]

theorem callsSink_of_directHandOver {unparse : Expr → String} {st : PropState} {modName q : String}
    {f : FuncNode} (h : DirectHandOver P unparse st modName q f) :
    ∃ c ∈ callsIn f.node, CallsSink P st modName (instanceBindings P modName q f) c := by
  obtain ⟨tainted, c, ⟨s, hs, hc⟩, callee, hcallee, sink, hsink, -⟩ := h
  exact ⟨c, mem_callsIn_node (mem_body_of_taintedStatements hs) hc, callee, hcallee,
    List.ne_nil_of_mem hsink⟩

/-- The filter's no proves that the analysis finds nothing. -/
def FilterSound (P : Project) (unparse : Expr → String) (st : PropState)
    (summaries : List FunctionSummary) (modName file : String) (tree : Module) : Prop :=
  moduleEmits P st.sinks modName (harvestModule unparse summaries tree) = false →
    analyzeModuleCalls P unparse st modName file tree = []

/-- The filter is right about a module exactly when some definition that got a row calls a contract
with a sink, or no tainted argument goes to a sink by a dispatch or out of a shadowed definition. -/
theorem filterSound_iff (P : Project) (unparse : Expr → String) (st : PropState)
    (summaries : List FunctionSummary) (modName file : String) (tree : Module) :
    FilterSound P unparse st summaries modName file tree ↔
      (∃ q f, Defines tree q f False ∧ ∃ c ∈ callsIn f.node,
        CallsSink P st modName (instanceBindings P modName q f) c ∨
          DispatchesToNameless P st modName c) ∨
      ∀ q f, ((q, f) ∈ contractedFunctions tree → ¬DispatchHandOver P unparse st modName q f) ∧
        (Defines tree q f True → ¬DirectHandOver P unparse st modName q f) := by
  unfold FilterSound
  rw [← Bool.not_eq_true, moduleEmits_iff]
  constructor
  · intro h
    refine or_iff_not_imp_left.mpr fun hquiet q f => ?_
    have hnone : ∀ fn ∈ contractedFunctions tree, ¬(DirectHandOver P unparse st modName fn.1 fn.2 ∨
        DispatchHandOver P unparse st modName fn.1 fn.2) := fun fn hfn hover =>
      analyzeModuleCalls_ne_nil.mpr ⟨fn, hfn, hover⟩ (h hquiet)
    exact ⟨fun hmem hover => hnone _ hmem (.inr hover),
      fun hdef hover => hnone _ hdef.mem (.inl hover)⟩
  · intro h hquiet
    have hright := h.resolve_left hquiet
    by_contra hne
    obtain ⟨⟨q, f⟩, hmem, hover⟩ := analyzeModuleCalls_ne_nil.mp hne
    rcases hover with hdirect | hdispatch
    · rcases exists_defines hmem with hshadowed | hlast
      · exact (hright q f).2 hshadowed hdirect
      · obtain ⟨c, hc, hsink⟩ := callsSink_of_directHandOver hdirect
        exact hquiet ⟨q, f, hlast, c, hc, .inl hsink⟩
    · exact (hright q f).1 hmem hdispatch

/-! ## A task that is only dispatched

`tasks.py` has `@shared_task def run(cmd): os.system(cmd)`; `views.py` imports `run` and its
`view(request)` says `run.delay(request.GET)`.
-/

def loadName (line : ℕ) (id : String) : Expr := .name { lineno := line } id .load
def loadAttr (line : ℕ) (value : Expr) (name : String) : Expr :=
  .attr { lineno := line } value name .load

def tasksTree : Module :=
  [.functionDef { lineno := 5 } false "run" { args := [{ arg := "cmd" }] }
    [.expr { lineno := 6 } (.call { lineno := 6 } (loadAttr 6 (loadName 6 "os") "system")
      [loadName 6 "cmd"] [])]
    [loadName 4 "shared_task"] none]

def viewsTree : Module :=
  [.functionDef { lineno := 3 } false "view" { args := [{ arg := "request" }] }
    [.expr { lineno := 4 } (.call { lineno := 4 } (loadAttr 4 (loadName 4 "run") "delay")
      [loadAttr 4 (loadName 4 "request") "GET"] [])]
    [] none]

def runSummary : FunctionSummary :=
  { filePath := "tasks.py", params := ["cmd"], paramSinks := [⟨0, "cmd", "CWE-78", "system", 6⟩] }

def viewSummary : FunctionSummary := { filePath := "views.py", params := ["request"] }

def taskProject : Project where
  index :=
    { modules := ((∅ : Dict ModuleIndex).insert "tasks"
          { filePath := "tasks.py"
            definitions := (∅ : Dict SymbolDefinition).insert "run" ⟨"run", .function, "tasks.py"⟩ })
        |>.insert "views"
          { filePath := "views.py"
            definitions := (∅ : Dict SymbolDefinition).insert "view" ⟨"view", .function, "views.py"⟩
            imports := (∅ : Dict ImportBinding).insert "run" ⟨"tasks", "run"⟩ }
      fileToModule := fun path =>
        if path = "tasks.py" then some "tasks" else if path = "views.py" then some "views" else none }
  facts := ((∅ : Dict ModuleFacts).insert "tasks" (harvestModule dottedPrefix [runSummary] tasksTree))
    |>.insert "views" (harvestModule dottedPrefix [viewSummary] viewsTree)
  contracts := ((∅ : DictOf FuncKey FunctionSummary).insert ("tasks", "run") runSummary)
    |>.insert ("views", "view") viewSummary
  contracted := contracted_of_items (by decide)

theorem filterSound_fails_on_task :
    ¬FilterSound taskProject dottedPrefix (initialState taskProject) [viewSummary] "views" "views.py"
      viewsTree := by
  intro h
  have hquiet : moduleEmits taskProject (initialState taskProject).sinks "views"
      (harvestModule dottedPrefix [viewSummary] viewsTree) = false := by
    decide
  have hfound : (analyzeModuleCalls taskProject dottedPrefix (initialState taskProject) "views"
      "views.py" viewsTree).isEmpty = false := by
    decide
  rw [h hquiet] at hfound
  exact absurd hfound (by decide)

end TimeCodeSecurity.CrossFile
