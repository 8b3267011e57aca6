import Mathlib.Data.Finset.Prod
import TimeCodeSecurity.CrossFile.Events

/-! # The lift computes the forwarding closure of the edges

The edges of the final state are those of the closure, in every order of the rows. Of the files behind
an edge only one is kept, so the sinks shown are the sinks reached exactly when no parameter reaches
two sinks that differ in their file and agree in name and line.
-/
namespace TimeCodeSecurity.CrossFile
open Rounds LabelFlow
set_option autoImplicit false

variable {P : Project} {order : List (FuncKey × FuncFacts)}

theorem mem_functions_iff {fn : FuncKey × FuncFacts} :
    fn ∈ P.functions ↔ P.funcFacts fn.1 = some fn.2 := by
  obtain ⟨⟨m, q⟩, f⟩ := fn
  simp only [Project.functions, List.mem_flatMap, List.mem_map, Project.funcFacts]
  constructor
  · rintro ⟨⟨m', row⟩, hrow, ⟨q', f'⟩, hf, heq⟩
    simp only [Prod.mk.injEq] at heq
    obtain ⟨⟨rfl, rfl⟩, rfl⟩ := heq
    rw [DictOf.mem_items_iff] at hrow hf
    rw [hrow]
    exact hf
  · intro h
    obtain ⟨row, hrow, hf⟩ := Option.bind_eq_some_iff.mp h
    exact ⟨(m, row), DictOf.mem_items_iff.mpr hrow, (q, f), DictOf.mem_items_iff.mpr hf, rfl⟩

theorem paramToIdx_lt {names : List String} {name : String} {i : ℕ}
    (h : paramToIdx names name = some i) : i < names.length := by
  have hmem := List.mem_of_find?_eq_some h
  simpa using hmem

theorem param_lt_of_mem_forwardings {key : FuncKey} {func : FuncFacts} {fw : Forwarding}
    (h : fw ∈ forwardings P key func) : fw.param < (P.params key).length := by
  obtain ⟨call, -, h⟩ := List.mem_flatMap.mp h
  unfold siteForwardings at h
  split at h
  · exact absurd h List.not_mem_nil
  · obtain ⟨slot, -, h⟩ := List.mem_filterMap.mp h
    split at h
    · exact absurd h (by simp)
    · obtain ⟨i, hi, rfl⟩ := Option.map_eq_some_iff.mp h
      obtain ⟨name, -, hi⟩ := Option.bind_eq_some_iff.mp hi
      exact paramToIdx_lt hi

theorem knownEdge_iff {edges : List ParamSinkEdge} {param : ℕ} {edge : ParamSinkEdge} :
    knownEdge edges param edge = true ↔ ∃ e ∈ edges, e.paramIdx = param ∧ e.key = edge.key := by
  simp [knownEdge, ParamSinkEdge.key, and_assoc]

theorem honest_liftEdge (key : FuncKey) (fw : Forwarding) (edge : ParamSinkEdge) :
    Honest (liftEdge P key fw edge) := by
  intro st h
  unfold liftEdge at h ⊢
  split at h
  · exact absurd h (by simp)
  next hc => rw [if_neg hc]

theorem honest_liftForwarding (key : FuncKey) (fw : Forwarding) :
    Honest (liftForwarding P key fw) := by
  intro st h
  refine honest_inOrder (fun f hf => ?_) st h
  obtain ⟨edge, -, rfl⟩ := List.mem_map.mp hf
  exact honest_liftEdge key fw edge

theorem honest_liftCalleeSinks (fn : FuncKey × FuncFacts) : Honest (liftCalleeSinks P fn) := by
  unfold liftCalleeSinks
  split
  · exact fun st _ => rfl
  · refine honest_inOrder fun f hf => ?_
    obtain ⟨fw, -, rfl⟩ := List.mem_map.mp hf
    exact honest_liftForwarding fn.1 fw

theorem honest_propagationRound (order : List (FuncKey × FuncFacts)) :
    Honest (propagationRound P order) := by
  refine honest_inOrder fun f hf => ?_
  obtain ⟨fn, -, rfl⟩ := List.mem_map.mp hf
  exact honest_liftCalleeSinks fn

def PropState.Extends (st st' : PropState) : Prop := ∀ key, ∀ e ∈ st.sinks key, e ∈ st'.sinks key

theorem mem_addEdge {st : PropState} {key key' : FuncKey} {fw : Forwarding}
    {edge e : ParamSinkEdge} :
    e ∈ (st.addEdge P key fw edge).sinks key' ↔
      e ∈ st.sinks key' ∨ key' = key ∧ e = fw.lifted P key edge := by
  simp only [PropState.addEdge, Function.update_apply]
  split
  next h => subst h; simp
  next h => simp [h]

theorem extends_liftEdge (st : PropState) (key : FuncKey) (fw : Forwarding) (edge : ParamSinkEdge) :
    st.Extends (liftEdge P key fw edge st).1 := by
  intro key' e he
  unfold liftEdge
  split
  · exact mem_addEdge.mpr (.inl he)
  · exact he

structure PropState.Valid (P : Project) (st : PropState) : Prop where
  own : ∀ key, ∀ e ∈ P.ownSinks key, e ∈ st.sinks key
  edge : ∀ n k, st.hasEdge n k → ∃ s, ReachesSink P n s ∧ s.key = k
  origin : ∀ n k, st.hasEdge n k →
    ∃ s, ReachesSink P n s ∧ (s.name, s.line) = k.2 ∧ s.file = st.originFile P n k.2

theorem valid_initialState (P : Project) : (initialState P).Valid P where
  own := fun _ _ he => he
  edge := by
    rintro n k ⟨e, he, hidx, rfl⟩
    exact ⟨⟨P.filePath n.1, e.lineno, e.sinkName, e.sinkCwe⟩, .own ⟨e, he, hidx, rfl, rfl⟩, rfl⟩
  origin := by
    rintro n k ⟨e, he, hidx, rfl⟩
    exact ⟨⟨P.filePath n.1, e.lineno, e.sinkName, e.sinkCwe⟩, .own ⟨e, he, hidx, rfl, rfl⟩, rfl, rfl⟩

theorem hasEdge_addEdge {st : PropState} {key : FuncKey} {fw : Forwarding} {edge : ParamSinkEdge}
    {n : ParamNode} {k : SinkKey} :
    (st.addEdge P key fw edge).hasEdge n k ↔
      st.hasEdge n k ∨ n = (key, fw.param) ∧ k = edge.key := by
  simp only [PropState.hasEdge, mem_addEdge]
  constructor
  · rintro ⟨e, he | ⟨hkey, rfl⟩, hidx, hk⟩
    · exact .inl ⟨e, he, hidx, hk⟩
    · exact .inr ⟨Prod.ext hkey hidx.symm, hk.symm⟩
  · rintro (⟨e, he, hidx, hk⟩ | ⟨rfl, rfl⟩)
    · exact ⟨e, .inl he, hidx, hk⟩
    · exact ⟨_, .inr ⟨rfl, rfl⟩, rfl, rfl⟩

theorem originFile_addEdge (st : PropState) (key : FuncKey) (fw : Forwarding) (edge : ParamSinkEdge)
    (n : ParamNode) (slot : String × ℕ) :
    (st.addEdge P key fw edge).originFile P n slot =
      if n = (key, fw.param) ∧ slot = edge.key.2 then
        st.originFile P (fw.callee, edge.paramIdx) edge.key.2
      else st.originFile P n slot := by
  obtain ⟨g, i⟩ := n
  obtain ⟨name, line⟩ := slot
  simp only [PropState.originFile, PropState.addEdge, Function.update_apply, ParamSinkEdge.key,
    Prod.mk.injEq, and_assoc]
  split <;> rfl

theorem valid_addEdge {st : PropState} (h : st.Valid P) {key : FuncKey} {fw : Forwarding}
    {edge : ParamSinkEdge} (hfwd : ForwardsTo P (key, fw.param) (fw.callee, edge.paramIdx))
    (hedge : edge ∈ st.sinks fw.callee) : (st.addEdge P key fw edge).Valid P := by
  have hcallee : st.hasEdge (fw.callee, edge.paramIdx) edge.key := ⟨edge, hedge, rfl, rfl⟩
  refine ⟨fun g e he => mem_addEdge.mpr (.inl (h.own g e he)), ?_, ?_⟩
  · intro n k hn
    rcases hasEdge_addEdge.mp hn with hn | ⟨rfl, rfl⟩
    · exact h.edge n k hn
    · obtain ⟨s, hs, hk⟩ := h.edge _ _ hcallee
      exact ⟨s, .forward hfwd hs, hk⟩
  · intro n k hn
    rw [originFile_addEdge]
    split
    next hslot =>
      obtain ⟨rfl, hslot⟩ := hslot
      obtain ⟨s, hs, hk, hfile⟩ := h.origin _ _ hcallee
      exact ⟨s, .forward hfwd hs, hk.trans hslot.symm, hfile⟩
    next hslot =>
      rcases hasEdge_addEdge.mp hn with hn | ⟨rfl, rfl⟩
      · exact h.origin n k hn
      · exact absurd ⟨rfl, rfl⟩ hslot

theorem valid_liftEdge {st : PropState} (h : st.Valid P) {key : FuncKey} {func : FuncFacts}
    (hfunc : P.funcFacts key = some func) {fw : Forwarding} (hfw : fw ∈ forwardings P key func)
    {edge : ParamSinkEdge} (hedge : edge ∈ st.sinks fw.callee) :
    (liftEdge P key fw edge st).1.Valid P := by
  unfold liftEdge
  split
  next hc => exact valid_addEdge h ⟨func, hfunc, fw, hfw, rfl, rfl, hc.1.symm⟩ hedge
  next => exact h

/-! ## Termination -/

def Project.sinkKeys (P : Project) : List SinkKey :=
  P.contracts.items.flatMap fun c => c.2.paramSinks.map ParamSinkEdge.key

theorem key_mem_sinkKeys {n : ParamNode} {s : Sink} (h : ReachesSink P n s) :
    s.key ∈ P.sinkKeys := by
  refine Reaches.least (F := fun _ s => s.key ∈ P.sinkKeys) (fun n s hown => ?_)
    (fun _ _ _ _ hm => hm) h
  obtain ⟨e, he, -, hk, -⟩ := hown
  unfold Project.ownSinks at he
  cases hc : P.contracts.lookup n.1 with
  | none => rw [hc] at he; exact absurd he List.not_mem_nil
  | some c =>
    rw [hc] at he
    exact List.mem_flatMap.mpr ⟨(n.1, c), DictOf.mem_items_iff.mpr hc, List.mem_map.mpr ⟨e, he, hk⟩⟩

def Project.liftable (P : Project) : Finset (ParamNode × SinkKey) :=
  ((P.functions.map Prod.fst).toFinset ×ˢ
    Finset.range ((P.functions.map fun fn => (P.params fn.1).length).sum)) ×ˢ P.sinkKeys.toFinset

open Classical in
noncomputable def PropState.missing (P : Project) (st : PropState) : ℕ :=
  (P.liftable.filter fun t => ¬st.hasEdge t.1 t.2).card

theorem mem_liftable {key : FuncKey} {func : FuncFacts} (hfunc : P.funcFacts key = some func)
    {fw : Forwarding} (hfw : fw ∈ forwardings P key func) {k : SinkKey} (hk : k ∈ P.sinkKeys) :
    ((key, fw.param), k) ∈ P.liftable := by
  have hmem : (key, func) ∈ P.functions := mem_functions_iff.mpr hfunc
  have hle : (P.params key).length ≤ (P.functions.map fun fn => (P.params fn.1).length).sum :=
    List.single_le_sum (fun _ _ => Nat.zero_le _) _ (List.mem_map.mpr ⟨_, hmem, rfl⟩)
  simp only [Project.liftable, Finset.mem_product, List.mem_toFinset, Finset.mem_range]
  exact ⟨⟨List.mem_map.mpr ⟨_, hmem, rfl⟩, (param_lt_of_mem_forwardings hfw).trans_le hle⟩, hk⟩

theorem missing_liftEdge {st : PropState} (h : st.Valid P) {key : FuncKey} {func : FuncFacts}
    (hfunc : P.funcFacts key = some func) {fw : Forwarding} (hfw : fw ∈ forwardings P key func)
    {edge : ParamSinkEdge} (hedge : edge ∈ st.sinks fw.callee) :
    (liftEdge P key fw edge st).1.missing P ≤ st.missing P ∧
      ((liftEdge P key fw edge st).2 = true →
        (liftEdge P key fw edge st).1.missing P < st.missing P) := by
  classical
  unfold liftEdge
  split
  next hc =>
    suffices hlt : (st.addEdge P key fw edge).missing P < st.missing P from
      ⟨hlt.le, fun _ => hlt⟩
    have hnew : ¬st.hasEdge (key, fw.param) edge.key := by
      intro hn
      have hknown := knownEdge_iff.mpr hn
      rw [hc.2] at hknown
      exact absurd hknown (by decide)
    obtain ⟨s, hs, hk⟩ := h.edge (fw.callee, edge.paramIdx) edge.key ⟨edge, hedge, rfl, rfl⟩
    have hin : ((key, fw.param), edge.key) ∈ P.liftable :=
      mem_liftable hfunc hfw (hk ▸ key_mem_sinkKeys hs)
    refine Finset.card_lt_card ((Finset.ssubset_iff_of_subset ?_).mpr
      ⟨((key, fw.param), edge.key), Finset.mem_filter.mpr ⟨hin, hnew⟩, ?_⟩)
    · intro t ht
      simp only [Finset.mem_filter, hasEdge_addEdge, not_or] at ht ⊢
      exact ⟨ht.1, ht.2.1⟩
    · simp [hasEdge_addEdge]
  next => exact ⟨le_rfl, fun h => absurd h (by simp)⟩

theorem liftForwarding_spec {key : FuncKey} {func : FuncFacts} (hfunc : P.funcFacts key = some func)
    {fw : Forwarding} (hfw : fw ∈ forwardings P key func) :
    Preserves (PropState.Valid P) (liftForwarding P key fw) ∧
      Lowers (PropState.Valid P) (PropState.missing P) (liftForwarding P key fw) := by
  have hsteps : ∀ st : PropState,
      let I := fun st' : PropState => st'.Valid P ∧ ∀ e ∈ st.sinks fw.callee, e ∈ st'.sinks fw.callee
      (∀ f ∈ (st.sinks fw.callee).map (liftEdge P key fw), Preserves I f) ∧
        ∀ f ∈ (st.sinks fw.callee).map (liftEdge P key fw), Lowers I (PropState.missing P) f := by
    intro st I
    constructor
    · intro f hf st' hst'
      obtain ⟨edge, hedge, rfl⟩ := List.mem_map.mp hf
      refine ⟨valid_liftEdge hst'.1 hfunc hfw (hst'.2 edge hedge), fun e he => ?_⟩
      exact extends_liftEdge st' key fw edge _ e (hst'.2 e he)
    · intro f hf st' hst'
      obtain ⟨edge, hedge, rfl⟩ := List.mem_map.mp hf
      exact missing_liftEdge hst'.1 hfunc hfw (hst'.2 edge hedge)
  constructor
  · intro st hst
    exact (preserves_inOrder (hsteps st).1 st ⟨hst, fun _ he => he⟩).1
  · intro st hst
    exact lowers_inOrder (hsteps st).1 (hsteps st).2 st ⟨hst, fun _ he => he⟩

theorem liftCalleeSinks_spec {fn : FuncKey × FuncFacts} (hfn : fn ∈ P.functions) :
    Preserves (PropState.Valid P) (liftCalleeSinks P fn) ∧
      Lowers (PropState.Valid P) (PropState.missing P) (liftCalleeSinks P fn) := by
  have hfunc := mem_functions_iff.mp hfn
  unfold liftCalleeSinks
  split
  · exact ⟨fun st hst => hst, fun st _ => ⟨le_rfl, fun h => absurd h (by simp)⟩⟩
  · have hpres : ∀ f ∈ (forwardings P fn.1 fn.2).map (liftForwarding P fn.1),
        Preserves (PropState.Valid P) f := by
      intro f hf
      obtain ⟨fw, hfw, rfl⟩ := List.mem_map.mp hf
      exact (liftForwarding_spec hfunc hfw).1
    refine ⟨preserves_inOrder hpres, lowers_inOrder hpres fun f hf => ?_⟩
    obtain ⟨fw, hfw, rfl⟩ := List.mem_map.mp hf
    exact (liftForwarding_spec hfunc hfw).2

theorem propagationRound_spec (horder : ∀ fn ∈ order, fn ∈ P.functions) :
    Preserves (PropState.Valid P) (propagationRound P order) ∧
      Lowers (PropState.Valid P) (PropState.missing P) (propagationRound P order) := by
  have hpres : ∀ f ∈ order.map (liftCalleeSinks P), Preserves (PropState.Valid P) f := by
    intro f hf
    obtain ⟨fn, hfn, rfl⟩ := List.mem_map.mp hf
    exact (liftCalleeSinks_spec (horder fn hfn)).1
  refine ⟨preserves_inOrder hpres, lowers_inOrder hpres fun f hf => ?_⟩
  obtain ⟨fn, hfn, rfl⟩ := List.mem_map.mp hf
  exact (liftCalleeSinks_spec (horder fn hfn)).2

theorem propagation_terminates (horder : ∀ fn ∈ order, fn ∈ P.functions) :
    ∃ st, PropagatesTo P order st :=
  exists_loop (propagationRound_spec horder).1 (propagationRound_spec horder).2
    (valid_initialState P)

theorem valid_of_propagatesTo (horder : ∀ fn ∈ order, fn ∈ P.functions) {st : PropState}
    (h : PropagatesTo P order st) : st.Valid P :=
  h.preserves (propagationRound_spec horder).1 (valid_initialState P)

theorem closed_of_propagatesTo (horder : order.Perm P.functions) {st : PropState}
    (h : PropagatesTo P order st) {n m : ParamNode} (hfwd : ForwardsTo P n m) {k : SinkKey}
    (hm : st.hasEdge m k) : st.hasEdge n k := by
  obtain ⟨func, hfunc, fw, hfw, hparam, hcallee, hslot⟩ := hfwd
  obtain ⟨edge, hedge, hidx, rfl⟩ := hm
  have hquiet := h.quiet (honest_propagationRound order)
  have hfn : (liftCalleeSinks P (n.1, func) st).2 = false := by
    refine quiet_of_mem (fun f hf => ?_) hquiet (List.mem_map.mpr ⟨(n.1, func), ?_, rfl⟩)
    · obtain ⟨fn, -, rfl⟩ := List.mem_map.mp hf
      exact honest_liftCalleeSinks fn
    · exact horder.mem_iff.mpr (mem_functions_iff.mpr hfunc)
  have hparams : P.params n.1 ≠ [] := by
    intro hnil
    have hlt := param_lt_of_mem_forwardings hfw
    rw [hnil] at hlt
    exact absurd hlt (by simp)
  rw [liftCalleeSinks, if_neg hparams] at hfn
  have hlift : (liftForwarding P n.1 fw st).2 = false := by
    refine quiet_of_mem (fun f hf => ?_) hfn (List.mem_map.mpr ⟨fw, hfw, rfl⟩)
    obtain ⟨fw', -, rfl⟩ := List.mem_map.mp hf
    exact honest_liftForwarding n.1 fw'
  have hone : (liftEdge P n.1 fw edge st).2 = false := by
    refine quiet_of_mem (fun f hf => ?_) hlift (List.mem_map.mpr ⟨edge, ?_, rfl⟩)
    · obtain ⟨e, -, rfl⟩ := List.mem_map.mp hf
      exact honest_liftEdge n.1 fw e
    · rwa [hcallee]
  unfold liftEdge at hone
  split at hone
  · exact absurd hone (by simp)
  next hc =>
    have hknown : knownEdge (st.sinks n.1) fw.param edge = true := by
      by_contra hnot
      exact hc ⟨hidx.trans hslot.symm, Bool.eq_false_iff.mpr hnot⟩
    rw [hparam] at hknown
    exact knownEdge_iff.mp hknown

theorem covers_of_propagatesTo (horder : order.Perm P.functions) {st : PropState}
    (h : PropagatesTo P order st) :
    Covers Sink.key Prod.snd Sink.file (ReachesSink P) st.hasEdge (st.originFile P) where
  complete n s hs := by
    refine Reaches.least (F := fun n s => st.hasEdge n s.key) (fun n s hown => ?_)
      (fun _ _ _ hfwd hm => closed_of_propagatesTo horder h hfwd hm) hs
    obtain ⟨e, he, hidx, hk, -⟩ := hown
    exact ⟨e, (valid_of_propagatesTo (fun _ => horder.mem_iff.mp) h).own n.1 e he, hidx, hk⟩
  sound := (valid_of_propagatesTo (fun _ => horder.mem_iff.mp) h).edge
  valued := (valid_of_propagatesTo (fun _ => horder.mem_iff.mp) h).origin

/-- No parameter reaches two sinks of one name and line in different files. -/
def Project.NoFileClash (P : Project) : Prop :=
  ∀ n s s', ReachesSink P n s → ReachesSink P n s' → s.name = s'.name → s.line = s'.line →
    s.file = s'.file

/-- The propagation ends, and the sinks shown for each parameter are those that reach it. -/
def PropagatesExactly (P : Project) (order : List (FuncKey × FuncFacts)) : Prop :=
  ∃ st, PropagatesTo P order st ∧ ∀ n s, st.ShowsSink P n s ↔ ReachesSink P n s

theorem noFileClash_iff_determined :
    P.NoFileClash ↔ Determined Sink.key Prod.snd Sink.file (ReachesSink P) := by
  unfold Project.NoFileClash Determined
  refine forall_congr' fun n => forall_congr' fun s => forall_congr' fun s' => ?_
  simp only [Sink.key, Prod.mk.injEq, and_imp]

theorem propagatesExactly_of_noFileClash (horder : order.Perm P.functions) (h : P.NoFileClash) :
    PropagatesExactly P order := by
  obtain ⟨st, hst⟩ := propagation_terminates (fun _ => horder.mem_iff.mp)
  refine ⟨st, hst, fun n s => ?_⟩
  refine shows_iff_of_determined (covers_of_propagatesTo horder hst) ?_
    (noFileClash_iff_determined.mp h) n s
  rintro ⟨file, line, name, cwe⟩ ⟨file', line', name', cwe'⟩ hk hfile
  simp only [Sink.key, Prod.mk.injEq] at hk hfile
  obtain ⟨rfl, rfl, rfl⟩ := hk
  rw [hfile]

theorem noFileClash_of_propagatesExactly (h : PropagatesExactly P order) : P.NoFileClash := by
  obtain ⟨st, -, hst⟩ := h
  exact noFileClash_iff_determined.mpr (determined_of_shows fun n s hs => (hst n s).mpr hs)

/-- In whatever order the rows are visited, the result is the forwarding closure, unless some parameter
reaches sinks of one name and line in two files. -/
theorem propagatesExactly_iff_noFileClash (P : Project) :
    (∀ order, order.Perm P.functions → PropagatesExactly P order) ↔ P.NoFileClash :=
  ⟨fun h => noFileClash_of_propagatesExactly (h _ (.refl _)),
    fun h _ horder => propagatesExactly_of_noFileClash horder h⟩

/-! ## Two repositories of one shape

`orders.py` and `users.py` both define a query helper with `cursor.execute(q)` on line 2, and
`report.py` hands its parameter to both.
-/

def queryHelper (file : String) : FunctionSummary :=
  { filePath := file, params := ["q"],
    paramSinks := [⟨0, "q", "CWE-89", "execute", 2⟩] }

def queryModule (file name : String) : ModuleIndex :=
  { filePath := file, definitions := (∅ : Dict SymbolDefinition).insert name ⟨name, .function, file⟩ }

def executeSite : ℕ × CallShape :=
  (2, { fkind := .attr, fname := "execute", rkind := .name, rname := "cursor", argn := [some "q"] })

def queryRow (name : String) : ModuleFacts :=
  { funcs := (∅ : Dict FuncFacts).insert name { calls := [executeSite] } }

def twoQueries : Project where
  index :=
    { modules := ((∅ : Dict ModuleIndex).insert "orders" (queryModule "orders.py" "find_order")).insert
          "users" (queryModule "users.py" "find_user") |>.insert "report"
          { filePath := "report.py"
            definitions := (∅ : Dict SymbolDefinition).insert "both" ⟨"both", .function, "report.py"⟩
            imports := ((∅ : Dict ImportBinding).insert "find_order" ⟨"orders", "find_order"⟩).insert
              "find_user" ⟨"users", "find_user"⟩ }
      fileToModule := fun path =>
        if path = "orders.py" then some "orders" else if path = "users.py" then some "users"
        else if path = "report.py" then some "report" else none }
  facts := ((∅ : Dict ModuleFacts).insert "orders" (queryRow "find_order")).insert "users"
      (queryRow "find_user") |>.insert "report"
      { funcs := (∅ : Dict FuncFacts).insert "both"
          { calls := [(6, { fkind := .name, fname := "find_order", argn := [some "x"] }),
              (7, { fkind := .name, fname := "find_user", argn := [some "x"] })] } }
  contracts := ((∅ : DictOf FuncKey FunctionSummary).insert ("orders", "find_order")
      (queryHelper "orders.py")).insert ("users", "find_user") (queryHelper "users.py") |>.insert
      ("report", "both") { filePath := "report.py", params := ["x"] }
  contracted := contracted_of_items (by decide)

theorem twoQueries_reaches (key : FuncKey) (file : String) (line : ℕ)
    (hown : ⟨0, "q", "CWE-89", "execute", 2⟩ ∈ twoQueries.ownSinks key)
    (hfile : twoQueries.filePath key = file)
    (hcall : ⟨line, key, 0, 0⟩ ∈ ((twoQueries.funcFacts ("report", "both")).map
      (forwardings twoQueries ("report", "both"))).getD []) :
    ReachesSink twoQueries (("report", "both"), 0) ⟨file, 2, "execute", "CWE-89"⟩ := by
  have hfunc : ∃ func, twoQueries.funcFacts ("report", "both") = some func := by
    rw [← Option.isSome_iff_exists]
    decide
  obtain ⟨func, hfunc⟩ := hfunc
  rw [hfunc] at hcall
  subst hfile
  have hfwd : ForwardsTo twoQueries (("report", "both"), 0) (key, 0) :=
    ⟨func, hfunc, _, hcall, rfl, rfl, rfl⟩
  exact .forward hfwd (.own ⟨_, hown, rfl, rfl, rfl⟩)

theorem propagatesExactly_fails_on_one_line :
    ¬∀ order, order.Perm twoQueries.functions → PropagatesExactly twoQueries order := by
  intro h
  have hclash := noFileClash_of_propagatesExactly (h _ (.refl _))
  have horders := twoQueries_reaches ("orders", "find_order") "orders.py" 6 (by decide) (by decide)
    (by decide)
  have husers := twoQueries_reaches ("users", "find_user") "users.py" 7 (by decide) (by decide)
    (by decide)
  exact absurd (hclash _ _ _ horders husers rfl rfl) (by decide)

end TimeCodeSecurity.CrossFile
