import TimeCodeSecurity.Scanner.CrossScopeTriage

/-! # Folding comes to an end

Every name that is followed through a record puts a new pair of scope and name among the visited ones,
and only the pairs of the table's scopes and names can be followed. So a fuel above the number of these
pairs is enough, whatever the expression.
-/
namespace TimeCodeSecurity.Scanner
open Py
set_option autoImplicit false

/-- How many members of `U` are not visited. -/
def remaining (U visited : List String) : ℕ := U.countP (· ∉ visited)

theorem remaining_le {U visited visited' : List String} (h : visited ⊆ visited') :
    remaining U visited' ≤ remaining U visited := by
  apply List.countP_mono_left
  intro x _ hx
  simp only [decide_eq_true_eq] at hx ⊢
  exact fun hv => hx (h hv)

theorem remaining_cons_lt {U visited : List String} {key : String} (hU : key ∈ U)
    (hkey : key ∉ visited) : remaining U (key :: visited) < remaining U visited := by
  induction U with
  | nil => exact absurd hU List.not_mem_nil
  | cons x U ih =>
    have hmono := remaining_le (U := U) (List.subset_cons_self key visited)
    simp only [remaining, List.countP_cons] at ih hmono ⊢
    by_cases hx : x = key
    · subst hx
      simp only [List.mem_cons_self, not_true_eq_false, decide_false, hkey, not_false_eq_true,
        decide_true, if_true]
      simp only [Bool.false_eq_true, if_false]
      omega
    · have htail : key ∈ U := (List.mem_cons.mp hU).resolve_left fun h => hx h.symm
      have hlt := ih htail
      have hsame : (x ∉ key :: visited) ↔ x ∉ visited := by simp [hx]
      simp only [hsame]
      omega

section
variable (certain : Bool)

mutual

def asked : Expr → List String
  | .name _ id _ => [id]
  | .unaryOp _ _ operand => asked operand
  | .binOp _ left _ right => asked left ++ asked right
  | .joinedStr _ values => (askedEach values).flatten
  | .subscript _ base index _ => askedDisplay base ++ asked index
  | .call _ (.attr _ receiver name _) (arg :: rest) _ =>
    if name ∈ dictMethods then
      askedDisplay receiver ++ (if certain && !rest.isEmpty then [] else asked arg) ++
        if certain then [] else (askedEach rest).flatten
    else []
  | _ => []

def askedEach : List Expr → List (List String)
  | [] => []
  | e :: es => asked e :: askedEach es

def askedKeys : List (Option Expr) → List (List String)
  | [] => []
  | none :: es => [] :: askedKeys es
  | some e :: es => asked e :: askedKeys es

def askedDisplay : Expr → List String
  | .dict _ keys values =>
    if certain && keys.length ≠ values.length then []
    else (askedKeys keys).flatten ++ (askedEach values).flatten
  | .list _ elts _ => (askedEach elts).flatten
  | .tuple _ elts _ => (askedEach elts).flatten
  | _ => []

end

end

/-! ## Properties of actions -/

/-- An action that is put together from actions with the property has it. -/
structure Compositional (Q : {α : Type} → FoldM α → Prop) : Prop where
  pure {α : Type} (a : α) : Q (Pure.pure a : FoldM α)
  bind {α β : Type} {m : FoldM α} {f : α → FoldM β} : Q m → (∀ a, Q (f a)) → Q (m >>= f)

section
variable {Q : {α : Type} → FoldM α → Prop}

theorem Compositional.joined (hQ : Compositional Q) {parts : List (FoldM (Option Value))} (h : ∀ part ∈ parts, Q part) :
    Q (joinFolded parts) := by
  induction parts with
  | nil => exact hQ.pure _
  | cons part parts ih =>
    refine hQ.bind (h part List.mem_cons_self) fun v => ?_
    have hrest := ih fun p hp => h p (List.mem_cons_of_mem part hp)
    match v with
    | some (.str s) => exact hQ.bind hrest fun _ => hQ.pure _
    | none | some .none | some (.bool _) | some (.int _) | some (.float _) | some (.bytes _)
    | some .ellipsis | some (.object _) => exact hQ.pure _

theorem Compositional.members (hQ : Compositional Q) {members : List (Option (FoldM (Option Value)))}
    (h : ∀ m, some m ∈ members → Q m) : Q (membersFolded members) := by
  induction members with
  | nil => exact hQ.pure _
  | cons member members ih =>
    cases member with
    | none => exact hQ.pure _
    | some m =>
      refine hQ.bind (h m List.mem_cons_self) fun v => ?_
      have hrest := ih fun p hp => h p (List.mem_cons_of_mem _ hp)
      cases v with
      | none => exact hQ.pure _
      | some v => exact hQ.bind hrest fun _ => hQ.pure _

theorem Compositional.items (hQ : Compositional Q) {keys : List (Option (FoldM (Option Value)))}
    {values : List (FoldM (Option Value))} (hk : ∀ m, some m ∈ keys → Q m)
    (hv : ∀ m ∈ values, Q m) : Q (itemsFolded keys values) := by
  induction keys generalizing values with
  | nil => exact hQ.pure _
  | cons key keys ih =>
    match key, values with
    | none, [] | none, _ :: _ | some _, [] => exact hQ.pure _
    | some key, value :: values =>
      refine hQ.bind (hk key List.mem_cons_self) fun k => ?_
      refine hQ.bind (hv value List.mem_cons_self) fun v => ?_
      have hrest := ih (fun m hm => hk m (List.mem_cons_of_mem _ hm))
        fun m hm => hv m (List.mem_cons_of_mem _ hm)
      match k, v with
      | some k, some v => exact hQ.bind hrest fun _ => hQ.pure _
      | none, _ | some _, none => exact hQ.pure _

section
variable {addFloat : ℚ → ℚ → ℚ} {F : Folder FoldM}

mutual

theorem Compositional.expr (hQ : Compositional Q) (hF : Q F.other) :
    ∀ e, (∀ id ∈ asked false e, Q (F.name id)) → Q (foldExpr addFloat F e)
  | .constant .., _ | .formattedValue .., _ => hQ.pure _
  | .unaryOp _ _ operand, h => hQ.bind (hQ.expr hF operand h) fun _ => hQ.pure _
  | .joinedStr _ values, h =>
    hQ.bind (hQ.joined (hQ.each hF values h)) fun _ => hQ.pure _
  | .binOp _ left _ right, h =>
    hQ.bind (hQ.expr hF left fun id hid => h id (List.mem_append_left _ hid)) fun _ =>
      hQ.bind (hQ.expr hF right fun id hid => h id (List.mem_append_right _ hid)) fun _ => hQ.pure _
  | .name _ id _, h => h id List.mem_cons_self
  | .subscript _ base index _, h => by
    have hbase := hQ.display hF base fun id hid => h id (List.mem_append_left _ hid)
    have hindex := hQ.expr hF index fun id hid => h id (List.mem_append_right _ hid)
    refine hQ.bind hbase fun c => ?_
    cases c with
    | none => exact hQ.pure _
    | some c => exact hQ.bind hindex fun _ => hQ.pure _
  | .call _ (.attr _ receiver name _) (arg :: rest) _, h => by
    rw [foldExpr]
    split
    · rename_i hname
      simp only [asked, hname, if_true, Bool.false_and, Bool.false_eq_true, if_false, List.mem_append] at h
      have hreceiver := hQ.display hF receiver fun id hid => h id (.inl (.inl hid))
      have harg := hQ.expr hF arg fun id hid => h id (.inl (.inr hid))
      have hrest := hQ.each hF rest fun id hid => h id (.inr hid)
      refine hQ.bind hreceiver fun c => ?_
      match c with
      | none | some (.seq _) => exact hQ.pure _
      | some (.dict items) =>
        refine hQ.bind harg fun key => ?_
        cases readLiteralMember (.dict items) key with
        | some v => exact hQ.pure _
        | none =>
          cases hdefaults : foldEach addFloat F rest with
          | nil => exact hQ.pure _
          | cons d ds => exact hrest d (hdefaults ▸ List.mem_cons_self)
    · exact hF
  | .call _ (.attr ..) [] _, _ => hF
  | .call _ (.boolOp ..) _ _, _ | .call _ (.namedExpr ..) _ _, _ | .call _ (.lambda ..) _ _, _
  | .call _ (.ifExp ..) _ _, _ | .call _ (.dict ..) _ _, _ | .call _ (.set ..) _ _, _
  | .call _ (.listComp ..) _ _, _ | .call _ (.setComp ..) _ _, _ | .call _ (.dictComp ..) _ _, _
  | .call _ (.generatorExp ..) _ _, _ | .call _ (.await ..) _ _, _ | .call _ (.yield ..) _ _, _
  | .call _ (.yieldFrom ..) _ _, _ | .call _ (.compare ..) _ _, _ | .call _ (.call ..) _ _, _
  | .call _ (.starred ..) _ _, _ | .call _ (.list ..) _ _, _ | .call _ (.tuple ..) _ _, _
  | .call _ (.slice ..) _ _, _ | .call _ (.constant ..) _ _, _ | .call _ (.formattedValue ..) _ _, _
  | .call _ (.unaryOp ..) _ _, _ | .call _ (.joinedStr ..) _ _, _ | .call _ (.binOp ..) _ _, _
  | .call _ (.name ..) _ _, _ | .call _ (.subscript ..) _ _, _ => hF
  | .boolOp .., _ | .namedExpr .., _ | .lambda .., _ | .ifExp .., _ | .dict .., _ | .set .., _
  | .listComp .., _ | .setComp .., _ | .dictComp .., _ | .generatorExp .., _ | .await .., _ | .yield .., _
  | .yieldFrom .., _ | .compare .., _ | .attr .., _ | .starred .., _ | .list .., _ | .tuple .., _
  | .slice .., _ => hF

theorem Compositional.each (hQ : Compositional Q) (hF : Q F.other) :
    ∀ es, (∀ id ∈ (askedEach false es).flatten, Q (F.name id)) →
      ∀ m ∈ foldEach addFloat F es, Q m
  | [], _, _, hm => absurd hm List.not_mem_nil
  | e :: es, h, m, hm => by
    rw [askedEach, List.flatten_cons] at h
    rcases List.mem_cons.mp hm with rfl | hm
    · exact hQ.expr hF e fun id hid => h id (List.mem_append_left _ hid)
    · exact hQ.each hF es (fun id hid => h id (List.mem_append_right _ hid)) m hm

theorem Compositional.eachMember (hQ : Compositional Q) (hF : Q F.other) :
    ∀ es, (∀ id ∈ (askedEach false es).flatten, Q (F.name id)) →
      ∀ m, some m ∈ foldEachMember addFloat F es → Q m
  | [], _, _, hm => absurd hm List.not_mem_nil
  | e :: es, h, m, hm => by
    rw [askedEach, List.flatten_cons] at h
    rcases List.mem_cons.mp hm with heq | hm
    · split at heq
      · cases heq
      · rw [Option.some.inj heq]
        exact hQ.expr hF e fun id hid => h id (List.mem_append_left _ hid)
    · exact hQ.eachMember hF es (fun id hid => h id (List.mem_append_right _ hid)) m hm

theorem Compositional.eachKey (hQ : Compositional Q) (hF : Q F.other) :
    ∀ es, (∀ id ∈ (askedKeys false es).flatten, Q (F.name id)) →
      ∀ m, some m ∈ foldEachKey addFloat F es → Q m
  | [], _, _, hm => absurd hm List.not_mem_nil
  | none :: es, h, m, hm => by
    rcases List.mem_cons.mp hm with heq | hm
    · cases heq
    · exact hQ.eachKey hF es h m hm
  | some e :: es, h, m, hm => by
    rw [askedKeys, List.flatten_cons] at h
    rcases List.mem_cons.mp hm with heq | hm
    · rw [Option.some.inj heq]
      exact hQ.expr hF e fun id hid => h id (List.mem_append_left _ hid)
    · exact hQ.eachKey hF es (fun id hid => h id (List.mem_append_right _ hid)) m hm

theorem Compositional.display (hQ : Compositional Q) (hF : Q F.other) :
    ∀ e, (∀ id ∈ askedDisplay false e, Q (F.name id)) → Q (foldContainer addFloat F e)
  | .dict _ keys values, h => by
    simp only [askedDisplay, Bool.false_and, Bool.false_eq_true, if_false] at h
    exact hQ.bind (hQ.items
      (hQ.eachKey hF keys fun id hid => h id (List.mem_append_left _ hid))
      (hQ.each hF values fun id hid => h id (List.mem_append_right _ hid))) fun _ => hQ.pure _
  | .list _ elts _, h | .tuple _ elts _, h =>
    hQ.bind (hQ.members (hQ.eachMember hF elts h)) fun _ => hQ.pure _
  | .boolOp .., _ | .namedExpr .., _ | .lambda .., _ | .ifExp .., _ | .set .., _ | .listComp .., _
  | .setComp .., _ | .dictComp .., _ | .generatorExp .., _ | .await .., _ | .yield .., _ | .yieldFrom .., _
  | .compare .., _ | .attr .., _ | .starred .., _ | .slice .., _ | .constant .., _ | .formattedValue .., _
  | .unaryOp .., _ | .joinedStr .., _ | .binOp .., _ | .name .., _ | .subscript .., _ | .call .., _ => hQ.pure _

end

end

end

/-- With at most `n` members of `U` left, the action has a result and forgets no visited name. -/
def Settles {α : Type} (U : List String) (n : ℕ) (m : FoldM α) : Prop :=
  ∀ visited, remaining U visited ≤ n → ∃ a visited', m.run visited = some (a, visited') ∧
    visited ⊆ visited'

namespace Settles

variable {α β : Type} {U : List String} {n : ℕ}

theorem pure (a : α) : Settles U n (Pure.pure a : FoldM α) := by
  intro visited _
  exact ⟨a, visited, rfl, List.Subset.refl visited⟩

theorem bind {m : FoldM α} {f : α → FoldM β} (hm : Settles U n m) (hf : ∀ a, Settles U n (f a)) :
    Settles U n (m >>= f) := by
  intro visited hn
  obtain ⟨a, visited', hrun, hsub⟩ := hm visited hn
  obtain ⟨b, visited'', hrun', hsub'⟩ := hf a visited' ((remaining_le hsub).trans hn)
  refine ⟨b, visited'', ?_, List.Subset.trans hsub hsub'⟩
  rw [StateT.run_bind, hrun]
  exact hrun'

end Settles

structure Folder.Settles (U : List String) (n : ℕ) (F : Folder FoldM) : Prop where
  name : ∀ id, Scanner.Settles U n (F.name id)
  other : Scanner.Settles U n F.other

theorem compositional_settles (U : List String) (n : ℕ) : Compositional (Settles U n) :=
  ⟨Settles.pure, Settles.bind⟩

theorem settles_foldExpr {U : List String} {n : ℕ} {addFloat : ℚ → ℚ → ℚ} {F : Folder FoldM} (hF : F.Settles U n)
    (e : Expr) : Settles U n (foldExpr addFloat F e) :=
  (compositional_settles U n).expr hF.other e fun id _ => hF.name id

/-! ## Names that are followed -/

theorem Tracker.mem_of_chainRecord {T : Tracker} {scope id : String} {line : ℕ} {r : AssignmentRecord}
    (h : T.chainRecord scope id line = some r) : r ∈ T.assignments ∧ r.targetName = id := by
  obtain ⟨s, -, hs⟩ := List.exists_of_findSome?_eq_some h
  have hmem := List.mem_of_mem_filter (List.mem_of_getLast? hs)
  rw [Tracker.records, List.mem_filter] at hmem
  simp only [Bool.and_eq_true, decide_eq_true_eq] at hmem
  exact ⟨hmem.1, hmem.2.2⟩

theorem Tracker.mem_of_lastRecords {T : Tracker} {id : String} {line : ℕ} {r : AssignmentRecord}
    (h : r ∈ T.lastRecords id line) : r ∈ T.assignments ∧ r.targetName = id := by
  obtain ⟨s, -, hs⟩ := List.mem_filterMap.mp h
  have hmem := List.mem_of_mem_filter (List.mem_of_getLast? hs)
  rw [Tracker.records, List.mem_filter] at hmem
  simp only [Bool.and_eq_true, decide_eq_true_eq] at hmem
  exact ⟨hmem.1, hmem.2.2⟩

def foldedValue (fold : Expr → String → ℕ → FoldM (Option Value)) (visited : List String)
    (r : AssignmentRecord) : Option Value :=
  ((fold r.valueNode r.scopeId r.lineno).run visited).bind (·.1)

/-- The value all members that are values agree on, starting from `first`. -/
def agreeing (first : Option Value) : List (Option Value) → Option Value
  | [] => first
  | none :: vals => agreeing first vals
  | some v :: vals =>
    match first with
    | none => agreeing (some v) vals
    | some w => if v.equal w then agreeing first vals else none

section
variable {fold : Expr → String → ℕ → FoldM (Option Value)} {visited : List String}

theorem run_foldAliases (first : Option Value) {rs : List AssignmentRecord}
    (h : ∀ r ∈ rs, ((fold r.valueNode r.scopeId r.lineno).run visited).isSome) :
    (foldAliases fold first rs).run visited =
      some (agreeing first (rs.map (foldedValue fold visited)), visited) := by
  induction rs generalizing first with
  | nil => rfl
  | cons r rs ih =>
    obtain ⟨⟨val, visited'⟩, hrun⟩ := Option.isSome_iff_exists.mp (h r List.mem_cons_self)
    have hrest := fun first => ih first fun r hr => h r (List.mem_cons_of_mem _ hr)
    have hval : foldedValue fold visited r = val := by
      rw [foldedValue, hrun]
      rfl
    rw [foldAliases, List.map_cons, hval]
    simp only [StateT.run_bind, StateT.run_get, StateT.run_set, hrun, Option.pure_def,
      Option.bind_eq_bind, Option.bind_some]
    match val, first with
    | none, _ => exact hrest _
    | some v, none => exact hrest _
    | some v, some w =>
      simp only [agreeing]
      split
      · exact hrest _
      · rfl

end

section
variable (addFloat : ℚ → ℚ → ℚ) (T : Tracker)

def followKeys (scopes : List String) : List String :=
  scopes.flatMap fun s => T.assignments.map fun r => s ++ ":" ++ r.targetName

theorem mem_followKeys {scopes : List String} {scope : String} {r : AssignmentRecord}
    (hs : scope ∈ scopes) (hr : r ∈ T.assignments) :
    scope ++ ":" ++ r.targetName ∈ followKeys T scopes :=
  List.mem_flatMap.mpr ⟨scope, hs, List.mem_map.mpr ⟨r, hr, rfl⟩⟩

theorem run_foldCrossScope (fold : Expr → String → ℕ → FoldM (Option Value)) (visited : List String)
    (id : String) (line : ℕ) (h : ∀ r ∈ T.lastRecords id line,
      ((fold r.valueNode r.scopeId r.lineno).run visited).isSome) :
    ∃ a, (foldCrossScope addFloat T fold line id).run visited = some (a, visited) := by
  unfold foldCrossScope
  simp only
  split
  · exact ⟨none, rfl⟩
  · unfold Triage.snapshot
    split
    · rename_i hs
      exact ⟨_, rfl⟩
    · rename_i rs hs
      split at hs
      · obtain rfl := Option.some.inj hs
        refine ⟨_, run_foldAliases _ fun r hr => h r ?_⟩
        have hlive := (T.crossScopeTriage_aliases addFloat id line).mem_iff.mp hr
        exact List.mem_of_mem_filter hlive
      · cases hs

theorem settles_foldName {scopes : List String} {n : ℕ}
    {fold : Expr → String → ℕ → FoldM (Option Value)} {scope : String} (hs : scope ∈ scopes)
    (line : ℕ) (id : String) (h : ∀ m < n, ∀ r ∈ T.assignments, Settles (followKeys T scopes) m
      (fold r.valueNode r.scopeId r.lineno)) :
    Settles (followKeys T scopes) n (foldName addFloat T fold scope line id) := by
  intro visited hn
  by_cases hkey : scope ++ ":" ++ id ∈ visited
  · refine ⟨none, visited, ?_, List.Subset.refl _⟩
    simp [foldName, hkey]
  · -- with a record of the name, its key was one of those to go
    have hfold : ∀ r ∈ T.assignments, r.targetName = id → ∃ val visited',
        (fold r.valueNode r.scopeId r.lineno).run ((scope ++ ":" ++ id) :: visited) =
          some (val, visited') ∧ (scope ++ ":" ++ id) :: visited ⊆ visited' := by
      intro r hr hid
      have hmem : scope ++ ":" ++ id ∈ followKeys T scopes := hid ▸ mem_followKeys T hs hr
      exact h _ ((remaining_cons_lt hmem hkey).trans_le hn) r hr _ le_rfl
    cases hchain : T.chainRecord scope id line with
    | some r =>
      have hrun : (foldName addFloat T fold scope line id).run visited =
          (fold r.valueNode r.scopeId r.lineno).run ((scope ++ ":" ++ id) :: visited) := by
        simp [foldName, hkey, hchain]
      rw [hrun]
      obtain ⟨hr, hid⟩ := Tracker.mem_of_chainRecord hchain
      obtain ⟨val, visited', hval, hsub⟩ := hfold r hr hid
      exact ⟨val, visited', hval, List.Subset.trans (List.subset_cons_self _ _) hsub⟩
    | none =>
      have hrun : (foldName addFloat T fold scope line id).run visited =
          (foldCrossScope addFloat T fold line id).run ((scope ++ ":" ++ id) :: visited) := by
        simp [foldName, hkey, hchain]
      rw [hrun]
      obtain ⟨a, ha⟩ := run_foldCrossScope addFloat T fold ((scope ++ ":" ++ id) :: visited) id line
        fun r hr => by
          obtain ⟨hr, hid⟩ := Tracker.mem_of_lastRecords hr
          obtain ⟨val, visited', hval, -⟩ := hfold r hr hid
          rw [hval]
          rfl
      exact ⟨a, _, ha, List.subset_cons_self _ _⟩

theorem settles_evalStaticConstant {scopes : List String} (hscopes : ∀ r ∈ T.assignments, r.scopeId ∈ scopes)
    {fuel n : ℕ} (hn : n < fuel) (e : Expr) {scope : String} (hs : scope ∈ scopes) (line : ℕ) :
    Settles (followKeys T scopes) n (evalStaticConstant addFloat T fuel e scope line) := by
  induction fuel generalizing n e scope line with
  | zero => exact absurd hn (Nat.not_lt_zero n)
  | succ fuel ih =>
    refine settles_foldExpr ⟨fun id => ?_, .pure _⟩ e
    refine settles_foldName addFloat T hs line id fun m hm r hr => ?_
    exact ih (by omega) r.valueNode (hscopes r hr) r.lineno

namespace Tracker

/-- More names than one request can follow from the scopes of the table. -/
def foldFuel : ℕ := T.assignments.length * T.assignments.length + 1

theorem length_followKeys (scopes : List String) :
    (followKeys T scopes).length = scopes.length * T.assignments.length := by
  rw [followKeys, List.length_flatMap]
  simp

theorem evalStaticConstant_isSome {fuel : ℕ} (hfuel : T.foldFuel ≤ fuel) {r : AssignmentRecord}
    (hr : r ∈ T.assignments) (visited : List String) :
    ((evalStaticConstant addFloat T fuel r.valueNode r.scopeId r.lineno).run visited).isSome := by
  have hlength := T.length_followKeys (T.assignments.map (·.scopeId))
  have hremaining : remaining (followKeys T (T.assignments.map (·.scopeId))) visited < fuel := by
    have hcount := List.countP_le_length (p := fun x => decide (x ∉ visited))
      (l := followKeys T (T.assignments.map (·.scopeId)))
    rw [hlength, List.length_map] at hcount
    unfold foldFuel at hfuel
    exact Nat.lt_of_le_of_lt hcount (by omega)
  have hscopes : ∀ r ∈ T.assignments, r.scopeId ∈ T.assignments.map (·.scopeId) :=
    fun r hr => List.mem_map_of_mem hr
  obtain ⟨val, visited', hrun, -⟩ := settles_evalStaticConstant addFloat T hscopes hremaining
    r.valueNode (hscopes r hr) r.lineno visited le_rfl
  rw [hrun]
  rfl

def requestFuel : ℕ := (T.assignments.length + 1) * T.assignments.length + 1

def staticConstant (e : Expr) (scope : String) (line : ℕ) : Option Value :=
  ((evalStaticConstant addFloat T T.requestFuel e scope line).run []).bind Prod.fst

theorem run_requestFuel (e : Expr) (scope : String) (line : ℕ) :
    ∃ visited, (evalStaticConstant addFloat T T.requestFuel e scope line).run [] =
      some (T.staticConstant addFloat e scope line, visited) := by
  have hscopes : ∀ r ∈ T.assignments, r.scopeId ∈ scope :: T.assignments.map (·.scopeId) :=
    fun r hr => List.mem_cons_of_mem _ (List.mem_map_of_mem hr)
  have hremaining : remaining (followKeys T (scope :: T.assignments.map (·.scopeId))) [] < T.requestFuel := by
    have hcount := List.countP_le_length (p := fun x => decide (x ∉ ([] : List String)))
      (l := followKeys T (scope :: T.assignments.map (·.scopeId)))
    rw [T.length_followKeys, List.length_cons, List.length_map] at hcount
    exact Nat.lt_succ_of_le hcount
  obtain ⟨v, visited, hrun, -⟩ := settles_evalStaticConstant addFloat T hscopes hremaining e
    List.mem_cons_self line [] le_rfl
  refine ⟨visited, ?_⟩
  rw [staticConstant, hrun]
  rfl

end Tracker

end

end TimeCodeSecurity.Scanner
