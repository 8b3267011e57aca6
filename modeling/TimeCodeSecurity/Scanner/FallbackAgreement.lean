import Mathlib.Data.List.ReduceOption
import TimeCodeSecurity.Foundations.Agreement
import TimeCodeSecurity.Scanner.StaticFoldTotal

/-! # The timeline and the walk it replaced

The walk folds in each scope the last record up to the line and returns the value when all values agree.
The timeline knows the literals beforehand, but it keeps a literal that a later record of its scope has
hidden, and its own evaluator of literals refuses floating-point numbers.
-/
namespace TimeCodeSecurity.Scanner
open Py Agreement
set_option autoImplicit false

/-- `a == b`. -/
abbrev Same (a b : Value) : Prop := a.equal b = true

theorem same_equivalence : Equivalence Same := Value.equal_equivalence

theorem isAnswer_congr {xs ys : List Value} (h : ∀ c, Settled Same xs c ↔ Settled Same ys c)
    {a : Option Value} (ha : IsAnswer Same xs a) : IsAnswer Same ys a := by
  cases a with
  | none => exact fun c hc => ha c ((h c).mpr hc)
  | some a => exact (h a).mp ha

theorem agreeing_isAnswer (first : Option Value) (vals : List (Option Value)) :
    IsAnswer Same (first.toList ++ vals.reduceOption) (agreeing first vals) := by
  have hsame := same_equivalence
  induction vals generalizing first with
  | nil =>
    cases first with
    | none =>
      rintro a ⟨⟨x, hx, -⟩, -⟩
      exact List.not_mem_nil hx
    | some v =>
      refine ⟨⟨v, List.mem_singleton_self v, hsame.refl v⟩, fun x hx => ?_⟩
      rw [List.mem_singleton.mp hx]
      exact hsame.refl v
  | cons val vals ih =>
    match val, first with
    | none, _ => exact ih _
    | some v, none => exact ih (some v)
    | some v, some w =>
      simp only [agreeing]
      split
      · rename_i hvw
        refine isAnswer_congr (fun c => ?_) (ih (some w))
        simp only [Settled, Option.toList_some, List.reduceOption_cons_of_some, List.singleton_append,
          List.mem_cons, exists_eq_or_imp, forall_eq_or_imp]
        have hboth : Same c w ↔ Same c v :=
          ⟨fun h => hsame.trans h (hsame.symm hvw), fun h => hsame.trans h hvw⟩
        grind
      · rename_i hvw
        have hw : w ∈ [w, v] := List.mem_cons_self
        have hv : v ∈ [w, v] := List.mem_cons_of_mem _ (List.mem_singleton_self v)
        have hnone : ∀ c, ¬Settled Same ([w, v] ++ vals.reduceOption) c :=
          not_settled_append hsame hv hw hvw
        exact hnone

/-! ## The two answers -/

section
variable (addFloat : ℚ → ℚ → ℚ) (T : Tracker) (fold : Expr → String → ℕ → FoldM (Option Value))
  (line : ℕ) (id : String)

/-- The walk: in each scope the last record up to the line, folded; all values have to agree. -/
def foldPerScope : FoldM (Option Value) := foldAliases fold none (T.lastRecords id line)

/-- Both have a result, leave the same names visited, and the values are equal or both missing. -/
def SameAnswer (a b : Option (Option Value × List String)) : Prop :=
  ∃ v w visited, a = some (v, visited) ∧ b = some (w, visited) ∧ Option.Rel Same v w

variable (visited : List String)

/-- The values of the records that both ways read alike. -/
def sharedValues : List Value :=
  (T.lastRecords id line).filterMap fun r =>
    match literalOnlyValue addFloat r.valueNode with
    | none => foldedValue fold visited r
    | some o => if foldedValue fold visited r = o then o else none

/-- The literals only the timeline reads: those hidden by a later record of their scope, and those that
the folder reads otherwise. -/
def timelineValues : List Value :=
  ((T.scopesOf id).flatMap fun s => hiddenLiterals addFloat line (T.records s id)) ++
    (T.lastRecords id line).filterMap fun r =>
      match literalOnlyValue addFloat r.valueNode with
      | none => none
      | some o => if foldedValue fold visited r = o then none else o

/-- The values only the walk reads: what the literal evaluator has refused or read otherwise. -/
def walkValues : List Value :=
  (T.lastRecords id line).filterMap fun r =>
    match literalOnlyValue addFloat r.valueNode with
    | none => none
    | some o => if foldedValue fold visited r = o then none else foldedValue fold visited r

end

section
variable {addFloat : ℚ → ℚ → ℚ} {T : Tracker} {fold : Expr → String → ℕ → FoldM (Option Value)}
  {line : ℕ} {id : String} {visited : List String}

theorem foldCrossScope_isAnswer
    (hbudget : (T.liveAliases addFloat id line).length ≤ Triage.crossScopeAliasBudget)
    (hfold : ∀ r ∈ T.lastRecords id line,
      ((fold r.valueNode r.scopeId r.lineno).run visited).isSome) :
    ∃ a, (foldCrossScope addFloat T fold line id).run visited = some (a, visited) ∧
      IsAnswer Same (openedLiterals (boundariesAt (T.intervalsOf addFloat id) line) ++
        ((T.liveAliases addFloat id line).map (foldedValue fold visited)).reduceOption) a := by
  have hperm := T.crossScopeTriage_aliases addFloat id line
  have hseen := sweep_literals (boundariesAt (T.intervalsOf addFloat id) line)
  rw [← T.crossScopeTriage_eq addFloat] at hseen
  have hsnapshot : (T.crossScopeTriage addFloat id line).snapshot =
      some ((T.crossScopeTriage addFloat id line).aliases.map Prod.snd) := by
    have hlength := hperm.length_eq
    rw [List.length_map] at hlength
    rw [Triage.snapshot, if_pos (hlength ▸ hbudget)]
  have hrun : ∀ first, ∃ a, (foldAliases fold first
      ((T.crossScopeTriage addFloat id line).aliases.map Prod.snd)).run visited = some (a, visited) ∧
        IsAnswer Same (first.toList ++ (((T.crossScopeTriage addFloat id line).aliases.map Prod.snd).map
          (foldedValue fold visited)).reduceOption) a := by
    intro first
    refine ⟨_, run_foldAliases first fun r hr => ?_, agreeing_isAnswer first _⟩
    exact hfold r (List.mem_of_mem_filter (hperm.mem_iff.mp hr))
  -- the order of the aliases does not matter
  have hvalues : ∀ x, x ∈ (((T.crossScopeTriage addFloat id line).aliases.map Prod.snd).map
      (foldedValue fold visited)).reduceOption ↔
        x ∈ ((T.liveAliases addFloat id line).map (foldedValue fold visited)).reduceOption := by
    intro x
    rw [List.reduceOption_mem_iff, List.reduceOption_mem_iff]
    exact (hperm.map _).mem_iff
  unfold foldCrossScope
  simp only [hsnapshot]
  rcases verdict_cases hseen with ⟨hv, hnil⟩ | ⟨v, hv, hmem, hall⟩ | ⟨hv, x, hx, y, hy, hxy⟩
  · rw [hv]
    obtain ⟨a, ha, hanswer⟩ := hrun none
    refine ⟨a, ha, isAnswer_congr (settled_congr_mem fun x => ?_) hanswer⟩
    rw [hnil, Option.toList_none, List.nil_append, List.nil_append]
    exact hvalues x
  · rw [hv]
    obtain ⟨a, ha, hanswer⟩ := hrun (some v)
    refine ⟨a, ha, isAnswer_congr (fun c => ?_) hanswer⟩
    have hself : ∀ y ∈ (some v).toList, Same v y := by
      intro y hy
      rw [List.mem_singleton.mp hy]
      exact same_equivalence.refl v
    have hv' : v ∈ (some v).toList := List.mem_singleton_self v
    rw [settled_append_iff same_equivalence hv' hself,
      settled_append_iff same_equivalence hmem hall]
    simp only [hvalues]
  · rw [hv]
    refine ⟨none, rfl, ?_⟩
    exact not_settled_append same_equivalence hx hy hxy

theorem foldPerScope_isAnswer (hfold : ∀ r ∈ T.lastRecords id line,
      ((fold r.valueNode r.scopeId r.lineno).run visited).isSome) :
    ∃ a, (foldPerScope T fold line id).run visited = some (a, visited) ∧
      IsAnswer Same ((T.lastRecords id line).map (foldedValue fold visited)).reduceOption a :=
  ⟨_, run_foldAliases none hfold, agreeing_isAnswer none _⟩

theorem mem_timeline_iff (hother : ∀ r ∈ T.lastRecords id line,
      literalOnlyValue addFloat r.valueNode = none → valueMayFold r.valueNode = false →
        foldedValue fold visited r = none) (v : Value) :
    v ∈ openedLiterals (boundariesAt (T.intervalsOf addFloat id) line) ++
        ((T.liveAliases addFloat id line).map (foldedValue fold visited)).reduceOption ↔
      v ∈ sharedValues addFloat T fold line id visited ++
        timelineValues addFloat T fold line id visited := by
  simp only [List.mem_append, T.mem_openedLiterals_iff addFloat, List.reduceOption_mem_iff, List.mem_map,
    Tracker.liveAliases, List.mem_filter, sharedValues, timelineValues, List.mem_filterMap]
  constructor
  · rintro ((⟨r, hr, hv⟩ | h) | ⟨r, ⟨hr, hl⟩, hv⟩)
    · by_cases hf : foldedValue fold visited r = some v
      · exact .inl ⟨r, hr, by simp [hv, hf]⟩
      · exact .inr (.inr ⟨r, hr, by simp [hv, hf]⟩)
    · exact .inr (.inl h)
    · rw [Bool.and_eq_true, Option.isNone_iff_eq_none] at hl
      exact .inl ⟨r, hr, by simp [hl.1, hv]⟩
  · rintro (⟨r, hr, hv⟩ | h | ⟨r, hr, hv⟩)
    · cases hl : literalOnlyValue addFloat r.valueNode with
      | none =>
        simp only [hl] at hv
        refine .inr ⟨r, ⟨hr, ?_⟩, hv⟩
        cases hmay : valueMayFold r.valueNode with
        | false => rw [hother r hr hl hmay] at hv; cases hv
        | true => rw [hl]; rfl
      | some o =>
        simp only [hl] at hv
        split at hv
        · exact .inl (.inl ⟨r, hr, by rw [hl, hv]⟩)
        · cases hv
    · exact .inl (.inr h)
    · cases hl : literalOnlyValue addFloat r.valueNode with
      | none => simp only [hl] at hv; cases hv
      | some o =>
        simp only [hl] at hv
        split at hv
        · cases hv
        · exact .inl (.inl ⟨r, hr, by rw [hl, hv]⟩)

theorem mem_walk_iff (addFloat : ℚ → ℚ → ℚ) (v : Value) :
    v ∈ ((T.lastRecords id line).map (foldedValue fold visited)).reduceOption ↔
      v ∈ sharedValues addFloat T fold line id visited ++
        walkValues addFloat T fold line id visited := by
  simp only [List.mem_append, List.reduceOption_mem_iff, List.mem_map, sharedValues, walkValues,
    List.mem_filterMap]
  constructor
  · rintro ⟨r, hr, hv⟩
    cases hl : literalOnlyValue addFloat r.valueNode with
    | none => exact .inl ⟨r, hr, by simp [hl, hv]⟩
    | some o =>
      by_cases ho : foldedValue fold visited r = o
      · exact .inl ⟨r, hr, by simp [hl, ho, ← hv]⟩
      · refine .inr ⟨r, hr, ?_⟩
        simp only [hl, if_neg ho]
        exact hv
  · rintro (⟨r, hr, hv⟩ | ⟨r, hr, hv⟩)
    · refine ⟨r, hr, ?_⟩
      split at hv
      · exact hv
      · split at hv
        · rename_i ho
          rw [ho, hv]
        · cases hv
    · refine ⟨r, hr, ?_⟩
      split at hv
      · cases hv
      · split at hv
        · cases hv
        · exact hv

end

/-! ## The folder of the scanner -/

theorem foldContainer_of_not_display {addFloat : ℚ → ℚ → ℚ} {F : Folder FoldM} {e : Expr}
    (h : isContainerDisplay e = false) : foldContainer addFloat F e = pure none := by
  cases e <;> simp_all [isContainerDisplay, foldContainer]

theorem foldExpr_of_not_valueMayFold {addFloat : ℚ → ℚ → ℚ} {F : Folder FoldM}
    (hF : F.other = pure none) {e : Expr} (hl : literalOnlyValue addFloat e = none)
    (hmay : valueMayFold e = false) : foldExpr addFloat F e = pure none := by
  cases e with
  | subscript pos base index ctx =>
    rw [foldExpr, foldContainer_of_not_display hmay]
    rfl
  | call pos func args keywords =>
    cases func with
    | attr p receiver name c =>
      cases args with
      | nil => exact hF
      | cons arg rest =>
        by_cases hname : name ∈ dictMethods
        · simp only [valueMayFold, hname, decide_true, Bool.true_and] at hmay
          rw [foldExpr, if_pos hname, foldContainer_of_not_display hmay]
          rfl
        · rw [foldExpr, if_neg hname]
          exact hF
    | _ => exact hF
  | constant pos value => cases hl
  | joinedStr => cases hmay
  | binOp => cases hmay
  | unaryOp => cases hmay
  | name => cases hmay
  | formattedValue => rfl
  | _ => exact hF

section
variable (addFloat : ℚ → ℚ → ℚ) (T : Tracker)

/-- With at most as many aliases in force as the budget allows, the two answers are the same exactly
when what each side reads alone makes no difference beside what both read: two shared values differ; or
some shared value is equal to all values of the one side if and only if it is to all of the other; or no
value is shared, and both sides settle on one value or both on none. -/
theorem indexedFallback_iff (fuel : ℕ) (line : ℕ) (id : String) (visited : List String)
    (hbudget : (T.liveAliases addFloat id line).length ≤ Triage.crossScopeAliasBudget) :
    let fold := evalStaticConstant addFloat T (T.foldFuel + fuel)
    SameAnswer ((foldCrossScope addFloat T fold line id).run visited)
        ((foldPerScope T fold line id).run visited) ↔
      Balanced Same (sharedValues addFloat T fold line id visited)
        (timelineValues addFloat T fold line id visited)
        (walkValues addFloat T fold line id visited) := by
  intro fold
  have hfold : ∀ r ∈ T.lastRecords id line,
      ((fold r.valueNode r.scopeId r.lineno).run visited).isSome := by
    intro r hr
    have hmem := (Tracker.mem_of_lastRecords hr).1
    exact T.evalStaticConstant_isSome addFloat (Nat.le_add_right _ _) hmem visited
  have hother : ∀ r ∈ T.lastRecords id line, literalOnlyValue addFloat r.valueNode = none →
      valueMayFold r.valueNode = false → foldedValue fold visited r = none := by
    intro r _ hl hmay
    have hnone : fold r.valueNode r.scopeId r.lineno = pure none := by
      have hsucc : T.foldFuel + fuel = T.assignments.length * T.assignments.length + fuel + 1 := by
        unfold Tracker.foldFuel
        omega
      simp only [fold, hsucc, evalStaticConstant]
      exact foldExpr_of_not_valueMayFold rfl hl hmay
    rw [foldedValue, hnone]
    rfl
  obtain ⟨a, ha, hansa⟩ := foldCrossScope_isAnswer hbudget hfold
  obtain ⟨b, hb, hansb⟩ := foldPerScope_isAnswer hfold
  have hshared := isAnswer_congr (settled_congr_mem (mem_timeline_iff hother)) hansa
  have hwalk := isAnswer_congr (settled_congr_mem (mem_walk_iff addFloat)) hansb
  rw [← settled_append_iff_balanced same_equivalence, ← rel_iff same_equivalence hshared hwalk]
  constructor
  · rintro ⟨v, w, visited', hv, hw, hrel⟩
    rw [ha] at hv
    rw [hb] at hw
    cases hv
    cases hw
    exact hrel
  · intro hrel
    exact ⟨a, b, visited, ha, hb, hrel⟩

end

/-- `mode = "w"` in two files and `mode = kind` in a third, with `kind = "w"` there. -/
def oneModeTable : Tracker :=
  { assignments :=
      [⟨"mode", .constant {} (.str "w"), 1, "a:global", false⟩,
        ⟨"mode", .constant {} (.str "w"), 4, "b:global", false⟩,
        ⟨"kind", .constant {} (.str "w"), 1, "c:global", false⟩,
        ⟨"mode", .name {} "kind" .load, 2, "c:global", false⟩] }

theorem indexedFallback_iff_one_mode :
    SameAnswer
      ((foldCrossScope (· + ·) oneModeTable
        (evalStaticConstant (· + ·) oneModeTable (oneModeTable.foldFuel + 0)) 9 "mode").run [])
      ((foldPerScope oneModeTable
        (evalStaticConstant (· + ·) oneModeTable (oneModeTable.foldFuel + 0)) 9 "mode").run []) := by
  refine (indexedFallback_iff (· + ·) oneModeTable 0 9 "mode" [] (by decide)).mpr ?_
  refine .inr (.inl ⟨.str "w", by decide, ?_⟩)
  decide

/-- `mode = "r"` and, later, `mode = pick()` in one file, `mode = "w"` in another. -/
def shadowedModeTable : Tracker :=
  { assignments :=
      [⟨"mode", .constant {} (.str "r"), 1, "a:global", false⟩,
        ⟨"mode", .call {} (.name {} "pick" .load) [] [], 5, "a:global", false⟩,
        ⟨"mode", .constant {} (.str "w"), 3, "b:global", false⟩] }

/-- The literal that the later write has hidden still contradicts the only one in force. -/
theorem indexedFallback_fails_on_shadowed_literal :
    ¬∀ (addFloat : ℚ → ℚ → ℚ) (T : Tracker) (fuel line : ℕ) (id : String) (visited : List String),
      (T.liveAliases addFloat id line).length ≤ Triage.crossScopeAliasBudget →
        SameAnswer
          ((foldCrossScope addFloat T (evalStaticConstant addFloat T (T.foldFuel + fuel)) line
            id).run visited)
          ((foldPerScope T (evalStaticConstant addFloat T (T.foldFuel + fuel)) line id).run
            visited) := by
  intro h
  obtain ⟨v, w, visited, hv, hw, hrel⟩ :=
    h (· + ·) shadowedModeTable 0 9 "mode" [] (by decide)
  have hnone : (foldCrossScope (· + ·) shadowedModeTable (evalStaticConstant (· + ·)
      shadowedModeTable (shadowedModeTable.foldFuel + 0)) 9 "mode").run [] = some (none, []) := by
    decide
  have hsome : (foldPerScope shadowedModeTable (evalStaticConstant (· + ·) shadowedModeTable
      (shadowedModeTable.foldFuel + 0)) 9 "mode").run [] = some (some (.str "w"), []) := by
    decide
  rw [hnone] at hv
  rw [hsome] at hw
  cases hv
  cases hw
  cases hrel

end TimeCodeSecurity.Scanner
