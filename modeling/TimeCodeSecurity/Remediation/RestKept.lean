import TimeCodeSecurity.Remediation.Locality
import TimeCodeSecurity.Remediation.Transformers

/-! # What a patch leaves of the rest of the file

The text in front of the statement that holds the changed node and the text behind it, in the source and
in the patched source. The patched source has there what the printer makes of the tree; so it is what the
source had exactly when the source was spelled that way.
-/
namespace TimeCodeSecurity.Remediation
open Py Layout
set_option autoImplicit false

def splitLine : List Char → List Char × List Char
  | [] => ([], [])
  | '\r' :: '\n' :: rest => (['\r', '\n'], rest)
  | c :: rest =>
    if c = '\n' ∨ c = '\r' then ([c], rest)
    else
      let (line, more) := splitLine rest
      (c :: line, more)

def splitLines : ℕ → List Char → List Char × List Char
  | 0, text => ([], text)
  | n + 1, text =>
    let (line, rest) := splitLine text
    let (lines, rest) := splitLines n rest
    (line ++ lines, rest)

def splitBytes : ℕ → List Char → List Char × List Char
  | _, [] => ([], [])
  | n, c :: rest =>
    if n < c.utf8Size then ([], c :: rest)
    else
      let (taken, more) := splitBytes (n - c.utf8Size) rest
      (c :: taken, more)

def splitAt (line col : ℕ) (text : String) : String × String :=
  let (lines, rest) := splitLines (line - 1) text.toList
  let (taken, more) := splitBytes col rest
  (String.ofList (lines ++ taken), String.ofList more)

def firstLine : Stmt → ℕ
  | .functionDef pos _ _ _ _ (d :: _) _ | .classDef pos _ _ _ _ (d :: _) => min pos.lineno d.pos.lineno
  | s => s.pos.lineno

def outside (source : String) (s : Stmt) : String × String :=
  ((splitAt (firstLine s) s.pos.colOffset source).1,
    (splitAt s.pos.endLineno s.pos.endColOffset source).2)

section
variable (P : ExprPrinter) (upper : String → String) (t : Transformer) (tree : Module) (line : ℕ)
  (source : String) (path : List ℕ) (s : Stmt)

/-- The statement at the path holds the node that the transformer changes, and no other one does. -/
def HoldsChange : Prop :=
  StandsAt P tree path s ∧ ∀ ed limitations, t.outcome upper tree line = .edited ed limitations →
    Touches ed s ∧ ∀ path' s', StandsAt P tree path' s' → Touches ed s' → path' = path

/-- A successful patch differs from the source only inside the statement: it is the source, or what
stands around the changed statement in it is what stands around the statement in the source. -/
def RestKept : Prop :=
  (transform P upper t tree line source).status = .success →
    (transform P upper t tree line source).patchedSource = some source ∧
        (∃ message, t.outcome upper tree line = .alreadySafe message) ∨
      ∃ ed limitations before own behind, t.outcome upper tree line = .edited ed limitations ∧
        (transform P upper t tree line source).patchedSource = some (before ++ own ++ behind) ∧
        (∃ n, cutAt P (editStmts ed tree) path = some (before, n, behind) ∧
          own = render (itemPieces P) (depthBound (editStmts ed tree) - path.length) n) ∧
        outside source s = (before, behind)

/-- Around the statement the source is spelled as the printer spells the tree. -/
def PrintedAround : Prop :=
  ∃ n, cutAt P tree path = some ((outside source s).1, n, (outside source s).2)

/-- A patch leaves the rest of the file alone exactly when nothing is printed or the rest of the file
already has the printed form. -/
theorem restKept_iff (h : HoldsChange P upper t tree line path s) :
    RestKept P upper t tree line source path s ↔
      ((∃ ed limitations, t.outcome upper tree line = .edited ed limitations) →
        PrintedAround P tree source path s) := by
  obtain ⟨⟨indent, isElif, hnode⟩, hchange⟩ := h
  unfold RestKept transform
  cases hout : t.outcome upper tree line with
  | unsupported message =>
    refine iff_of_true (fun h => by cases h) ?_
    rintro ⟨ed, limitations, h⟩
    cases h
  | alreadySafe message =>
    refine iff_of_true (fun _ => .inl ⟨rfl, message, rfl⟩) ?_
    rintro ⟨ed, limitations, h⟩
    cases h
  | edited ed limitations =>
    have hsize : (Item.module tree).size < depthBound tree := by
      rw [Item.size, depthBound]
      omega
    obtain ⟨before, behind, hcut⟩ := cut_of_nodeAt (size_lt P) hsize hnode
    have hcut : cutAt P tree path = some (before, .stmt indent isElif s, behind) := hcut
    have hedit := cutAt_edit P hcut (hchange ed limitations hout).2
    constructor
    · intro hkept _
      rcases hkept rfl with ⟨-, message, h⟩ | ⟨ed', limitations', b, own, a, h, -, ⟨n, hn, -⟩, ho⟩
      · cases h
      · obtain ⟨rfl, rfl⟩ := Outcome.edited.inj h
        rw [hedit] at hn
        obtain ⟨rfl, -, rfl⟩ : before = b ∧ _ ∧ behind = a := by
          simpa only [Option.some.injEq, Prod.mk.injEq] using hn
        exact ⟨_, by rw [hcut, ho]⟩
    · intro hprinted _
      obtain ⟨n, hn⟩ := hprinted ⟨ed, limitations, rfl⟩
      rw [hcut] at hn
      obtain ⟨hb, -, ha⟩ : before = (outside source s).1 ∧ _ ∧ behind = (outside source s).2 := by
        simpa only [Option.some.injEq, Prod.mk.injEq] using hn
      refine .inr ⟨ed, limitations, before, _, behind, rfl, ?_, ⟨_, hedit, rfl⟩, ?_⟩
      · exact congrArg some (unparse_of_cutAt P hedit)
      · rw [hb, ha]

end

def plainText : Expr → String
  | .name _ id _ => id
  | .attr _ value attr _ => plainText value ++ "." ++ attr
  | .call _ func [arg] [] => plainText func ++ "(" ++ plainText arg ++ ")"
  | _ => ""

def plainPrinter : ExprPrinter where
  text _ := plainText
  arguments _ := ""
  pattern _ := ""
  docstring _ := ""

/-- `config = yaml.load(text)` on the line `line`. -/
def loadStatement (line : ℕ) : Stmt :=
  .assign ⟨line, 0, line, 24⟩ [.name ⟨line, 0, line, 6⟩ "config" .store]
    (.call ⟨line, 9, line, 24⟩
      (.attr ⟨line, 9, line, 18⟩ (.name ⟨line, 9, line, 13⟩ "yaml" .load) "load" .load)
      [.name ⟨line, 19, line, 23⟩ "text" .load] [])

theorem loadStatement_found (line : ℕ) :
    findCall [loadStatement line] line yamlSafeLoader.finds =
      some (⟨line, 9, line, 24⟩,
        .attr ⟨line, 9, line, 18⟩ (.name ⟨line, 9, line, 13⟩ "yaml" .load) "load" .load,
        [.name ⟨line, 19, line, 23⟩ "text" .load], []) := by
  have hcovers : covers line ⟨line, 9, line, 24⟩ = true := by simp [covers]
  have hcalls : (walkModule [loadStatement line]).filterMap callNode =
      [(⟨line, 9, line, 24⟩,
        .attr ⟨line, 9, line, 18⟩ (.name ⟨line, 9, line, 13⟩ "yaml" .load) "load" .load,
        [.name ⟨line, 19, line, 23⟩ "text" .load], [])] := rfl
  rw [findCall, hcalls, List.find?_cons_of_pos]
  rw [hcovers, Bool.and_true]
  rfl

theorem loadStatement_edited (line : ℕ) :
    Transformer.yaml.outcome String.toUpper [loadStatement line] line =
      .edited (replaceCall ⟨line, 9, line, 24⟩ (⟨line, 9, line, 24⟩,
        .attr ⟨line, 9, line, 18⟩ (.name ⟨line, 9, line, 13⟩ "yaml" .load) "safe_load" .load,
        [.name ⟨line, 19, line, 23⟩ "text" .load], [])) [] := by
  rw [Transformer.outcome, CallTransformer.outcome, loadStatement_found]
  rfl

theorem loadStatement_holdsChange (line : ℕ) :
    HoldsChange plainPrinter String.toUpper .yaml [loadStatement line] line [0]
      (loadStatement line) := by
  refine ⟨⟨0, false, rfl⟩, fun ed limitations h => ?_⟩
  rw [loadStatement_edited] at h
  obtain ⟨rfl, -⟩ := Outcome.edited.inj h
  refine ⟨.inr ⟨_, List.mem_cons_of_mem _ (List.mem_singleton_self _), fun hclear => ?_⟩, ?_⟩
  · have hnone := hclear _ .refl
    simp [replaceCall] at hnone
  · rintro path' s' ⟨k, b, hs'⟩ -
    match path' with
    | [] => cases hs'
    | [0] => rfl
    | 0 :: 0 :: path' => cases hs'
    | 0 :: (i + 1) :: path' => cases hs'
    | (i + 1) :: path' => cases hs'

/-- A comment is not part of the tree, so the printed file has lost it. -/
theorem restKept_fails_on_comment :
    ¬∀ (P : ExprPrinter) (upper : String → String) (t : Transformer) (tree : Module) (line : ℕ)
      (source : String) (path : List ℕ) (s : Stmt), HoldsChange P upper t tree line path s →
        RestKept P upper t tree line source path s := by
  intro hall
  have hkept := hall plainPrinter String.toUpper .yaml [loadStatement 2] 2
    "# nosec: reviewed\nconfig = yaml.load(text)" [0] (loadStatement 2) (loadStatement_holdsChange 2)
  have hout := loadStatement_edited 2
  have hstatus : (transform plainPrinter String.toUpper .yaml [loadStatement 2] 2
      "# nosec: reviewed\nconfig = yaml.load(text)").status = .success := by
    rw [transform, hout]
  rcases hkept hstatus with ⟨-, message, h⟩ | ⟨ed, limitations, before, own, behind, h, -, hcut, ho⟩
  · rw [hout] at h
    cases h
  · rw [hout] at h
    obtain ⟨rfl, -⟩ := Outcome.edited.inj h
    obtain ⟨n, hn, -⟩ := hcut
    have hbefore : before = "" := (Prod.mk.inj (Option.some.inj hn)).1.symm
    have houtside : (outside "# nosec: reviewed\nconfig = yaml.load(text)" (loadStatement 2)).1 =
        "# nosec: reviewed\n" := by decide
    rw [ho, hbefore] at houtside
    have hne : "" ≠ "# nosec: reviewed\n" := by decide
    exact hne houtside

/-- A file with nothing but the statement has nothing to lose. -/
theorem restKept_of_statement_alone :
    RestKept plainPrinter String.toUpper .yaml [loadStatement 1] 1 "config = yaml.load(text)" [0]
      (loadStatement 1) := by
  have houtside : outside "config = yaml.load(text)" (loadStatement 1) = ("", "") := by decide
  refine (restKept_iff plainPrinter String.toUpper .yaml [loadStatement 1] 1
    "config = yaml.load(text)" [0] (loadStatement 1) (loadStatement_holdsChange 1)).mpr fun _ => ?_
  exact ⟨.stmt 0 false (loadStatement 1), by rw [houtside]; rfl⟩

end TimeCodeSecurity.Remediation
