import TimeCodeSecurity.Foundations.KeyedSort
import TimeCodeSecurity.Foundations.Pep440
import TimeCodeSecurity.Scanner.Names

/-! # The re-scan of a patched source

`RemediationVerifier`: a patch passes when no finding of the patched source matches the target and every
unrelated finding of the original has some partner in the patched source. One finding can be the partner
of several, so a finding can get lost behind another of its CWE and sink symbol.
-/
namespace TimeCodeSecurity.Remediation
open Scanner
set_option autoImplicit false

structure ProofGraphNode where
  nodeType : String
  scopeId : String := ""
  expressionSnippet : String := ""
deriving DecidableEq, Repr

/-- A finding as a dictionary; a field is missing where the key is. -/
structure Finding where
  id : Option String := none
  cwe : Option String := none
  sinkSymbol : Option String := none
  lineNumber : Option ℤ := none
  line : Option ℤ := none
  codeSnippet : String := ""
  proofGraphNodes : List ProofGraphNode := []
deriving DecidableEq, Repr

/-- `str(value)`, also in the texts of errors. -/
def shown : Option String → String
  | some s => s
  | none => "None"

def shownLine : Option ℤ → String
  | some n => toString n
  | none => "None"

def stripped (s : String) : String := String.ofList (Pep440.strip s.toList)

structure GraphSignature where
  cwe : String
  sinkSymbol : Option String
  scopeSig : String
  upstreamExprs : List String
  codeSnippet : String
  lineNumber : ℤ
deriving DecidableEq, Repr

/-- `":".join(scope_id.split(":")[1:])` where there is a colon. -/
def scopeSignature (scopeId : String) : String :=
  match splitAtFirst [':'] scopeId.toList with
  | some (_, rest) => String.ofList rest
  | none => scopeId

def extractGraphSignature (f : Finding) : GraphSignature :=
  let nodes := f.proofGraphNodes
  let sinkNode := nodes.find? (·.nodeType = "SINK")
  let flowNodes := nodes.filter (·.nodeType ≠ "SINK")
  let scopeId := ((sinkNode.or nodes.head?).map (·.scopeId)).getD ""
  { cwe := shown f.cwe
    sinkSymbol := f.sinkSymbol.filter (· ≠ "")
    scopeSig := scopeSignature scopeId
    upstreamExprs := (flowNodes.filter (·.expressionSnippet ≠ "")).map
      fun n => stripped n.expressionSnippet
    codeSnippet := stripped f.codeSnippet
    lineNumber := f.lineNumber.getD 0 }

def isMatchingFinding (findingA findingB : Finding) : Bool :=
  let a := extractGraphSignature findingA
  let b := extractGraphSignature findingB
  if a.cwe ≠ b.cwe then false
  else if a.sinkSymbol.isSome ∧ b.sinkSymbol.isSome ∧ a.sinkSymbol ≠ b.sinkSymbol then false
  else if a.scopeSig ≠ "" ∧ b.scopeSig ≠ "" ∧ a.scopeSig ≠ b.scopeSig then false
  else if a.upstreamExprs ≠ [] ∧ b.upstreamExprs ≠ [] then
    a.upstreamExprs.any (· ∈ b.upstreamExprs)
  else if a.codeSnippet ≠ "" ∧ b.codeSnippet ≠ "" ∧ a.codeSnippet = b.codeSnippet then true
  else if a.lineNumber ≠ 0 ∧ b.lineNumber ≠ 0 then |a.lineNumber - b.lineNumber| ≤ 2
  else true

/-- `finding.get("line_number", 0) or finding.get("line", 0) or 0`. -/
def anyLine (f : Finding) : ℤ :=
  if f.lineNumber.getD 0 ≠ 0 then f.lineNumber.getD 0 else f.line.getD 0

def isSameSinkInstance (findingA findingB : Finding) : Bool :=
  if anyLine findingA = 0 ∨ anyLine findingA ≠ anyLine findingB then false
  else
    let snippetA := stripped findingA.codeSnippet
    let snippetB := stripped findingB.codeSnippet
    if snippetA ≠ "" ∧ snippetB ≠ "" then contains snippetA snippetB || contains snippetB snippetA
    else true

/-- `scan_source_for_verification`: findings of a file with a source. -/
abbrev Scan := String → String → List Finding

def unrelatedOrig (origFindings : List Finding) (target : Finding) : List Finding :=
  origFindings.filter fun f => !isMatchingFinding f target && !isSameSinkInstance f target

/-- What the verifier takes for the finding `uf` in the patched source. -/
def standsFor (uf pf : Finding) : Bool :=
  isMatchingFinding pf uf || (pf.cwe = uf.cwe && pf.sinkSymbol = uf.sinkSymbol)

def stillDetected (target : Finding) : String :=
  "Target finding " ++ shown target.cwe ++ " at line " ++ shownLine target.lineNumber ++
    " is still detected by Vector B after patching"

def unexpectedlyRemoved (uf : Finding) : String :=
  "Unrelated finding " ++ uf.id.getD "N/A" ++ " (" ++ shown uf.cwe ++ " at line " ++
    shownLine uf.lineNumber ++ ") was unexpectedly removed or modified by the patch"

def verify (scan : Scan) (originalFile originalSource patchedSource : String) (target : Finding) :
    Bool × Option String :=
  let origFindings := scan originalFile originalSource
  let patchedFindings := scan originalFile patchedSource
  if patchedFindings.any (isMatchingFinding · target) then (false, some (stillDetected target))
  else
    match (unrelatedOrig origFindings target).find? fun uf => !patchedFindings.any (standsFor uf) with
    | some uf => (false, some (unexpectedlyRemoved uf))
    | none => (true, none)

theorem verify_passes_iff (scan : Scan) (file orig patched : String) (target : Finding) :
    (verify scan file orig patched target).1 = true ↔
      (∀ pf ∈ scan file patched, isMatchingFinding pf target = false) ∧
        ∀ uf ∈ unrelatedOrig (scan file orig) target, ∃ pf ∈ scan file patched,
          standsFor uf pf = true := by
  simp only [verify]
  by_cases htarget : (scan file patched).any (isMatchingFinding · target) = true
  · rw [if_pos htarget]
    obtain ⟨pf, hpf, hmatch⟩ := List.any_eq_true.mp htarget
    constructor
    · intro h
      cases h
    · intro h
      rw [h.1 pf hpf] at hmatch
      cases hmatch
  · rw [if_neg htarget]
    have hgone : ∀ pf ∈ scan file patched, isMatchingFinding pf target = false := by
      simpa using htarget
    cases hfind : (unrelatedOrig (scan file orig) target).find?
        fun uf => !(scan file patched).any (standsFor uf) with
    | some uf =>
      have hmem := List.mem_of_find?_eq_some hfind
      have hlost := List.find?_some hfind
      constructor
      · intro h
        cases h
      · intro h
        have hkept : (scan file patched).any (standsFor uf) = true :=
          List.any_eq_true.mpr (h.2 uf hmem)
        simp [hkept] at hlost
    | none =>
      have hkept := List.find?_eq_none.mp hfind
      constructor
      · intro _
        refine ⟨hgone, fun uf huf => ?_⟩
        have huf := hkept uf huf
        exact List.any_eq_true.mp (by simpa using huf)
      · intro _
        rfl

/-- CWE and sink symbol. -/
def Finding.key (f : Finding) : Option String × Option String := (f.cwe, f.sinkSymbol)

/-- A patch that passes clears the target and has, for every unrelated finding, one of its own. -/
def LosesNoFinding (scan : Scan) (file orig patched : String) (target : Finding) : Prop :=
  (verify scan file orig patched target).1 = true →
    (∀ pf ∈ scan file patched, isMatchingFinding pf target = false) ∧
      MapsInto Finding.key (unrelatedOrig (scan file orig) target) (scan file patched)

theorem losesNoFinding_iff (scan : Scan) (file orig patched : String) (target : Finding) :
    LosesNoFinding scan file orig patched target ↔
      (∃ pf ∈ scan file patched, isMatchingFinding pf target = true) ∨
        (∃ uf ∈ unrelatedOrig (scan file orig) target, ∀ pf ∈ scan file patched,
          standsFor uf pf = false) ∨
        NoKeyRarer Finding.key (unrelatedOrig (scan file orig) target) (scan file patched) := by
  rw [LosesNoFinding, verify_passes_iff, mapsInto_iff]
  constructor
  · intro h
    by_cases hgone : ∀ pf ∈ scan file patched, isMatchingFinding pf target = false
    · by_cases hkept : ∀ uf ∈ unrelatedOrig (scan file orig) target, ∃ pf ∈ scan file patched,
          standsFor uf pf = true
      · exact .inr (.inr (h ⟨hgone, hkept⟩).2)
      · push Not at hkept
        obtain ⟨uf, huf, hlost⟩ := hkept
        exact .inr (.inl ⟨uf, huf, fun pf hpf => Bool.eq_false_iff.mpr (hlost pf hpf)⟩)
    · push Not at hgone
      obtain ⟨pf, hpf, hmatch⟩ := hgone
      exact .inl ⟨pf, hpf, by simpa using hmatch⟩
  · intro h hpass
    refine ⟨hpass.1, ?_⟩
    obtain ⟨pf, hpf, hmatch⟩ | ⟨uf, huf, hlost⟩ | hcount := h
    · rw [hpass.1 pf hpf] at hmatch
      cases hmatch
    · obtain ⟨pf, hpf, hstands⟩ := hpass.2 uf huf
      rw [hlost pf hpf] at hstands
      cases hstands
    · exact hcount

namespace OneOfTwo

def target : Finding :=
  { id := some "TimeCodeSecurity-VULN-001", cwe := some "CWE-89", sinkSymbol := some "execute"
    lineNumber := some 3, codeSnippet := "cur.execute(sql)" }

def firstCommand : Finding :=
  { id := some "TimeCodeSecurity-VULN-002", cwe := some "CWE-78", sinkSymbol := some "os.system"
    lineNumber := some 10, codeSnippet := "os.system(name)" }

def secondCommand : Finding :=
  { firstCommand with
    id := some "TimeCodeSecurity-VULN-003", lineNumber := some 40
    codeSnippet := "os.system(path)" }

/-- The patched source has neither the query nor the second command. -/
def scan : Scan := fun _ source =>
  if source = "original" then [target, firstCommand, secondCommand] else [firstCommand]

end OneOfTwo

theorem losesNoFinding_fails_on_one_of_two :
    ¬ LosesNoFinding OneOfTwo.scan "app.py" "original" "patched" OneOfTwo.target := by
  intro h
  have hpass : (verify OneOfTwo.scan "app.py" "original" "patched" OneOfTwo.target).1 = true := by
    decide +kernel
  have hcount := (mapsInto_iff _ _ _).mp (h hpass).2 (some "CWE-78", some "os.system")
  revert hcount
  decide +kernel

end TimeCodeSecurity.Remediation
