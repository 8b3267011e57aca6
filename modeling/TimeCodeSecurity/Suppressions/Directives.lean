import TimeCodeSecurity.Foundations.Separators
import TimeCodeSecurity.Remediation.Transformers
import TimeCodeSecurity.Foundations.Climb

/-! # Suppression directives

Comments that silence findings: `# tcs:ignore CWE-89` acts on its own line and on the statement under its
comment block, `# tcs: ignore[CWE-89]` on its own line only. How a text falls into tokens, and the tables of
`str` beyond ASCII, are parameters.
-/
namespace TimeCodeSecurity.Suppressions
open TextLines Trimming Scanner
set_option autoImplicit false

abbrev Text : Type := List Char

structure Unicode where
  alnum : Char → Bool
  digit : Char → Bool
  upper : Text → Text

inductive TokenKind
  | comment | layout | code
deriving DecidableEq, Repr

structure Token where
  kind : TokenKind
  startRow : ℕ
  endRow : ℕ
  string : Text
deriving DecidableEq, Repr

/-- `tokenize.generate_tokens`: the tokens before its end, and whether it ends with an exception. -/
abbrev Tokenizer : Type := Text → List Token × Bool

structure Payload where
  targets : List Text
  justification : Option Text
deriving DecidableEq, Repr

structure Directive where
  targets : List Text
  justification : Option Text
  line : ℕ
  exactLine : Bool
deriving DecidableEq, Repr

def strip (t : Text) : Text := trim isSpace t

def lit (s : String) : Text := s.toList

def nonempty (t : Text) : Option Text := if t = [] then none else some t

section
variable (U : Unicode)

def isdigit (t : Text) : Bool := t ≠ [] && t.all U.digit

def dropStart (word t : Text) : Option Text := if word.isPrefixOf t then some (t.drop word.length) else none

def normalizeCweTarget (val : Text) : Option Text :=
  let v := U.upper (strip val)
  if v = [] then none
  else if v = lit "ALL" then some (lit "ALL")
  else
    match dropStart (lit "CWE-") v with
    | some number =>
      if isdigit U (strip number) then some (lit "CWE-" ++ strip number) else some v
    | none =>
      match dropStart (lit "CWE") v with
      | some number =>
        if isdigit U (trim (· = '-') number) then some (lit "CWE-" ++ trim (· = '-') number)
        else if isdigit U v then some (lit "CWE-" ++ v) else none
      | none => if isdigit U v then some (lit "CWE-" ++ v) else none

def parseDirectivePayload (text : Text) : Option Payload :=
  let payload := strip text
  let targetsPart := strip (payload.takeWhile (· ≠ ':'))
  let items := ((targetsPart.splitOnP fun c => c = ',' || c = ';').map strip).filter (· ≠ [])
  let targets := items.filterMap (normalizeCweTarget U)
  if targets = [] then none
  else some { targets := targets, justification := nonempty (strip ((payload.dropWhile (· ≠ ':')).drop 1)) }

def dropWord : Text → Text → Option Text
  | [], t => some t
  | w :: word, c :: t => if Remediation.ignoreCase c = w then dropWord word t else none
  | _ :: _, [] => none

/-- `#\s*tcs\s*:\s*ignore` at the start. -/
def directiveHead : Text → Option Text
  | '#' :: rest => do
    let afterName ← dropWord (lit "tcs") (rest.dropWhile isSpace)
    match afterName.dropWhile isSpace with
    | ':' :: rest => dropWord (lit "ignore") (rest.dropWhile isSpace)
    | _ => none
  | _ => none

/-- `\s*(.*)`: what group it captures. -/
def restOfLine (t : Text) : Text := (t.dropWhile isSpace).takeWhile (· ≠ '\n')

/-- `TCS_IGNORE_PATTERN` behind its head. -/
def ignoreTail (t : Text) : Option Text := if wordEnds U.alnum t then some (restOfLine t) else none

/-- `TCS_IGNORE_BRACKET_PATTERN` behind its head: both groups. -/
def bracketTail (t : Text) : Option (Text × Text) :=
  match t.dropWhile isSpace with
  | '[' :: body =>
    match body.dropWhile (· ≠ ']') with
    | ']' :: after => some (body.takeWhile (· ≠ ']'), restOfLine after)
    | _ => none
  | _ => none

/-- `pattern.search(t)` for a pattern that starts with the head: the first place where it matches. -/
def search {γ : Type} (tail : Text → Option γ) : Text → Option γ
  | [] => none
  | c :: t =>
    match (directiveHead (c :: t)).bind tail with
    | some groups => some groups
    | none => search tail t

def directiveOf (line : ℕ) (comment : Text) : Option Directive :=
  match search bracketTail comment with
  | some (inside, after) =>
    (parseDirectivePayload U inside).map fun p =>
      let own := strip ((strip after).drop 1)
      { targets := p.targets
        justification := if (strip after).head? = some ':' ∧ own ≠ [] then some own else p.justification
        line := line
        exactLine := true }
  | none =>
    (search (ignoreTail U) comment).bind fun payload => (parseDirectivePayload U payload).map fun p =>
      { targets := p.targets, justification := p.justification, line := line, exactLine := false }

end

section
variable (U : Unicode) (tokenize : Tokenizer)

/-- `source.splitlines()`. -/
def sourceLines (source : Text) : List Text := splitLines isLineBoundary source

/-- Without tokens: every line from its first `#` on. -/
def lineComments (source : Text) : List (ℕ × Text) :=
  ((sourceLines source).zipIdx 1).filterMap fun l =>
    if '#' ∈ l.1 then some (l.2, l.1.dropWhile (· ≠ '#')) else none

def comments (source : Text) : List (ℕ × Text) :=
  ((tokenize source).1.filter (·.kind = .comment)).map (fun t => (t.startRow, t.string)) ++
    if (tokenize source).2 then lineComments source else []

def extractFileDirectives (source : Text) : List Directive :=
  (comments tokenize source).filterMap fun c => directiveOf U c.1 c.2

/-- `directives_by_line.get(line, [])`. -/
def onLine (directives : List Directive) (line : ℕ) : List Directive := directives.filter (·.line = line)

local instance lawfulText : LawfulBEq Text := inferInstance

/-- `"ALL" in d["targets"] or norm_cwe in d["targets"]`. -/
def targets (cwe : Text) (d : Directive) : Bool := lit "ALL" ∈ d.targets || U.upper cwe ∈ d.targets

def lineAt (lines : List Text) (line : ℕ) : Text := strip (lines[line - 1]?.getD [])

def scanUp (cwe : Text) (directives : List Directive) (lines : List Text) : ℕ → ℕ → Option Directive
  | 0, _ => none
  | _, 0 => none
  | steps + 1, line + 1 =>
    if onLine directives (line + 1) ≠ [] then
      match (onLine directives (line + 1)).find? fun d => !d.exactLine && targets U cwe d with
      | some d => some d
      | none => scanUp cwe directives lines steps line
    else if lineAt lines (line + 1) = [] then scanUp cwe directives lines steps line
    else if (lineAt lines (line + 1)).head? = some '#' then scanUp cwe directives lines steps line
    else none

def findMatchingDirective (sinkLine : ℕ) (cwe : Text) (directives : List Directive) (lines : List Text) :
    Option Directive :=
  match (onLine directives sinkLine).find? (targets U cwe) with
  | some d => some d
  | none => scanUp U cwe directives lines 10 (sinkLine - 1)

end

/-- A finding, in the fields the resolvers read and set; `line` is there where it is an `int`. -/
structure Finding where
  file : String
  lineNumber : Option ℕ
  line : Option ℕ
  cwe : Text
  suppressed : Option Bool
  justification : Option Text
  kind : Option String
  active : Option Bool
deriving DecidableEq, Repr

/-- `int(finding.get("line_number") or 1)`. -/
def Finding.sinkLine (f : Finding) : ℕ :=
  match f.lineNumber with
  | none | some 0 => 1
  | some line => line

def Finding.silencedBy (f : Finding) (d : Directive) : Finding :=
  { f with suppressed := some true, justification := d.justification, kind := some "inSourceLine" }

abbrev NormalizedFiles : Type := String → Option Text

section
variable (U : Unicode) (tokenize : Tokenizer) (files : NormalizedFiles)

/-- One finding of `resolve_suppressions`. -/
def resolveSuppression (f : Finding) : Finding :=
  let directives := ((files f.file).map (extractFileDirectives U tokenize)).getD []
  let lines := ((files f.file).map sourceLines).getD []
  match findMatchingDirective U f.sinkLine f.cwe directives lines with
  | some d => { f with
    suppressed := some true, justification := d.justification, kind := some "inSource", active := some false }
  | none => { f with suppressed := some false, justification := none, kind := none, active := some true }

def resolveSuppressions (findings : List Finding) : List Finding :=
  findings.map (resolveSuppression U tokenize files)

/-- `"tcs" in content.lower()`. -/
def mentionsTcs (content : Text) : Bool := (content.map Char.toLower).tails.any (lit "tcs").isPrefixOf

def exactDirectives (content : Text) : List Directive :=
  if mentionsTcs content then (extractFileDirectives U tokenize content).filter (·.exactLine) else []

/-- One finding of `resolve_line_suppressions`. -/
def resolveLineSuppression (f : Finding) : Finding :=
  match f.line with
  | none => f
  | some line =>
    let directives := ((files f.file).map (exactDirectives U tokenize)).getD []
    match (onLine directives line).find? (targets U f.cwe) with
    | some d => f.silencedBy d
    | none => f

def resolveLineSuppressions (findings : List Finding) : List Finding :=
  findings.map (resolveLineSuppression U tokenize files)

end

end TimeCodeSecurity.Suppressions

/-! ## Which statement a directive serves

An unbracketed directive is for the statement right under its comment block. The scan upwards knows code by
the first character of a line, and not at all where the line holds a directive.
-/
namespace TimeCodeSecurity.Suppressions
open TextLines Trimming Scanner Climb

section
variable (U : Unicode) (cwe : Text) (directives : List Directive) (lines : List Text)

def serves (line : ℕ) : Option Directive :=
  (onLine directives line).find? fun d => !d.exactLine && targets U cwe d

def passable (text : Text) : Bool := strip text = [] || (strip text).head? = some '#'

def passes (line : ℕ) : Bool := onLine directives line ≠ [] || passable (lines[line - 1]?.getD [])

theorem serves_none {line : ℕ} (h : onLine directives line = []) : serves U cwe directives line = none := by
  rw [serves, h]
  rfl

theorem scanUp_eq (steps line : ℕ) :
    scanUp U cwe directives lines steps line =
      climb (serves U cwe directives) (passes directives lines) steps line := by
  induction line generalizing steps with
  | zero => cases steps <;> rfl
  | succ line ih =>
    cases steps with
    | zero => rfl
    | succ steps =>
      rw [climb_succ, scanUp, passes, passable, ← lineAt]
      by_cases hnil : onLine directives (line + 1) = []
      · rw [if_neg (not_not.mpr hnil), serves_none U cwe directives hnil, hnil]
        simp only [ih]
        by_cases hblank : lineAt lines (line + 1) = []
        · simp [hblank]
        · by_cases hhash : (lineAt lines (line + 1)).head? = some '#' <;> simp [hblank, hhash]
      · rw [if_pos hnil, ← serves]
        cases hserves : serves U cwe directives (line + 1) with
        | some d => rfl
        | none => simp [hnil, ih]

theorem findMatchingDirective_eq (sinkLine : ℕ) :
    findMatchingDirective U sinkLine cwe directives lines =
      ((onLine directives sinkLine).find? (targets U cwe)).or
        (climb (serves U cwe directives) (passes directives lines) 10 (sinkLine - 1)) := by
  rw [findMatchingDirective, scanUp_eq]
  cases (onLine directives sinkLine).find? (targets U cwe) <;> rfl

end

theorem serves_spec {U : Unicode} {cwe : Text} {directives : List Directive} {line : ℕ} {d : Directive}
    (h : serves U cwe directives line = some d) :
    d ∈ directives ∧ d.line = line ∧ d.exactLine = false ∧ targets U cwe d = true := by
  have hprop := List.find?_some h
  have hmem := List.mem_filter.mp (List.mem_of_find?_eq_some h)
  simp only [Bool.and_eq_true, Bool.not_eq_true'] at hprop
  exact ⟨hmem.1, of_decide_eq_true hmem.2, hprop.1, hprop.2⟩

/-! ## Lines without a statement -/

section
variable (tokenize : Tokenizer) (source : Text)

def physicalLine (line : ℕ) : Text := (splitLines isNewline source)[line - 1]?.getD []

def Clear (line : ℕ) : Prop :=
  passable (physicalLine source line) = true ∧
    ∀ t ∈ (tokenize source).1, t.kind = .code → ¬(t.startRow ≤ line ∧ line ≤ t.endRow)

def Unbracketed (U : Unicode) (cwe : Text) (directives : List Directive) (line : ℕ) : Prop :=
  ∃ d ∈ onLine directives line, d.exactLine = false ∧ targets U cwe d = true

theorem unbracketed_iff {U : Unicode} {cwe : Text} {directives : List Directive} {line : ℕ} :
    Unbracketed U cwe directives line ↔ (serves U cwe directives line).isSome = true := by
  rw [serves, List.find?_isSome]
  simp [Unbracketed]

variable (U : Unicode) (sinkLine : ℕ) (cwe : Text)

def found : Option Directive :=
  findMatchingDirective U sinkLine cwe (extractFileDirectives U tokenize source) (sourceLines source)

def OnSink : Prop := ∃ d ∈ onLine (extractFileDirectives U tokenize source) sinkLine, targets U cwe d = true

structure Above (line : ℕ) : Prop where
  numbered : 1 ≤ line
  above : line < sinkLine
  near : sinkLine ≤ line + 10
  unbracketed : Unbracketed U cwe (extractFileDirectives U tokenize source) line

/-- A suppression never crosses code, and one that need not is found. -/
structure NeverCrosses : Prop where
  only : ∀ d, found tokenize source U sinkLine cwe = some d → d.line < sinkLine →
    d.exactLine = false ∧ targets U cwe d = true ∧ sinkLine ≤ d.line + 10 ∧
      ∀ k, d.line ≤ k → k < sinkLine → Clear tokenize source k
  returned : ((∃ line, Above tokenize source U sinkLine cwe line ∧
      ∀ k, line ≤ k → k < sinkLine → Clear tokenize source k) ∨ OnSink tokenize source U sinkLine cwe) →
    ∃ d, found tokenize source U sinkLine cwe = some d ∧ targets U cwe d = true

structure Nearest (line : ℕ) : Prop where
  above : Above tokenize source U sinkLine cwe line
  first : ∀ k, line < k → ¬Above tokenize source U sinkLine cwe k

/-- Unless the sink's line has a directive itself: where a directive stands above, the scan comes to the nearest
just when no line from there on holds a part of a statement. -/
def StopsAtCode : Prop := OnSink tokenize source U sinkLine cwe ∨
  ∀ line, Nearest tokenize source U sinkLine cwe line →
  ((∀ k, line < k → k < sinkLine →
      passes (extractFileDirectives U tokenize source) (sourceLines source) k = true) ↔
    ∀ k, line ≤ k → k < sinkLine → Clear tokenize source k)

end

section
variable {tokenize : Tokenizer} {source : Text} {U : Unicode} {sinkLine : ℕ} {cwe : Text}

theorem exists_nearest {line : ℕ} (h : Above tokenize source U sinkLine cwe line) :
    ∃ n, line ≤ n ∧ Nearest tokenize source U sinkLine cwe n := by
  induction hgap : sinkLine - line using Nat.strong_induction_on generalizing line with
  | _ gap ih =>
    by_cases hfirst : ∃ k, line < k ∧ Above tokenize source U sinkLine cwe k
    · obtain ⟨k, hk, habove⟩ := hfirst
      have := h.above
      obtain ⟨n, hn, hnearest⟩ := ih (sinkLine - k) (by omega) habove rfl
      exact ⟨n, by omega, hnearest⟩
    · exact ⟨line, Nat.le_refl _, h, fun k hk habove => hfirst ⟨k, hk, habove⟩⟩

theorem Nearest.unique {m n : ℕ} (hm : Nearest tokenize source U sinkLine cwe m)
    (hn : Nearest tokenize source U sinkLine cwe n) : m = n := by
  rcases Nat.lt_trichotomy m n with h | h | h
  · exact absurd hn.above (hm.first n h)
  · exact h
  · exact absurd hm.above (hn.first m h)

theorem reached_iff {line : ℕ} :
    (Reached (serves U cwe (extractFileDirectives U tokenize source))
        (passes (extractFileDirectives U tokenize source) (sourceLines source)) 10 (sinkLine - 1) line ∧
      (serves U cwe (extractFileDirectives U tokenize source) line).isSome = true) ↔
    Nearest tokenize source U sinkLine cwe line ∧ ∀ k, line < k → k < sinkLine →
      passes (extractFileDirectives U tokenize source) (sourceLines source) k = true := by
  constructor
  · rintro ⟨⟨hline, habove, hsteps, hclears⟩, hserves⟩
    refine ⟨⟨⟨hline, by omega, by omega, unbracketed_iff.mpr hserves⟩, ?_⟩, ?_⟩
    · intro k hk hother
      have hnone := (hclears k hk (by have := hother.above; omega)).1
      have hsome := unbracketed_iff.mp hother.unbracketed
      rw [hnone] at hsome
      cases hsome
    · intro k hk hks
      exact (hclears k hk (by omega)).2
  · rintro ⟨⟨⟨hline, habove, hnear, hun⟩, hfirst⟩, hpass⟩
    refine ⟨⟨hline, by omega, by omega, fun j hj hjs => ⟨?_, hpass j hj (by omega)⟩⟩, unbracketed_iff.mp hun⟩
    by_contra hne
    have hsome := Option.isSome_iff_ne_none.mpr hne
    exact hfirst j hj ⟨by omega, by omega, by omega, unbracketed_iff.mpr hsome⟩

theorem onSink_iff : OnSink tokenize source U sinkLine cwe ↔
    ((onLine (extractFileDirectives U tokenize source) sinkLine).find? (targets U cwe)).isSome = true := by
  rw [List.find?_isSome]
  rfl

theorem found_of_not_onSink (h : ¬OnSink tokenize source U sinkLine cwe) :
    found tokenize source U sinkLine cwe =
      climb (serves U cwe (extractFileDirectives U tokenize source))
        (passes (extractFileDirectives U tokenize source) (sourceLines source)) 10 (sinkLine - 1) := by
  have hnone : (onLine (extractFileDirectives U tokenize source) sinkLine).find? (targets U cwe) = none := by
    by_contra hne
    exact h (onSink_iff.mpr (Option.isSome_iff_ne_none.mpr hne))
  rw [found, findMatchingDirective_eq, hnone, Option.none_or]

theorem neverCrosses_of_onSink (h : OnSink tokenize source U sinkLine cwe) :
    NeverCrosses tokenize source U sinkLine cwe := by
  obtain ⟨d, hd⟩ := Option.isSome_iff_exists.mp (onSink_iff.mp h)
  have hfound : found tokenize source U sinkLine cwe = some d := by
    rw [found, findMatchingDirective_eq, hd, Option.some_or]
  have hline : d.line = sinkLine := of_decide_eq_true (List.mem_filter.mp (List.mem_of_find?_eq_some hd)).2
  refine ⟨fun d' hd' habove => ?_, fun _ => ⟨d, hfound, List.find?_some hd⟩⟩
  obtain rfl := Option.some.inj (hfound.symm.trans hd')
  omega

theorem found_iff (h : ¬OnSink tokenize source U sinkLine cwe) {d : Directive} :
    found tokenize source U sinkLine cwe = some d ↔
      serves U cwe (extractFileDirectives U tokenize source) d.line = some d ∧
        Nearest tokenize source U sinkLine cwe d.line ∧ ∀ k, d.line < k → k < sinkLine →
          passes (extractFileDirectives U tokenize source) (sourceLines source) k = true := by
  rw [found_of_not_onSink h, climb_eq_some_iff]
  constructor
  · rintro ⟨line, hreached, hserves⟩
    obtain rfl := (serves_spec hserves).2.1
    exact ⟨hserves, reached_iff.mp ⟨hreached, by rw [hserves]; rfl⟩⟩
  · rintro ⟨hserves, hnearest⟩
    exact ⟨d.line, (reached_iff.mpr hnearest).1, hserves⟩

theorem exists_found (h : ¬OnSink tokenize source U sinkLine cwe) {line : ℕ}
    (hnearest : Nearest tokenize source U sinkLine cwe line)
    (hpass : ∀ k, line < k → k < sinkLine →
      passes (extractFileDirectives U tokenize source) (sourceLines source) k = true) :
    ∃ d, d.line = line ∧ found tokenize source U sinkLine cwe = some d := by
  obtain ⟨d, hd⟩ := Option.isSome_iff_exists.mp (unbracketed_iff.mp hnearest.above.unbracketed)
  obtain rfl := (serves_spec hd).2.1
  exact ⟨d, rfl, (found_iff h).mpr ⟨hd, hnearest, hpass⟩⟩

end

/-- A suppression never crosses code just where the scan stops at it. -/
theorem neverCrosses_iff (tokenize : Tokenizer) (source : Text) (U : Unicode) (sinkLine : ℕ) (cwe : Text) :
    NeverCrosses tokenize source U sinkLine cwe ↔ StopsAtCode tokenize source U sinkLine cwe := by
  by_cases hsink : OnSink tokenize source U sinkLine cwe
  · exact ⟨fun _ => .inl hsink, fun _ => neverCrosses_of_onSink hsink⟩
  rw [StopsAtCode, or_iff_right hsink]
  constructor
  · rintro ⟨honly, hreturned⟩ line hnearest
    constructor
    · intro hpass
      obtain ⟨d, rfl, hd⟩ := exists_found hsink hnearest hpass
      exact (honly d hd hnearest.above.above).2.2.2
    · intro hclear
      obtain ⟨d, hd, -⟩ := hreturned (.inl ⟨line, hnearest.above, hclear⟩)
      obtain ⟨-, hnearest', hpass⟩ := (found_iff hsink).mp hd
      rwa [hnearest'.unique hnearest] at hpass
  · intro hstops
    constructor
    · intro d hd habove
      obtain ⟨hserves, hnearest, hpass⟩ := (found_iff hsink).mp hd
      obtain ⟨-, -, hexact, htargets⟩ := serves_spec hserves
      exact ⟨hexact, htargets, hnearest.above.near, (hstops _ hnearest).mp hpass⟩
    · intro h
      obtain ⟨line, habove, hclear⟩ := h.resolve_right hsink
      obtain ⟨n, hn, hnearest⟩ := exists_nearest habove
      have hpass := (hstops n hnearest).mpr fun k hk hks => hclear k (by omega) hks
      obtain ⟨d, -, hd⟩ := exists_found hsink hnearest hpass
      exact ⟨d, hd, (serves_spec ((found_iff hsink).mp hd).1).2.2.2⟩

namespace TrailingDirective

def ascii : Unicode where
  alnum := Char.isAlphanum
  digit := Char.isDigit
  upper := List.map Char.toUpper

/-- The tokens of `x = 1  # tcs:ignore CWE-89` and `run(x)`. -/
def tokens : List Token :=
  [⟨.code, 1, 1, lit "x"⟩, ⟨.code, 1, 1, lit "="⟩, ⟨.code, 1, 1, lit "1"⟩,
    ⟨.comment, 1, 1, lit "# tcs:ignore CWE-89"⟩, ⟨.layout, 1, 1, lit "\n"⟩, ⟨.code, 2, 2, lit "run"⟩,
    ⟨.code, 2, 2, lit "("⟩, ⟨.code, 2, 2, lit "x"⟩, ⟨.code, 2, 2, lit ")"⟩, ⟨.layout, 2, 2, lit "\n"⟩,
    ⟨.layout, 3, 3, []⟩]

def source : Text := lit "x = 1  # tcs:ignore CWE-89\nrun(x)\n"

def directive : Directive := ⟨[lit "CWE-89"], none, 1, false⟩

theorem found_directive : found (fun _ => (tokens, false)) source ascii 2 (lit "CWE-89") = some directive := by
  decide

end TrailingDirective

/-- A directive behind one statement silences the next. -/
theorem directive_crosses_code : ¬∀ (tokenize : Tokenizer) (source : Text) (U : Unicode) (sinkLine : ℕ)
    (cwe : Text), NeverCrosses tokenize source U sinkLine cwe := by
  intro h
  have hclear := ((h (fun _ => (TrailingDirective.tokens, false)) TrailingDirective.source TrailingDirective.ascii 2
    (lit "CWE-89")).only _ TrailingDirective.found_directive (by decide)).2.2.2 1 (by decide) (by decide)
  exact hclear.2 ⟨.code, 1, 1, lit "x"⟩ (by simp [TrailingDirective.tokens]) rfl (by decide)

end TimeCodeSecurity.Suppressions
