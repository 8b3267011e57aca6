import TimeCodeSecurity.Foundations.Readings

/-! # The structural ReDoS check

`_regex_catastrophic_backtracking` over the tree that `re._parser` builds, and the language of that tree with
the ways to read it. A character is its code point.
-/
namespace TimeCodeSecurity.Scanner
open Readings (Rx)
set_option autoImplicit false

/-- The arguments of `CATEGORY`: `\d`, `\D`, `\s`, `\S`, `\w`, `\W`. -/
inductive CharCategory
  | digit | notDigit | space | notSpace | word | notWord
deriving DecidableEq, Repr

/-- The members of `IN`. -/
inductive SetMember
  | negate
  | literal (c : ℕ)
  | range (lo hi : ℕ)
  | category (k : CharCategory)
deriving DecidableEq, Repr

inductive RepeatKind
  | max | min | possessive
deriving DecidableEq, Repr

/-- An operation with its argument; `none` is `MAXREPEAT`. -/
inductive PatternToken
  | literal (c : ℕ)
  | notLiteral (c : ℕ)
  | any
  | inSet (members : List SetMember)
  | subpattern (body : List PatternToken)
  | branch (branches : List (List PatternToken))
  | repeated (kind : RepeatKind) (lo : ℕ) (hi : Option ℕ) (body : List PatternToken)
  /-- `AT`. -/
  | anchor
  /-- Any other operation. -/
  | other

def regexMultiplyingBound : ℕ := 10
def regexParseDepthLimit : ℕ := 32
def regexDigitChars : List ℕ := List.range' 48 10

/-- The characters of a set whose ranges are small; `None` for a member that is not spelled out. -/
def spelledChars (categoryChars : CharCategory → Option (List ℕ)) : List SetMember → Option (List ℕ)
  | [] => some []
  | .literal c :: ms => (spelledChars categoryChars ms).map (c :: ·)
  | .range start stop :: ms =>
    if stop - start ≤ 512 then (spelledChars categoryChars ms).map (List.range' start (stop + 1 - start) ++ ·)
    else none
  | .category k :: ms => do return (← categoryChars k) ++ (← spelledChars categoryChars ms)
  | .negate :: _ => none

def firstCategory (k : CharCategory) : Option (List ℕ) := if k = .digit then some regexDigitChars else none

def PatternToken.isAnchor : PatternToken → Bool
  | .anchor => true
  | _ => false

mutual
def regexFirstChars : List PatternToken → Option (List ℕ)
  | [] => some []
  | token :: tokens => if token.isAnchor then regexFirstChars tokens else token.firstChars

def PatternToken.firstChars : PatternToken → Option (List ℕ)
  | .literal c => some [c]
  | .inSet members => spelledChars firstCategory members
  | .subpattern body => regexFirstChars body
  | .repeated _ _ _ body => regexFirstChars body
  | .branch branches => branchesFirstChars branches
  | _ => none

def branchesFirstChars : List (List PatternToken) → Option (List ℕ)
  | [] => some []
  | branch :: branches => do return (← regexFirstChars branch) ++ (← branchesFirstChars branches)
end

mutual
def regexTrailingSeparator : List PatternToken → Option (List ℕ)
  | [] => none
  | token :: tokens => if tokens.isEmpty then token.trailingSeparator else regexTrailingSeparator tokens

def PatternToken.trailingSeparator : PatternToken → Option (List ℕ)
  | .literal c => some [c]
  | .inSet members =>
    match spelledChars (fun _ => none) members with
    | some [] => none
    | characters => characters
  | .subpattern body => regexTrailingSeparator body
  | _ => none
end

/-! ## The walk -/

/-- `a & b` is not empty. -/
def meets (a b : List ℕ) : Bool := a.any (b.contains ·)

def multiplies (maximum : Option ℕ) : Bool := maximum.all (regexMultiplyingBound ≤ ·)

def delimited (body : List PatternToken) : Bool :=
  match regexTrailingSeparator body, regexFirstChars body with
  | some separator, some currentChars => !meets separator currentChars
  | _, _ => false

structure WalkState where
  previousRepeatChars : Option (List ℕ) := none
  previousSeparator : Option (List ℕ) := none
  previousSingleChar : Option (List ℕ) := none

def WalkState.repeatsMeet (s : WalkState) (currentChars : Option (List ℕ)) : Bool :=
  match s.previousRepeatChars with
  | none => false
  | some previous =>
    let pinned :=
      match s.previousSeparator, currentChars with
      | some separator, some current => !meets separator current
      | _, _ => false
    !pinned && currentChars.all (meets previous)

def WalkState.startsLikePrevious (s : WalkState) (starts : List (Option (List ℕ))) : Bool :=
  match s.previousSingleChar with
  | none => false
  | some previous => starts.any (·.any (meets previous))

def WalkState.afterRepeat (s : WalkState) (minimum : ℕ) (body : List PatternToken) : WalkState :=
  if 0 < minimum ∨ s.previousRepeatChars = none then
    { s with
      previousRepeatChars := regexFirstChars body
      previousSeparator := if delimited body then regexTrailingSeparator body else none }
  else
    match s.previousRepeatChars, regexFirstChars body with
    | some previous, some current => { s with previousRepeatChars := some (previous ++ current) }
    | _, _ => s

def WalkState.after (s : WalkState) : PatternToken → WalkState
  | .repeated _ minimum _ body => s.afterRepeat minimum body
  | .subpattern _ | .branch _ => { previousSingleChar := s.previousSingleChar }
  | .literal c => { previousSingleChar := regexFirstChars [.literal c] }
  | .inSet members => { previousSingleChar := regexFirstChars [.inSet members] }
  | _ => {}

def startsMeet : List (Option (List ℕ)) → Bool
  | [] => false
  | none :: starts => startsMeet starts
  | some first :: starts => starts.any (·.any (meets first)) || startsMeet starts

mutual
/-- The loop over `tokens`, at a depth that the limit allows. -/
def walkSequence (insideRepeat : Bool) (depth : ℕ) (s : WalkState) : List PatternToken → Bool
  | [] => false
  | token :: tokens => walkToken insideRepeat depth s token || walkSequence insideRepeat depth (s.after token) tokens

def walkToken (insideRepeat : Bool) (depth : ℕ) (s : WalkState) : PatternToken → Bool
  | .repeated _ _ maximum body =>
    (insideRepeat && multiplies maximum && !delimited body) ||
      (!delimited body && (decide (depth + 1 ≤ regexParseDepthLimit) &&
        walkSequence (insideRepeat || multiplies maximum) (depth + 1) {} body)) ||
      s.repeatsMeet (regexFirstChars body)
  | .subpattern body => decide (depth + 1 ≤ regexParseDepthLimit) && walkSequence insideRepeat (depth + 1) {} body
  | .branch branches =>
    (insideRepeat && s.startsLikePrevious (branches.map regexFirstChars)) ||
      (insideRepeat && startsMeet (branches.map regexFirstChars)) ||
      (decide (depth + 1 ≤ regexParseDepthLimit) && walkBranches insideRepeat depth branches)
  | _ => false

def walkBranches (insideRepeat : Bool) (depth : ℕ) : List (List PatternToken) → Bool
  | [] => false
  | branch :: branches => walkSequence insideRepeat (depth + 1) {} branch || walkBranches insideRepeat depth branches
end

def regexCatastrophicBacktracking (tokens : List PatternToken) (insideRepeat : Bool := false)
    (depth : ℕ := 0) : Bool :=
  decide (depth ≤ regexParseDepthLimit) && walkSequence insideRepeat depth {} tokens

/-- `parse` is `re._parser.parse`, with `none` for a pattern that it refuses. -/
def isRedosVulnerablePattern (parse : String → Option (List PatternToken)) (pattern : String) : Bool :=
  if pattern = "" then false
  else
    match parse pattern with
    | some tokens => regexCatastrophicBacktracking tokens
    | none => false

section
variable (inCategory : CharCategory → ℕ → Prop)

def SetMember.Holds (x : ℕ) : SetMember → Prop
  | .negate => False
  | .literal c => x = c
  | .range start stop => start ≤ x ∧ x ≤ stop
  | .category k => inCategory k x

/-- `NEGATE` stands in front. -/
def InSet (x : ℕ) : List SetMember → Prop
  | .negate :: members => ¬∃ m ∈ members, m.Holds inCategory x
  | members => ∃ m ∈ members, m.Holds inCategory x

mutual
def PatternToken.rx : PatternToken → Rx ℕ
  | .literal c => .one (· = c)
  | .notLiteral c => .one (· ≠ c)
  -- without `DOTALL`
  | .any => .one (· ≠ 10)
  | .inSet members => .one (InSet inCategory · members)
  | .subpattern body => sequenceRx body
  | .branch branches => branchesRx branches
  | .repeated _ lo hi body => .rep lo hi (sequenceRx body)
  | .anchor | .other => .never

def sequenceRx : List PatternToken → Rx ℕ
  | [] => .empty
  | token :: tokens => .cat token.rx (sequenceRx tokens)

def branchesRx : List (List PatternToken) → Rx ℕ
  | [] => .never
  | branch :: branches => .alt (sequenceRx branch) (branchesRx branches)
end

end

mutual
def PatternToken.nesting : PatternToken → ℕ
  | .subpattern body => sequenceNesting body + 1
  | .branch branches => branchesNesting branches + 1
  | .repeated _ _ _ body => sequenceNesting body + 1
  | _ => 0

def sequenceNesting : List PatternToken → ℕ
  | [] => 0
  | token :: tokens => max token.nesting (sequenceNesting tokens)

def branchesNesting : List (List PatternToken) → ℕ
  | [] => 0
  | branch :: branches => max (sequenceNesting branch) (branchesNesting branches)
end

mutual
def PatternToken.covered : PatternToken → Bool
  | .literal _ | .notLiteral _ | .any | .inSet _ => true
  | .subpattern body => sequenceCovered body
  | .branch branches => branchesCovered branches
  | .repeated kind _ _ body => kind != .possessive && sequenceCovered body
  | .anchor | .other => false

def sequenceCovered : List PatternToken → Bool
  | [] => true
  | token :: tokens => token.covered && sequenceCovered tokens

def branchesCovered : List (List PatternToken) → Bool
  | [] => true
  | branch :: branches => sequenceCovered branch && branchesCovered branches
end

structure RegexPattern where
  tokens : List PatternToken
  covered : sequenceCovered tokens = true
  shallow : sequenceNesting tokens ≤ regexParseDepthLimit

end TimeCodeSecurity.Scanner
