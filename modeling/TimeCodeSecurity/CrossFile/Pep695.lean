import Mathlib.Data.Int.Notation
import TimeCodeSecurity.Foundations.Replacing
import TimeCodeSecurity.Scanner.Nosec

/-! # Type parameters blanked

`cross_file_engine.py`: a file that the parser refuses is read once more with its type parameters written over
by blanks. The rows of the tokens are lines by `\n`; the starts of the lines come from `splitlines`, which ends a
line at some more characters.
-/
namespace TimeCodeSecurity.CrossFile.Pep695
open KeptLines Overwriting Scanner
set_option autoImplicit false

inductive TokenKind
  | name
  | operator
  | newline
  | indent
  | dedent
  | nl
  | comment
  | encoding
  | other
deriving DecidableEq, Repr

/-- `tokenize.TokenInfo`: a position is a row, counted from 1, and a column. -/
structure Token where
  kind : TokenKind
  string : List Char
  start : ℕ × ℕ
  stop : ℕ × ℕ
deriving DecidableEq, Repr

/-- `tokenize.generate_tokens`, `none` when it raises: the rows are the lines by `\n`, a token that has a text is in
the source, and a name is a word. -/
structure Tokenizer where
  tokenize : List Char → Option (List Token)
  within : ∀ {source tokens}, tokenize source = some tokens → ∀ t ∈ tokens, t.string ≠ [] →
    Within (cut (· == '\n') source) t.start ∧ Within (cut (· == '\n') source) t.stop
  names : ∀ {source tokens}, tokenize source = some tokens → ∀ t ∈ tokens, t.kind = .name →
    t.string ≠ [] ∧ ∀ c ∈ t.string, isNewline c = false

/-! ## Constructs -/

structure Construct where
  start : ℕ × ℕ
  stop : ℕ × ℕ
  text : List Char
deriving DecidableEq, Repr

def spelled (t : Token) (bracket : Char) : Bool := t.string = [bracket]

def isOperator (t : Token) (bracket : Char) : Bool := t.kind = .operator && t.string = [bracket]

section
variable (brackets : Token → Char → Bool)

def matchFrom (index : ℕ) (depth : ℤ) : List Token → Option ℕ
  | [] => none
  | t :: tokens =>
    if brackets t '[' then matchFrom (index + 1) (depth + 1) tokens
    else if brackets t ']' then
      if depth - 1 = 0 then some index else matchFrom (index + 1) (depth - 1) tokens
    else matchFrom (index + 1) depth tokens

def matchingBracket (tokens : List Token) (openIndex : ℕ) : Option ℕ :=
  matchFrom brackets openIndex 0 (tokens.drop openIndex)

def opensStatement (previous : Option Token) : Bool :=
  match previous with
  | none => true
  | some t => t.kind ∈ [.newline, .indent, .dedent] || t.string = [';']

def tokenBefore (tokens : List Token) (index n : ℕ) : Option Token :=
  if n ≤ index then tokens[index - n]? else none

def atStatementStart (tokens : List Token) (index : ℕ) (token : Token) : Bool :=
  let previous := tokenBefore tokens index 1
  if token.string = "def".toList ∧ (previous.any fun t => t.string = "async".toList) then
    opensStatement (tokenBefore tokens index 2)
  else opensStatement previous

local instance lawfulText : LawfulBEq (List Char) := inferInstance

def constructsAt (tokens : List Token) (index : ℕ) (token : Token) : List Construct :=
  if token.kind ≠ .name ∨ token.string ∉ ["def".toList, "class".toList, "type".toList] ∨
      atStatementStart tokens index token = false then
    []
  else
    match tokens[index + 1]?, tokens[index + 2]? with
    | some nameToken, some marker =>
      let head : Construct := { start := token.start, stop := nameToken.stop, text := nameToken.string }
      if nameToken.kind ≠ .name then []
      else if marker.string = ['['] then
        match matchingBracket brackets tokens (index + 2) with
        | none => []
        | some close =>
          match tokens[close]?, tokens[close + 1]? with
          | some closing, some after =>
            let list : Construct := { start := marker.start, stop := closing.stop, text := [] }
            if token.string = "type".toList then if after.string = ['='] then [head, list] else []
            else if token.string = "def".toList then if after.string = ['('] then [list] else []
            else if after.string ∈ [['('], [':']] then [list]
            else []
          | _, _ => []
      else if token.string = "type".toList ∧ marker.string = ['='] then [head]
      else []
    | _, _ => []

def constructs (tokens : List Token) : List Construct :=
  tokens.zipIdx.flatMap fun p => constructsAt brackets tokens p.2 p.1

end

/-- `offset`; a row that has no start is an `IndexError`. -/
def offset (starts : List ℕ) (position : ℕ × ℕ) : Option ℕ := starts[position.1 - 1]?.map (· + position.2)

def editOf (starts : List ℕ) (c : Construct) : Option (Span Char) :=
  match offset starts c.start, offset starts c.stop with
  | some start, some stop => some { start, stop, text := c.text }
  | _, _ => none

/-- One edit over the characters; behind the last one is an `IndexError`. -/
def overwrite (characters : List Char) (e : Span Char) : Option (List Char) :=
  if e.start < e.stop ∧ characters.length < e.stop then none else some (write isNewline ' ' characters e)

section
variable (T : Tokenizer)

/-- The tokens without `NL`, `COMMENT` and `ENCODING`. -/
def tokensOf (source : List Char) : Option (List Token) :=
  (T.tokenize source).map fun tokens => tokens.filter fun t => t.kind ∉ [.nl, .comment, .encoding]

def rewritePep695 (source : List Char) : Option (List Char) :=
  match tokensOf T source with
  | none => none
  | some tokens =>
    let starts := (cut isLineBoundary source).scanl (fun n line => n + line.length) 0
    match (constructs spelled tokens).mapM (editOf starts) with
    | none => none
    | some edits => if edits.isEmpty then none else edits.foldlM overwrite source

def placed (lines : List (List Char)) (c : Construct) : Span Char :=
  { start := placeOf lines c.start, stop := placeOf lines c.stop, text := c.text }

def InTypeSyntax (source : List Char) (p : ℕ) : Prop :=
  ∃ tokens, tokensOf T source = some tokens ∧
    ∃ c ∈ constructs isOperator tokens, (placed (cut (· == '\n') source) c).Covers p

/-- A text comes out with the length and the newlines of the source, and differs in type parameters only. -/
def ChangesOnlyTypeSyntax (source : List Char) : Prop :=
  ∀ text, rewritePep695 T source = some text →
    text.length = source.length ∧
    (∀ newline, isNewline newline = true → ∀ p : ℕ, text[p]? = some newline ↔ source[p]? = some newline) ∧
    ∀ p : ℕ, ¬InTypeSyntax T source p → text[p]? = source[p]?

/-- What the constructs put at a place when their rows are counted by `splitlines`. -/
def strays (source : List Char) (p : ℕ) : List Char :=
  ((constructs spelled ((tokensOf T source).getD [])).map (placed (cut isLineBoundary source))).filterMap
    (leaves isNewline ' ' source p)

/-- Outside the type parameters, the last of the constructs puts the character that is there. -/
def StraysUnseen (source : List Char) : Prop :=
  ∀ p : ℕ, ¬InTypeSyntax T source p → ∀ c, (strays T source p).getLast? = some c → source[p]? = some c

end

/-! ## What the constructs are made of -/

theorem matchFrom_spec {brackets : Token → Char → Bool} {index close : ℕ} {depth : ℤ} {tokens : List Token}
    (h : matchFrom brackets index depth tokens = some close) :
    index ≤ close ∧ ∃ t, tokens[close - index]? = some t ∧ brackets t ']' = true := by
  induction tokens generalizing index depth with
  | nil => cases h
  | cons t tokens ih =>
    have hlater : ∀ {depth'}, matchFrom brackets (index + 1) depth' tokens = some close →
        index ≤ close ∧ ∃ s, (t :: tokens)[close - index]? = some s ∧ brackets s ']' = true := by
      intro depth' h
      obtain ⟨hle, s, hs, hclose⟩ := ih h
      have hsucc : close - index = close - (index + 1) + 1 := by omega
      exact ⟨by omega, s, by rw [hsucc, List.getElem?_cons_succ, hs], hclose⟩
    rw [matchFrom] at h
    split at h
    · exact hlater h
    · split at h
      · rename_i hclose
        split at h
        · obtain rfl := Option.some.inj h
          exact ⟨Nat.le_refl _, t, by simp, hclose⟩
        · exact hlater h
      · exact hlater h

theorem matchingBracket_spec {brackets : Token → Char → Bool} {tokens : List Token} {openIndex close : ℕ}
    (h : matchingBracket brackets tokens openIndex = some close) :
    ∃ t, tokens[close]? = some t ∧ brackets t ']' = true := by
  obtain ⟨hle, t, ht, hclose⟩ := matchFrom_spec h
  rw [List.getElem?_drop, Nat.add_sub_cancel' hle] at ht
  exact ⟨t, ht, hclose⟩

def Joins (tokens : List Token) (c : Construct) : Prop :=
  ∃ first ∈ tokens, ∃ last ∈ tokens, c.start = first.start ∧ c.stop = last.stop ∧ first.string ≠ [] ∧
    (last.kind = .name ∧ c.text = last.string ∨ last.string ≠ [] ∧ c.text = [])

section
variable {tokens : List Token} {first last : Token}

theorem joins_head (hfirst : first ∈ tokens) (hlast : last ∈ tokens) (hne : first.string ≠ [])
    (hkind : last.kind = .name) :
    Joins tokens { start := first.start, stop := last.stop, text := last.string } :=
  ⟨first, hfirst, last, hlast, rfl, rfl, hne, .inl ⟨hkind, rfl⟩⟩

theorem joins_list (hfirst : first ∈ tokens) (hlast : last ∈ tokens) (hopen : first.string = ['['])
    (hclose : last.string = [']']) : Joins tokens { start := first.start, stop := last.stop, text := [] } :=
  ⟨first, hfirst, last, hlast, rfl, rfl, by simp [hopen], .inr ⟨by simp [hclose], rfl⟩⟩

end

theorem joins_of_mem {brackets : Token → Char → Bool} (hbrackets : ∀ t, brackets t ']' = true → t.string = [']'])
    {tokens : List Token} {index : ℕ} {token : Token} (htoken : token ∈ tokens) :
    ∀ c ∈ constructsAt brackets tokens index token, Joins tokens c := by
  rw [constructsAt]
  split
  · exact List.forall_mem_nil _
  · rename_i hword
    have hne : token.string ≠ [] := by
      intro hnil
      apply hword
      simp [hnil]
    split
    · rename_i nameToken marker hname hmarker
      split
      · exact List.forall_mem_nil _
      · rename_i hkind
        have hhead := joins_head htoken (List.mem_of_getElem? hname) hne (not_not.mp hkind)
        split
        · rename_i hopen
          split
          · exact List.forall_mem_nil _
          · rename_i close hclose
            obtain ⟨closing', hclosing', hbracket⟩ := matchingBracket_spec hclose
            split
            · rename_i closing after hclosing hafter
              obtain rfl : closing' = closing := Option.some.inj (hclosing'.symm.trans hclosing)
              have hlist := joins_list (List.mem_of_getElem? hmarker) (List.mem_of_getElem? hclosing) hopen
                (hbrackets closing' hbracket)
              split_ifs <;> simp [hhead, hlist]
            · exact List.forall_mem_nil _
        · split_ifs <;> simp [hhead]
    · exact List.forall_mem_nil _

variable {T : Tokenizer} {source : List Char} {tokens : List Token}

theorem construct_fits (htokens : tokensOf T source = some tokens) {c : Construct}
    (hc : c ∈ constructs spelled tokens) :
    Within (cut (· == '\n') source) c.start ∧ Within (cut (· == '\n') source) c.stop ∧
      ∀ ch ∈ c.text, isNewline ch = false := by
  rw [tokensOf, Option.map_eq_some_iff] at htokens
  obtain ⟨all, hall, rfl⟩ := htokens
  obtain ⟨⟨token, index⟩, hmem, hat⟩ := List.mem_flatMap.mp hc
  have hspelled : ∀ t, spelled t ']' = true → t.string = [']'] := fun t ht => of_decide_eq_true ht
  obtain ⟨first, hfirst, last, hlast, hstart, hstop, hne, htext⟩ :=
    joins_of_mem hspelled (List.fst_mem_of_mem_zipIdx hmem) c hat
  have hfirst' := List.mem_of_mem_filter hfirst
  have hlast' := List.mem_of_mem_filter hlast
  rw [hstart, hstop]
  refine ⟨(T.within hall first hfirst' hne).1, ?_⟩
  rcases htext with ⟨hkind, htext⟩ | ⟨hlastNe, htext⟩
  · have hname := T.names hall last hlast' hkind
    rw [htext]
    exact ⟨(T.within hall last hlast' hname.1).2, hname.2⟩
  · rw [htext]
    exact ⟨(T.within hall last hlast' hlastNe).2, fun ch hch => nomatch hch⟩

theorem offset_eq {position : ℕ × ℕ} (h : Within (cut (· == '\n') source) position) :
    offset ((cut isLineBoundary source).scanl (fun n line => n + line.length) 0) position =
      some (placeOf (cut isLineBoundary source) position) := by
  obtain ⟨line, hline, -⟩ := h
  have hrow : position.1 - 1 < (cut (· == '\n') source).length := (List.getElem?_eq_some_iff.mp hline).1
  have hlen : (cut (· == '\n') source).length ≤ (cut isLineBoundary source).length :=
    length_cut_newline_le rfl source
  rw [offset, getElem?_scanl_length (by omega)]
  rfl

theorem placeOf_le_length {position : ℕ × ℕ} (h : Within (cut (· == '\n') source) position) :
    placeOf (cut isLineBoundary source) position ≤ source.length := by
  have hshift : placeOf (cut isLineBoundary source) position ≤ placeOf (cut (· == '\n') source) position :=
    Nat.add_le_add_right (length_take_cut_le rfl source _) _
  have hle := placeOf_le h
  rw [flatten_cut] at hle
  omega

theorem mapM_editOf (htokens : tokensOf T source = some tokens) :
    (constructs spelled tokens).mapM
        (editOf ((cut isLineBoundary source).scanl (fun n line => n + line.length) 0)) =
      some ((constructs spelled tokens).map (placed (cut isLineBoundary source))) := by
  have heach : ∀ c ∈ constructs spelled tokens,
      editOf ((cut isLineBoundary source).scanl (fun n line => n + line.length) 0) c =
        some (placed (cut isLineBoundary source) c) := by
    intro c hc
    obtain ⟨hstart, hstop, -⟩ := construct_fits htokens hc
    rw [editOf, offset_eq hstart, offset_eq hstop]
    rfl
  generalize constructs spelled tokens = cs at heach
  induction cs with
  | nil => rfl
  | cons c cs ih =>
    rw [List.forall_mem_cons] at heach
    rw [List.mapM_cons, heach.1, ih heach.2]
    rfl

theorem foldlM_overwrite {edits : List (Span Char)} {characters : List Char}
    (hstop : ∀ e ∈ edits, e.stop ≤ characters.length) (htext : ∀ e ∈ edits, ∀ c ∈ e.text, isNewline c = false) :
    edits.foldlM overwrite characters = some (edits.foldl (write isNewline ' ') characters) := by
  induction edits generalizing characters with
  | nil => rfl
  | cons e edits ih =>
    rw [List.forall_mem_cons] at hstop htext
    have hone : overwrite characters e = some (write isNewline ' ' characters e) := by
      rw [overwrite, if_neg]
      omega
    have hlen : (write isNewline ' ' characters e).length = characters.length :=
      length_eq_of_kept (kept_write rfl htext.1 characters)
    rw [List.foldlM_cons, hone, List.foldl_cons]
    exact ih (fun e' he' => hlen ▸ hstop.2 e' he') htext.2

theorem rewritePep695_eq (htokens : tokensOf T source = some tokens) :
    rewritePep695 T source =
      if constructs spelled tokens = [] then none
      else some (((constructs spelled tokens).map (placed (cut isLineBoundary source))).foldl
        (write isNewline ' ') source) := by
  rw [rewritePep695, htokens]
  simp only [mapM_editOf htokens, List.isEmpty_iff, List.map_eq_nil_iff]
  split_ifs with hnil
  · rfl
  · apply foldlM_overwrite
    · rw [List.forall_mem_map]
      exact fun c hc => placeOf_le_length (construct_fits htokens hc).2.1
    · rw [List.forall_mem_map]
      exact fun c hc => (construct_fits htokens hc).2.2

theorem changesOnlyTypeSyntax_iff (T : Tokenizer) (source : List Char) :
    ChangesOnlyTypeSyntax T source ↔ StraysUnseen T source := by
  cases htokens : tokensOf T source with
  | none =>
    have hrewrite : rewritePep695 T source = none := by rw [rewritePep695, htokens]
    have hstrays : ∀ p, strays T source p = [] := fun p => by rw [strays, htokens]; rfl
    constructor
    · intro _ p _ c hc
      rw [hstrays] at hc
      cases hc
    · intro _ text htext
      rw [hrewrite] at htext
      cases htext
  | some tokens =>
    have hrewrite := rewritePep695_eq htokens
    have htext : ∀ s ∈ (constructs spelled tokens).map (placed (cut isLineBoundary source)),
        ∀ c ∈ s.text, isNewline c = false := by
      rw [List.forall_mem_map]
      exact fun c hc => (construct_fits htokens hc).2.2
    have hstrays : ∀ p, strays T source p =
        ((constructs spelled tokens).map (placed (cut isLineBoundary source))).filterMap
          (leaves isNewline ' ' source p) := fun p => by rw [strays, htokens]; rfl
    have hblank : isNewline ' ' = false := rfl
    have hplace := fun p => getElem?_foldl_write_eq_iff hblank htext source p
    simp only [StraysUnseen, hstrays, ← hplace]
    constructor
    · intro h p hp
      by_cases hnil : constructs spelled tokens = []
      · rw [hnil]
        rfl
      · rw [if_neg hnil] at hrewrite
        exact (h _ hrewrite).2.2 p hp
    · intro h text hout
      by_cases hnil : constructs spelled tokens = []
      · rw [hrewrite, if_pos hnil] at hout
        cases hout
      · rw [hrewrite, if_neg hnil] at hout
        obtain rfl := Option.some.inj hout
        have hkept := kept_foldl_write hblank htext source
        exact ⟨length_eq_of_kept hkept, fun newline hnewline p => getElem?_of_kept hkept hnewline p, h⟩

def formFeedSource : List Char := ['\x0c', '\n'] ++ "def f[T](x): pass\n".toList

def formFeedTokens : List Token :=
  [ { kind := .nl, string := ['\n'], start := (1, 1), stop := (1, 2) },
    { kind := .name, string := "def".toList, start := (2, 0), stop := (2, 3) },
    { kind := .name, string := ['f'], start := (2, 4), stop := (2, 5) },
    { kind := .operator, string := ['['], start := (2, 5), stop := (2, 6) },
    { kind := .name, string := ['T'], start := (2, 6), stop := (2, 7) },
    { kind := .operator, string := [']'], start := (2, 7), stop := (2, 8) },
    { kind := .operator, string := ['('], start := (2, 8), stop := (2, 9) },
    { kind := .name, string := ['x'], start := (2, 9), stop := (2, 10) },
    { kind := .operator, string := [')'], start := (2, 10), stop := (2, 11) },
    { kind := .operator, string := [':'], start := (2, 11), stop := (2, 12) },
    { kind := .name, string := "pass".toList, start := (2, 13), stop := (2, 17) },
    { kind := .newline, string := ['\n'], start := (2, 17), stop := (2, 18) },
    { kind := .other, string := [], start := (3, 0), stop := (3, 0) } ]

theorem formFeedTokens_words : (formFeedTokens.all fun t =>
    t.kind ≠ .name || (t.string ≠ [] && t.string.all fun c => !isNewline c)) = true := by decide

def formFeedTokenizer : Tokenizer where
  tokenize source := if source = formFeedSource then some formFeedTokens else none
  within := by
    intro source tokens h
    split at h
    · rename_i hsource
      obtain rfl := Option.some.inj h
      subst hsource
      decide
    · cases h
  names := by
    intro source tokens h t ht hkind
    split at h
    · obtain rfl := Option.some.inj h
      have hword := List.all_eq_true.mp formFeedTokens_words t ht
      simpa [hkind] using hword
    · cases h

/-- The name of the function is blanked, and the closing bracket is not. -/
theorem form_feed_blanks_the_name : ¬ChangesOnlyTypeSyntax formFeedTokenizer formFeedSource := by
  intro h
  have hout : rewritePep695 formFeedTokenizer formFeedSource =
      some (['\x0c', '\n'] ++ "def    ](x): pass\n".toList) := by decide +kernel
  have hframe := (h _ hout).2.2 6
  have hname : ¬InTypeSyntax formFeedTokenizer formFeedSource 6 := by
    rintro ⟨tokens, htokens, c, hc, hcovers⟩
    have hall : tokensOf formFeedTokenizer formFeedSource = some formFeedTokens.tail := by decide +kernel
    obtain rfl := Option.some.inj (hall.symm.trans htokens)
    have hone : constructs isOperator formFeedTokens.tail = [⟨(2, 5), (2, 8), []⟩] := by decide +kernel
    rw [hone, List.mem_singleton] at hc
    subst hc
    exact absurd hcovers (by decide)
  exact absurd (hframe hname) (by decide)

end TimeCodeSecurity.CrossFile.Pep695
