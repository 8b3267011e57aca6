import TimeCodeSecurity.Foundations.NamedPlaces
import TimeCodeSecurity.Foundations.ShellWords
import TimeCodeSecurity.Remediation.PathExpressions
import TimeCodeSecurity.Sarif.StepLocation

/-! # Commands as argument lists

`Cwe78CmdInjectionTransformer` writes a command template down with a name in place of every value, splits the text
into words, and looks the names up in the words again.
-/
namespace TimeCodeSecurity.Remediation
open Py NamedPlaces ShellWords
set_option autoImplicit false

/-! ## The template -/

/-- `type(node).__name__`. -/
def typeName : Expr → String
  | .boolOp .. => "BoolOp"
  | .namedExpr .. => "NamedExpr"
  | .binOp .. => "BinOp"
  | .unaryOp .. => "UnaryOp"
  | .lambda .. => "Lambda"
  | .ifExp .. => "IfExp"
  | .dict .. => "Dict"
  | .set .. => "Set"
  | .listComp .. => "ListComp"
  | .setComp .. => "SetComp"
  | .dictComp .. => "DictComp"
  | .generatorExp .. => "GeneratorExp"
  | .await .. => "Await"
  | .yield .. => "Yield"
  | .yieldFrom .. => "YieldFrom"
  | .compare .. => "Compare"
  | .call .. => "Call"
  | .formattedValue .. => "FormattedValue"
  | .joinedStr .. => "JoinedStr"
  | .constant .. => "Constant"
  | .attr .. => "Attribute"
  | .subscript .. => "Subscript"
  | .starred .. => "Starred"
  | .name .. => "Name"
  | .list .. => "List"
  | .tuple .. => "Tuple"
  | .slice .. => "Slice"

/-- A value of a template: whose text it shows, and what is kept of it. An operand of `+` that is not shown by `str`
is a text itself. -/
structure Interpolation where
  shown : Expr
  entry : Expr
  isOperand : Bool

inductive CommandPart
  | text (s : List Char)
  | value (v : Interpolation)

def isEmptySpec : Option Expr → Bool
  | none | some (.joinedStr _ []) => true
  | _ => false

/-- What a hole of an f-string shows the text of; `!r`, `!a` and a format make another text of the value. -/
def shownInHole : Expr → Expr
  | .formattedValue pos value conversion spec =>
    if (conversion = none ∨ conversion = some .str) ∧ isEmptySpec spec = true then value
    else .formattedValue pos value conversion spec
  | e => e

def joinedParts : List Expr → Except String (List CommandPart)
  | [] => .ok []
  | .constant _ (.str s) :: values => (joinedParts values).map (.text s.toList :: ·)
  | .formattedValue pos value conversion spec :: values =>
    (joinedParts values).map
      (.value ⟨shownInHole (.formattedValue pos value conversion spec), value, false⟩ :: ·)
  | _ :: _ => .error "Unsupported construct inside command f-string"

/-- The `x` of `str(x)`. -/
def strOf : Expr → Option Expr
  | .call _ (.name _ id _) [x] [] => if id = "str" ∧ isStarred x = false then some x else none
  | _ => none

/-- An operand of a concatenation; `unwrapStr` looks at the number of arguments only. -/
def operandPart : Expr → CommandPart
  | .constant _ (.str s) => .text s.toList
  | e => .value ⟨(strOf e).getD e, unwrapStr e, (strOf e).isNone⟩

def commandParts : Expr → Except String (List CommandPart)
  | .joinedStr _ values => joinedParts values
  | .binOp pos left .add right => .ok ((flattenBinopAdd (.binOp pos left .add right)).map operandPart)
  | .constant _ (.str s) => .ok [.text s.toList]
  | e => .error ("Unsupported command expression type: " ++ typeName e)

def varPrefix : List Char := "__TCS_VAR_".toList

/-- `f"__TCS_VAR_{i}__"`. -/
def varName (i : ℕ) : List Char := varPrefix ++ (Nat.toDigits 10 i ++ ['_', '_'])

/-- `template` and `var_map`, from the number of values so far. -/
def assemble : ℕ → List CommandPart → List Char × List (List Char × Expr)
  | _, [] => ([], [])
  | n, .text s :: parts => (s ++ (assemble n parts).1, (assemble n parts).2)
  | n, .value v :: parts =>
    (varName n ++ (assemble (n + 1) parts).1, (varName n, v.entry) :: (assemble (n + 1) parts).2)

/-- `s.lower()` as far as it makes ASCII letters: the Kelvin sign is an upper-case k. -/
def lowerName (s : List Char) : List Char := s.map fun c => if c = Char.ofNat 0x212A then 'k' else c.toLower

def shellBuiltins : List String :=
  ["cd", "source", "export", "alias", "eval", "exec", "exit",
    "history", "read", "type", "ulimit", "umask", "unalias",
    "builtin", "set", "unset", "shopt", "bind", "jobs", "fg", "bg"]

/-- `sub in text`. -/
def occursIn (sub text : List Char) : Bool := text.tails.any sub.isPrefixOf

def expansionPrefixes : List String := ["", "\x7b", "1", "2", "3", "4", "5", "6", "7", "8", "9"]

def checkToken (tok : List Char) : Option String :=
  if "|><;&".toList.any tok.contains then
    some ("Shell pipelines (|), redirections (>, <), and command separators (;, &) are unsupported for automatic " ++
      "splitting")
  else if occursIn "$(".toList tok || tok.contains '`' then
    some "Command substitution ($(cmd) or `cmd`) is unsupported for automatic splitting"
  else if (expansionPrefixes.any fun p => ('$' :: p.toList).isPrefixOf tok || occursIn ('$' :: p.toList) tok) &&
      tok.contains '$' then
    some "Shell variable expansion ($VAR or $\x7bVAR\x7d) is unsupported for automatic splitting"
  else if tok.contains '*' || (tok.head? = some '?' ||
      (1 < tok.length && tok.head? ≠ some '-' && tok.contains '?')) then
    some "Glob-dependent semantics (* or ?) require a shell parser and are unsupported under shell=False"
  else none

/-- A text, an expression, or an f-string of texts and expressions. -/
inductive CommandArg
  | literal (s : List Char)
  | node (e : Expr)
  | joined (values : List (List Char ⊕ Expr))

/-- `__TCS_VAR_\d+__` at the head of a text. -/
def varNameAt (t : List Char) : Option (List Char) :=
  if varPrefix.isPrefixOf t then
    let digits := (t.drop varPrefix.length).takeWhile Sarif.isDecimal
    if digits ≠ [] ∧ ['_', '_'].isPrefixOf (t.drop (varPrefix.length + digits.length)) then
      some (varPrefix ++ (digits ++ ['_', '_']))
    else none
  else none

def argOf (varMap : List (List Char × Expr)) (tok : List Char) : CommandArg :=
  match varMap.lookup tok with
  | some e => .node e
  | none =>
    if varMap.any fun entry => occursIn entry.1 tok then
      .joined (((pieces varNameAt 0 tok).filter (· ≠ [])).map fun p =>
        match varMap.lookup p with
        | some e => .inr e
        | none => .inl p)
    else .literal tok

/-- `_tokenize_command_expr`: the arguments, or the limitation. -/
def tokenizeCommandExpr (expr : Expr) : Except String (List CommandArg) :=
  match commandParts expr with
  | .error limitation => .error limitation
  | .ok parts =>
    match split kindOf (assemble 0 parts).1 with
    | .error exc => .error ("Malformed quotes or escape sequence in command string: " ++ exc)
    | .ok [] => .error "Command expression produced no argument tokens"
    | .ok (first :: rest) =>
      if String.ofList (lowerName first) ∈ shellBuiltins then
        .error ("Shell built-in '" ++ String.ofList first ++
          "' requires a shell parser and has no standalone binary under shell=False")
      else
        match (first :: rest).findSome? checkToken with
        | some limitation => .error limitation
        | none => .ok ((first :: rest).map (argOf (assemble 0 parts).2))

/-! ## What a shell makes of a command

A command template as a shell reads it, every value a symbol of its own, against the arguments it is split into.
-/

abbrev CommandSymbol : Type := Char ⊕ (ℕ × Interpolation)

def symbolsFrom : ℕ → List CommandPart → List CommandSymbol
  | _, [] => []
  | n, .text s :: parts => s.map .inl ++ symbolsFrom n parts
  | n, .value v :: parts => .inr (n, v) :: symbolsFrom (n + 1) parts

def symbolKind : CommandSymbol → ShellWords.Kind := Sum.elim kindOf fun _ => .ordinary

abbrev ShellItem : Type := ShellWords.Item (CommandSymbol × Bool)

/-- The parts of a template, and what the shell makes of it before it looks at operators and expansions. -/
def shellReading (expr : Expr) : Except String (List CommandPart × List ShellItem) :=
  (commandParts expr).bind fun parts => (lex symbolKind .plain (symbolsFrom 0 parts)).map fun items => (parts, items)

abbrev ShellWord : Type := ShellWords.Word (CommandSymbol × Bool)

def wordSymbols (w : ShellWord) : List CommandSymbol := Word.bare w |>.map Prod.fst

def unquoted (w : ShellWord) : List Char :=
  w.filterMap fun
    | some (.inl c, false) => some c
    | _ => none

/-- `NAME=` in front, none of it quoted. -/
def Assigns (w : ShellWord) : Prop :=
  ∃ name rest, w = name.map (fun c => some (.inl c, false)) ++ some (.inl '=', false) :: rest ∧ name ≠ [] ∧
    (∀ c ∈ name, c.isAlphanum = true ∨ c = '_') ∧ ∀ c, name.head? = some c → c.isDigit = false

structure NoShell (builtin : List Char → Bool) (items : List ShellItem) : Prop where
  oneLine : .blank '\n' ∉ items
  operators : ∀ w ∈ wordsOf items, ∀ c ∈ unquoted w, c ∉ "|;&<>$`*?[]".toList
  leading : ∀ w ∈ wordsOf items, w.head? ≠ some (some (.inl '~', false)) ∧ w.head? ≠ some (some (.inl '#', false))
  assignment : ∀ w, (wordsOf items).head? = some w → ¬Assigns w
  program : ∀ w name, (wordsOf items).head? = some w → wordSymbols w = name.map .inl → builtin name = false

inductive CommandValue
  | text (s : List Char)
  | other (shown : List Char)

def CommandValue.shown : CommandValue → List Char
  | .text s | .other s => s

def CommandValue.isText : CommandValue → Bool
  | .text _ => true
  | .other _ => false

theorem CommandValue.eq_text_iff {v : CommandValue} {s : List Char} :
    v = .text s ↔ v.isText = true ∧ v.shown = s := by
  cases v <;> simp [CommandValue.isText, CommandValue.shown]

def CommandArg.run (val : Expr → CommandValue) : CommandArg → CommandValue
  | .literal s => .text s
  | .node e => val e
  | .joined values => .text (values.flatMap (Sum.elim id fun e => (val e).shown))

def shellArg (val : Expr → CommandValue) (w : ShellWord) : CommandValue :=
  .text (filled (fun d => (val d.2.shown).shown) (wordSymbols w))

section
variable (builtin : List Char → Bool) (isText : Expr → Bool) (parts : List CommandPart) (items : List ShellItem)

def Concatenates : Prop := ∀ v, .value v ∈ parts → v.isOperand = true → isText v.shown = true

/-- The arguments are the shell's, whatever the values are, where `isText` tells which of them are texts; and the
shell would do nothing else. -/
structure Faithful (args : List CommandArg) : Prop where
  argv : Concatenates isText parts → ∀ val : Expr → CommandValue, (∀ e, (val e).isText = isText e) →
    args.map (CommandArg.run val) = (wordsOf items).map (shellArg val)
  noShell : NoShell builtin items

def entryOf (t : List Char) : Option Expr := (assemble 0 parts).2.lookup t

def valueName (d : ℕ × Interpolation) : List Char := varName d.1

structure Recovered (w : List CommandSymbol) : Prop where
  legible : Legible varNameAt (entryOf parts) valueName 0 w
  kept : ∀ d, .inr d ∈ w → d.2.entry = d.2.shown
  alone : ∀ d, w = [.inr d] → isText d.2.entry = true

/-- What the checks do not look at is not there. -/
structure Splittable : Prop where
  recovered : Concatenates isText parts → ∀ w ∈ wordsOf items, Recovered isText parts (wordSymbols w)
  oneLine : .blank '\n' ∉ items
  brackets : ∀ w ∈ wordsOf items, '[' ∉ unquoted w ∧ ']' ∉ unquoted w
  options : ∀ w ∈ wordsOf items, (wordSymbols w).head? = some (.inl '-') → '?' ∉ unquoted w
  leading : ∀ w ∈ wordsOf items, w.head? ≠ some (some (.inl '~', false)) ∧ w.head? ≠ some (some (.inl '#', false))
  assignment : ∀ w, (wordsOf items).head? = some w → ¬Assigns w
  program : ∀ w name, (wordsOf items).head? = some w → wordSymbols w = name.map .inl → builtin name = true →
    String.ofList (lowerName name) ∈ shellBuiltins

end

/-! ## Names -/

theorem varName_injective : Function.Injective varName := Separators.numbered_injective varPrefix ['_', '_']

theorem varNameAt_append (rest : List Char) :
    varNameAt (varPrefix ++ rest) =
      if rest.takeWhile Sarif.isDecimal ≠ [] ∧
          ['_', '_'].isPrefixOf (rest.drop (rest.takeWhile Sarif.isDecimal).length) then
        some (varPrefix ++ (rest.takeWhile Sarif.isDecimal ++ ['_', '_']))
      else none := by
  unfold varNameAt
  rw [if_pos (List.isPrefixOf_iff_prefix.mpr (List.prefix_append _ _))]
  simp only [List.drop_left, List.drop_length_add_append]

theorem varNameAt_varName (i : ℕ) (t : List Char) : varNameAt (varName i ++ t) = some (varName i) := by
  have hdigits : (Nat.toDigits 10 i ++ '_' :: '_' :: t).takeWhile Sarif.isDecimal = Nat.toDigits 10 i :=
    Sarif.takeWhile_append_cons (Sarif.decimal_toDigits i) (by decide) _
  have hname : varName i ++ t = varPrefix ++ (Nat.toDigits 10 i ++ '_' :: '_' :: t) := by simp [varName]
  rw [hname, varNameAt_append, hdigits, List.drop_left, if_pos ⟨Nat.toDigits_ne_nil, by simp [List.isPrefixOf]⟩]
  rfl

theorem prefix_of_varNameAt {t name : List Char} (h : varNameAt t = some name) : name <+: t ∧ name ≠ [] := by
  by_cases hprefix : varPrefix.isPrefixOf t = true
  · obtain ⟨rest, rfl⟩ := List.isPrefixOf_iff_prefix.mp hprefix
    rw [varNameAt_append] at h
    split at h
    next hends =>
      obtain rfl := Option.some.inj h
      obtain ⟨tail, htail⟩ := List.isPrefixOf_iff_prefix.mp hends.2
      have hrest := List.takeWhile_append_dropWhile (p := Sarif.isDecimal) (l := rest)
      have hdrop := congrArg (List.drop (rest.takeWhile Sarif.isDecimal).length) hrest
      rw [List.drop_left] at hdrop
      refine ⟨(List.prefix_append_right_inj _).mpr ⟨tail, ?_⟩, ?_⟩
      · rw [List.append_assoc, htail, ← hdrop, hrest]
      · exact List.append_ne_nil_of_right_ne_nil _ (List.append_ne_nil_of_right_ne_nil _ (List.cons_ne_nil _ _))
    next => cases h
  · rw [varNameAt, if_neg hprefix] at h
    cases h

theorem mem_assemble {n : ℕ} {parts : List CommandPart} {entry : List Char × Expr}
    (h : entry ∈ (assemble n parts).2) : ∃ i, n ≤ i ∧ entry.1 = varName i := by
  induction parts generalizing n with
  | nil => exact absurd h List.not_mem_nil
  | cons part parts ih =>
    cases part with
    | text s => exact ih h
    | value v =>
      obtain rfl | h := List.mem_cons.mp h
      · exact ⟨n, le_rfl, rfl⟩
      · obtain ⟨i, hi, hentry⟩ := ih h
        exact ⟨i, Nat.le_of_succ_le hi, hentry⟩

theorem lookup_assemble {n : ℕ} {parts : List CommandPart} {d : ℕ × Interpolation}
    (h : .inr d ∈ symbolsFrom n parts) : n ≤ d.1 ∧ (assemble n parts).2.lookup (valueName d) = some d.2.entry := by
  induction parts generalizing n with
  | nil => exact absurd h List.not_mem_nil
  | cons part parts ih =>
    cases part with
    | text s =>
      obtain h | h := List.mem_append.mp h
      · simp at h
      · exact ih h
    | value v =>
      obtain heq | h := List.mem_cons.mp h
      · obtain rfl := Sum.inr.inj heq
        exact ⟨le_rfl, List.lookup_cons_self⟩
      · obtain ⟨hn, hlookup⟩ := ih h
        have hne : valueName d ≠ varName n := fun heq => absurd (varName_injective heq) (by omega)
        refine ⟨by omega, ?_⟩
        rw [assemble, List.lookup_cons, beq_eq_false_iff_ne.mpr hne]
        exact hlookup

theorem naming (parts : List CommandPart) : Naming varNameAt (entryOf parts) where
  isPrefix := prefix_of_varNameAt
  isSeen := by
    intro name e h t
    obtain ⟨front, back, heq, -⟩ := List.lookup_eq_some_iff.mp h
    have hmem : (name, e) ∈ (assemble 0 parts).2 := by
      rw [heq]
      exact List.mem_append_right front List.mem_cons_self
    obtain ⟨i, -, rfl⟩ := mem_assemble hmem
    exact varNameAt_varName i t

theorem spelled_symbols (n : ℕ) (parts : List CommandPart) :
    spelled valueName (symbolsFrom n parts) = (assemble n parts).1 := by
  induction parts generalizing n with
  | nil => rfl
  | cons part parts ih =>
    cases part with
    | text s =>
      have htext : spelled valueName (s.map (Sum.inl : Char → CommandSymbol)) = s := by
        simp [spelled, spotText, List.flatMap_map]
      unfold spelled at htext ih ⊢
      rw [symbolsFrom, List.flatMap_append, htext, ih]
      rfl
    | value v => exact congrArg (varName n ++ ·) (ih (n + 1))

theorem kindOf_varName {i : ℕ} {c : Char} (hc : c ∈ varName i) : kindOf c = .ordinary := by
  obtain hc | hc := List.mem_append.mp hc
  · have hprefix : (varPrefix.all fun c => kindOf c = .ordinary) = true := by decide
    exact of_decide_eq_true (List.all_eq_true.mp hprefix c hc)
  obtain hc | hc := List.mem_append.mp hc
  · have hdigit : c.isDigit = true := Nat.isDigit_of_mem_toDigits (by omega) (by omega) hc
    have hne : ∀ d : Char, d.isDigit = false → c ≠ d := by
      rintro d hd rfl
      exact absurd hdigit (by simp [hd])
    unfold kindOf
    rw [if_neg (hne _ (by decide)), if_neg (hne _ (by decide)), if_neg (hne _ (by decide)), if_neg]
    rintro (h | h | h | h)
    · exact hne ' ' (by decide) h
    · exact hne '\t' (by decide) h
    · exact hne '\r' (by decide) h
    · exact hne '\n' (by decide) h
  · obtain rfl : c = '_' := by simpa using hc
    decide

def commandSpelling : Spelling symbolKind kindOf where
  text := spotText valueName
  spells := by
    intro symbol
    cases symbol with
    | inl c => exact ⟨c, [], rfl, rfl, fun _ h => absurd h List.not_mem_nil, fun _ => rfl⟩
    | inr d =>
      obtain ⟨g, gs, hname⟩ := List.exists_cons_of_ne_nil (prefix_of_varNameAt (varNameAt_varName d.1 [])).2
      have hordinary : ∀ c ∈ g :: gs, kindOf c = .ordinary := by
        rw [← hname]
        exact fun c hc => kindOf_varName hc
      exact ⟨g, gs, hname, hordinary g List.mem_cons_self, fun c hc => hordinary c (List.mem_cons_of_mem g hc),
        fun hspecial => absurd rfl hspecial⟩

theorem split_assemble (parts : List CommandPart) :
    split kindOf (assemble 0 parts).1 =
      (lex symbolKind .plain (symbolsFrom 0 parts)).map fun items =>
        (wordsOf items).map fun w => spelled valueName (wordSymbols w) := by
  rw [← spelled_symbols]
  have hsplit := split_spell commandSpelling (symbolsFrom 0 parts)
  unfold Spelling.line at hsplit
  unfold spelled wordSymbols
  simp only [List.flatMap_map]
  exact hsplit

theorem mem_symbols {parts : List CommandPart} {items : List ShellItem} {w : ShellWord} {symbol : CommandSymbol}
    (hlex : lex symbolKind .plain (symbolsFrom 0 parts) = .ok items) (hw : w ∈ wordsOf items)
    (hsymbol : symbol ∈ wordSymbols w) : symbol ∈ symbolsFrom 0 parts := by
  obtain ⟨b, hb, rfl⟩ := List.mem_map.mp hsymbol
  exact mem_of_lex hlex (sym_mem_of_word hw hb)

section
variable (parts : List CommandPart) (val : Expr → CommandValue)

theorem isText_run (tok : List Char) :
    ((argOf (assemble 0 parts).2 tok).run val).isText = true ↔
      ∀ e, entryOf parts tok = some e → (val e).isText = true := by
  unfold argOf entryOf
  split
  next e h => simp [h, CommandArg.run]
  next h => split <;> simp [h, CommandArg.run, CommandValue.isText]

theorem joined_shown (ps : List (List Char)) :
    (((ps.filter (· ≠ [])).map fun p =>
        match (assemble 0 parts).2.lookup p with
        | some e => (.inr e : List Char ⊕ Expr)
        | none => .inl p).flatMap (Sum.elim id fun e => (val e).shown)) =
      filled (fun e => (val e).shown) (ps.flatMap (readPiece (entryOf parts))) := by
  unfold filled
  induction ps with
  | nil => rfl
  | cons p ps ih =>
    rw [List.flatMap_cons, List.flatMap_append, ← ih]
    by_cases hp : p = []
    · subst hp
      have hnil := (naming parts).meaning_nil
      simp [readPiece, hnil]
    · rw [List.filter_cons_of_pos (by simpa using hp), List.map_cons, List.flatMap_cons]
      congr 1
      unfold readPiece entryOf
      cases (assemble 0 parts).2.lookup p with
      | none => simp [List.flatMap_map]
      | some e => simp

theorem shown_run (tok : List Char) :
    ((argOf (assemble 0 parts).2 tok).run val).shown =
      filled (fun e => (val e).shown) (NamedPlaces.read varNameAt (entryOf parts) 0 tok) := by
  have hnaming := naming parts
  unfold argOf
  split
  next e h =>
    rw [hnaming.read_of_meaning h]
    simp [filled, CommandArg.run]
  next h =>
    split
    next => exact joined_shown parts val (pieces varNameAt 0 tok)
    next hnone =>
      have hpieces : ∀ p ∈ pieces varNameAt 0 tok, entryOf parts p = none := by
        intro p hp
        cases hentry : entryOf parts p with
        | none => rfl
        | some e =>
          obtain ⟨front, back, heq, -⟩ := List.lookup_eq_some_iff.mp hentry
          have hinfix := List.infix_of_mem_flatten hp
          rw [hnaming.flatten_pieces, List.drop_zero] at hinfix
          refine absurd (List.any_eq_true.mpr ⟨(p, e), ?_, (Separators.any_tails_iff p tok).mpr hinfix⟩) hnone
          rw [heq]
          exact List.mem_append_right front List.mem_cons_self
      have hread : NamedPlaces.read varNameAt (entryOf parts) 0 tok = tok.map .inl := by
        have hflatten := hnaming.flatten_pieces 0 tok
        rw [List.drop_zero] at hflatten
        rw [← hflatten, List.map_flatten, hflatten, NamedPlaces.read, List.flatMap_def]
        congr 1
        apply List.map_congr_left
        intro p hp
        rw [readPiece, hpieces p hp]
      rw [hread]
      simp [filled, List.flatMap_map, CommandArg.run, CommandValue.shown]

end

end TimeCodeSecurity.Remediation
