import TimeCodeSecurity.Foundations.Quoting
import TimeCodeSecurity.Remediation.PathExpressions

/-! # Queries with placeholders

`Cwe89ParameterizeTransformer` takes an f-string or a concatenation apart, puts a question mark in place of every
value and takes off the quotes directly around it.
-/
namespace TimeCodeSecurity.Remediation
open Py Quoting
set_option autoImplicit false

/-- `re.findall(r'[A-Za-z0-9_]+', text)`. -/
def identifierWords (t : Quoting.Text) : List Quoting.Text :=
  (t.splitOnP fun c => !(c.isAlphanum || c = '_')).filter (· ≠ [])

def isTableOrColumnIdentifier (precedingStr : Quoting.Text) : Bool :=
  match (identifierWords precedingStr).getLast? with
  | none => false
  | some lastWord =>
    let lastToken := String.ofList (lastWord.map Char.toUpper)
    ["FROM", "INTO", "UPDATE", "TABLE", "JOIN"].contains lastToken ||
      ((identifierWords precedingStr).length = 1 && lastToken = "SELECT")

/-! ## Taking a query apart -/

inductive Part
  | text (s : Quoting.Text)
  | hole (entry : Except String Expr)
  | unsupported (message : String)

def textOf : SqlValue → Option Quoting.Text
  | .text s => some s
  | .number .. => none

/-- How f-strings and concatenations differ. What an element shows in the original statement is `shown`, if that
has a value. -/
structure Variant where
  part : Expr → Part
  AsFormatted : Expr → Expr → Prop
  shown : (Expr → SqlValue) → Expr → Option Quoting.Text
  shown_of_formatted : ∀ {val e p t}, AsFormatted e p → shown val e = some t → t = (val p).shown

def shownInside (val : Expr → SqlValue) : Expr → Option Quoting.Text
  | .formattedValue _ value none none => some (val value).shown
  | e => some (val e).shown

/-- `_decompose_joined_str`. -/
def joinedVariant : Variant where
  part
    | .formattedValue _ value _ _ => .hole (.ok value)
    | .constant _ (.str s) => .text s.toList
    | _ => .unsupported "Unsupported expression construct inside SQL f-string"
  AsFormatted e p := (∃ pos, e = .formattedValue pos p none none) ∧ isStarred p = false
  shown := shownInside
  shown_of_formatted := by
    rintro val _ p t ⟨⟨pos, rfl⟩, -⟩ h
    exact (Option.some.inj h).symm

/-- An operand of a concatenation is a text, or `str` of a value. -/
def shownBeside (val : Expr → SqlValue) : Expr → Option Quoting.Text
  | .call pos (.name p id c) [x] [] =>
    if id = "str" ∧ isStarred x = false then some (val x).shown else textOf (val (.call pos (.name p id c) [x] []))
  | e => textOf (val e)

/-- The operand itself, or what its `str()` shows. -/
def Unwrapped (e p : Expr) : Prop :=
  (p = e ∧ ∀ pos pos' c args keywords, e ≠ .call pos (.name pos' "str" c) args keywords) ∨
    ∃ pos pos' c, e = .call pos (.name pos' "str" c) [p] []

/-- `_decompose_binop`. -/
def binopVariant : Variant where
  part
    | .constant _ (.str s) => .text s.toList
    | .call pos (.name p id c) args keywords =>
      if id = "str" then
        match args with
        | [x] => .hole (.ok x)
        | _ => .hole (.error "Unsupported str() call with multiple arguments")
      else .hole (.ok (.call pos (.name p id c) args keywords))
    | e => .hole (.ok e)
  AsFormatted e p := Unwrapped e p ∧ isStarred p = false
  shown := shownBeside
  shown_of_formatted := by
    have htext : ∀ {v : SqlValue} {t : Quoting.Text}, textOf v = some t → t = v.shown := by
      intro v t h
      cases v with
      | text s => exact (Option.some.inj h).symm
      | number c s => cases h
    rintro val e p t ⟨⟨rfl, hnot⟩ | ⟨pos, pos', c, rfl⟩, hp⟩ h
    · unfold shownBeside at h
      split at h
      next pos pos' id c x =>
        have hid : id ≠ "str" := fun hid => hnot pos pos' c [x] [] (by rw [hid])
        rw [if_neg fun hboth => hid hboth.1] at h
        exact htext h
      · exact htext h
    · rw [shownBeside, if_pos ⟨rfl, hp⟩] at h
      exact (Option.some.inj h).symm

/-- A piece of the emitted SQL; a placeholder is one that was put in. -/
inductive Fragment
  | text (s : Quoting.Text)
  | placeholder

def Fragment.string : Fragment → Quoting.Text
  | .text s => s
  | .placeholder => ['?']

/-- `"".join(fragments)`. -/
def joinedText (fragments : List Fragment) : Quoting.Text := fragments.flatMap Fragment.string

/-- `fragments[-1] if fragments else ""`. -/
def lastText (fragments : List Fragment) : Quoting.Text := (fragments.getLast?.map Fragment.string).getD []

/-- `fragments[-1] = fragments[-1][:-1]`. -/
def dropQuote (fragments : List Fragment) : List Fragment :=
  fragments.dropLast ++ [.text (lastText fragments).dropLast]

def quoteAround (prec succ : Quoting.Text) : Option Quote :=
  if prec.getLast? = some '\'' ∧ succ.head? = some '\'' then some .single
  else if prec.getLast? = some '"' ∧ succ.head? = some '"' then some .double
  else none

section
variable (V : Variant)

def nextText : List Expr → Quoting.Text
  | [] => []
  | e :: _ =>
    match V.part e with
    | .text s => s
    | _ => []

/-- The loop over the elements; `skip` tells that the next text has lost its first character. -/
def decomposeLoop : List Fragment → List Expr → Bool → List Expr → Except String (List Fragment × List Expr)
  | fragments, params, _, [] => .ok (fragments, params)
  | fragments, params, skip, e :: rest =>
    match V.part e with
    | .text s => decomposeLoop (fragments ++ [.text (if skip then s.drop 1 else s)]) params false rest
    | .unsupported message => .error message
    | .hole entry =>
      if isTableOrColumnIdentifier (joinedText fragments) then
        .error "Dynamic table/column identifiers cannot be parameterized via query parameters"
      else
        match entry with
        | .error message => .error message
        | .ok p =>
          match quoteAround (lastText fragments) (nextText V rest) with
          | some _ => decomposeLoop (dropQuote fragments ++ [.placeholder]) (params ++ [p]) true rest
          | none => decomposeLoop (fragments ++ [.placeholder]) (params ++ [p]) false rest

end

/-- The queries the transformer looks into. -/
inductive Query
  | joinedStr (values : List Expr)
  | binop (left right : Expr)

def Query.variant : Query → Variant
  | .joinedStr _ => joinedVariant
  | .binop .. => binopVariant

def Query.elements : Query → List Expr
  | .joinedStr values => values
  | .binop left right => flattenBinopAdd left ++ flattenBinopAdd right

def Query.noParams : Query → String
  | .joinedStr _ => "No dynamic parameters found to parameterize"
  | .binop .. => "No dynamic parameters found in binary addition"

/-- The pieces of the emitted SQL and the entries of the tuple, or the limitation. -/
def Query.decompose (query : Query) : Except String (List Fragment × List Expr) :=
  match decomposeLoop query.variant [] [] false query.elements with
  | .error message => .error message
  | .ok (fragments, params) => if params.isEmpty then .error query.noParams else .ok (fragments, params)

end TimeCodeSecurity.Remediation
