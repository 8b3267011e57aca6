import TimeCodeSecurity.Foundations.Utf8
import TimeCodeSecurity.Py.Syntax
import Mathlib.Data.List.Infix

/-! # Documents written at a parser call

`_xml_parse_is_inert` and what it reads: the text of a document that is put together from literals at the call,
and whether the document declares entities. Texts are code points, so that a literal may hold surrogates.
-/
namespace TimeCodeSecurity.Scanner
open Py
set_option autoImplicit false

inductive XmlDocument
  | str (text : List ℕ)
  | bytes (octets : List ℕ)
deriving DecidableEq, Repr

inductive CodecHop
  | encode | decode
deriving DecidableEq, Repr

/-- An expression, as far as the reading of documents tells expressions apart. A hop is a call of `encode` or
`decode` without arguments; a part of an f-string that is not a text is a hole. -/
inductive DocumentExpr
  | constant (document : XmlDocument)
  | joinedStr (parts : List (Option (List ℕ)))
  | add (left right : DocumentExpr)
  | hop (receiver : DocumentExpr) (method : CodecHop)
  | other
deriving Repr

inductive CodecError
  | unicodeEncodeError | unicodeDecodeError
deriving DecidableEq, Repr

/-- `left + right`, for two texts or two strings of bytes. -/
def XmlDocument.concat : XmlDocument → XmlDocument → Option XmlDocument
  | .str s, .str t => some (.str (s ++ t))
  | .bytes s, .bytes t => some (.bytes (s ++ t))
  | _, _ => none

/-- `inner.encode()` and `inner.decode()`; a value without the method gives nothing. -/
def CodecHop.apply : CodecHop → XmlDocument → Except CodecError (Option XmlDocument)
  | .encode, .str s =>
    match Utf8.encode s with
    | some octets => .ok (some (.bytes octets))
    | none => .error .unicodeEncodeError
  | .decode, .bytes b =>
    match Utf8.decode b with
    | some text => .ok (some (.str text))
    | none => .error .unicodeDecodeError
  | _, _ => .ok none

def xmlWrittenDocumentText (e : DocumentExpr) (depth : ℕ) : Except CodecError (Option XmlDocument) :=
  if 3 < depth then .ok none
  else
    match e with
    | .constant document => .ok (some document)
    | .joinedStr parts => .ok ((parts.mapM id).map fun texts => .str texts.flatten)
    | .add left right => do
      let l ← xmlWrittenDocumentText left (depth + 1)
      let r ← xmlWrittenDocumentText right (depth + 1)
      return l.bind fun l => r.bind l.concat
    | .hop receiver method => do
      match ← xmlWrittenDocumentText receiver (depth + 1) with
      | none => return none
      | some inner => method.apply inner
    | .other => .ok none

/-- `\s` in a pattern for texts. -/
def isXmlSpace (c : ℕ) : Bool :=
  (9 ≤ c && c ≤ 13) || (28 ≤ c && c ≤ 32) || c = 0x85 || c = 0xA0 || c = 0x1680 ||
    (0x2000 ≤ c && c ≤ 0x200A) || c = 0x2028 || c = 0x2029 || c = 0x202F || c = 0x205F || c = 0x3000

def sameLetter (c letter : ℕ) : Bool :=
  c = letter || c = letter + 32 || (letter = 0x49 && (c = 0x130 || c = 0x131))

def startsWithWord : List ℕ → List ℕ → Bool
  | [], _ => true
  | _ :: _, [] => false
  | letter :: word, c :: text => sameLetter c letter && startsWithWord word text

/-- `DOCTYPE`. -/
def doctypeWord : List ℕ := [0x44, 0x4F, 0x43, 0x54, 0x59, 0x50, 0x45]

/-- `ENTITY`. -/
def entityWord : List ℕ := [0x45, 0x4E, 0x54, 0x49, 0x54, 0x59]

/-- `XML_ENTITY_DECLARATION_RE` at the start of a text. -/
def matchesDeclaration : List ℕ → Bool
  | 0x3C :: text =>
    match text.dropWhile isXmlSpace with
    | 0x21 :: text =>
      let keyword := text.dropWhile isXmlSpace
      startsWithWord doctypeWord keyword || startsWithWord entityWord keyword
    | _ => false
  | _ => false

def XmlDocument.searched : XmlDocument → List ℕ
  | .str text => text
  | .bytes octets => Utf8.decodeReplace octets

def xmlDeclaresEntity (document : XmlDocument) : Bool := document.searched.tails.any matchesDeclaration

def xmlParserLiteralDisablesEntities : Expr → Bool
  | .call _ func _ keywords =>
    let leaf := match func with
      | .attr _ _ attr _ => some attr
      | .name _ id _ => some id
      | _ => none
    leaf = some "XMLParser" &&
      match keywords.find? fun kw => kw.arg = some "resolve_entities" with
      | some ⟨_, .constant _ (.bool false)⟩ => true
      | _ => false
  | _ => false

def xmlParseIsInert (inputExpr : DocumentExpr) (parserExpr : Option Expr) (parserIsSafe : Option (Expr → Bool))
    (repoFileCheck : Option (DocumentExpr → Bool)) : Except CodecError Bool := do
  let written ← xmlWrittenDocumentText inputExpr 0
  if written.any xmlDeclaresEntity then return false
  if parserExpr.any fun p => (parserIsSafe.getD xmlParserLiteralDisablesEntities) p then return true
  if repoFileCheck.any fun check => check inputExpr then return true
  return written.isSome

/-! ## Documents that are never exempt

What is read at the call is the value of the expression, up to three steps deep and as long as no hop fails.
A declaration that the parser sees is looked for in the UTF-8 reading of the document, which need not be the
parser's.
-/

def DocumentExpr.value : DocumentExpr → Option XmlDocument
  | .constant document => some document
  | .joinedStr parts => (parts.mapM id).map fun texts => .str texts.flatten
  | .add left right => left.value.bind fun l => right.value.bind l.concat
  | .hop receiver method => receiver.value.bind fun d => (method.apply d).toOption.join
  | .other => none

def DocumentExpr.nesting : DocumentExpr → ℕ
  | .add left right => max left.nesting right.nesting + 1
  | .hop receiver _ => receiver.nesting + 1
  | _ => 0

def HopsSucceed : DocumentExpr → ℕ → Prop
  | .add left right, depth => depth ≤ 3 → HopsSucceed left (depth + 1) ∧ HopsSucceed right (depth + 1)
  | .hop receiver method, depth => depth ≤ 3 → HopsSucceed receiver (depth + 1) ∧
      ∀ d, receiver.value = some d → depth + 1 + receiver.nesting ≤ 3 → ∃ o, method.apply d = .ok o
  | _, _ => True

/-! ## What is read -/

theorem xmlWrittenDocumentText_deep {depth : ℕ} (h : 3 < depth) (e : DocumentExpr) :
    xmlWrittenDocumentText e depth = .ok none := by
  cases e <;> exact if_pos h

theorem xmlWrittenDocumentText_eq {e : DocumentExpr} {depth : ℕ} (h : HopsSucceed e depth) :
    xmlWrittenDocumentText e depth = .ok (if depth + e.nesting ≤ 3 then e.value else none) := by
  by_cases hdeep : 3 < depth
  · rw [xmlWrittenDocumentText_deep hdeep, if_neg (by omega)]
  · have hdepth : depth ≤ 3 := by omega
    induction e generalizing depth with
    | constant document =>
      rw [xmlWrittenDocumentText, if_neg hdeep, if_pos (by simpa [DocumentExpr.nesting] using hdepth)]
      rfl
    | joinedStr parts =>
      rw [xmlWrittenDocumentText, if_neg hdeep, if_pos (by simpa [DocumentExpr.nesting] using hdepth)]
      rfl
    | other =>
      rw [xmlWrittenDocumentText, if_neg hdeep]
      split_ifs <;> rfl
    | add left right ihl ihr =>
      have hboth : ∀ e : DocumentExpr, (∀ {depth : ℕ}, HopsSucceed e depth → ¬3 < depth → depth ≤ 3 →
          xmlWrittenDocumentText e depth = .ok (if depth + e.nesting ≤ 3 then e.value else none)) →
          HopsSucceed e (depth + 1) → xmlWrittenDocumentText e (depth + 1) =
            .ok (if depth + 1 + e.nesting ≤ 3 then e.value else none) := by
        intro e ih he
        by_cases hnext : 3 < depth + 1
        · rw [xmlWrittenDocumentText_deep hnext, if_neg (by omega)]
        · exact ih he hnext (by omega)
      obtain ⟨hl, hr⟩ := h hdepth
      rw [xmlWrittenDocumentText, if_neg hdeep]
      simp only [hboth left ihl hl, hboth right ihr hr]
      show Except.ok _ = Except.ok _
      congr 1
      by_cases hle : depth + (DocumentExpr.add left right).nesting ≤ 3
      · rw [DocumentExpr.nesting] at hle
        rw [if_pos (by omega), if_pos (by omega), if_pos (by rw [DocumentExpr.nesting]; omega)]
        rfl
      · rw [if_neg hle]
        rw [DocumentExpr.nesting] at hle
        by_cases hleft : depth + 1 + left.nesting ≤ 3
        · rw [if_neg (show ¬ depth + 1 + right.nesting ≤ 3 by omega)]
          cases (if depth + 1 + left.nesting ≤ 3 then left.value else none) <;> rfl
        · rw [if_neg hleft]
          rfl
    | hop receiver method ih =>
      obtain ⟨hreceiver, happly⟩ := h hdepth
      have hread : xmlWrittenDocumentText receiver (depth + 1) =
          .ok (if depth + 1 + receiver.nesting ≤ 3 then receiver.value else none) := by
        by_cases hnext : 3 < depth + 1
        · rw [xmlWrittenDocumentText_deep hnext, if_neg (by omega)]
        · exact ih hreceiver hnext (by omega)
      rw [xmlWrittenDocumentText, if_neg hdeep, hread]
      by_cases hle : depth + 1 + receiver.nesting ≤ 3
      · rw [if_pos hle, if_pos (by rw [DocumentExpr.nesting]; omega), DocumentExpr.value]
        cases hvalue : receiver.value with
        | none => rfl
        | some d =>
          obtain ⟨o, ho⟩ := happly d hvalue hle
          show method.apply d = _
          rw [Option.bind_some, ho]
          cases o <;> rfl
      · rw [if_neg hle, if_neg (by rw [DocumentExpr.nesting]; omega)]
        rfl

theorem xmlWrittenDocumentText_error {e : DocumentExpr} {depth : ℕ} (h : ¬ HopsSucceed e depth) :
    ∃ err, xmlWrittenDocumentText e depth = .error err := by
  induction e generalizing depth with
  | constant | joinedStr | other => exact absurd trivial h
  | add left right ihl ihr =>
    obtain ⟨hdepth, hpart⟩ := Classical.not_imp.mp h
    rw [xmlWrittenDocumentText, if_neg (by omega)]
    by_cases hl : HopsSucceed left (depth + 1)
    · obtain ⟨err, herr⟩ := ihr fun hr => hpart ⟨hl, hr⟩
      refine ⟨err, ?_⟩
      rw [xmlWrittenDocumentText_eq hl, herr]
      rfl
    · obtain ⟨err, herr⟩ := ihl hl
      refine ⟨err, ?_⟩
      rw [herr]
      rfl
  | hop receiver method ih =>
    obtain ⟨hdepth, hpart⟩ := Classical.not_imp.mp h
    rw [xmlWrittenDocumentText, if_neg (by omega)]
    by_cases hreceiver : HopsSucceed receiver (depth + 1)
    · have hfails : ∃ d, receiver.value = some d ∧ depth + 1 + receiver.nesting ≤ 3 ∧
          ∀ o, method.apply d ≠ .ok o := by
        by_contra hno
        refine hpart ⟨hreceiver, fun d hd hle => ?_⟩
        by_contra hall
        exact hno ⟨d, hd, hle, fun o ho => hall ⟨o, ho⟩⟩
      obtain ⟨d, hd, hle, hno⟩ := hfails
      rw [xmlWrittenDocumentText_eq hreceiver, if_pos hle, hd]
      cases happly : method.apply d with
      | error err => exact ⟨err, happly⟩
      | ok o => exact absurd happly (hno o)
    · obtain ⟨err, herr⟩ := ih hreceiver
      refine ⟨err, ?_⟩
      rw [herr]
      rfl

theorem value_of_written {e : DocumentExpr} {d : XmlDocument}
    (h : xmlWrittenDocumentText e 0 = .ok (some d)) : e.value = some d := by
  by_cases hhops : HopsSucceed e 0
  · rw [xmlWrittenDocumentText_eq hhops] at h
    have h := Except.ok.inj h
    split_ifs at h
    exact h
  · obtain ⟨err, herr⟩ := xmlWrittenDocumentText_error hhops
    rw [herr] at h
    cases h

/-! ## Declarations -/

def DeclaresEntity (text : List ℕ) : Prop :=
  0x3C :: 0x21 :: doctypeWord <:+: text ∨ 0x3C :: 0x21 :: entityWord <:+: text

def XmlDocument.readBy (reads : List ℕ → List ℕ) : XmlDocument → List ℕ
  | .str text => text
  | .bytes octets => reads octets

/-- What is said of an expression that is handed to a parser. -/
structure NeverExempt (reads : List ℕ → List ℕ) (e : DocumentExpr) : Prop where
  raises_nothing : ∀ parserExpr parserIsSafe repoFileCheck, ∃ b,
    xmlParseIsInert e parserExpr parserIsSafe repoFileCheck = .ok b
  written_value : ∀ d, xmlWrittenDocumentText e 0 = .ok (some d) → e.value = some d
  vetoed : ∀ d, e.value = some d → DeclaresEntity (d.readBy reads) →
    ∀ parserExpr parserIsSafe repoFileCheck,
      xmlParseIsInert e parserExpr parserIsSafe repoFileCheck = .ok false

/-- The hops succeed, and a document that declares something is read and shows it in UTF-8 too. -/
structure ReadAsWritten (reads : List ℕ → List ℕ) (e : DocumentExpr) : Prop where
  hops : HopsSucceed e 0
  declared : ∀ d, e.value = some d → DeclaresEntity (d.readBy reads) →
    e.nesting ≤ 3 ∧ xmlDeclaresEntity d = true

theorem xmlParseIsInert_of_written {e : DocumentExpr} {written : Option XmlDocument}
    (h : xmlWrittenDocumentText e 0 = .ok written) (parserExpr : Option Expr)
    (parserIsSafe : Option (Expr → Bool)) (repoFileCheck : Option (DocumentExpr → Bool)) :
    xmlParseIsInert e parserExpr parserIsSafe repoFileCheck =
      .ok (!written.any xmlDeclaresEntity &&
        ((parserExpr.any fun p => (parserIsSafe.getD xmlParserLiteralDisablesEntities) p) ||
          (repoFileCheck.any fun check => check e) || written.isSome)) := by
  rw [xmlParseIsInert, h]
  show (if _ then _ else _) = _
  by_cases hdeclares : written.any xmlDeclaresEntity = true
  · rw [if_pos hdeclares, hdeclares]
    rfl
  · rw [if_neg hdeclares, Bool.eq_false_iff.mpr hdeclares]
    by_cases hsafe : (parserExpr.any fun p => (parserIsSafe.getD xmlParserLiteralDisablesEntities) p) = true
    · rw [if_pos hsafe, hsafe]
      rfl
    · rw [if_neg hsafe, Bool.eq_false_iff.mpr hsafe]
      by_cases hfile : (repoFileCheck.any fun check => check e) = true
      · rw [if_pos hfile, hfile]
        rfl
      · rw [if_neg hfile, Bool.eq_false_iff.mpr hfile]
        rfl

theorem readAsWritten_of_neverExempt {reads : List ℕ → List ℕ} {e : DocumentExpr}
    (h : NeverExempt reads e) : ReadAsWritten reads e := by
  have hhops : HopsSucceed e 0 := by
    by_contra hno
    obtain ⟨err, herr⟩ := xmlWrittenDocumentText_error hno
    obtain ⟨b, hb⟩ := h.raises_nothing none none none
    rw [xmlParseIsInert, herr] at hb
    cases hb
  refine ⟨hhops, fun d hd hdeclares => ?_⟩
  have hread := xmlWrittenDocumentText_eq hhops
  have hvetoed := h.vetoed d hd hdeclares
  have hnesting : e.nesting ≤ 3 := by
    by_contra hdeep
    rw [if_neg (by omega)] at hread
    -- nothing is read, so a parser that is taken for safe decides
    have hsafe := hvetoed (some (.name {} "p" .load)) (some fun _ => true) none
    rw [xmlParseIsInert_of_written hread] at hsafe
    cases hsafe
  refine ⟨hnesting, ?_⟩
  rw [if_pos (by omega), hd] at hread
  have hplain := hvetoed none none none
  rw [xmlParseIsInert_of_written hread] at hplain
  by_contra hshown
  rw [Option.any_some, Bool.eq_false_iff.mpr hshown] at hplain
  cases hplain

theorem neverExempt_of_readAsWritten {reads : List ℕ → List ℕ} {e : DocumentExpr}
    (h : ReadAsWritten reads e) : NeverExempt reads e := by
  have hread := xmlWrittenDocumentText_eq h.hops
  refine ⟨fun parserExpr parserIsSafe repoFileCheck => ⟨_, xmlParseIsInert_of_written hread _ _ _⟩,
    fun d hd => value_of_written hd, fun d hd hdeclares parserExpr parserIsSafe repoFileCheck => ?_⟩
  obtain ⟨hnesting, hshown⟩ := h.declared d hd hdeclares
  rw [if_pos (by omega), hd] at hread
  rw [xmlParseIsInert_of_written hread, Option.any_some, hshown]
  rfl

/-- A document with a declaration is never exempt exactly when it is read, and shows the declaration, as the
parser reads it. -/
theorem neverExempt_iff (reads : List ℕ → List ℕ) (e : DocumentExpr) :
    NeverExempt reads e ↔ ReadAsWritten reads e :=
  ⟨readAsWritten_of_neverExempt, neverExempt_of_readAsWritten⟩

def decodePairs : List ℕ → List ℕ
  | high :: low :: rest => (high * 256 + low) :: decodePairs rest
  | _ => []

/-- A parser that goes by the byte order mark of UTF-16 and else reads UTF-8. -/
def readByMark : List ℕ → List ℕ
  | 0xFE :: 0xFF :: rest => decodePairs rest
  | octets => Utf8.decodeReplace octets

/-- `<!DOCTYPE d [<!ENTITY e "x">]><d>&e;</d>` in UTF-16 with its mark. -/
def utf16Document : DocumentExpr :=
  .constant (.bytes (0xFE :: 0xFF :: ("<!DOCTYPE d [<!ENTITY e \"x\">]><d>&e;</d>".toList.flatMap fun c => [0, c.toNat])))

theorem utf16_declaration_is_exempt : ¬ NeverExempt readByMark utf16Document := by
  intro h
  obtain ⟨-, hdeclared⟩ := readAsWritten_of_neverExempt h
  have hshown := (hdeclared _ rfl (.inl (by decide +kernel))).2
  revert hshown
  decide +kernel

end TimeCodeSecurity.Scanner
