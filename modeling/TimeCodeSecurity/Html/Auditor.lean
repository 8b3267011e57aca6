import TimeCodeSecurity.Foundations.Pep440

/-! # The template auditor

`html_auditor.TemplateSecurityAuditor` over the events of `html.parser`: each comes with the line of its start.
`lower` is `str.lower`.
-/
namespace TimeCodeSecurity.Html
open Pep440 (isSpace strip)
set_option autoImplicit false

abbrev Text := List Char

inductive Markup where
  | startTag (tag : Text) (attrs : List (Text × Option Text)) (selfClosing : Bool)
  | endTag (tag : Text)
  | data (text : Text)
deriving DecidableEq, Repr

/-- A call of one of the parser's hooks; `getpos()` counts lines from one. -/
structure Event where
  line : ℕ
  markup : Markup
  positive : 0 < line := by decide
deriving DecidableEq, Repr

structure Finding where
  file : String
  line : ℕ
  cwe : String
  severity : String
  category : String
  message : String
deriving DecidableEq, Repr

def externalUrlPrefixes : List String := ["http://", "https://", "//"]
def stateChangingFormMethods : List String := ["post", "put", "patch", "delete"]
def csrfTokenMarkers : List String := ["csrf_token", "csrfmiddlewaretoken"]
def verbatimTags : List String := ["pre", "code", "textarea", "samp", "kbd"]
def alwaysSafeExpressionRoots : List String := ["csrf_token", "csrfmiddlewaretoken"]
def formUserDataSegments : List String := ["value", "data", "initial"]

def unescapedOutputMessage : String :=
  "CWE-79: Unescaped dynamic content marked safe or rendered directly in HTTP response"

def csrfMessage : String :=
  "CWE-352: Cross-Site Request Forgery - state-changing <form> submitted without a" ++
    " CSRF token; render \x7b% csrf_token %\x7d inside the form body"

def isOneOf (words : List String) (text : Text) : Bool := words.any (·.toList == text)

def isBrace (c : Char) : Bool := c = '\x7b' || c = '\x7d'

/-- `\s*\|\s*safe\s*` at the end of what stands between the braces: what comes before it. -/
def beforeSafe (body : Text) : Option Text :=
  let trimmed := body.rdropWhile isSpace
  if "safe".toList <:+ trimmed then
    let head := (trimmed.take (trimmed.length - 4)).rdropWhile isSpace
    if head.getLast? = some '|' then some head.dropLast else none
  else none

/-- `UNESCAPED_OUTPUT_RE` at the head of the text: the stripped group and the length of the match. -/
def outputAt (text : Text) : Option (Text × ℕ) :=
  match text with
  | '\x7b' :: '\x7b' :: rest =>
    let body := rest.takeWhile (!isBrace ·)
    if ['\x7d', '\x7d'] <+: rest.drop body.length then
      match beforeSafe body with
      | some [] | none => none
      | some group => some (strip group, body.length + 4)
    else none
  | _ => none

/-- `UNESCAPED_OUTPUT_RE.finditer`: the line breaks before each match and its expression. `skip` characters
still belong to the last match. -/
def findOutputs : ℕ → ℕ → Text → List (ℕ × Text)
  | _, _, [] => []
  | skip, breaks, c :: cs =>
    let behind := if c = '\n' then breaks + 1 else breaks
    match skip with
    | k + 1 => findOutputs k behind cs
    | 0 => match outputAt (c :: cs) with
      | some (expression, length) => (breaks, expression) :: findOutputs (length - 1) behind cs
      | none => findOutputs 0 behind cs

section

variable (lower : Text → Text)

/-- `_normalize_attrs(attrs).get(key, "")`: the last of several attributes of one name. -/
def attrMap (attrs : List (Text × Option Text)) (key : String) : Text :=
  ((attrs.reverse.find? fun attr => lower attr.1 == key.toList).bind (·.2)).getD []

def isWordStart (c : Char) : Bool := c.isAlpha || c = '_'

def splitDots : Text → List Text
  | [] => [[]]
  | c :: cs => if c = '.' then [] :: splitDots cs else
    match splitDots cs with
    | [] => [[c]]
    | segment :: rest => (c :: segment) :: rest

def isTrustedExpression (expression : Text) : Bool :=
  match expression with
  | [] => false
  | c :: cs =>
    if isWordStart c then
      let name := lower (c :: cs.takeWhile fun d => isWordStart d || d.isDigit)
      if isOneOf alwaysSafeExpressionRoots name then true
      else if name ≠ "form".toList then false
      else !((splitDots expression).map lower).tail.any (isOneOf formUserDataSegments)
    else false

/-! ## The auditor -/

/-- The state of the parser object. What is in `reported` has been emitted. -/
structure Auditor where
  filePath : String
  findings : List Finding := []
  formFrames : List (ℕ × Bool) := []
  verbatimDepth : ℕ := 0
  reported : List (ℕ × String × String) := []
  emitted : ∀ identity ∈ reported, ∃ f ∈ findings, f.line = max 1 identity.1 ∧ f.cwe = identity.2.1 := by simp

def Auditor.emit (a : Auditor) (line : ℕ) (cwe severity category message : String) : Auditor :=
  if (line, cwe, category) ∈ a.reported then a
  else
    { a with
      reported := (line, cwe, category) :: a.reported
      findings := a.findings ++
        [{ file := a.filePath, line := max 1 line, cwe := cwe, severity := severity,
           category := category, message := message }]
      emitted := by
        intro identity hmem
        rcases List.mem_cons.mp hmem with rfl | hmem
        · exact ⟨_, List.mem_append_right _ (List.mem_singleton_self _), rfl, rfl⟩
        · obtain ⟨f, hf, heq⟩ := a.emitted identity hmem
          exact ⟨f, List.mem_append_left _ hf, heq⟩ }

def isExternalUrl (url : Text) : Bool := externalUrlPrefixes.any (·.toList.isPrefixOf (strip url))

def subresourceMessage (tag urlAttr : String) (url crossorigin : Text) : String :=
  let note := if crossorigin = [] then "crossorigin attribute absent"
    else "crossorigin=\"" ++ String.ofList crossorigin ++ "\""
  "CWE-353: Missing Subresource Integrity (SRI) on external <" ++ tag ++ " " ++ urlAttr ++ "> loading " ++
    String.ofList (strip url) ++ " (" ++ note ++ "); add integrity=<hash> so the" ++
    " browser can reject a tampered CDN response"

def Auditor.checkSubresourceIntegrity (a : Auditor) (line : ℕ) (tag : String)
    (attrs : List (Text × Option Text)) (urlAttr : String) : Auditor :=
  let url := attrMap lower attrs urlAttr
  if !isExternalUrl url then a
  else if strip (attrMap lower attrs "integrity") ≠ [] then a
  else
    a.emit line "CWE-353" "MEDIUM" "MISSING_SUBRESOURCE_INTEGRITY"
      (subresourceMessage tag urlAttr url (strip (attrMap lower attrs "crossorigin")))

def untrustedLines (line : ℕ) (data : Text) : List ℕ :=
  ((findOutputs 0 0 data).filter fun out => !isTrustedExpression lower out.2).map (line + ·.1)

def Auditor.emitOutputs (a : Auditor) : List ℕ → Auditor
  | [] => a
  | line :: rest =>
    (a.emit line "CWE-79" "HIGH" "CROSS_SITE_SCRIPTING" unescapedOutputMessage).emitOutputs rest

def Auditor.checkUnescapedOutput (a : Auditor) (line : ℕ) (data : Text) : Auditor :=
  if a.verbatimDepth ≠ 0 then a else a.emitOutputs (untrustedLines lower line data)

def isStateChanging (attrs : List (Text × Option Text)) : Bool :=
  isOneOf stateChangingFormMethods (lower (strip (attrMap lower attrs "method")))

/-- `self._form_frames[-1][1] = True`; the innermost frame is the first one here. -/
def markFrame : List (ℕ × Bool) → List (ℕ × Bool)
  | [] => []
  | (line, _) :: rest => (line, true) :: rest

/-- The rules by tag of `handle_starttag`. -/
def Auditor.checkTag (a : Auditor) (line : ℕ) (lowered : Text) (attrs : List (Text × Option Text)) : Auditor :=
  if lowered = "script".toList then a.checkSubresourceIntegrity lower line "script" attrs "src"
  else if lowered = "link".toList then
    if "stylesheet".toList <:+: lower (attrMap lower attrs "rel") then
      a.checkSubresourceIntegrity lower line "link" attrs "href"
    else a
  else if lowered = "form".toList then
    if isStateChanging lower attrs then { a with formFrames := (line, false) :: a.formFrames } else a
  else a

/-- `<input>` or `<button>` under the name of a token. -/
def isTokenField (lowered : Text) (attrs : List (Text × Option Text)) : Bool :=
  isOneOf ["input", "button"] lowered && isOneOf csrfTokenMarkers (lower (strip (attrMap lower attrs "name")))

def Auditor.handleStarttag (a : Auditor) (line : ℕ) (tag : Text) (attrs : List (Text × Option Text))
    (selfClosing : Bool) : Auditor :=
  let lowered := lower tag
  let depth := if isOneOf verbatimTags lowered && !selfClosing then a.verbatimDepth + 1 else a.verbatimDepth
  let a := { a with verbatimDepth := depth }.checkTag lower line lowered attrs
  if isTokenField lower lowered attrs then { a with formFrames := markFrame a.formFrames } else a

def holdsMarker (data : Text) : Bool := csrfTokenMarkers.any fun marker => marker.toList <:+: lower data

def Auditor.checkCsrfToken (a : Auditor) (data : Text) : Auditor :=
  if holdsMarker lower data then { a with formFrames := markFrame a.formFrames } else a

def Auditor.handleData (a : Auditor) (line : ℕ) (data : Text) : Auditor :=
  if data = [] then a else (a.checkCsrfToken lower data).checkUnescapedOutput lower line data

def Auditor.emitForm (a : Auditor) (frame : ℕ × Bool) : Auditor :=
  if frame.2 then a else a.emit frame.1 "CWE-352" "HIGH" "CSRF_MISSING_PROTECTION" csrfMessage

def Auditor.handleEndtag (a : Auditor) (tag : Text) : Auditor :=
  let lowered := lower tag
  let depth := if isOneOf verbatimTags lowered then a.verbatimDepth - 1 else a.verbatimDepth
  let a := { a with verbatimDepth := depth }
  if lowered ≠ "form".toList then a
  else match a.formFrames with
    | [] => a
    | frame :: rest => { a with formFrames := rest }.emitForm frame

def Auditor.handle (a : Auditor) (e : Event) : Auditor :=
  match e.markup with
  | .startTag tag attrs selfClosing => a.handleStarttag lower e.line tag attrs selfClosing
  | .endTag tag => a.handleEndtag lower tag
  | .data text => a.handleData lower e.line text

def Auditor.closeFrames (a : Auditor) : List (ℕ × Bool) → Auditor
  | [] => a
  | frame :: rest => (a.emitForm frame).closeFrames rest

/-- `close()`, once the parser has handed over its last events. -/
def Auditor.close (a : Auditor) : Auditor := { a with formFrames := [] }.closeFrames a.formFrames

def auditor (filePath : String) (events : List Event) : Auditor :=
  events.foldl (Auditor.handle lower) { filePath := filePath }

def auditTemplate (filePath : String) (events : List Event) : List Finding :=
  (auditor lower filePath events).close.findings

end

/-- There is a finding of that weakness at the line. -/
def Reports (findings : List Finding) (cwe : String) (line : ℕ) : Prop :=
  ∃ f ∈ findings, f.cwe = cwe ∧ f.line = line

section

variable {a : Auditor} {line L : ℕ} {cwe severity category message weakness : String}

@[simp]
theorem emit_formFrames : (a.emit line cwe severity category message).formFrames = a.formFrames := by
  rw [Auditor.emit]
  split <;> rfl

@[simp]
theorem emit_verbatimDepth : (a.emit line cwe severity category message).verbatimDepth = a.verbatimDepth := by
  rw [Auditor.emit]
  split <;> rfl

theorem reports_emit : Reports (a.emit line cwe severity category message).findings weakness L ↔
    Reports a.findings weakness L ∨ weakness = cwe ∧ L = max 1 line := by
  rw [Auditor.emit]
  split
  next hmem =>
    constructor
    · exact .inl
    · rintro (h | ⟨rfl, rfl⟩)
      · exact h
      · obtain ⟨f, hf, hline, hcwe⟩ := a.emitted _ hmem
        exact ⟨f, hf, hcwe, hline⟩
  · constructor
    · rintro ⟨f, hf, rfl, rfl⟩
      rcases List.mem_append.mp hf with hf | hf
      · exact .inl ⟨f, hf, rfl, rfl⟩
      · rw [List.mem_singleton.mp hf]
        exact .inr ⟨rfl, rfl⟩
    · rintro (⟨f, hf, h⟩ | ⟨rfl, rfl⟩)
      · exact ⟨f, List.mem_append_left _ hf, h⟩
      · exact ⟨_, List.mem_append_right _ (List.mem_singleton_self _), rfl, rfl⟩

theorem reports_emit_of_ne (h : weakness ≠ cwe) :
    Reports (a.emit line cwe severity category message).findings weakness L ↔ Reports a.findings weakness L := by
  rw [reports_emit]
  simp [h]

end

/-! ## One hook -/

section

variable (lower : Text → Text) {a : Auditor} {line L : ℕ} {weakness : String}

@[simp]
theorem checkSubresourceIntegrity_formFrames (tag : String) (attrs : List (Text × Option Text))
    (urlAttr : String) : (a.checkSubresourceIntegrity lower line tag attrs urlAttr).formFrames = a.formFrames := by
  rw [Auditor.checkSubresourceIntegrity]
  split_ifs <;> simp

@[simp]
theorem checkSubresourceIntegrity_verbatimDepth (tag : String) (attrs : List (Text × Option Text))
    (urlAttr : String) :
    (a.checkSubresourceIntegrity lower line tag attrs urlAttr).verbatimDepth = a.verbatimDepth := by
  rw [Auditor.checkSubresourceIntegrity]
  split_ifs <;> simp

theorem reports_checkSubresourceIntegrity (h : weakness ≠ "CWE-353") (tag : String)
    (attrs : List (Text × Option Text)) (urlAttr : String) :
    Reports (a.checkSubresourceIntegrity lower line tag attrs urlAttr).findings weakness L ↔
      Reports a.findings weakness L := by
  rw [Auditor.checkSubresourceIntegrity]
  split_ifs
  · exact Iff.rfl
  · exact Iff.rfl
  · exact reports_emit_of_ne h

theorem reports_checkTag (h : weakness ≠ "CWE-353") (lowered : Text) (attrs : List (Text × Option Text)) :
    Reports (a.checkTag lower line lowered attrs).findings weakness L ↔ Reports a.findings weakness L := by
  rw [Auditor.checkTag]
  split_ifs
  · exact reports_checkSubresourceIntegrity lower h ..
  · exact reports_checkSubresourceIntegrity lower h ..
  all_goals exact Iff.rfl

@[simp]
theorem checkTag_verbatimDepth (lowered : Text) (attrs : List (Text × Option Text)) :
    (a.checkTag lower line lowered attrs).verbatimDepth = a.verbatimDepth := by
  rw [Auditor.checkTag]
  split_ifs
  · exact checkSubresourceIntegrity_verbatimDepth lower ..
  · exact checkSubresourceIntegrity_verbatimDepth lower ..
  all_goals rfl

theorem checkTag_formFrames (lowered : Text) (attrs : List (Text × Option Text)) :
    (a.checkTag lower line lowered attrs).formFrames =
      if lowered = "form".toList ∧ isStateChanging lower attrs then (line, false) :: a.formFrames
      else a.formFrames := by
  by_cases hform : lowered = "form".toList
  · rw [Auditor.checkTag, if_neg (by rw [hform]; decide), if_neg (by rw [hform]; decide), if_pos hform]
    by_cases hstate : isStateChanging lower attrs = true
    · rw [if_pos hstate, if_pos ⟨hform, hstate⟩]
    · rw [if_neg hstate, if_neg fun h => hstate h.2]
  · rw [if_neg fun h => hform h.1, Auditor.checkTag]
    split_ifs
    · exact checkSubresourceIntegrity_formFrames lower ..
    · exact checkSubresourceIntegrity_formFrames lower ..
    all_goals rfl

theorem reports_handleStarttag (h : weakness ≠ "CWE-353") (tag : Text) (attrs : List (Text × Option Text))
    (selfClosing : Bool) :
    Reports (a.handleStarttag lower line tag attrs selfClosing).findings weakness L ↔
      Reports a.findings weakness L := by
  rw [Auditor.handleStarttag]
  split
  · exact reports_checkTag lower h ..
  · exact reports_checkTag lower h ..

theorem handleStarttag_verbatimDepth (tag : Text) (attrs : List (Text × Option Text)) (selfClosing : Bool) :
    (a.handleStarttag lower line tag attrs selfClosing).verbatimDepth =
      if isOneOf verbatimTags (lower tag) && !selfClosing then a.verbatimDepth + 1 else a.verbatimDepth := by
  rw [Auditor.handleStarttag]
  split
  · exact checkTag_verbatimDepth lower ..
  · exact checkTag_verbatimDepth lower ..

theorem handleStarttag_formFrames (tag : Text) (attrs : List (Text × Option Text)) (selfClosing : Bool) :
    (a.handleStarttag lower line tag attrs selfClosing).formFrames =
      if lower tag = "form".toList ∧ isStateChanging lower attrs then (line, false) :: a.formFrames
      else if isTokenField lower (lower tag) attrs then markFrame a.formFrames else a.formFrames := by
  rw [Auditor.handleStarttag]
  by_cases hfield : isTokenField lower (lower tag) attrs = true
  · have hform : lower tag ≠ "form".toList := by
      intro hform
      rw [isTokenField, hform] at hfield
      exact absurd (Bool.and_eq_true_iff.mp hfield).1 (by decide)
    have hnot : ¬(lower tag = "form".toList ∧ isStateChanging lower attrs = true) := fun h => hform h.1
    rw [if_pos hfield, if_neg hnot, if_pos hfield]
    exact congrArg markFrame ((checkTag_formFrames lower ..).trans (if_neg hnot))
  · rw [if_neg hfield, if_neg hfield]
    exact checkTag_formFrames lower ..

@[simp]
theorem emitForm_formFrames (frame : ℕ × Bool) : (a.emitForm frame).formFrames = a.formFrames := by
  rw [Auditor.emitForm]
  split
  · rfl
  · exact emit_formFrames

@[simp]
theorem emitForm_verbatimDepth (frame : ℕ × Bool) : (a.emitForm frame).verbatimDepth = a.verbatimDepth := by
  rw [Auditor.emitForm]
  split
  · rfl
  · exact emit_verbatimDepth

theorem reports_emitForm (frame : ℕ × Bool) : Reports (a.emitForm frame).findings weakness L ↔
    Reports a.findings weakness L ∨ frame.2 = false ∧ weakness = "CWE-352" ∧ L = max 1 frame.1 := by
  rw [Auditor.emitForm]
  split
  next h => simp [h]
  next h =>
    rw [reports_emit]
    simp [h]

theorem reports_closeFrames (frames : List (ℕ × Bool)) : Reports (a.closeFrames frames).findings weakness L ↔
    Reports a.findings weakness L ∨
      ∃ frame ∈ frames, frame.2 = false ∧ weakness = "CWE-352" ∧ L = max 1 frame.1 := by
  induction frames generalizing a with
  | nil => simp [Auditor.closeFrames]
  | cons frame rest ih =>
    rw [Auditor.closeFrames, ih, reports_emitForm, List.exists_mem_cons_iff, or_assoc]

theorem emitOutputs_formFrames (lines : List ℕ) : (a.emitOutputs lines).formFrames = a.formFrames := by
  induction lines generalizing a with
  | nil => rfl
  | cons line rest ih => rw [Auditor.emitOutputs, ih, emit_formFrames]

theorem emitOutputs_verbatimDepth (lines : List ℕ) : (a.emitOutputs lines).verbatimDepth = a.verbatimDepth := by
  induction lines generalizing a with
  | nil => rfl
  | cons line rest ih => rw [Auditor.emitOutputs, ih, emit_verbatimDepth]

theorem reports_emitOutputs (lines : List ℕ) : Reports (a.emitOutputs lines).findings weakness L ↔
    Reports a.findings weakness L ∨ weakness = "CWE-79" ∧ ∃ line ∈ lines, L = max 1 line := by
  induction lines generalizing a with
  | nil => simp [Auditor.emitOutputs]
  | cons line rest ih =>
    rw [Auditor.emitOutputs, ih, reports_emit, List.exists_mem_cons_iff, or_assoc, ← and_or_left]

theorem handleData_formFrames (text : Text) : (a.handleData lower line text).formFrames =
    if text ≠ [] ∧ holdsMarker lower text then markFrame a.formFrames else a.formFrames := by
  rw [Auditor.handleData]
  by_cases h : text = []
  · rw [if_pos h, if_neg fun hboth => hboth.1 h]
  · rw [if_neg h]
    have hcheck : (a.checkCsrfToken lower text).formFrames =
        if text ≠ [] ∧ holdsMarker lower text then markFrame a.formFrames else a.formFrames := by
      rw [Auditor.checkCsrfToken]
      by_cases hmarker : holdsMarker lower text = true
      · rw [if_pos hmarker, if_pos ⟨h, hmarker⟩]
      · rw [if_neg hmarker, if_neg fun hboth => hmarker hboth.2]
    rw [Auditor.checkUnescapedOutput]
    split
    · exact hcheck
    · rw [emitOutputs_formFrames, hcheck]

theorem checkCsrfToken_verbatimDepth (text : Text) :
    (a.checkCsrfToken lower text).verbatimDepth = a.verbatimDepth := by
  rw [Auditor.checkCsrfToken]
  split <;> rfl

theorem handleData_verbatimDepth (text : Text) :
    (a.handleData lower line text).verbatimDepth = a.verbatimDepth := by
  rw [Auditor.handleData]
  split
  · rfl
  · rw [Auditor.checkUnescapedOutput]
    split
    · exact checkCsrfToken_verbatimDepth lower text
    · rw [emitOutputs_verbatimDepth, checkCsrfToken_verbatimDepth]

theorem reports_handleData (text : Text) : Reports (a.handleData lower line text).findings weakness L ↔
    Reports a.findings weakness L ∨ a.verbatimDepth = 0 ∧ weakness = "CWE-79" ∧
      ∃ l ∈ untrustedLines lower line text, L = max 1 l := by
  rw [Auditor.handleData]
  split
  next h =>
    have hnone : untrustedLines lower line text = [] := by
      rw [h]
      rfl
    simp [hnone]
  · have hcheck : Reports (a.checkCsrfToken lower text).findings weakness L ↔ Reports a.findings weakness L := by
      rw [Auditor.checkCsrfToken]
      split <;> rfl
    rw [Auditor.checkUnescapedOutput, checkCsrfToken_verbatimDepth]
    split
    next hdepth => simp [hcheck, hdepth]
    next hdepth =>
      rw [reports_emitOutputs, hcheck]
      simp [not_not.mp hdepth]

theorem handleEndtag_formFrames (tag : Text) : (a.handleEndtag lower tag).formFrames =
    if lower tag = "form".toList then a.formFrames.tail else a.formFrames := by
  rw [Auditor.handleEndtag]
  by_cases hform : lower tag = "form".toList
  · rw [if_neg (not_not.mpr hform), if_pos hform]
    cases hframes : a.formFrames with
    | nil => rfl
    | cons frame rest => exact emitForm_formFrames frame
  · rw [if_pos hform, if_neg hform]

theorem handleEndtag_verbatimDepth (tag : Text) : (a.handleEndtag lower tag).verbatimDepth =
    if isOneOf verbatimTags (lower tag) then a.verbatimDepth - 1 else a.verbatimDepth := by
  rw [Auditor.handleEndtag]
  by_cases hform : lower tag = "form".toList
  · rw [if_neg (not_not.mpr hform)]
    cases hframes : a.formFrames with
    | nil => rfl
    | cons frame rest => exact emitForm_verbatimDepth frame
  · rw [if_pos hform]

theorem reports_handleEndtag (tag : Text) : Reports (a.handleEndtag lower tag).findings weakness L ↔
    Reports a.findings weakness L ∨ lower tag = "form".toList ∧ ∃ frame ∈ a.formFrames.head?,
      frame.2 = false ∧ weakness = "CWE-352" ∧ L = max 1 frame.1 := by
  rw [Auditor.handleEndtag]
  by_cases hform : lower tag = "form".toList
  · rw [if_neg (not_not.mpr hform)]
    cases hframes : a.formFrames with
    | nil => simp
    | cons frame rest =>
      refine (reports_emitForm frame).trans ?_
      simp [hform]
  · rw [if_pos hform]
    exact ⟨.inl, fun h => h.elim id fun hboth => absurd hboth.1 hform⟩

end

end TimeCodeSecurity.Html
