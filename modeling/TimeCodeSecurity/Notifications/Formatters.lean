import TimeCodeSecurity.Foundations.Replacing
import TimeCodeSecurity.Foundations.Utf8
import TimeCodeSecurity.Notifications.Policy

/-! # Payload formatters

`webhook_formatters.py`: the payloads of an intent for a generic receiver, for Slack and for Discord. The text of a
payload is encoded at the end; a lone surrogate has no octets, and an integer of more than 4300 digits no text.
-/
namespace TimeCodeSecurity.Policy
open Replacing
set_option autoImplicit false

def escapeSlackText (text : CodeText) : CodeText :=
  if text = [] then []
  else replaceAll [62] (codes "&gt;") (replaceAll [60] (codes "&lt;") (replaceAll [38] (codes "&amp;") text))

def parted (head : ℕ) (rest : String) : CodeText := head :: 0x200B :: codes rest

def escapeDiscordText (text : CodeText) : CodeText :=
  if text = [] then []
  else
    let sanitized := replaceAll (codes "@here") (parted 64 "here")
      (replaceAll (codes "@everyone") (parted 64 "everyone") text)
    replaceAll (codes "<@&") (parted 60 "@&") (replaceAll (codes "<@") (parted 60 "@") sanitized)

/-! ## Payloads -/

inductive Payload
  | null
  | bool (b : Bool)
  | int (n : ℤ)
  | str (text : CodeText)
  | arr (items : List Payload)
  | obj (fields : List (String × Payload))

/-- `str` of an integer. -/
def intText : ℤ → CodeText
  | .ofNat n => (Nat.toDigits 10 n).map Char.toNat
  | .negSucc n => 45 :: (Nat.toDigits 10 (n + 1)).map Char.toNat

def hexDigit (n : ℕ) : ℕ := if n < 10 then 48 + n else 87 + n

/-- A character of a string without `ensure_ascii`. -/
def jsonChar (c : ℕ) : CodeText :=
  if c = 34 then [92, 34]
  else if c = 92 then [92, 92]
  else if c = 10 then codes "\\n"
  else if c = 13 then codes "\\r"
  else if c = 9 then codes "\\t"
  else if c = 12 then codes "\\f"
  else if c = 8 then codes "\\b"
  else if c < 32 then codes "\\u00" ++ [hexDigit (c / 16), hexDigit (c % 16)]
  else [c]

def quoted (text : CodeText) : CodeText := 34 :: (text.flatMap jsonChar ++ [34])

mutual

/-- `json.dumps(value, ensure_ascii=False)`. -/
def dumps : Payload → CodeText
  | .null => codes "null"
  | .bool true => codes "true"
  | .bool false => codes "false"
  | .int n => intText n
  | .str text => quoted text
  | .arr items => codes "[" ++ (dumpsItems true items ++ codes "]")
  | .obj fields => 0x7B :: (dumpsFields true fields ++ [0x7D])

def dumpsItems : Bool → List Payload → CodeText
  | _, [] => []
  | first, item :: items => (if first then [] else codes ", ") ++ (dumps item ++ dumpsItems false items)

def dumpsFields : Bool → List (String × Payload) → CodeText
  | _, [] => []
  | first, (key, value) :: fields =>
    (if first then [] else codes ", ") ++
      (quoted (codes key) ++ (codes ": " ++ (dumps value ++ dumpsFields false fields)))

end

mutual

/-- The strings of a payload, but for those under the key `hidden`. -/
def texts (hidden : Option String) : Payload → List CodeText
  | .str text => [text]
  | .arr items => textsItems hidden items
  | .obj fields => textsFields hidden fields
  | _ => []

def textsItems (hidden : Option String) : List Payload → List CodeText
  | [] => []
  | item :: items => texts hidden item ++ textsItems hidden items

def textsFields (hidden : Option String) : List (String × Payload) → List CodeText
  | [] => []
  | (key, value) :: fields => (if hidden = some key then [] else texts hidden value) ++ textsFields hidden fields

end

inductive FormatError
  | tooLarge
  | unicodeEncode
  | intDigits
deriving DecidableEq, Repr

def hasText (n : ℤ) : Bool := n.natAbs < 10 ^ 4300

def wire (written : List ℤ) (payload : Payload) : Except FormatError (List ℕ) :=
  if written.all hasText then
    match Utf8.encode (dumps payload) with
    | none => .error .unicodeEncode
    | some octets => if 65536 < octets.length then .error .tooLarge else .ok octets
  else .error .intDigits

def str (s : String) : Payload := .str (codes s)

def genericFinding (f : SafeFindingSummary) : Payload :=
  .obj
    [("rule_id", .str f.ruleId), ("cwe", .str f.cwe), ("severity", .str f.severity), ("file_path", .str f.filePath),
     ("line", f.line.elim .null .int), ("message", .str f.message)]

def genericPayload (i : NotificationIntent) : Payload :=
  .obj
    [("schema_version", .int 1), ("event_id", .str i.eventId), ("scan_id", .str i.scanId),
     ("organization_id", .int i.organizationId), ("notification_type", .str i.notificationType),
     ("severity", .str i.severity), ("title", .str i.title), ("message", .str i.message),
     ("link", i.link.elim .null .str), ("created_at", .str i.createdAt),
     ("findings_truncated", .bool i.findingsTruncated), ("total_findings", .int i.totalFindings),
     ("findings", .arr (i.safeFindings.map genericFinding))]

def lines (findings : List SafeFindingSummary) : List ℤ := findings.filterMap SafeFindingSummary.line

/-- `GenericWebhookFormatter.format`. -/
def formatGeneric (i : NotificationIntent) : Except FormatError (List ℕ) :=
  wire (i.organizationId :: i.totalFindings :: lines i.safeFindings) (genericPayload i)

def lineSuffix (line : Option ℤ) : CodeText :=
  match line with
  | none => []
  | some n => if n = 0 then [] else 58 :: intText n

def slackTitle (i : NotificationIntent) : CodeText := (escapeSlackText i.title).take 2000

def slackHeader (i : NotificationIntent) : CodeText := (slackTitle i).take 150

def slackSection (i : NotificationIntent) : CodeText :=
  codes "*Severity:* `" ++ (escapeSlackText i.severity ++ (codes "`\n" ++ (escapeSlackText i.message).take 2000))

def slackFinding (f : SafeFindingSummary) : CodeText :=
  (codes "• *" ++ (escapeSlackText f.ruleId ++ (codes "* (" ++ (escapeSlackText f.cwe ++ (codes ") [" ++
    (f.severity ++ (codes "]\n  `" ++ (escapeSlackText f.filePath ++ (lineSuffix f.line ++ (codes "` — " ++
      escapeSlackText f.message)))))))))).take 2000

def sectionBlock (text : CodeText) : Payload :=
  .obj [("type", str "section"), ("text", .obj [("type", str "mrkdwn"), ("text", .str text)])]

def slackBlocks (blocks : List Payload) : List SafeFindingSummary → List Payload
  | [] => blocks
  | f :: findings =>
    let blocks := blocks ++ [sectionBlock (slackFinding f)]
    if 14 ≤ blocks.length then blocks else slackBlocks blocks findings

def showsCount (i : NotificationIntent) : Bool := i.findingsTruncated || i.safeFindings.length < i.totalFindings

def slackCount (i : NotificationIntent) : CodeText :=
  codes "Showing " ++ (intText i.safeFindings.length ++ (codes " of " ++ (intText i.totalFindings ++
    codes " findings. View full scan in dashboard.")))

def slackPayload (i : NotificationIntent) : Payload :=
  let header : Payload := .obj
    [("type", str "header"),
     ("text", .obj [("type", str "plain_text"), ("text", .str (slackHeader i)), ("emoji", .bool true)])]
  let blocks := slackBlocks [header, sectionBlock (slackSection i)] (i.safeFindings.take 10)
  let context : List Payload :=
    if showsCount i then
      [.obj [("type", str "context"),
        ("elements", .arr [.obj [("type", str "mrkdwn"), ("text", .str (slackCount i))]])]]
    else []
  .obj [("text", .str ((slackTitle i).take 2000)), ("blocks", .arr ((blocks ++ context).take 15))]

/-- `SlackWebhookFormatter.format`. -/
def formatSlack (i : NotificationIntent) : Except FormatError (List ℕ) :=
  wire (lines (i.safeFindings.take 10) ++ if showsCount i then [i.totalFindings] else []) (slackPayload i)

section
variable (U : Unicode)

def severityColor (severity : CodeText) : ℤ :=
  (([(codes "CRITICAL", 0xFF0000), (codes "HIGH", 0xFF5500), (codes "MEDIUM", 0xFFAA00), (codes "LOW", 0x00AAFF),
    (codes "INFO", 0x888888)] : List (CodeText × ℤ)).lookup (upper U severity)).getD 0x888888

def discordField (name value : CodeText) (inline : Bool) : Payload :=
  .obj [("name", .str name), ("value", .str value), ("inline", .bool inline)]

def discordName (f : SafeFindingSummary) : CodeText :=
  (escapeDiscordText f.ruleId).take 64 ++ (codes " [" ++ (f.severity ++ codes "]"))

def discordValue (f : SafeFindingSummary) : CodeText :=
  codes "`" ++ ((escapeDiscordText f.filePath).take 128 ++ (lineSuffix f.line ++ (codes "`\n" ++
    (escapeDiscordText f.message).take 255)))

def discordTitle (i : NotificationIntent) : CodeText := (escapeDiscordText i.title).take 250

def discordSeverity (i : NotificationIntent) : CodeText := codes "`" ++ (i.severity ++ codes "`")

def discordPayload (i : NotificationIntent) : Payload :=
  let fields := discordField (codes "Severity") (discordSeverity i) true ::
    discordField (codes "Total Findings") (intText i.totalFindings) true ::
      (i.safeFindings.take 5).map fun f => discordField (discordName f) (discordValue f) false
  let url : List (String × Payload) :=
    match i.link with
    | some (c :: link) => [("url", .str (c :: link))]
    | _ => []
  let embed : Payload := .obj (
    [("title", .str (discordTitle i)), ("description", .str ((escapeDiscordText i.message).take 2000)),
     ("color", .int (severityColor U i.severity)), ("fields", .arr fields)] ++ url)
  .obj [("content", .str ((discordTitle i).take 2000)), ("text", .str ((discordTitle i).take 2000)),
    ("embeds", .arr [embed])]

/-- `DiscordWebhookFormatter.format`. -/
def formatDiscord (i : NotificationIntent) : Except FormatError (List ℕ) :=
  wire (i.totalFindings :: lines (i.safeFindings.take 5)) (discordPayload U i)

def formatWebhookPayload (i : NotificationIntent) (formatType : CodeText) : Except FormatError (List ℕ) :=
  let fmt := strip (upper U formatType)
  if fmt = codes "SLACK" then formatSlack i
  else if fmt = codes "DISCORD" then formatDiscord U i
  else formatGeneric i

end

def slackChar (c : ℕ) : CodeText :=
  if c = 38 then codes "&amp;" else if c = 60 then codes "&lt;" else if c = 62 then codes "&gt;" else [c]

theorem escapeSlackText_eq (text : CodeText) : escapeSlackText text = text.flatMap slackChar := by
  unfold escapeSlackText
  split
  next hnil =>
    rw [hnil]
    rfl
  rw [replaceAll_singleton, replaceAll_singleton, replaceAll_singleton, List.flatMap_assoc, List.flatMap_assoc]
  congr 1
  funext c
  by_cases hamp : c = 38
  · subst hamp
    rfl
  by_cases hless : c = 60
  · subst hless
    rfl
  by_cases hgreater : c = 62
  · subst hgreater
    rfl
  simp [slackChar, hamp, hless, hgreater]

def NoBracket (text : CodeText) : Prop := 60 ∉ text ∧ 62 ∉ text

instance (text : CodeText) : Decidable (NoBracket text) := inferInstanceAs (Decidable (_ ∧ _))

theorem NoBracket.append {t t' : CodeText} (h : NoBracket t) (h' : NoBracket t') : NoBracket (t ++ t') :=
  ⟨fun hmem => (List.mem_append.mp hmem).elim h.1 h'.1, fun hmem => (List.mem_append.mp hmem).elim h.2 h'.2⟩

theorem NoBracket.take {t : CodeText} (h : NoBracket t) (n : ℕ) : NoBracket (t.take n) :=
  ⟨fun hmem => h.1 (List.mem_of_mem_take hmem), fun hmem => h.2 (List.mem_of_mem_take hmem)⟩

theorem noBracket_slackChar (c : ℕ) : NoBracket (slackChar c) := by
  unfold slackChar NoBracket
  split
  · decide
  split
  · decide
  split
  · decide
  next hless hgreater => simp [Ne.symm hless, Ne.symm hgreater]

theorem noBracket_escapeSlackText (text : CodeText) : NoBracket (escapeSlackText text) := by
  rw [escapeSlackText_eq]
  constructor
  · intro hmem
    obtain ⟨c, -, hc⟩ := List.mem_flatMap.mp hmem
    exact (noBracket_slackChar c).1 hc
  · intro hmem
    obtain ⟨c, -, hc⟩ := List.mem_flatMap.mp hmem
    exact (noBracket_slackChar c).2 hc

theorem mem_intText {n : ℤ} {c : ℕ} (h : c ∈ intText n) : c = 45 ∨ 48 ≤ c ∧ c ≤ 57 := by
  have hdigits : ∀ m : ℕ, c ∈ (Nat.toDigits 10 m).map Char.toNat → 48 ≤ c ∧ c ≤ 57 := by
    intro m hc
    obtain ⟨d, hd, rfl⟩ := List.mem_map.mp hc
    have hdigit := Nat.isDigit_of_mem_toDigits (by omega) (by omega) hd
    simp only [Char.isDigit, Bool.and_eq_true, decide_eq_true_eq, ge_iff_le, UInt32.le_iff_toNat_le] at hdigit
    exact hdigit
  cases n with
  | ofNat m => exact .inr (hdigits m h)
  | negSucc m =>
    rcases List.mem_cons.mp h with rfl | h
    · exact .inl rfl
    · exact .inr (hdigits (m + 1) h)

theorem mem_lineSuffix {line : Option ℤ} {c : ℕ} (h : c ∈ lineSuffix line) : c = 45 ∨ 48 ≤ c ∧ c ≤ 58 := by
  cases line with
  | none => cases h
  | some n =>
    rw [lineSuffix] at h
    split at h
    · cases h
    · rcases List.mem_cons.mp h with rfl | h
      · exact .inr ⟨by omega, le_refl 58⟩
      · have := mem_intText h
        omega

theorem noBracket_intText (n : ℤ) : NoBracket (intText n) :=
  ⟨fun h => by have := mem_intText h; omega, fun h => by have := mem_intText h; omega⟩

theorem noBracket_lineSuffix (line : Option ℤ) : NoBracket (lineSuffix line) :=
  ⟨fun h => by have := mem_lineSuffix h; omega, fun h => by have := mem_lineSuffix h; omega⟩

/-! ### Cut entities -/

def IsCutEntity (t : CodeText) : Prop := ∃ c, t <+: slackChar c ∧ t ≠ slackChar c

def unescapeSlack : CodeText → CodeText
  | [] => []
  | 38 :: 97 :: 109 :: 112 :: 59 :: rest => 38 :: unescapeSlack rest
  | 38 :: 108 :: 116 :: 59 :: rest => 60 :: unescapeSlack rest
  | 38 :: 103 :: 116 :: 59 :: rest => 62 :: unescapeSlack rest
  | c :: rest => c :: unescapeSlack rest

theorem unescapeSlack_slackChar (c : ℕ) (rest : CodeText) :
    unescapeSlack (slackChar c ++ rest) = c :: unescapeSlack rest := by
  unfold slackChar
  split
  next h =>
    rw [h]
    rfl
  split
  next h =>
    rw [h]
    rfl
  split
  next h =>
    rw [h]
    rfl
  next hamp _ _ =>
    rw [List.singleton_append, unescapeSlack]
    all_goals
      intro rest' hc
      exact absurd hc hamp

theorem unescapeSlack_cut {t : CodeText} (h : IsCutEntity t) : unescapeSlack t = t := by
  obtain ⟨c, hprefix, hne⟩ := h
  have hentity : ∀ e ∈ [codes "&amp;", codes "&lt;", codes "&gt;"], ∀ t ∈ e.inits, t ≠ e → unescapeSlack t = t := by
    decide
  rw [← List.mem_inits] at hprefix
  unfold slackChar at hprefix hne
  split at hprefix
  next hamp =>
    rw [if_pos hamp] at hne
    exact hentity _ (by simp) t hprefix hne
  next hamp =>
    rw [if_neg hamp] at hne
    split at hprefix
    next hless =>
      rw [if_pos hless] at hne
      exact hentity _ (by simp) t hprefix hne
    next hless =>
      rw [if_neg hless] at hne
      split at hprefix
      next hgreater =>
        rw [if_pos hgreater] at hne
        exact hentity _ (by simp) t hprefix hne
      next hgreater =>
        rw [if_neg hgreater] at hne
        have hnil : t = [] := by simpa [hne] using hprefix
        rw [hnil]
        rfl

def Unescapes (original shown : CodeText) : Prop :=
  ∃ kept rest, kept <+: original ∧ (rest = [] ∨ IsCutEntity rest) ∧ unescapeSlack shown = kept ++ rest

theorem unescapeSlack_append (kept rest : CodeText) :
    unescapeSlack (kept.flatMap slackChar ++ rest) = kept ++ unescapeSlack rest := by
  induction kept with
  | nil => rfl
  | cons c kept ih => rw [List.flatMap_cons, List.append_assoc, unescapeSlack_slackChar, ih, List.cons_append]

theorem exists_take_flatMap {α β : Type} (f : α → List β) (xs : List α) (n : ℕ) : ∃ kept rest,
    kept <+: xs ∧ (xs.flatMap f).take n = kept.flatMap f ++ rest ∧ (rest = [] ∨ ∃ x, rest <+: f x ∧ rest ≠ f x) := by
  induction xs generalizing n with
  | nil => exact ⟨[], [], List.nil_prefix, by simp, .inl rfl⟩
  | cons x xs ih =>
    rw [List.flatMap_cons]
    by_cases hn : n < (f x).length
    · refine ⟨[], (f x).take n, List.nil_prefix, ?_, .inr ⟨x, List.take_prefix n _, fun heq => ?_⟩⟩
      · exact List.take_append_of_le_length hn.le
      · have hlength := congrArg List.length heq
        rw [List.length_take] at hlength
        omega
    · obtain ⟨kept, rest, hkept, htake, hrest⟩ := ih (n - (f x).length)
      refine ⟨x :: kept, rest, List.cons_prefix_cons.mpr ⟨rfl, hkept⟩, ?_, hrest⟩
      rw [List.take_append, List.take_of_length_le (not_lt.mp hn), htake, List.flatMap_cons, List.append_assoc]

theorem unescapes_take (text : CodeText) (n : ℕ) : Unescapes text ((escapeSlackText text).take n) := by
  obtain ⟨kept, rest, hkept, htake, hrest⟩ := exists_take_flatMap slackChar text n
  refine ⟨kept, rest, hkept, hrest, ?_⟩
  rw [escapeSlackText_eq, htake, unescapeSlack_append]
  rcases hrest with rfl | hrest
  · rfl
  · rw [unescapeSlack_cut hrest]

inductive SlackPiece
  | own (text : CodeText)
  | escaped (original : CodeText)

def SlackPiece.text : SlackPiece → CodeText
  | .own text => text
  | .escaped original => escapeSlackText original

def SlackPiece.Shows : SlackPiece → CodeText → Prop
  | .own text, shown => shown <+: text
  | .escaped original, shown => Unescapes original shown

def ShowsPieces (pieces : List SlackPiece) (text : CodeText) : Prop :=
  ∃ shown, List.Forall₂ SlackPiece.Shows pieces shown ∧ text = shown.flatten

theorem showsPieces_take (pieces : List SlackPiece) (n : ℕ) :
    ShowsPieces pieces ((pieces.flatMap SlackPiece.text).take n) := by
  induction pieces generalizing n with
  | nil => exact ⟨[], .nil, by simp⟩
  | cons piece pieces ih =>
    obtain ⟨shown, hshown, htext⟩ := ih (n - piece.text.length)
    refine ⟨piece.text.take n :: shown, .cons ?_ hshown, ?_⟩
    · cases piece with
      | own text => exact List.take_prefix n text
      | escaped original => exact unescapes_take original n
    · rw [List.flatMap_cons, List.take_append, htext, List.flatten_cons]

theorem showsPieces_single (original : CodeText) (n : ℕ) :
    ShowsPieces [.escaped original] ((escapeSlackText original).take n) :=
  ⟨[_], .cons (unescapes_take original n) .nil, (List.append_nil _).symm⟩

def slackFindingPieces (f : SafeFindingSummary) : List SlackPiece :=
  [.own (codes "• *"), .escaped f.ruleId, .own (codes "* ("), .escaped f.cwe, .own (codes ") ["), .own f.severity,
   .own (codes "]\n  `"), .escaped f.filePath, .own (lineSuffix f.line), .own (codes "` — "), .escaped f.message]

theorem showsPieces_slackFinding (f : SafeFindingSummary) : ShowsPieces (slackFindingPieces f) (slackFinding f) := by
  have htext : slackFinding f = ((slackFindingPieces f).flatMap SlackPiece.text).take 2000 := by
    simp only [slackFinding, slackFindingPieces, List.flatMap_cons, List.flatMap_nil, List.append_nil,
      SlackPiece.text]
  rw [htext]
  exact showsPieces_take _ _

def slackSectionPieces (i : NotificationIntent) : List SlackPiece :=
  [.own (codes "*Severity:* `"), .escaped i.severity, .own (codes "`\n"), .escaped i.message]

theorem showsPieces_slackSection (i : NotificationIntent) : ShowsPieces (slackSectionPieces i) (slackSection i) := by
  have hseverity : Unescapes i.severity (escapeSlackText i.severity) := by
    have h := unescapes_take i.severity (escapeSlackText i.severity).length
    rwa [List.take_length] at h
  refine ⟨[codes "*Severity:* `", escapeSlackText i.severity, codes "`\n", (escapeSlackText i.message).take 2000],
    .cons (List.prefix_refl _) (.cons hseverity (.cons (List.prefix_refl _)
      (.cons (unescapes_take i.message 2000) .nil))), ?_⟩
  simp [slackSection]

/-! ## The texts of a payload -/

section
variable {hidden : Option String} {U : Unicode} {i : NotificationIntent} {t : CodeText}

theorem mem_textsItems {items : List Payload} : t ∈ textsItems hidden items ↔ ∃ p ∈ items, t ∈ texts hidden p := by
  induction items with
  | nil => simp [textsItems]
  | cons item items ih => simp [textsItems, ih]

theorem mem_textsFields {fields : List (String × Payload)} :
    t ∈ textsFields hidden fields ↔ ∃ e ∈ fields, hidden ≠ some e.1 ∧ t ∈ texts hidden e.2 := by
  induction fields with
  | nil => simp [textsFields]
  | cons e fields ih =>
    obtain ⟨key, value⟩ := e
    rw [textsFields, List.mem_append, ih, List.exists_mem_cons_iff]
    by_cases hkey : hidden = some key
    · rw [if_pos hkey]
      simp [hkey]
    · rw [if_neg hkey]
      simp [hkey]

@[simp] theorem texts_str : texts hidden (.str t) = [t] := rfl

@[simp] theorem texts_bool (b : Bool) : texts hidden (.bool b) = [] := rfl

@[simp] theorem texts_int (n : ℤ) : texts hidden (.int n) = [] := rfl

theorem mem_texts_arr {items : List Payload} : t ∈ texts hidden (.arr items) ↔ ∃ p ∈ items, t ∈ texts hidden p :=
  mem_textsItems

theorem mem_texts_obj {fields : List (String × Payload)} :
    t ∈ texts hidden (.obj fields) ↔ ∃ e ∈ fields, hidden ≠ some e.1 ∧ t ∈ texts hidden e.2 := mem_textsFields

theorem mem_slackBlocks {blocks : List Payload} {findings : List SafeFindingSummary} {b : Payload}
    (h : b ∈ slackBlocks blocks findings) : b ∈ blocks ∨ ∃ f ∈ findings, b = sectionBlock (slackFinding f) := by
  induction findings generalizing blocks with
  | nil => exact .inl h
  | cons f findings ih =>
    have hstep : b ∈ blocks ++ [sectionBlock (slackFinding f)] ∨ ∃ g ∈ findings, b = sectionBlock (slackFinding g) := by
      rw [slackBlocks] at h
      split at h
      · exact .inl h
      · exact ih h
    rcases hstep with hb | ⟨g, hg, hb⟩
    · rcases List.mem_append.mp hb with hb | hb
      · exact .inl hb
      · exact .inr ⟨f, List.mem_cons_self, List.mem_singleton.mp hb⟩
    · exact .inr ⟨g, List.mem_cons_of_mem f hg, hb⟩

theorem texts_sectionBlock {text : CodeText} (h : t ∈ texts none (sectionBlock text)) :
    t = codes "section" ∨ t = codes "mrkdwn" ∨ t = text := by
  simpa [sectionBlock, str, mem_texts_obj] using h

def slackWords : List CodeText := ["header", "plain_text", "section", "mrkdwn", "context"].map codes

def discordWords : List CodeText := ["Severity", "Total Findings"].map codes

theorem texts_slackPayload (h : t ∈ texts none (slackPayload i)) :
    t ∈ slackWords ∨ t = (slackTitle i).take 2000 ∨ t = slackHeader i ∨ t = slackSection i ∨ t = slackCount i ∨
      ∃ f ∈ i.safeFindings, t = slackFinding f := by
  simp only [slackPayload, mem_texts_obj, List.mem_cons, List.not_mem_nil, or_false, exists_eq_or_imp, exists_eq_left,
    mem_texts_arr, texts_str] at h
  rcases h with ⟨-, h⟩ | ⟨-, p, hp, h⟩
  · exact .inr (.inl h)
  have hsection : ∀ text, t ∈ texts none (sectionBlock text) → t ∈ slackWords ∨ t = text := by
    intro text ht
    rcases texts_sectionBlock ht with rfl | rfl | rfl
    · exact .inl (by decide)
    · exact .inl (by decide)
    · exact .inr rfl
  rcases List.mem_append.mp (List.mem_of_mem_take hp) with hp | hp
  · rcases mem_slackBlocks hp with hp | ⟨f, hf, rfl⟩
    · rcases List.mem_cons.mp hp with rfl | hp
      · have hheader : t = codes "header" ∨ t = codes "plain_text" ∨ t = slackHeader i := by
          simpa [str, mem_texts_obj] using h
        rcases hheader with rfl | rfl | rfl
        · exact .inl (by decide)
        · exact .inl (by decide)
        · exact .inr (.inr (.inl rfl))
      · rw [List.mem_singleton.mp hp] at h
        exact (hsection _ h).imp_right fun heq => .inr (.inr (.inl heq))
    · refine (hsection _ h).imp_right fun heq => .inr (.inr (.inr (.inr ⟨f, ?_, heq⟩)))
      exact List.mem_of_mem_take hf
  · split at hp
    · rw [List.mem_singleton.mp hp] at h
      have hcontext : t = codes "context" ∨ t = codes "mrkdwn" ∨ t = slackCount i := by
        simpa [str, mem_texts_obj, mem_texts_arr] using h
      rcases hcontext with rfl | rfl | rfl
      · exact .inl (by decide)
      · exact .inl (by decide)
      · exact .inr (.inr (.inr (.inr (.inl rfl))))
    · cases hp

theorem texts_discordPayload (h : t ∈ texts hidden (discordPayload U i)) :
    t ∈ discordWords ∨ t = (discordTitle i).take 2000 ∨ t = discordTitle i ∨
      t = (escapeDiscordText i.message).take 2000 ∨ t = discordSeverity i ∨ t = intText i.totalFindings ∨
      (∃ f ∈ i.safeFindings, t = discordName f ∨ t = discordValue f) ∨ hidden ≠ some "url" ∧ i.link = some t := by
  have hfield : ∀ {name value : CodeText} {inline : Bool}, t ∈ texts hidden (discordField name value inline) →
      t = name ∨ t = value := by
    intro name value inline ht
    simp only [discordField, mem_texts_obj, List.mem_cons, List.not_mem_nil, or_false, exists_eq_or_imp, exists_eq_left,
      texts_str, texts_bool, and_false] at ht
    exact ht.imp And.right And.right
  simp only [discordPayload, mem_texts_obj, mem_texts_arr, List.mem_cons, List.not_mem_nil, or_false, exists_eq_or_imp,
    exists_eq_left, texts_str, texts_int, and_false, false_or, List.mem_append, or_assoc] at h
  rcases h with ⟨-, h⟩ | ⟨-, h⟩ | ⟨-, ⟨-, h⟩ | ⟨-, h⟩ | ⟨-, h | h | ⟨p, hp, h⟩⟩ | ⟨⟨key, p⟩, hp, hhidden, h⟩⟩
  · exact .inr (.inl h)
  · exact .inr (.inl h)
  · exact .inr (.inr (.inl h))
  · exact .inr (.inr (.inr (.inl h)))
  · rcases hfield h with rfl | rfl
    · exact .inl (by decide)
    · exact .inr (.inr (.inr (.inr (.inl rfl))))
  · rcases hfield h with rfl | rfl
    · exact .inl (by decide)
    · exact .inr (.inr (.inr (.inr (.inr (.inl rfl)))))
  · obtain ⟨f, hf, rfl⟩ := List.mem_map.mp hp
    exact .inr (.inr (.inr (.inr (.inr (.inr (.inl ⟨f, List.mem_of_mem_take hf, hfield h⟩))))))
  · split at hp
    next c link hlink =>
      cases List.mem_singleton.mp hp
      rw [List.mem_singleton.mp h]
      exact .inr (.inr (.inr (.inr (.inr (.inr (.inr ⟨hhidden, hlink⟩))))))
    · cases hp

theorem noBracket_slackPayload (h : t ∈ texts none (slackPayload i)) : NoBracket t := by
  have hword : ∀ s ∈ slackWords, NoBracket s := by decide
  have hseverity : ∀ s ∈ severityOrder.map Prod.fst, NoBracket s := by decide
  have htitle : NoBracket (slackTitle i) := (noBracket_escapeSlackText i.title).take 2000
  rcases texts_slackPayload h with h | rfl | rfl | rfl | rfl | ⟨f, -, rfl⟩
  · exact hword t h
  · exact htitle.take 2000
  · exact htitle.take 150
  · refine NoBracket.append (by decide) (.append (noBracket_escapeSlackText i.severity) (.append (by decide) ?_))
    exact (noBracket_escapeSlackText i.message).take 2000
  · exact .append (by decide) (.append (noBracket_intText _) (.append (by decide)
      (.append (noBracket_intText _) (by decide))))
  · refine NoBracket.take ?_ 2000
    refine .append (by decide) (.append (noBracket_escapeSlackText f.ruleId) (.append (by decide) ?_))
    refine .append (noBracket_escapeSlackText f.cwe) (.append (by decide) (.append (hseverity _ f.severity_mem) ?_))
    refine .append (by decide) (.append (noBracket_escapeSlackText f.filePath) ?_)
    refine .append (noBracket_lineSuffix f.line) ?_
    exact .append (by decide) (noBracket_escapeSlackText f.message)

end

def slackTexts (i : NotificationIntent) : List (List SlackPiece) :=
  slackWords.map (fun word => [.own word]) ++
    [[.escaped i.title], slackSectionPieces i, [.own (slackCount i)]] ++ i.safeFindings.map slackFindingPieces

theorem showsPieces_own (text : CodeText) : ShowsPieces [.own text] text :=
  ⟨[text], .cons (List.prefix_refl text) .nil, (List.append_nil text).symm⟩

theorem showsPieces_slackPayload {i : NotificationIntent} {t : CodeText} (h : t ∈ texts none (slackPayload i)) :
    ∃ pieces ∈ slackTexts i, ShowsPieces pieces t := by
  have hmem : ∀ {pieces : List SlackPiece},
      pieces ∈ [[.escaped i.title], slackSectionPieces i, [.own (slackCount i)]] → pieces ∈ slackTexts i :=
    fun hpieces => List.mem_append_left _ (List.mem_append_right _ hpieces)
  rcases texts_slackPayload h with h | rfl | rfl | rfl | rfl | ⟨f, hf, rfl⟩
  · refine ⟨[.own t], List.mem_append_left _ (List.mem_append_left _ ?_), showsPieces_own t⟩
    exact List.mem_map_of_mem h
  · refine ⟨_, hmem List.mem_cons_self, ?_⟩
    rw [slackTitle, List.take_take]
    exact showsPieces_single i.title _
  · refine ⟨_, hmem List.mem_cons_self, ?_⟩
    rw [slackHeader, slackTitle, List.take_take]
    exact showsPieces_single i.title _
  · exact ⟨_, hmem (List.mem_cons_of_mem _ List.mem_cons_self), showsPieces_slackSection i⟩
  · exact ⟨_, hmem (by simp), showsPieces_own _⟩
  · exact ⟨_, List.mem_append_right _ (List.mem_map_of_mem hf), showsPieces_slackFinding f⟩

/-! ## Mentions -/

def mentions : List CodeText := ["@everyone", "@here", "<@"].map codes

def MentionFree (t : CodeText) : Prop := ∀ m ∈ mentions, ¬ m <:+: t

instance (t : CodeText) : Decidable (MentionFree t) := inferInstanceAs (Decidable (∀ m ∈ mentions, _))

theorem MentionFree.of_part {t t' : CodeText} (h : MentionFree t') (hpart : t <:+: t') : MentionFree t :=
  fun m hm hmention => h m hm (hmention.trans hpart)

theorem MentionFree.take {t : CodeText} (h : MentionFree t) (n : ℕ) : MentionFree (t.take n) :=
  h.of_part (List.take_prefix n t).isInfix

theorem MentionFree.seam {x y : CodeText} {c : ℕ} (hc : ∀ m ∈ mentions, c ∉ m) (hx : MentionFree x)
    (hy : MentionFree y) : MentionFree (x ++ c :: y) := by
  intro m hm hinfix
  exact (infix_of_infix_append_cons (hc m hm) hinfix).elim (hx m hm) (hy m hm)

theorem mentionFree_nil : MentionFree [] := by decide

theorem mentionFree_escapeDiscordText (text : CodeText) : MentionFree (escapeDiscordText text) := by
  unfold escapeDiscordText
  split
  · exact mentionFree_nil
  have hkeep : ∀ {m t t' : CodeText}, 0x200B ∉ m → Inserted 0x200B t t' → ¬ m <:+: t → ¬ m <:+: t' :=
    fun hm hinserted hfree hinfix => hfree (hinserted.part_of_part hm hinfix)
  have hhere := inserted_replaceAll 64 0x200B (codes "here")
  have hangle := inserted_replaceAll 60 0x200B (codes "@")
  have hrole := inserted_replaceAll 60 0x200B (codes "@&")
  intro m hm
  simp only [mentions, List.map_cons, List.map_nil, List.mem_cons, List.not_mem_nil, or_false] at hm
  rcases hm with rfl | rfl | rfl
  · refine hkeep (by decide) (hrole _) (hkeep (by decide) (hangle _) (hkeep (by decide) (hhere _) ?_))
    exact not_infix_replaceAll (show codes "everyone" ≠ [] by decide) (by decide) (by decide) _
  · refine hkeep (by decide) (hrole _) (hkeep (by decide) (hangle _) ?_)
    exact not_infix_replaceAll (show codes "here" ≠ [] by decide) (by decide) (by decide) _
  · refine hkeep (by decide) (hrole _) ?_
    exact not_infix_replaceAll (show codes "@" ≠ [] by decide) (by decide) (by decide) _

theorem neutral_of_le {c : ℕ} (h : 41 ≤ c ∧ c ≤ 58 ∨ c ∈ [10, 32, 91, 96]) : ∀ m ∈ mentions, c ∉ m := by
  have hfar : ∀ m ∈ mentions, ∀ d ∈ m, (d < 41 ∨ 58 < d) ∧ d ∉ [10, 32, 91, 96] := by decide
  intro m hm hc
  obtain ⟨hrange, hown⟩ := hfar m hm c hc
  rcases h with h | h
  · omega
  · exact hown h

theorem MentionFree.neutral_append {s t : CodeText} (hs : ∀ c ∈ s, ∀ m ∈ mentions, c ∉ m) (h : MentionFree t) :
    MentionFree (s ++ t) := by
  induction s with
  | nil => exact h
  | cons c s ih =>
    exact .seam (hs c List.mem_cons_self) mentionFree_nil (ih fun d hd => hs d (List.mem_cons_of_mem c hd))

theorem MentionFree.append {x s y : CodeText} (hne : s ≠ []) (hs : ∀ c ∈ s, ∀ m ∈ mentions, c ∉ m)
    (hx : MentionFree x) (hy : MentionFree y) : MentionFree (x ++ (s ++ y)) := by
  obtain ⟨c, s, rfl⟩ := List.exists_cons_of_ne_nil hne
  exact .seam (hs c List.mem_cons_self) hx (.neutral_append (fun d hd => hs d (List.mem_cons_of_mem c hd)) hy)

theorem mentionFree_intText (n : ℤ) : MentionFree (intText n) := by
  have h := MentionFree.neutral_append (s := intText n) (t := []) (fun c hc => neutral_of_le ?_) mentionFree_nil
  · rwa [List.append_nil] at h
  · have := mem_intText hc
    omega

theorem mentionFree_discordName (f : SafeFindingSummary) : MentionFree (discordName f) := by
  have hseverity : ∀ s ∈ severityOrder.map Prod.fst, MentionFree (s ++ codes "]") := by decide
  exact .append (by decide) (by decide) ((mentionFree_escapeDiscordText f.ruleId).take 64) (hseverity _ f.severity_mem)

theorem mentionFree_discordValue (f : SafeFindingSummary) : MentionFree (discordValue f) := by
  have hseparator : ∀ c ∈ lineSuffix f.line ++ codes "`\n", ∀ m ∈ mentions, c ∉ m := by
    intro c hc
    refine neutral_of_le ((List.mem_append.mp hc).imp (fun hline => ?_) fun hown => ?_)
    · have := mem_lineSuffix hline
      omega
    · have : ∀ c ∈ codes "`\n", c ∈ [10, 32, 91, 96] := by decide
      exact this c hown
  have hvalue := MentionFree.append (by simp [codes]) hseparator ((mentionFree_escapeDiscordText f.filePath).take 128)
    ((mentionFree_escapeDiscordText f.message).take 255)
  rw [List.append_assoc] at hvalue
  exact .neutral_append (by decide) hvalue

section
variable {U : Unicode} {i : NotificationIntent} {t : CodeText}

theorem mentionFree_discordSeverity (h : MentionFree i.severity) : MentionFree (discordSeverity i) := by
  have hvalue : MentionFree (i.severity ++ (codes "`" ++ [])) := .append (by decide) (by decide) h mentionFree_nil
  rw [List.append_nil] at hvalue
  exact .neutral_append (by decide) hvalue

theorem mentionFree_discordPayload (h : MentionFree i.severity) (ht : t ∈ texts (some "url") (discordPayload U i)) :
    MentionFree t := by
  have hwords : ∀ s ∈ discordWords, MentionFree s := by decide
  have htitle : MentionFree (discordTitle i) := (mentionFree_escapeDiscordText i.title).take 250
  rcases texts_discordPayload ht with ht | rfl | rfl | rfl | rfl | rfl | ⟨f, -, rfl | rfl⟩ | ⟨hurl, -⟩
  · exact hwords t ht
  · exact htitle.take 2000
  · exact htitle
  · exact (mentionFree_escapeDiscordText i.message).take 2000
  · exact mentionFree_discordSeverity h
  · exact mentionFree_intText i.totalFindings
  · exact mentionFree_discordName f
  · exact mentionFree_discordValue f
  · exact absurd rfl hurl

theorem discordSeverity_mem : discordSeverity i ∈ texts (some "url") (discordPayload U i) := by
  simp [discordPayload, mem_texts_obj, mem_texts_arr, discordField]

end

/-! ## The bytes on the wire -/

def ScalarText (t : CodeText) : Prop := ∀ c ∈ t, (Utf8.encodeChar c).isSome

theorem scalarText_cons {c : ℕ} {t : CodeText} :
    ScalarText (c :: t) ↔ (Utf8.encodeChar c).isSome ∧ ScalarText t := List.forall_mem_cons

theorem scalarText_append {t t' : CodeText} : ScalarText (t ++ t') ↔ ScalarText t ∧ ScalarText t' :=
  List.forall_mem_append

theorem encode_isSome_iff {t : CodeText} : (Utf8.encode t).isSome ↔ ScalarText t := by
  rw [Utf8.encode, Option.isSome_map]
  induction t with
  | nil => simp [ScalarText]
  | cons c t ih =>
    rw [List.mapM_cons, scalarText_cons, ← ih]
    cases Utf8.encodeChar c with
    | none => simp
    | some octets => cases t.mapM Utf8.encodeChar <;> simp

theorem scalarText_of_ascii {t : CodeText} (h : ∀ c ∈ t, c < 128) : ScalarText t := by
  intro c hc
  rw [Utf8.encodeChar, if_pos (h c hc)]
  rfl

theorem scalarText_codes (s : String) : ScalarText (codes s) := by
  intro n hn
  obtain ⟨c, -, rfl⟩ := List.mem_map.mp hn
  have hvalid : c.toNat < 0xD800 ∨ 0xDFFF < c.toNat ∧ c.toNat < 0x110000 := c.valid
  unfold Utf8.encodeChar
  split_ifs <;> first | rfl | omega

theorem scalarText_intText (n : ℤ) : ScalarText (intText n) :=
  scalarText_of_ascii fun c hc => by have := mem_intText hc; omega

theorem scalarText_lineSuffix (line : Option ℤ) : ScalarText (lineSuffix line) :=
  scalarText_of_ascii fun c hc => by have := mem_lineSuffix hc; omega

theorem scalarText_jsonChar (c : ℕ) : ScalarText (jsonChar c) ↔ (Utf8.encodeChar c).isSome := by
  by_cases hc : c < 128
  · have hascii : ∀ c < 128, ∀ d ∈ jsonChar c, d < 128 := by decide
    have hsome : (Utf8.encodeChar c).isSome := by rw [Utf8.encodeChar, if_pos hc]; rfl
    exact iff_of_true (scalarText_of_ascii (hascii c hc)) hsome
  · have hself : jsonChar c = [c] := by
      unfold jsonChar
      split_ifs <;> first | rfl | omega
    rw [hself]
    exact List.forall_mem_singleton

theorem scalarText_quoted (t : CodeText) : ScalarText (quoted t) ↔ ScalarText t := by
  have hmarks : ∀ t' : CodeText, ScalarText (34 :: (t' ++ [34])) ↔ ScalarText t' := by
    intro t'
    rw [← List.singleton_append, scalarText_append, scalarText_append]
    have hmark : ScalarText [34] := scalarText_of_ascii (by decide)
    exact ⟨fun h => h.2.1, fun h => ⟨hmark, h, hmark⟩⟩
  rw [quoted, hmarks]
  induction t with
  | nil => exact Iff.rfl
  | cons c t ih =>
    rw [List.flatMap_cons, scalarText_append]
    exact (and_congr (scalarText_jsonChar c) ih).trans scalarText_cons.symm

theorem scalarText_frame {front t back : CodeText} (hfront : ScalarText front) (hback : ScalarText back) :
    ScalarText (front ++ (t ++ back)) ↔ ScalarText t := by
  rw [scalarText_append, scalarText_append]
  exact ⟨fun h => h.2.1, fun h => ⟨hfront, h, hback⟩⟩

theorem scalarText_separator (first : Bool) : ScalarText (if first then [] else codes ", ") := by
  cases first
  · exact scalarText_codes ", "
  · exact fun c hc => by cases hc

mutual

theorem scalarText_dumps (p : Payload) : ScalarText (dumps p) ↔ ∀ t ∈ texts none p, ScalarText t := by
  cases p with
  | null => exact iff_of_true (scalarText_codes "null") fun t ht => by cases ht
  | bool b =>
    cases b with
    | true => exact iff_of_true (scalarText_codes "true") fun t ht => by cases ht
    | false => exact iff_of_true (scalarText_codes "false") fun t ht => by cases ht
  | int n => exact iff_of_true (scalarText_intText n) fun t ht => by cases ht
  | str text => exact (scalarText_quoted text).trans List.forall_mem_singleton.symm
  | arr items =>
    rw [dumps, scalarText_frame (scalarText_codes "[") (scalarText_codes "]")]
    exact scalarText_dumpsItems true items
  | obj fields =>
    have hframe := scalarText_frame (t := dumpsFields true fields) (scalarText_of_ascii (t := [0x7B]) (by decide))
      (scalarText_of_ascii (t := [0x7D]) (by decide))
    exact hframe.trans (scalarText_dumpsFields true fields)

theorem scalarText_dumpsItems (first : Bool) (items : List Payload) :
    ScalarText (dumpsItems first items) ↔ ∀ t ∈ textsItems none items, ScalarText t := by
  cases items with
  | nil => exact iff_of_true (fun c hc => by cases hc) fun t ht => by cases ht
  | cons item items =>
    rw [dumpsItems, textsItems, scalarText_append, scalarText_append, List.forall_mem_append]
    rw [scalarText_dumps item, scalarText_dumpsItems false items]
    exact and_iff_right (scalarText_separator first)

theorem scalarText_dumpsFields (first : Bool) (fields : List (String × Payload)) :
    ScalarText (dumpsFields first fields) ↔ ∀ t ∈ textsFields none fields, ScalarText t := by
  cases fields with
  | nil => exact iff_of_true (fun c hc => by cases hc) fun t ht => by cases ht
  | cons field fields =>
    obtain ⟨key, value⟩ := field
    have hkey : ScalarText (quoted (codes key)) := (scalarText_quoted _).mpr (scalarText_codes key)
    have htexts : textsFields none ((key, value) :: fields) = texts none value ++ textsFields none fields := rfl
    rw [htexts, List.forall_mem_append, dumpsFields]
    rw [scalarText_append, scalarText_append, scalarText_append, scalarText_append]
    rw [scalarText_dumps value, scalarText_dumpsFields false fields]
    exact ⟨fun h => h.2.2.2, fun h => ⟨scalarText_separator first, hkey, scalarText_codes ": ", h⟩⟩

end

def Bounded (r : Except FormatError (List ℕ)) : Prop :=
  (∃ octets, r = .ok octets ∧ octets.length ≤ 65536) ∨ r = .error .tooLarge

theorem bounded_wire_iff {written : List ℤ} {payload : Payload} :
    Bounded (wire written payload) ↔ (∀ n ∈ written, hasText n) ∧ ∀ t ∈ texts none payload, ScalarText t := by
  rw [← scalarText_dumps, ← encode_isSome_iff, ← List.all_eq_true, wire]
  by_cases hdigits : written.all hasText = true
  · rw [if_pos hdigits]
    cases Utf8.encode (dumps payload) with
    | none => simp [Bounded]
    | some octets =>
      by_cases hlarge : 65536 < octets.length
      · simp [Bounded, hlarge, hdigits]
      · simp [Bounded, hlarge, hdigits, not_lt.mp hlarge]
  · simp [Bounded, hdigits]

def findingTexts (f : SafeFindingSummary) : List CodeText := [f.ruleId, f.cwe, f.severity, f.filePath, f.message]

def intentTexts (i : NotificationIntent) : List CodeText :=
  [i.eventId, i.scanId, i.notificationType, i.severity, i.title, i.message, i.createdAt] ++
    (i.link.toList ++ i.safeFindings.flatMap findingTexts)

section
variable {U : Unicode} {i : NotificationIntent} {t : CodeText}

theorem mem_intentTexts {f : SafeFindingSummary} (hf : f ∈ i.safeFindings) (ht : t ∈ findingTexts f) :
    t ∈ intentTexts i :=
  List.mem_append_right _ (List.mem_append_right _ (List.mem_flatMap.mpr ⟨f, hf, ht⟩))

theorem texts_genericFinding (f : SafeFindingSummary) : texts none (genericFinding f) = findingTexts f := by
  obtain ⟨ruleId, cwe, severity, filePath, line, message⟩ := f
  cases line <;> rfl

theorem texts_genericPayload : t ∈ texts none (genericPayload i) ↔ t ∈ intentTexts i := by
  have hlink : t ∈ texts none (i.link.elim .null .str) ↔ t ∈ i.link.toList := by
    cases i.link with
    | none => exact Iff.rfl
    | some link => exact Iff.rfl
  have hfindings : t ∈ texts none (.arr (i.safeFindings.map genericFinding)) ↔
      t ∈ i.safeFindings.flatMap findingTexts := by
    simp only [mem_texts_arr, List.mem_map, exists_exists_and_eq_and, texts_genericFinding, List.mem_flatMap]
  simp only [genericPayload, intentTexts, mem_texts_obj, List.mem_cons, List.not_mem_nil, or_false, exists_eq_or_imp,
    exists_eq_left, List.mem_append, texts_str, texts_int, texts_bool, hlink, hfindings, ne_eq, reduceCtorEq,
    not_false_eq_true, true_and, false_or]
  tauto

theorem scalarText_take {t : CodeText} (h : ScalarText t) (n : ℕ) : ScalarText (t.take n) :=
  fun c hc => h c (List.mem_of_mem_take hc)

theorem scalarText_escapeSlackText (h : ScalarText t) : ScalarText (escapeSlackText t) := by
  rw [escapeSlackText_eq]
  intro d hd
  obtain ⟨c, hc, hd⟩ := List.mem_flatMap.mp hd
  unfold slackChar at hd
  split at hd
  · exact scalarText_codes _ d hd
  split at hd
  · exact scalarText_codes _ d hd
  split at hd
  · exact scalarText_codes _ d hd
  · rw [List.mem_singleton.mp hd]
    exact h c hc

theorem scalarText_escapeDiscordText (h : ScalarText t) : ScalarText (escapeDiscordText t) := by
  have hreplace : ∀ {old new s : CodeText}, old ≠ [] → ScalarText new → ScalarText s →
      ScalarText (replaceAll old new s) :=
    fun hold hnew hs c hc => (mem_replaceAll hold hc).elim (hs c) (hnew c)
  have hparted : ∀ head rest, head < 128 → ScalarText (parted head rest) := by
    intro head rest hhead c hc
    rcases List.mem_cons.mp hc with rfl | hc
    · rw [Utf8.encodeChar, if_pos hhead]
      rfl
    rcases List.mem_cons.mp hc with rfl | hc
    · decide
    · exact scalarText_codes rest c hc
  unfold escapeDiscordText
  split
  · exact fun c hc => by cases hc
  refine hreplace (by decide) (hparted _ _ (by decide)) (hreplace (by decide) (hparted _ _ (by decide)) ?_)
  exact hreplace (by decide) (hparted _ _ (by decide)) (hreplace (by decide) (hparted _ _ (by decide)) h)

theorem scalarText_slackPayload (h : ∀ s ∈ intentTexts i, ScalarText s) (ht : t ∈ texts none (slackPayload i)) :
    ScalarText t := by
  have htitle : ScalarText (slackTitle i) :=
    scalarText_take (scalarText_escapeSlackText (h _ (by simp [intentTexts]))) _
  rcases texts_slackPayload ht with ht | rfl | rfl | rfl | rfl | ⟨f, hf, rfl⟩
  · obtain ⟨word, -, rfl⟩ := List.mem_map.mp ht
    exact scalarText_codes word
  · exact scalarText_take htitle _
  · exact scalarText_take htitle _
  · have hseverity := scalarText_escapeSlackText (h i.severity (by simp [intentTexts]))
    have hmessage := scalarText_take (scalarText_escapeSlackText (h i.message (by simp [intentTexts]))) 2000
    simp only [slackSection, scalarText_append, scalarText_codes, hseverity, hmessage, and_self]
  · simp only [slackCount, scalarText_append, scalarText_codes, scalarText_intText, and_self]
  · have hfinding : ∀ s ∈ findingTexts f, ScalarText s := fun s hs => h s (mem_intentTexts hf hs)
    have hescaped : ∀ s ∈ findingTexts f, ScalarText (escapeSlackText s) :=
      fun s hs => scalarText_escapeSlackText (hfinding s hs)
    refine scalarText_take ?_ 2000
    simp only [scalarText_append, scalarText_codes, scalarText_lineSuffix, hfinding f.severity (by simp [findingTexts]),
      hescaped f.ruleId (by simp [findingTexts]), hescaped f.cwe (by simp [findingTexts]),
      hescaped f.filePath (by simp [findingTexts]), hescaped f.message (by simp [findingTexts]), and_self]

theorem scalarText_discordPayload (h : ∀ s ∈ intentTexts i, ScalarText s)
    (ht : t ∈ texts none (discordPayload U i)) : ScalarText t := by
  have htitle : ScalarText (discordTitle i) :=
    scalarText_take (scalarText_escapeDiscordText (h _ (by simp [intentTexts]))) _
  rcases texts_discordPayload ht with ht | rfl | rfl | rfl | rfl | rfl | ⟨f, hf, hshown⟩ | ⟨-, hlink⟩
  · obtain ⟨word, -, rfl⟩ := List.mem_map.mp ht
    exact scalarText_codes word
  · exact scalarText_take htitle _
  · exact htitle
  · exact scalarText_take (scalarText_escapeDiscordText (h _ (by simp [intentTexts]))) _
  · have hseverity : ScalarText i.severity := h _ (by simp [intentTexts])
    simp only [discordSeverity, scalarText_append, scalarText_codes, hseverity, and_self]
  · exact scalarText_intText _
  · have hfinding : ∀ s ∈ findingTexts f, ScalarText s := fun s hs => h s (mem_intentTexts hf hs)
    have hescaped : ∀ s ∈ findingTexts f, ∀ n, ScalarText ((escapeDiscordText s).take n) :=
      fun s hs n => scalarText_take (scalarText_escapeDiscordText (hfinding s hs)) n
    rcases hshown with rfl | rfl
    · simp only [discordName, scalarText_append, scalarText_codes, hfinding f.severity (by simp [findingTexts]),
        hescaped f.ruleId (by simp [findingTexts]), and_self]
    · simp only [discordValue, scalarText_append, scalarText_codes, scalarText_lineSuffix,
        hescaped f.filePath (by simp [findingTexts]), hescaped f.message (by simp [findingTexts]), and_self]
  · exact h t (by simp [intentTexts, hlink])

/-- No text mentions anyone, and no formatter fails but by its bound. The link of an embed is no text. -/
structure MentionsNobody (U : Unicode) (i : NotificationIntent) : Prop where
  slack : ∀ t ∈ texts none (slackPayload i), NoBracket t ∧ ∃ pieces ∈ slackTexts i, ShowsPieces pieces t
  discord : ∀ t ∈ texts (some "url") (discordPayload U i), MentionFree t
  bounded : ∀ formatType, Bounded (formatWebhookPayload U i formatType)

/-- An intent whose severity mentions nobody, whose texts have bytes and whose integers have a text. -/
structure Formattable (i : NotificationIntent) : Prop where
  severity : MentionFree i.severity
  scalar : ∀ t ∈ intentTexts i, ScalarText t
  digits : ∀ n ∈ i.organizationId :: i.totalFindings :: lines i.safeFindings, hasText n

theorem mem_lines_take {n : ℤ} {k : ℕ} (h : n ∈ lines (i.safeFindings.take k)) : n ∈ lines i.safeFindings := by
  obtain ⟨f, hf, hline⟩ := List.mem_filterMap.mp h
  exact List.mem_filterMap.mpr ⟨f, List.mem_of_mem_take hf, hline⟩

theorem Formattable.bounded (h : Formattable i) (formatType : CodeText) :
    Bounded (formatWebhookPayload U i formatType) := by
  have htotal : hasText i.totalFindings := h.digits _ (by simp)
  have hlines : ∀ n ∈ lines i.safeFindings, hasText n :=
    fun n hn => h.digits n (List.mem_cons_of_mem _ (List.mem_cons_of_mem _ hn))
  unfold formatWebhookPayload
  dsimp only
  split
  · refine bounded_wire_iff.mpr ⟨fun n hn => ?_, fun t ht => scalarText_slackPayload h.scalar ht⟩
    rcases List.mem_append.mp hn with hn | hn
    · exact hlines n (mem_lines_take hn)
    · split at hn
      · obtain rfl := List.mem_singleton.mp hn
        exact htotal
      · cases hn
  split
  · refine bounded_wire_iff.mpr ⟨fun n hn => ?_, fun t ht => scalarText_discordPayload h.scalar ht⟩
    rcases List.mem_cons.mp hn with rfl | hn
    · exact htotal
    · exact hlines n (mem_lines_take hn)
  · exact bounded_wire_iff.mpr ⟨h.digits, fun t ht => h.scalar t (texts_genericPayload.mp ht)⟩

theorem formatWebhookPayload_nil : formatWebhookPayload U i [] = formatGeneric i := by
  have hformat : strip (upper U []) = [] := rfl
  rw [formatWebhookPayload, hformat, if_neg (by decide), if_neg (by decide)]

/-- **Mentions.** The intents whose payloads mention nobody, and whose formatters keep their bound. -/
theorem mentionsNobody_iff (U : Unicode) (i : NotificationIntent) : MentionsNobody U i ↔ Formattable i := by
  constructor
  · intro h
    have hgeneric := h.bounded []
    rw [formatWebhookPayload_nil] at hgeneric
    obtain ⟨hdigits, hscalar⟩ := bounded_wire_iff.mp hgeneric
    refine ⟨?_, fun t ht => hscalar t (texts_genericPayload.mpr ht), hdigits⟩
    exact (h.discord _ discordSeverity_mem).of_part (List.infix_append' _ _ _)
  · intro h
    refine ⟨fun t ht => ⟨noBracket_slackPayload ht, showsPieces_slackPayload ht⟩, fun t ht => ?_, fun formatType => ?_⟩
    · exact mentionFree_discordPayload h.severity ht
    · exact h.bounded formatType

end

/-- An alert whose severity is a mention. -/
def everyoneIntent : NotificationIntent where
  intentId := codes "i1"
  eventId := codes "e1"
  scanId := codes "s1"
  dedupeKey := codes "d1"
  notificationType := codes "SECURITY_ALERT"
  severity := codes "@everyone"
  recipientScope := .organization
  organizationId := 1
  intentId_ne := by decide
  eventId_ne := by decide
  scanId_ne := by decide
  dedupeKey_ne := by decide
  organization_pos := Int.zero_lt_one
  title_le := by decide
  message_le := by decide

theorem everyone_is_mentioned : ¬ MentionsNobody asciiUnicode everyoneIntent := by
  intro h
  exact h.discord _ discordSeverity_mem (codes "@everyone") (by decide) (by decide)

end TimeCodeSecurity.Policy
