import TimeCodeSecurity.Foundations.IndexedRows
import TimeCodeSecurity.Foundations.Separators
import TimeCodeSecurity.Sca.DependencyGroups
import TimeCodeSecurity.Scanner.Nosec

/-! # Requirements files

`manifest_parser.py`: a requirements file, read line by line, beside the way pip reads it: lines that end with a
backslash joined, comments taken off behind white space, and the options of a requirement left out.
-/
namespace TimeCodeSecurity.Sca.Manifest.Requirements
open NumberedItems Pep440 TextLines
set_option autoImplicit false

/-! ## One line -/

abbrev Line := List Char × ℕ

inductive Entry
  | dependency (record : DependencyRecord)
  | issue (issue : ParseIssue)
  | directive (text : String)
deriving DecidableEq, Repr

def ignoredRequirementsDirectives : List String :=
  ["-r", "--requirement", "-c", "--constraint", "-f", "--find-links", "-i", "--index-url", "--extra-index-url",
    "--no-index", "--trusted-host", "--prefer-binary", "--no-binary", "--only-binary"]

def startsWith (text start : String) : Bool := start.toList.isPrefixOf text.toList

/-- `clean_line.split()[0]`, of a line that starts with no white space. -/
def firstToken (clean : String) : String := String.ofList (clean.toList.takeWhile fun c => !isSpace c)

def isIgnoredDirective (clean : String) : Bool :=
  firstToken clean ∈ ignoredRequirementsDirectives ||
    ignoredRequirementsDirectives.any fun d => startsWith clean (d ++ " ") || startsWith clean (d ++ "=")

def isEditable (clean : String) : Bool :=
  firstToken clean ∈ ["-e", "--editable"] || startsWith clean "-e " || startsWith clean "--editable "

/-- `clean_line.split(None, 1)[1].strip()`, empty where there is no second part. -/
def editableTarget (clean : String) : String :=
  stripText (String.ofList (clean.toList.dropWhile fun c => !isSpace c))

def behindMark (mark : List Char) : List Char → Option (List Char)
  | [] => none
  | c :: rest => if mark.isPrefixOf (c :: rest) then some ((c :: rest).drop mark.length) else behindMark mark rest

def beforeMark (mark : List Char) : List Char → List Char
  | [] => []
  | c :: rest => if mark.isPrefixOf (c :: rest) then [] else c :: beforeMark mark rest

variable (P : Packaging)

def editableName (target : String) : String :=
  match behindMark "#egg=".toList target.toList with
  | some rest =>
    P.normalizePackageName
      (stripText (String.ofList ((beforeMark "#egg=".toList rest).takeWhile (· ≠ '&'))))
  | none => target

/-- The loop of `parse_requirements_txt` behind the comments. -/
def entryOf (filename : String) (lineNumber : ℕ) (clean raw : String) : Entry :=
  if isIgnoredDirective clean then .directive raw
  else if isEditable clean then
    .dependency
      { name := editableName P (editableTarget clean)
        source := filename
        editable := true
        raw
        lineNumber := some lineNumber }
  else if startsWith clean "-" then .directive raw
  else
    match parsePep508Requirement P clean filename raw none (some lineNumber) with
    | .ok record => .dependency record
    | .error issue => .issue issue

def cleanLine (line : List Char) : String :=
  let stripped := stripText (String.ofList line)
  if stripped = "" ∨ startsWith stripped "#" then "" else stripInlineComment stripped

def readLine (filename : String) (line : Line) : Option Entry :=
  let clean := cleanLine line.1
  if clean = "" then none
  else some (entryOf P filename line.2 clean (stripText (String.ofList line.1)))

def numberedLines (content : List Char) : List Line := (splitLines Scanner.isLineBoundary content).zipIdx 1

def addEntry (result : ManifestParseResult) : Entry → ManifestParseResult
  | .dependency record => { result with dependencies := result.dependencies ++ [record] }
  | .issue issue => { result with issues := result.issues ++ [issue] }
  | .directive text => { result with ignoredDirectives := result.ignoredDirectives ++ [text] }

def parseContent (sourcePath : Option String) (filename : String) (content : List Char) : ManifestParseResult :=
  ((numberedLines content).filterMap (readLine P filename)).foldl addEntry
    { sourceType := "requirements.txt", sourcePath }

def basename (path : String) : String :=
  String.ofList (path.toList.reverse.takeWhile (· ≠ '/')).reverse

/-- The path, when it is one, the name of the file, and its text. `disk` has the text of a file as `open` reads it. -/
def sourceOf (disk : String → Option (List Char)) (contentOrPath filename : String) :
    Option String × String × List Char :=
  match if '\n' ∉ contentOrPath.toList then disk contentOrPath else none with
  | some text => (some contentOrPath, basename contentOrPath, text)
  | none => (none, filename, contentOrPath.toList)

def parseRequirementsTxt (disk : String → Option (List Char)) (contentOrPath filename : String) :
    ManifestParseResult :=
  let source := sourceOf disk contentOrPath filename
  parseContent P source.1 source.2.1 source.2.2

def isCommentLine (line : List Char) : Bool := (line.dropWhile isSpace).head? = some '#'

def continues (line : List Char) : Bool := line.getLast? = some '\\' && !isCommentLine line

def logicalLines : List Line → List (List Line)
  | [] => []
  | l :: rest =>
    if continues l.1 then
      match logicalLines rest with
      | [] => [[l]]
      | g :: gs => (l :: g) :: gs
    else [l] :: logicalLines rest

def joinLines (g : List Line) : List Char :=
  g.flatMap fun l =>
    if continues l.1 then (l.1.dropWhile (· = '\\')).rdropWhile (· = '\\')
    else if isCommentLine l.1 then ' ' :: l.1
    else l.1

/-- The text before the first `#` at the start or behind white space. -/
def cutComment (atSpace : Bool) : List Char → List Char
  | [] => []
  | c :: rest => if atSpace && c = '#' then [] else c :: cutComment (isSpace c) rest

def withoutOptions (text : String) : String :=
  if startsWith text "-" then text
  else
    stripText (String.ofList (List.intercalate [' ']
      ((text.toList.splitOn ' ').takeWhile fun word => word.head? ≠ some '-')))

def logicalText (g : List Line) : String :=
  withoutOptions (stripText (String.ofList (cutComment true (joinLines g))))

def dependencyOf : Entry → Option DependencyRecord
  | .dependency record => some record
  | _ => none

def issueOf : Entry → Option ParseIssue
  | .issue issue => some issue
  | _ => none

def directiveOf : Entry → Option String
  | .directive text => some text
  | _ => none

def unworded (record : DependencyRecord) : DependencyRecord := { record with raw := "" }

def lineDependency (filename : String) (line : Line) : Option DependencyRecord :=
  ((readLine P filename line).bind dependencyOf).map unworded

def logicalDependency (filename : String) : List Line → Option DependencyRecord
  | [] => none
  | l :: more =>
    let text := logicalText (l :: more)
    if text = "" then none else (dependencyOf (entryOf P filename l.2 text text)).map unworded

inductive Placed (l : Line) : Entry → Prop
  | dependency {record : DependencyRecord} (number : record.lineNumber = some l.2)
      (text : record.raw = stripText (String.ofList l.1)) : Placed l (.dependency record)
  | issue {issue : ParseIssue} (number : issue.lineNumber = some l.2)
      (text : issue.raw = stripText (String.ofList l.1)) : Placed l (.issue issue)
  | directive : Placed l (.directive (stripText (String.ofList l.1)))

def blankOrComment (line : List Char) : Bool :=
  let stripped := stripText (String.ofList line)
  stripped = "" || startsWith stripped "#"

def EachLineOnce (content : List Char) (result : ManifestParseResult) : Prop :=
  ∃ entries : List Entry,
    List.Forall₂ Placed ((numberedLines content).filter fun l => !blankOrComment l.1) entries ∧
    result.dependencies = entries.filterMap dependencyOf ∧ result.issues = entries.filterMap issueOf ∧
    result.ignoredDirectives = entries.filterMap directiveOf

def ReadsByLogicalLine (disk : String → Option (List Char)) (contentOrPath filename : String) : Prop :=
  let source := sourceOf disk contentOrPath filename
  let result := parseRequirementsTxt P disk contentOrPath filename
  EachLineOnce source.2.2 result ∧
    result.dependencies.map unworded =
      (logicalLines (numberedLines source.2.2)).filterMap (logicalDependency P source.2.1)

def Plain (g : List Line) : Prop := ∃ l, g = [l] ∧ cleanLine l.1 = logicalText g

/-- A logical line that is not plain still gives its dependency, or none, on its first line, and none on the others. -/
def UnplainAgree (filename : String) (content : List Char) : Prop :=
  ∀ l more, l :: more ∈ logicalLines (numberedLines content) → ¬Plain (l :: more) →
    lineDependency P filename l = logicalDependency P filename (l :: more) ∧
      ∀ k ∈ more, lineDependency P filename k = none

variable {P}

theorem placed_entryOf (filename clean : String) (l : Line) :
    Placed l (entryOf P filename l.2 clean (stripText (String.ofList l.1))) := by
  rw [entryOf]
  split_ifs
  · exact .directive
  · exact .dependency rfl rfl
  · exact .directive
  · rw [parsePep508Requirement]
    cases P.requirement clean with
    | error pe => exact .issue rfl rfl
    | ok req => exact .dependency rfl rfl

theorem unworded_entryOf (filename : String) (lineNumber : ℕ) (clean raw raw' : String) :
    (dependencyOf (entryOf P filename lineNumber clean raw)).map unworded =
      (dependencyOf (entryOf P filename lineNumber clean raw')).map unworded := by
  rw [entryOf, entryOf]
  split_ifs
  · rfl
  · rfl
  · rfl
  · rw [parsePep508Requirement, parsePep508Requirement]
    cases P.requirement clean <;> rfl

theorem lineNumber_of_entryOf {filename : String} {lineNumber : ℕ} {clean raw : String} {d : DependencyRecord}
    (h : (dependencyOf (entryOf P filename lineNumber clean raw)).map unworded = some d) :
    d.lineNumber = some lineNumber := by
  obtain ⟨record, hrecord, rfl⟩ := Option.map_eq_some_iff.mp h
  rw [entryOf] at hrecord
  split_ifs at hrecord
  · cases hrecord
  · obtain rfl := Option.some.inj hrecord
    rfl
  · cases hrecord
  · rw [parsePep508Requirement] at hrecord
    cases hreq : P.requirement clean with
    | error pe =>
      rw [hreq] at hrecord
      cases hrecord
    | ok req =>
      rw [hreq] at hrecord
      obtain rfl := Option.some.inj hrecord
      rfl

theorem lineNumber_of_line {filename : String} {l : Line} {d : DependencyRecord}
    (h : lineDependency P filename l = some d) : d.lineNumber = some l.2 := by
  rw [lineDependency, readLine] at h
  split_ifs at h
  · cases h
  · rw [Option.bind_some] at h
    exact lineNumber_of_entryOf h

theorem lineNumber_of_logical {filename : String} {l : Line} {more : List Line} {d : DependencyRecord}
    (h : logicalDependency P filename (l :: more) = some d) : d.lineNumber = some l.2 := by
  rw [logicalDependency] at h
  split_ifs at h
  exact lineNumber_of_entryOf h

theorem foldl_addEntry (entries : List Entry) (result : ManifestParseResult) :
    (entries.foldl addEntry result).dependencies = result.dependencies ++ entries.filterMap dependencyOf ∧
      (entries.foldl addEntry result).issues = result.issues ++ entries.filterMap issueOf ∧
      (entries.foldl addEntry result).ignoredDirectives =
        result.ignoredDirectives ++ entries.filterMap directiveOf := by
  induction entries generalizing result with
  | nil => simp
  | cons e entries ih =>
    obtain ⟨hd, hi, ht⟩ := ih (addEntry result e)
    rw [List.foldl_cons, hd, hi, ht]
    cases e <;> simp [addEntry, dependencyOf, issueOf, directiveOf, List.filterMap_cons]

theorem stripInlineComment_ne {line : List Char} (h : blankOrComment line = false) :
    stripInlineComment (stripText (String.ofList line)) ≠ "" := by
  rw [blankOrComment, Bool.or_eq_false_iff] at h
  have hchars : (stripText (String.ofList line)).toList = strip line := by
    rw [stripText, String.toList_ofList, String.toList_ofList]
  cases hstrip : strip line with
  | nil =>
    have hempty : stripText (String.ofList line) = "" := by
      rw [stripText, String.toList_ofList, hstrip]
    simp [hempty] at h
  | cons c rest =>
    have hspace : isSpace c = false := Trimming.head_trim hstrip
    have hmark : c ≠ '#' := by
      rintro rfl
      simp [startsWith, hchars, hstrip] at h
    have hkeeps : ∀ tail, stripText (String.ofList (c :: tail)) ≠ "" := by
      intro tail hempty
      have hnil : strip (c :: tail) = [] := by
        have := congrArg String.toList hempty
        rwa [stripText, String.toList_ofList, String.toList_ofList] at this
      have hall := Trimming.trim_eq_nil.mp hnil c List.mem_cons_self
      rw [hspace] at hall
      cases hall
    rw [stripInlineComment]
    split
    · have hself : stripText (String.ofList line) = String.ofList (c :: rest) := by
        rw [stripText, String.toList_ofList, hstrip]
      rw [hself]
      exact hkeeps rest
    · rw [hchars, hstrip, List.takeWhile_cons, if_pos (by simpa using hmark)]
      exact hkeeps _

theorem cleanLine_eq_empty_iff (line : List Char) : cleanLine line = "" ↔ blankOrComment line = true := by
  rw [cleanLine, blankOrComment]
  split_ifs with h
  · simpa using h
  · have hnot : blankOrComment line = false := by
      rw [blankOrComment]
      simpa using h
    have hne := stripInlineComment_ne hnot
    simp [hne, h]

theorem readLine_of_blank {filename : String} {l : Line} (h : blankOrComment l.1 = true) :
    readLine P filename l = none := by
  rw [readLine, if_pos ((cleanLine_eq_empty_iff l.1).mpr h)]

theorem readLine_of_not_blank {filename : String} {l : Line} (h : ¬blankOrComment l.1 = true) :
    readLine P filename l =
      some (entryOf P filename l.2 (cleanLine l.1) (stripText (String.ofList l.1))) := by
  rw [readLine, if_neg fun hclean => h ((cleanLine_eq_empty_iff l.1).mp hclean)]

theorem eachLineOnce (sourcePath : Option String) (filename : String) (content : List Char) :
    EachLineOnce content (parseContent P sourcePath filename content) := by
  obtain ⟨hd, hi, ht⟩ := foldl_addEntry ((numberedLines content).filterMap (readLine P filename))
    { sourceType := "requirements.txt", sourcePath }
  refine ⟨(numberedLines content).filterMap (readLine P filename), ?_, hd, hi, ht⟩
  generalize numberedLines content = lines
  induction lines with
  | nil => exact .nil
  | cons l lines ih =>
    by_cases hblank : blankOrComment l.1 = true
    · rw [List.filter_cons_of_neg (by simp [hblank]), List.filterMap_cons_none (readLine_of_blank hblank)]
      exact ih
    · rw [List.filter_cons_of_pos (by simpa using hblank),
        List.filterMap_cons_some (readLine_of_not_blank hblank)]
      exact .cons (placed_entryOf filename (cleanLine l.1) l) ih

theorem flatten_logicalLines (lines : List Line) : (logicalLines lines).flatten = lines := by
  induction lines with
  | nil => rfl
  | cons l lines ih =>
    rw [logicalLines]
    split_ifs
    · cases hlines : logicalLines lines with
      | nil =>
        rw [hlines] at ih
        rw [← ih]
        rfl
      | cons g gs =>
        rw [hlines] at ih
        rw [← ih]
        rfl
    · rw [List.flatten_cons, ih]
      rfl

theorem numberedLines_ascending (content : List Char) : (numberedLines content).Pairwise (·.2 < ·.2) := by
  have hnumbers : ((numberedLines content).map Prod.snd).Pairwise (· < ·) := by
    rw [numberedLines, List.zipIdx_map_snd]
    exact List.pairwise_lt_range'
  exact List.pairwise_map.mp hnumbers

theorem lineDependency_of_plain {filename : String} {l : Line} {more : List Line} (h : Plain (l :: more)) :
    lineDependency P filename l = logicalDependency P filename (l :: more) ∧
      ∀ k ∈ more, lineDependency P filename k = none := by
  obtain ⟨l', hg, htext⟩ := h
  obtain ⟨rfl, rfl⟩ := List.cons.inj hg
  refine ⟨?_, fun k hk => nomatch hk⟩
  rw [lineDependency, readLine, logicalDependency, htext]
  split_ifs
  · rfl
  · rw [Option.bind_some]
    apply unworded_entryOf

variable (P) in
/-- The lines of a file are read once each, in order; and they are read as pip reads them exactly when the logical
lines that are not plain agree. -/
theorem readsByLogicalLine_iff (disk : String → Option (List Char)) (contentOrPath filename : String) :
    ReadsByLogicalLine P disk contentOrPath filename ↔
      UnplainAgree P (sourceOf disk contentOrPath filename).2.1 (sourceOf disk contentOrPath filename).2.2 := by
  generalize hsource : sourceOf disk contentOrPath filename = source
  obtain ⟨path, name, content⟩ := source
  have hresult : parseRequirementsTxt P disk contentOrPath filename = parseContent P path name content := by
    rw [parseRequirementsTxt, hsource]
  have hdeps : (parseContent P path name content).dependencies.map unworded =
      (logicalLines (numberedLines content)).flatten.filterMap (lineDependency P name) := by
    rw [flatten_logicalLines, parseContent, (foldl_addEntry _ _).1, List.nil_append, List.map_filterMap,
      List.filterMap_filterMap]
    apply List.filterMap_congr
    intro l _
    rw [lineDependency]
    cases readLine P name l <;> rfl
  have hascending : (logicalLines (numberedLines content)).flatten.Pairwise (·.2 < ·.2) := by
    rw [flatten_logicalLines]
    exact numberedLines_ascending content
  have hline : ∀ l d, lineDependency P name l = some d → d.lineNumber = some l.2 :=
    fun l d h => lineNumber_of_line h
  have hlogical : ∀ l more d, logicalDependency P name (l :: more) = some d → d.lineNumber = some l.2 :=
    fun l more d h => lineNumber_of_logical h
  rw [ReadsByLogicalLine, hsource, hresult, hdeps]
  dsimp only
  rw [filterMap_flatten_eq_iff hascending hline hlogical rfl, UnplainAgree]
  constructor
  · intro h l more hg _
    exact h.2 l more hg
  · intro h
    refine ⟨eachLineOnce path name content, fun l more hg => ?_⟩
    by_cases hplain : Plain (l :: more)
    · exact lineDependency_of_plain hplain
    · exact h l more hg hplain

def pinnedContent : String := "requests==2.0 \\\n    --hash=sha256:ab\n"

/-- `packaging` on the texts of this file. -/
def pinnedPackaging : Packaging where
  requirement text :=
    if text = "requests==2.0" then
      .ok { name := "requests", specifiers := [⟨"==", "2.0"⟩], specifierText := "==2.0" }
    else .error "Expected end or semicolon"
  canonicalizeName name := name

theorem hashed_requirement_is_missing :
    ¬ReadsByLogicalLine pinnedPackaging (fun _ => none) pinnedContent "requirements.txt" := by
  rintro ⟨-, h⟩
  have hnone : (parseRequirementsTxt pinnedPackaging (fun _ => none) pinnedContent "requirements.txt").dependencies =
      [] := by decide +kernel
  have hone : ((logicalLines (numberedLines pinnedContent.toList)).filterMap
      (logicalDependency pinnedPackaging "requirements.txt")).length = 1 := by decide +kernel
  rw [hnone] at h
  have hlen := congrArg List.length h
  exact absurd (hlen.trans hone) (by decide)

end TimeCodeSecurity.Sca.Manifest.Requirements
