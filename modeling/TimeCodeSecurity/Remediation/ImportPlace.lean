import TimeCodeSecurity.Foundations.Pep440
import TimeCodeSecurity.Foundations.Replacing
import TimeCodeSecurity.Foundations.Splices
import TimeCodeSecurity.Remediation.PathExpressions
import TimeCodeSecurity.Remediation.Transformers

/-! # The place of the import

`Cwe22PathTraversalTransformer.transform` replaces the lines of a statement by the emitted block and puts an import
into the list of lines. Where it goes is read off the module as it was, and counted in the list as it is then.
-/
namespace TimeCodeSecurity.Remediation
open Py Splices KeptLines
set_option autoImplicit false

/-- A node, the statement it belongs to, and what stands before that in the `body` around it. -/
structure Standing where
  node : Node
  stmt : Stmt
  earlier : List Stmt

/-- `scope.body`. -/
def scopeBody : Node → List Stmt
  | .stmt (.functionDef _ _ _ _ body _ _) | .stmt (.classDef _ _ _ _ body _) => body
  | .stmt (.forLoop _ _ _ _ body _) | .stmt (.whileLoop _ _ body _) | .stmt (.ifStmt _ _ body _) => body
  | .stmt (.withStmt _ _ _ body) | .stmt (.tryStmt _ _ body _ _ _) => body
  | .handler h => h.body
  | .matchCase c => c.body
  | _ => []

/-- Children of one node. The statements of `body` come first among those that are statements; the ones behind
them, of an `else` say, have all of it before them. -/
def standings (body : List Stmt) (part : Node → Standing) : ℕ → List Node → List Standing
  | _, [] => []
  | i, .stmt s :: rest => ⟨.stmt s, s, body.take i⟩ :: standings body part (i + 1) rest
  | i, n :: rest => part n :: standings body part i rest

def Standing.children (st : Standing) : List Standing :=
  standings (scopeBody st.node) (fun n => ⟨n, st.stmt, st.earlier⟩) 0 st.node.children

/-- `ast.walk(tree)`, with what the map of the parents says of each node. -/
def walkStandings (tree : Module) : List Standing :=
  TreeWalk.queue Standing.children (stmtsWeight tree) (tree.mapIdx fun i s => ⟨.stmt s, s, tree.take i⟩)

def isFileSink : Expr → Bool
  | .name _ id _ => id ∈ ["open", "file"]
  | .attr _ _ attr _ => attr ∈ ["open", "read_text", "read_bytes"]
  | _ => false

def sinkArgs (line : ℕ) : Node → Option (List Expr)
  | .expr (.call pos func args _) => if isFileSink func && covers line pos then some args else none
  | _ => none

/-- `_find_file_sink_call`: the arguments of the call, and where it stands. -/
def findFileSinkCall (tree : Module) (line : ℕ) : Option (List Expr × Standing) :=
  (walkStandings tree).findSome? fun st => (sinkArgs line st.node).map (·, st)

def assignmentTo (varName : String) : Stmt → Option (Pos × Expr)
  | .assign pos targets value => if targets.any (targetName · = some varName) then some (pos, value) else none
  | _ => none

def findPrecedingAssignment (varName : String) (earlier : List Stmt) : Option (Pos × Expr) :=
  (earlier.filterMap (assignmentTo varName)).getLast?

/-- An import that binds `Path`. -/
def importsPath (a : Alias) : Bool := a.asname = some "Path" || (a.asname = none && a.name = "Path")

def bindsCustomPath : Stmt → Bool
  | .assign _ targets _ => targets.any (targetName · = some "Path")
  | .functionDef _ _ name _ _ _ _ | .classDef _ name _ _ _ _ => name = "Path"
  | .importFrom _ module names _ => module ≠ some "pathlib" && names.any importsPath
  | .importStmt _ names => names.any (·.asname = some "Path")
  | _ => false

def isCustomPathBound (tree : Module) : Bool := tree.any bindsCustomPath

def isPathlibPathImport : Stmt → Bool
  | .importFrom _ module names _ => module = some "pathlib" && names.any importsPath
  | _ => false

def hasPathlibPathImport (tree : Module) : Bool := tree.any isPathlibPathImport

def importEnd : Stmt → Option ℕ
  | .importStmt pos _ | .importFrom pos _ _ _ => some pos.endLineno
  | _ => none

def importEnds (tree : Module) : List ℕ := tree.filterMap importEnd

def lastImportEnd (tree : Module) : ℕ := (importEnds tree).foldl max 0

def docstringEnd : Module → Option ℕ
  | .expr pos (.constant _ (.str _)) :: _ => some pos.endLineno
  | _ => none

def isHeaderLine (line : List Char) : Bool :=
  ['#', '!'] <+: Pep440.strip line || ['c', 'o', 'd', 'i', 'n', 'g'] <:+: Pep440.strip line

def findSafeImportInsertionIndex (tree : Module) (lines : List (List Char)) : ℕ :=
  if 0 < lastImportEnd tree then lastImportEnd tree
  else (docstringEnd tree).getD (lines.takeWhile isHeaderLine).length

/-- `str.splitlines(keepends=True)`. -/
def sourceLines (source : String) : List (List Char) := cut Scanner.isLineBoundary source.toList

structure PathEdit where
  pos : Pos
  indent : List Char
  lineEnding : List Char
  block : List String
  sink : Option (List Char)

def PathEdit.guardLines (ed : PathEdit) : List (List Char) :=
  ed.block.map fun l => ed.indent ++ l.toList ++ ed.lineEnding

/-- `patched_lines[start:end] = guard_lines`, with the sink behind them. -/
def PathEdit.splice (ed : PathEdit) : Splice (List Char) where
  start := ed.pos.lineno - 1
  stop := max (ed.pos.lineno - 1) ed.pos.endLineno
  new := ed.guardLines ++ ed.sink.toList
  start_le_stop := le_max_left _ _

def PathEdit.importLine (ed : PathEdit) : List Char := "from pathlib import Path".toList ++ ed.lineEnding

section
variable (P : ExprPrinter)

def guardText : GuardValue → String
  | .resolved base => "Path(" ++ P.text .test base ++ ").resolve()"
  | .behindBase file => "(safe_base / " ++ P.text .test file ++ ").resolve()"

def blockText (varName : String) (base file : Expr) : List String :=
  (guardBlock varName base file).map (fun b => b.1 ++ " = " ++ guardText P b.2) ++
    ["if not " ++ varName ++ ".is_relative_to(safe_base):",
      "    raise ValueError(\"Path traversal attempt detected\")"]

def editAt (lines : List (List Char)) (pos : Pos) (varName : String) (parts : Expr × Expr)
    (sink : Option (List Char)) : Option PathEdit :=
  (lines[pos.lineno - 1]?).map fun line =>
    ⟨pos, line.takeWhile Scanner.isSpace, if ['\r', '\n'] <:+ line then ['\r', '\n'] else ['\n'],
      blockText P varName parts.1 parts.2, sink⟩

/-- `lines[start:end]` in one. -/
def statementText (lines : List (List Char)) (pos : Pos) : List Char :=
  ((lines.drop (pos.lineno - 1)).take (pos.endLineno - (pos.lineno - 1))).flatten

def pathEdit (tree : Module) (line : ℕ) (lines : List (List Char)) : Option (Except String PathEdit) :=
  if isCustomPathBound tree then
    some (.error
      "Symbol 'Path' is already bound to a custom object in module scope and cannot be safely overwritten")
  else
    match findFileSinkCall tree line with
    | none => some (.error ("Could not locate matching file sink call at line " ++ toString line))
    | some ([], _) => some (.error "File sink call missing path argument")
    | some (.name _ varName _ :: _, st) =>
      match findPrecedingAssignment varName st.earlier with
      | none => some (.error ("Could not locate preceding assignment to " ++ varName))
      | some (pos, value) =>
        match decomposePathExpression value with
        | .error message => some (.error message)
        | .ok parts => (editAt P lines pos varName parts none).map .ok
    | some (arg0 :: _, st) =>
      match decomposePathExpression arg0 with
      | .error message => some (.error message)
      | .ok parts =>
        (editAt P lines st.stmt.pos "target_path" parts (some (Replacing.replaceFirst (P.text .test arg0).toList
          "target_path".toList (statementText lines st.stmt.pos)))).map .ok

def patchedLines (tree : Module) (lines : List (List Char)) (ed : PathEdit) : List (List Char) :=
  if hasPathlibPathImport tree then ed.splice.apply lines
  else insertAt (findSafeImportInsertionIndex tree lines) ed.importLine (ed.splice.apply lines)

/-- `transform`. -/
def pathTransform (tree : Module) (line : ℕ) (source : String) : Option Patch :=
  (pathEdit P tree line (sourceLines source)).map fun outcome =>
    match outcome with
    | .error message => ⟨.unsupportedCwe, none, none, [message]⟩
    | .ok ed => ⟨.success, some (String.ofList (patchedLines tree (sourceLines source) ed).flatten),
        some (String.ofList (Pep440.strip ed.guardLines.flatten)), []⟩

end

/-! ## Legal places -/

def unfinishedLine (text : List Char) : List Char := text.rtakeWhile fun c => !Scanner.isNewline c

def StartsLine (text : List Char) : Prop :=
  unfinishedLine text = [] ∨
    (unfinishedLine text).all Scanner.isSpace = true ∧ (unfinishedLine text).getLast? = some '\x0c'

/-- Statements of the module that share a line, and the elements of the list of lines that they take. -/
structure Chunk where
  stmts : List Stmt
  extent : Extent

/-- The statements of the module as its lines have them. -/
structure LaidOut (tree : Module) (chunks : List Chunk) : Prop where
  stmts : chunks.flatMap (·.stmts) = tree
  nonempty : ∀ c ∈ chunks, c.stmts ≠ []
  proper : ∀ c ∈ chunks, c.extent.start < c.extent.stop
  ordered : chunks.Pairwise fun c d => c.extent.stop ≤ d.extent.start

def isFutureImport : Stmt → Bool
  | .importFrom _ module _ _ => module = some "__future__"
  | _ => false

section
variable (tree : Module) (chunks : List Chunk) (ed : PathEdit) (lines : List (List Char))

/-- The docstring is there, or an import from `__future__`. -/
def Leads (c : Chunk) : Prop :=
  (∃ s ∈ c.stmts, isFutureImport s = true) ∨ chunks.head? = some c ∧ (docstringEnd tree).isSome = true

def PathEdit.sinkExtent : Option Extent :=
  ed.sink.map fun _ => ⟨ed.splice.start + ed.block.length, ed.splice.newStop⟩

def TopLevel : Prop := ed.indent = [] ∧ ∀ c ∈ chunks, ¬ ed.splice.Torn c.extent

/-- A place of the patched list that a line of its own can be put at: between two statements of the module, behind
its docstring and its imports from `__future__`. The last two lines of the block are one statement. -/
structure LegalPlace (k : ℕ) : Prop where
  startsLine : StartsLine ((ed.splice.apply lines).take k).flatten
  outside : ∀ c ∈ chunks, ∀ y ∈ ed.splice.image ed.sinkExtent c.extent, ¬ y.Splits k
  block : ed.splice.start < k → k < ed.splice.newStop → TopLevel chunks ed ∧ k ≠ ed.splice.start + 3
  behind : ∀ c ∈ chunks, Leads tree chunks c → ∀ y ∈ ed.splice.image ed.sinkExtent c.extent, y.stop ≤ k

def Dropped (c : Chunk) : Prop := ed.splice.Within c.extent ∧ ed.sink = none

/-- A line of the module as it was between two statements, behind the docstring and the imports from
`__future__`. -/
structure ClearLine (k : ℕ) : Prop where
  between : ∀ c ∈ chunks, ¬ c.extent.Splits k
  behind : ∀ c ∈ chunks, Leads tree chunks c → c.extent.stop ≤ k ∨ Dropped ed c

def keptBehind (k : ℕ) : List (List Char) :=
  let kept := if ed.sink.isSome then ed.splice.start else ed.splice.stop
  (lines.drop kept).take (k - kept)

def Fits (k : ℕ) : Prop :=
  (k ≤ ed.splice.start ∧ StartsLine (lines.take k).flatten ∧ ClearLine tree chunks ed k) ∨
  (ed.splice.start < k ∧ k < ed.splice.newStop ∧ TopLevel chunks ed ∧ k ≠ ed.splice.start + 3 ∧
    ∀ c ∈ chunks, Leads tree chunks c → ed.splice.Before c.extent ∨ Dropped ed c) ∨
  (ed.splice.newStop ≤ k ∧ StartsLine (keptBehind ed lines (ed.splice.origin k)).flatten ∧
    ClearLine tree chunks ed (ed.splice.origin k))

end

inductive ImportAnchor (tree : Module) (lines : List (List Char)) : ℕ → Prop
  | imports {k : ℕ} (last : IsGreatest {e | e ∈ importEnds tree} k) (hpos : 0 < k) : ImportAnchor tree lines k
  | docstring {k : ℕ} (none : ∀ e ∈ importEnds tree, e = 0) (hdoc : docstringEnd tree = some k) :
    ImportAnchor tree lines k
  | header (none : ∀ e ∈ importEnds tree, e = 0) (hdoc : docstringEnd tree = .none) :
    ImportAnchor tree lines (lines.takeWhile isHeaderLine).length

section
variable (P : ExprPrinter) (tree : Module) (line : ℕ) (source : String) (chunks : List Chunk)

/-- What is written is the patched list with the import at a legal place of it. -/
def PlacedLegally (patch : Patch) : Prop :=
  ∃ ed, pathEdit P tree line (sourceLines source) = some (.ok ed) ∧
    patch.patchedSource = some (String.ofList (insertAt (findSafeImportInsertionIndex tree (sourceLines source))
      ed.importLine (ed.splice.apply (sourceLines source))).flatten) ∧
    LegalPlace tree chunks ed (sourceLines source) (findSafeImportInsertionIndex tree (sourceLines source))

/-- The edit leaves the line that the import is anchored at where it can be used. -/
def AnchorFits : Prop :=
  ∃ ed k, pathEdit P tree line (sourceLines source) = some (.ok ed) ∧ ImportAnchor tree (sourceLines source) k ∧
    Fits tree chunks ed (sourceLines source) k

end

theorem unfinishedLine_append (x y : List Char) : unfinishedLine (x ++ y) =
    if y.all (!Scanner.isNewline ·) then unfinishedLine x ++ y else unfinishedLine y := by
  induction y using List.reverseRecOn with
  | nil => simp
  | append_singleton y c ih =>
    rw [← List.append_assoc]
    by_cases hc : Scanner.isNewline c = true
    · simp [unfinishedLine, hc]
    · simp only [unfinishedLine, List.rtakeWhile_concat, hc, Bool.not_false, if_true, List.all_append, List.all_cons,
        List.all_nil, Bool.and_true] at ih ⊢
      rw [ih]
      split <;> simp

theorem unfinishedLine_of_all {y : List Char} (h : y.all (!Scanner.isNewline ·) = true) : unfinishedLine y = y := by
  have happend := unfinishedLine_append [] y
  rw [if_pos h] at happend
  exact happend

theorem startsLine_append_of_ended {x : List Char} (hx : unfinishedLine x = []) (y : List Char) :
    StartsLine (x ++ y) ↔ StartsLine y := by
  have heq : unfinishedLine (x ++ y) = unfinishedLine y := by
    rw [unfinishedLine_append, hx]
    split
    next hall => rw [unfinishedLine_of_all hall, List.nil_append]
    · rfl
  rw [StartsLine, StartsLine, heq]

theorem unfinishedLine_concat_newline (x : List Char) : unfinishedLine (x ++ ['\n']) = [] := by
  simp [unfinishedLine, Scanner.isNewline]

theorem startsLine_append_of_solid {x : List Char} {c : Char} (hc : Scanner.isSpace c = false) (y : List Char) :
    StartsLine (x ++ c :: y) ↔ y.all (!Scanner.isNewline ·) = false ∧ StartsLine y := by
  have hline : Scanner.isNewline c = false := by
    by_contra hnewline
    simp only [Scanner.isNewline, List.mem_cons, List.not_mem_nil, or_false, decide_eq_true_eq,
      Bool.not_eq_false] at hnewline
    rcases hnewline with rfl | rfl <;> exact absurd hc (by decide)
  have hsplit : x ++ c :: y = (x ++ [c]) ++ y := by simp
  rw [StartsLine, hsplit, unfinishedLine_append]
  cases hall : y.all (!Scanner.isNewline ·) with
  | true =>
    have hmem : c ∈ unfinishedLine (x ++ [c]) := by
      simp [unfinishedLine, hline]
    rw [if_pos rfl]
    refine iff_of_false (fun hstart => ?_) (fun h => absurd h.1 (by simp))
    rcases hstart with hnil | ⟨hspace, -⟩
    · rw [(List.append_eq_nil_iff.mp hnil).1] at hmem
      cases hmem
    · have hblank := List.all_eq_true.mp hspace c (List.mem_append_left y hmem)
      rw [hc] at hblank
      cases hblank
  | false => simp [StartsLine]

theorem isGreatest_foldl_max (l : List ℕ) (a : ℕ) : IsGreatest {e | e = a ∨ e ∈ l} (l.foldl max a) := by
  induction l generalizing a with
  | nil => exact ⟨.inl rfl, fun e he => (he.resolve_right List.not_mem_nil).le⟩
  | cons b l ih =>
    obtain ⟨hmem, hupper⟩ := ih (max a b)
    refine ⟨?_, fun e he => ?_⟩
    · rcases hmem with heq | hmem
      · rw [List.foldl_cons, heq]
        rcases max_choice a b with h | h
        · exact .inl h
        · rw [h]
          exact .inr List.mem_cons_self
      · exact .inr (List.mem_cons_of_mem b hmem)
    · have hle : max a b ≤ l.foldl max (max a b) := hupper (.inl rfl)
      rcases he with rfl | he
      · exact (le_max_left e b).trans hle
      · rcases List.mem_cons.mp he with rfl | he
        · exact (le_max_right a e).trans hle
        · exact hupper (.inr he)

theorem lastImportEnd_eq_zero_iff (tree : Module) : lastImportEnd tree = 0 ↔ ∀ e ∈ importEnds tree, e = 0 := by
  obtain ⟨hmem, hupper⟩ := isGreatest_foldl_max (importEnds tree) 0
  constructor
  · intro hzero e he
    have hle : e ≤ lastImportEnd tree := hupper (.inr he)
    omega
  · intro hall
    exact hmem.elim id (hall _)

theorem isGreatest_lastImportEnd {tree : Module} (hpos : 0 < lastImportEnd tree) :
    IsGreatest {e | e ∈ importEnds tree} (lastImportEnd tree) := by
  obtain ⟨hmem, hupper⟩ := isGreatest_foldl_max (importEnds tree) 0
  exact ⟨hmem.resolve_left hpos.ne', fun e he => hupper (.inr he)⟩

theorem importAnchor_index (tree : Module) (lines : List (List Char)) :
    ImportAnchor tree lines (findSafeImportInsertionIndex tree lines) := by
  unfold findSafeImportInsertionIndex
  split
  next hpos => exact .imports (isGreatest_lastImportEnd hpos) hpos
  next hzero =>
    have hnone := (lastImportEnd_eq_zero_iff tree).mp (Nat.eq_zero_of_not_pos hzero)
    cases hdoc : docstringEnd tree with
    | none => exact .header hnone hdoc
    | some k => exact .docstring hnone hdoc

theorem ImportAnchor.eq_index {tree : Module} {lines : List (List Char)} {k : ℕ} (h : ImportAnchor tree lines k) :
    k = findSafeImportInsertionIndex tree lines := by
  unfold findSafeImportInsertionIndex
  cases h with
  | imports last hpos =>
    have hne : lastImportEnd tree ≠ 0 := fun hzero =>
      hpos.ne' ((lastImportEnd_eq_zero_iff tree).mp hzero k last.1)
    have hlt := Nat.pos_of_ne_zero hne
    rw [if_pos hlt]
    exact last.unique (isGreatest_lastImportEnd hlt)
  | docstring none hdoc =>
    rw [if_neg (by rw [(lastImportEnd_eq_zero_iff tree).mpr none]; exact lt_irrefl 0), hdoc]
    rfl
  | header none hdoc =>
    rw [if_neg (by rw [(lastImportEnd_eq_zero_iff tree).mpr none]; exact lt_irrefl 0), hdoc]
    rfl

structure PathEdit.Formed (P : ExprPrinter) (lines : List (List Char)) (ed : PathEdit) : Prop where
  start : ed.pos.lineno - 1 < lines.length
  ending : ed.lineEnding = ['\n'] ∨ ed.lineEnding = ['\r', '\n']
  block : ed.block.length = 4
  sink : ∀ text ∈ ed.sink, ∃ arg, text = Replacing.replaceFirst (P.text .test arg).toList "target_path".toList
    (statementText lines ed.pos)

section
variable {P : ExprPrinter} {tree : Module} {line : ℕ} {lines : List (List Char)} {ed : PathEdit}

theorem formed_of_editAt {pos : Pos} {varName : String} {parts : Expr × Expr} {sink : Option (List Char)}
    (h : editAt P lines pos varName parts sink = some ed)
    (hsink : ∀ text ∈ sink, ∃ arg, text = Replacing.replaceFirst (P.text .test arg).toList "target_path".toList
      (statementText lines pos)) : ed.Formed P lines := by
  obtain ⟨first, hfirst, rfl⟩ := Option.map_eq_some_iff.mp h
  refine ⟨(List.getElem?_eq_some_iff.mp hfirst).1, ?_, rfl, hsink⟩
  show (if _ then _ else _) = _ ∨ (if _ then _ else _) = _
  split
  · exact .inr rfl
  · exact .inl rfl

theorem formed_of_pathEdit (h : pathEdit P tree line lines = some (.ok ed)) : ed.Formed P lines := by
  unfold pathEdit at h
  split at h
  · cases h
  · split at h
    · cases h
    · cases h
    next varName _ _ st _ =>
      cases hassign : findPrecedingAssignment varName st.earlier with
      | none =>
        rw [hassign] at h
        cases h
      | some found =>
        obtain ⟨pos, value⟩ := found
        simp only [hassign] at h
        split at h
        · cases h
        · obtain ⟨ed', hed, heq⟩ := Option.map_eq_some_iff.mp h
          obtain rfl := Except.ok.inj heq
          exact formed_of_editAt hed fun text htext => by cases htext
    next arg0 _ st _ _ =>
      split at h
      · cases h
      · obtain ⟨ed', hed, heq⟩ := Option.map_eq_some_iff.mp h
        obtain rfl := Except.ok.inj heq
        refine formed_of_editAt hed fun text htext => ⟨arg0, ?_⟩
        exact (Option.mem_some_iff.mp htext).symm

end

/-! ## Legality in the old lines -/

/-- What the printer gives for an expression does not end with a blank. -/
def EndsSolid (P : ExprPrinter) : Prop :=
  ∀ e, ∃ body c, (P.text .test e).toList = body ++ [c] ∧ Scanner.isSpace c = false

section
variable {P : ExprPrinter} {tree : Module} {chunks : List Chunk} {ed : PathEdit} {lines : List (List Char)} {k : ℕ}

theorem startsLine_replaceFirst (hprinter : EndsSolid P) (arg : Expr) (text rest : List Char) :
    StartsLine (Replacing.replaceFirst (P.text .test arg).toList "target_path".toList text ++ rest) ↔
      StartsLine (text ++ rest) := by
  obtain ⟨body, c, hold, hc⟩ := hprinter arg
  have hnew : "target_path".toList = ['t', 'a', 'r', 'g', 'e', 't', '_', 'p', 'a', 't'] ++ ['h'] := rfl
  rcases Replacing.replaceFirst_cases (P.text .test arg).toList "target_path".toList text with h | ⟨a, b, h, h'⟩
  · rw [h]
  · have hassoc (u : List Char) (d : Char) : a ++ ((u ++ [d]) ++ b) ++ rest = (a ++ u) ++ d :: (b ++ rest) := by
      simp
    rw [h', h, hold, hnew, hassoc, hassoc, startsLine_append_of_solid (by decide), startsLine_append_of_solid hc]

theorem unfinishedLine_flatten {ls : List (List Char)} (hne : ls ≠ []) (hended : ∀ l ∈ ls, ['\n'] <:+ l)
    (x : List Char) : unfinishedLine (x ++ ls.flatten) = [] := by
  obtain ⟨front, last, rfl⟩ : ∃ front last, ls = front ++ [last] :=
    ⟨_, _, (List.dropLast_append_getLast hne).symm⟩
  obtain ⟨body, rfl⟩ := hended last (List.mem_append_right front List.mem_cons_self)
  have hflat : x ++ (front ++ [body ++ ['\n']]).flatten = (x ++ (front.flatten ++ body)) ++ ['\n'] := by simp
  rw [hflat]
  exact unfinishedLine_concat_newline _

theorem dropped_iff (c : Chunk) : Dropped ed c ↔ ed.splice.Within c.extent ∧ ed.sinkExtent = none := by
  rw [Dropped, PathEdit.sinkExtent, Option.map_eq_none_iff]

namespace PathEdit.Formed
variable (hed : ed.Formed P lines)
include hed

theorem length_guardLines : ed.guardLines.length = 4 := by
  rw [guardLines, List.length_map, hed.block]

theorem newStop_eq : ed.splice.newStop = ed.splice.start + (4 + ed.sink.toList.length) := by
  rw [Splice.newStop, show ed.splice.new = ed.guardLines ++ ed.sink.toList from rfl, List.length_append,
    hed.length_guardLines]

theorem new_ne_nil : ed.splice.new ≠ [] := by
  intro hnil
  have hlt := hed.newStop_eq
  rw [Splice.newStop, hnil, List.length_nil] at hlt
  omega

theorem ended_guardLines {l : List Char} (hl : l ∈ ed.guardLines) : ['\n'] <:+ l := by
  obtain ⟨text, -, rfl⟩ := List.mem_map.mp hl
  rcases hed.ending with h | h <;> rw [h]
  · exact ⟨_, rfl⟩
  · exact ⟨ed.indent ++ text.toList ++ ['\r'], by simp⟩

theorem sinkExtent_start : ∀ y ∈ ed.sinkExtent, y = ⟨ed.splice.start + 4, ed.splice.start + 5⟩ := by
  intro y hy
  obtain ⟨text, hsink, rfl⟩ := Option.map_eq_some_iff.mp hy
  rw [hed.block, hed.newStop_eq, hsink]
  rfl

theorem start_le_length : ed.splice.start ≤ lines.length := hed.start.le

theorem startsLine_inner {k : ℕ} (hstart : ed.splice.start < k) (hstop : k < ed.splice.newStop) :
    StartsLine ((ed.splice.apply lines).take k).flatten := by
  obtain ⟨j, rfl⟩ := Nat.exists_eq_add_of_le hstart.le
  have hj : j ≤ ed.guardLines.length := by
    have hsink : ed.sink.toList.length ≤ 1 := by cases ed.sink <;> simp
    rw [hed.newStop_eq] at hstop
    rw [hed.length_guardLines]
    omega
  have hnew : j ≤ ed.splice.new.length := by
    rw [Splice.newStop] at hstop
    omega
  have htake : ed.splice.new.take j = ed.guardLines.take j := List.take_append_of_le_length hj
  rw [Splice.take_apply_of_inner hnew hed.start_le_length, htake, List.flatten_append]
  refine .inl (unfinishedLine_flatten ?_ (fun l hl => hed.ended_guardLines (List.mem_of_mem_take hl)) _)
  intro hnil
  have hlength := congrArg List.length hnil
  rw [List.length_take, List.length_nil] at hlength
  omega

theorem startsLine_behind (hprinter : EndsSolid P) {k : ℕ} (hk : ed.splice.newStop ≤ k) :
    StartsLine ((ed.splice.apply lines).take k).flatten ↔
      StartsLine (keptBehind ed lines (ed.splice.origin k)).flatten := by
  have hne : ed.guardLines ≠ [] := by
    intro hnil
    have hlength := hed.length_guardLines
    rw [hnil] at hlength
    cases hlength
  have hflat : ((ed.splice.apply lines).take k).flatten = ((lines.take ed.splice.start).flatten ++
      ed.guardLines.flatten) ++ (ed.sink.toList.flatten ++
        ((lines.drop ed.splice.stop).take (k - ed.splice.newStop)).flatten) := by
    rw [Splice.take_apply_of_ge hk hed.start_le_length,
      show ed.splice.new = ed.guardLines ++ ed.sink.toList from rfl]
    simp
  rw [hflat, startsLine_append_of_ended (unfinishedLine_flatten hne (fun l => hed.ended_guardLines) _)]
  cases hsink : ed.sink with
  | none =>
    have hplace : ed.splice.origin k - ed.splice.stop = k - ed.splice.newStop := by
      rw [Splice.origin]
      omega
    rw [keptBehind, hsink]
    simp [hplace]
  | some text =>
    obtain ⟨arg, rfl⟩ := hed.sink text hsink
    have hplace : ed.splice.origin k - ed.splice.start =
        (ed.pos.endLineno - (ed.pos.lineno - 1)) + (k - ed.splice.newStop) := by
      rw [Splice.origin, show ed.splice.start = ed.pos.lineno - 1 from rfl,
        show ed.splice.stop = max (ed.pos.lineno - 1) ed.pos.endLineno from rfl]
      omega
    have hdrop : ed.pos.lineno - 1 + (ed.pos.endLineno - (ed.pos.lineno - 1)) = ed.splice.stop := by
      rw [show ed.splice.stop = max (ed.pos.lineno - 1) ed.pos.endLineno from rfl]
      omega
    have hkept : (keptBehind ed lines (ed.splice.origin k)).flatten = statementText lines ed.pos ++
        ((lines.drop ed.splice.stop).take (k - ed.splice.newStop)).flatten := by
      rw [keptBehind, hsink, Option.isSome_some, if_pos rfl, hplace, List.take_add, List.drop_drop,
        show ed.splice.start = ed.pos.lineno - 1 from rfl, hdrop, List.flatten_append, statementText]
    rw [hkept, Option.toList_some, List.flatten_singleton]
    exact startsLine_replaceFirst hprinter arg _ _

theorem legalPlace_front (hlaid : LaidOut tree chunks) (hk : k ≤ ed.splice.start) :
    LegalPlace tree chunks ed lines k ↔ StartsLine (lines.take k).flatten ∧ ClearLine tree chunks ed k := by
  have hsink (y : Extent) (hy : y ∈ ed.sinkExtent) : ed.splice.start ≤ y.start ∧ ed.splice.start < y.stop := by
    rw [hed.sinkExtent_start y hy]
    exact ⟨Nat.le_add_right _ _, Nat.lt_add_of_pos_right (by decide)⟩
  have hsplits (c : Chunk) := Splice.image_splits_front (x := c.extent) hed.new_ne_nil (fun y hy => (hsink y hy).1) hk
  have hstop (c : Chunk) (hc : c ∈ chunks) : (∀ y ∈ ed.splice.image ed.sinkExtent c.extent, y.stop ≤ k) ↔
      c.extent.stop ≤ k ∨ Dropped ed c := by
    rw [dropped_iff]
    exact Splice.image_stop_front hed.new_ne_nil (hlaid.proper c hc) (fun y hy => (hsink y hy).2) hk
  constructor
  · intro h
    refine ⟨Splice.take_apply_of_le hk hed.start_le_length ▸ h.startsLine, fun c hc => ?_, fun c hc hleads => ?_⟩
    · exact (hsplits c).mp (h.outside c hc)
    · exact (hstop c hc).mp (h.behind c hc hleads)
  · rintro ⟨hline, hclear⟩
    refine ⟨(Splice.take_apply_of_le hk hed.start_le_length).symm ▸ hline, fun c hc => ?_, fun hinner => ?_,
      fun c hc hleads => ?_⟩
    · exact (hsplits c).mpr (hclear.between c hc)
    · exact absurd hinner hk.not_gt
    · exact (hstop c hc).mpr (hclear.behind c hc hleads)

theorem legalPlace_inner (hlaid : LaidOut tree chunks) (hstart : ed.splice.start < k)
    (hstop : k < ed.splice.newStop) : LegalPlace tree chunks ed lines k ↔
      TopLevel chunks ed ∧ k ≠ ed.splice.start + 3 ∧
        ∀ c ∈ chunks, Leads tree chunks c → ed.splice.Before c.extent ∨ Dropped ed c := by
  have hsink (y : Extent) (hy : y ∈ ed.sinkExtent) : ¬ y.Splits k ∧ ¬ y.stop ≤ k := by
    have hsome : ed.sink.toList.length = 1 := by
      obtain ⟨text, htext, -⟩ := Option.map_eq_some_iff.mp hy
      rw [htext]
      rfl
    rw [hed.newStop_eq, hsome] at hstop
    rw [hed.sinkExtent_start y hy]
    simp only [Extent.Splits]
    omega
  have hbehind (c : Chunk) (hc : c ∈ chunks) : (∀ y ∈ ed.splice.image ed.sinkExtent c.extent, y.stop ≤ k) ↔
      ed.splice.Before c.extent ∨ Dropped ed c := by
    rw [dropped_iff, Splice.image_stop_inner (hlaid.proper c hc) hstart hstop]
    refine or_congr_right (and_congr_right fun _ => ?_)
    cases hextent : ed.sinkExtent with
    | none => simp
    | some y => simp [(hsink y hextent).2]
  constructor
  · intro h
    obtain ⟨htop, hne⟩ := h.block hstart hstop
    exact ⟨htop, hne, fun c hc hleads => (hbehind c hc).mp (h.behind c hc hleads)⟩
  · rintro ⟨htop, hne, hleading⟩
    refine ⟨hed.startsLine_inner hstart hstop, fun c hc => ?_, fun _ _ => ⟨htop, hne⟩, fun c hc hleads => ?_⟩
    · exact (Splice.image_splits_inner (fun y hy => (hsink y hy).1) hstart hstop).mpr (htop.2 c hc)
    · exact (hbehind c hc).mpr (hleading c hc hleads)

theorem legalPlace_behind (hprinter : EndsSolid P) (hk : ed.splice.newStop ≤ k) :
    LegalPlace tree chunks ed lines k ↔ StartsLine (keptBehind ed lines (ed.splice.origin k)).flatten ∧
      ClearLine tree chunks ed (ed.splice.origin k) := by
  have hsink (y : Extent) (hy : y ∈ ed.sinkExtent) : y.stop ≤ ed.splice.newStop := by
    obtain ⟨text, -, rfl⟩ := Option.map_eq_some_iff.mp hy
    exact le_refl _
  have hsplits (c : Chunk) := Splice.image_splits_behind (x := c.extent) hed.new_ne_nil hsink hk
  have hstop (c : Chunk) := Splice.image_stop_behind (x := c.extent) hsink hk
  constructor
  · intro h
    refine ⟨(hed.startsLine_behind hprinter hk).mp h.startsLine, fun c hc => ?_, fun c hc hleads => .inl ?_⟩
    · exact (hsplits c).mp (h.outside c hc)
    · exact (hstop c).mp (h.behind c hc hleads)
  · rintro ⟨hline, hclear⟩
    refine ⟨(hed.startsLine_behind hprinter hk).mpr hline, fun c hc => ?_, fun _ hinner => ?_, fun c hc hleads => ?_⟩
    · exact (hsplits c).mpr (hclear.between c hc)
    · exact absurd hinner hk.not_gt
    · refine (hstop c).mpr ((hclear.behind c hc hleads).elim id fun hdropped => ?_)
      -- What is dropped ends with the replaced lines.
      exact hdropped.1.2.trans (Nat.le_add_left _ _)

theorem legalPlace_iff (hprinter : EndsSolid P) (hlaid : LaidOut tree chunks) :
    LegalPlace tree chunks ed lines k ↔ Fits tree chunks ed lines k := by
  have hlt := Splice.start_lt_newStop hed.new_ne_nil
  unfold Fits
  rcases le_or_gt k ed.splice.start with hfront | hstart
  · rw [hed.legalPlace_front hlaid hfront]
    have hstop : ¬ ed.splice.newStop ≤ k := by omega
    simp only [hfront, hfront.not_gt, hstop, true_and, false_and, or_false]
  · rcases lt_or_ge k ed.splice.newStop with hinner | hbehind
    · rw [hed.legalPlace_inner hlaid hstart hinner]
      simp only [hstart, hinner, hstart.not_ge, hinner.not_ge, true_and, false_and, false_or, or_false]
    · rw [hed.legalPlace_behind hprinter hbehind]
      simp only [hstart.not_ge, hbehind.not_gt, hbehind, true_and, false_and, and_false, false_or]

end PathEdit.Formed

end

/-- **The import is placed legally** where its anchor fits the edit. -/
theorem placedLegally_iff {P : ExprPrinter} {tree : Module} {line : ℕ} {source : String} {chunks : List Chunk}
    {patch : Patch} (hprinter : EndsSolid P) (hlaid : LaidOut tree chunks)
    (hpatch : pathTransform P tree line source = some patch)
    (hmissing : hasPathlibPathImport tree = false) :
    PlacedLegally P tree line source chunks patch ↔ AnchorFits P tree line source chunks := by
  constructor
  · rintro ⟨ed, hed, -, hlegal⟩
    exact ⟨ed, _, hed, importAnchor_index tree _, ((formed_of_pathEdit hed).legalPlace_iff hprinter hlaid).mp hlegal⟩
  · rintro ⟨ed, k, hed, hanchor, hfits⟩
    obtain rfl := hanchor.eq_index
    refine ⟨ed, hed, ?_, ((formed_of_pathEdit hed).legalPlace_iff hprinter hlaid).mpr hfits⟩
    obtain ⟨outcome, houtcome, rfl⟩ := Option.map_eq_some_iff.mp hpatch
    obtain rfl := Option.some.inj (houtcome.symm.trans hed)
    simp only [patchedLines, hmissing, Bool.false_eq_true, if_false]

/-- A printer of `base`, of `name` and of their sum. -/
def namesPrinter : ExprPrinter where
  text _ e := match e with
    | .name _ id _ => if id = "base" then "base" else "name"
    | _ => "base + name"
  arguments _ := ""
  pattern _ := ""
  docstring _ := ""

theorem endsSolid_namesPrinter : EndsSolid namesPrinter := by
  intro e
  have hcases : namesPrinter.text .test e = "base" ∨ namesPrinter.text .test e = "name" ∨
      namesPrinter.text .test e = "base + name" := by
    cases e with
    | name pos id c =>
      show (if id = "base" then "base" else "name") = _ ∨ (if id = "base" then "base" else "name") = _ ∨ _
      split
      · exact .inl rfl
      · exact .inr (.inl rfl)
    | _ => exact .inr (.inr rfl)
  rcases hcases with h | h | h <;> rw [h]
  · exact ⟨['b', 'a', 's'], 'e', rfl, by decide⟩
  · exact ⟨['n', 'a', 'm'], 'e', rfl, by decide⟩
  · exact ⟨['b', 'a', 's', 'e', ' ', '+', ' ', 'n', 'a', 'm'], 'e', rfl, by decide⟩

namespace OpenedPath

/-- `p = base + name`. -/
def assignment (line : ℕ) : Stmt :=
  .assign ⟨line, 0, line, 15⟩ [.name ⟨line, 0, line, 1⟩ "p" .store] (.binOp ⟨line, 4, line, 15⟩
    (.name ⟨line, 4, line, 8⟩ "base" .load) .add (.name ⟨line, 11, line, 15⟩ "name" .load))

/-- `f = open(p)`. -/
def sink (line : ℕ) : Stmt :=
  .assign ⟨line, 0, line, 11⟩ [.name ⟨line, 0, line, 1⟩ "f" .store] (.call ⟨line, 4, line, 11⟩
    (.name ⟨line, 4, line, 8⟩ "open" .load) [.name ⟨line, 9, line, 10⟩ "p" .load] [])

/-- `import os`. -/
def importOs (line : ℕ) : Stmt := .importStmt ⟨line, 0, line, 9⟩ [⟨"os", none⟩]

/-- Each statement on a line of its own. -/
def oneEach (tree : Module) : List Chunk := tree.mapIdx fun i s => ⟨[s], ⟨i, i + 1⟩⟩

def importFirst : Module := [importOs 1, assignment 2, sink 3]

def importFirstText : String := "import os\np = base + name\nf = open(p)\n"

def importLast : Module := [assignment 1, sink 2, importOs 3]

def importLastText : String := "p = base + name\nf = open(p)\nimport os\n"

def edit (line : ℕ) : PathEdit :=
  ⟨(assignment line).pos, [], ['\n'], blockText namesPrinter "p" (.name {} "base" .load) (.name {} "name" .load), none⟩

theorem laidOut (s t u : Stmt) : LaidOut [s, t, u] (oneEach [s, t, u]) where
  stmts := rfl
  nonempty := by simp [oneEach]
  proper := by simp [oneEach]
  ordered := by simp [oneEach]

theorem pathEdit_importFirst :
    pathEdit namesPrinter importFirst 3 (sourceLines importFirstText) = some (.ok (edit 2)) := rfl

theorem pathEdit_importLast :
    pathEdit namesPrinter importLast 2 (sourceLines importLastText) = some (.ok (edit 1)) := rfl

theorem fits_importFirst :
    Fits importFirst (oneEach importFirst) (edit 2) (sourceLines importFirstText) 1 := by
  refine .inl ⟨by decide, .inl rfl, fun c hc => ?_, fun c hc hleads => ?_⟩
  all_goals
    simp only [oneEach, importFirst, List.mapIdx_cons, List.mapIdx_nil, List.mem_cons, List.not_mem_nil,
      or_false] at hc
  · rcases hc with rfl | rfl | rfl <;> decide
  · rcases hleads with ⟨s, hs, hfuture⟩ | ⟨-, hdoc⟩
    · rcases hc with rfl | rfl | rfl <;> obtain rfl := List.mem_singleton.mp hs <;> cases hfuture
    · cases hdoc

end OpenedPath

open OpenedPath in
theorem placedLegally_importFirst : ∃ patch, pathTransform namesPrinter importFirst 3 importFirstText = some patch ∧
    patch.status = .success ∧
    PlacedLegally namesPrinter importFirst 3 importFirstText (oneEach importFirst) patch := by
  refine ⟨_, rfl, rfl, ?_⟩
  refine (placedLegally_iff endsSolid_namesPrinter (laidOut _ _ _) rfl (by decide)).mpr ?_
  have hlast : IsGreatest {e | e ∈ importEnds importFirst} 1 := ⟨.head _, fun e he => (List.mem_singleton.mp he).le⟩
  exact ⟨edit 2, 1, pathEdit_importFirst, .imports hlast (by decide), fits_importFirst⟩

open OpenedPath in
set_option maxRecDepth 4000 in
/-- The index of the last import is counted before three more lines stand in front of it. -/
theorem import_splits_block : EndsSolid namesPrinter ∧ LaidOut importLast (oneEach importLast) ∧
    hasPathlibPathImport importLast = false ∧
    ∃ patch, pathTransform namesPrinter importLast 2 importLastText = some patch ∧ patch.status = .success ∧
      patch.patchedSource = some ("safe_base = Path(base).resolve()\np = (safe_base / name).resolve()\n" ++
        "if not p.is_relative_to(safe_base):\nfrom pathlib import Path\n" ++
        "    raise ValueError(\"Path traversal attempt detected\")\nf = open(p)\nimport os\n") ∧
      ¬ PlacedLegally namesPrinter importLast 2 importLastText (oneEach importLast) patch := by
  refine ⟨endsSolid_namesPrinter, laidOut _ _ _, by decide, _, rfl, rfl, rfl, ?_⟩
  rintro ⟨ed, hed, -, hlegal⟩
  obtain rfl := Except.ok.inj (Option.some.inj (pathEdit_importLast.symm.trans hed))
  exact (hlegal.block (by decide) (by decide)).2 (by decide)

end TimeCodeSecurity.Remediation
