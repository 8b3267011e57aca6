import TimeCodeSecurity.Scanner.Nosec
import TimeCodeSecurity.Staged.Changes

/-! # The batched index reader

`GitIndexReader.read_blob` asks one running `git cat-file --batch` for every file and reads its output as one stream;
`read_git_index_blob` runs `git show` for each file. A request ends at the end of its line.
-/
namespace TimeCodeSecurity.Staged
open TextLines Utf8
set_option autoImplicit false

inductive ObjectKind
  | blob | tree | commit | tag
deriving DecidableEq, Repr

def ObjectKind.text : ObjectKind → Text
  | .blob => "blob".toList
  | .tree => "tree".toList
  | .commit => "commit".toList
  | .tag => "tag".toList

def hexDigits : Text := "0123456789abcdef".toList

structure GitObject where
  name : Text
  kind : ObjectKind
  content : Bytes
  named : name ≠ []
  hex : ∀ c ∈ name, c ∈ hexDigits

/-- What the objects and the index of a repository have under a revision. -/
structure Git where
  resolve : Bytes → Option GitObject
  noNul : ∀ spec, 0 ∈ spec → resolve spec = none

def ascii (text : Text) : Bytes := text.map Char.toNat

/-- `<object> <type> <size>`. -/
def GitObject.header (object : GitObject) : Bytes :=
  ascii (object.name ++ ' ' :: (object.kind.text ++ ' ' :: Nat.toDigits 10 object.content.length))

/-- The answer of `git cat-file --batch` to a request line. -/
def Git.answer (git : Git) (request : Bytes) : Bytes :=
  match git.resolve request with
  | some object => object.header ++ 10 :: (object.content ++ [10])
  | none => request ++ ascii " missing".toList ++ [10]

def Git.answers (git : Git) (written : Bytes) : Bytes := (written.splitOn 10).dropLast.flatMap git.answer

def maxFileSizeBytes : ℕ := 5 * 1024 * 1024
def maxLineLengthChars : ℕ := 10000
def binaryPrefixBytes : ℕ := 8192

def encoded (text : Text) : Bytes := text.flatMap fun c => (encodeChar c.toNat).getD []

/-- `:0:<path>`. -/
def revision (path : Text) : Bytes := ascii ":0:".toList ++ encoded (slashed path)

def textWithin (raw : Bytes) : Option Text :=
  let text := decoded raw
  if (splitLines Scanner.isLineBoundary text).any fun line => maxLineLengthChars < line.length then none else some text

/-- What is kept of the output of `git show`. -/
def GitObject.shown (object : GitObject) : Option Text :=
  if 0 ∈ object.content.take binaryPrefixBytes then none
  else if maxFileSizeBytes < object.content.length then none
  else textWithin object.content

/-- `read_git_index_blob`. A revision with a NUL cannot be an argument. -/
def Git.readGitIndexBlob (git : Git) (path : Text) : Option Text :=
  match git.resolve (revision path) with
  | none => none
  | some object => object.shown

/-- `stdout.readline()`: the line and what comes behind it. -/
def readLine (unread : Bytes) : Bytes × Bytes :=
  match unread.dropWhile (· ≠ 10) with
  | [] => (unread, [])
  | _ :: rest => (unread.takeWhile (· ≠ 10) ++ [10], rest)

/-- White space for `bytes.split`. -/
def isAsciiSpace (b : ℕ) : Bool := b = 32 ∨ 9 ≤ b ∧ b ≤ 13

def splitWords (line : Bytes) : List Bytes := (line.splitOnP isAsciiSpace).filter (· ≠ [])

/-- `int` of ASCII digits. -/
def intOf (word : Bytes) : Option ℕ :=
  let text := word.map Char.ofNat
  if text ≠ [] ∧ text.all Char.isDigit then some (Nat.ofDigitChars 10 text 0) else none

/-- The reader has the unread part of the output, when its process runs. -/
abbrev Reader := Option Bytes

def Git.readBlob (git : Git) (reader : Reader) (path : Text) : Option Text × Reader :=
  match reader with
  | none => (git.readGitIndexBlob path, none)
  | some unread =>
    let (header, unread) := readLine (unread ++ git.answers (revision path ++ [10]))
    if header = [] ∨ ascii "missing".toList <:+: header then (none, some unread)
    else
      match splitWords header with
      | _ :: _ :: word :: _ =>
        match intOf word with
        | some size =>
          let raw := unread.take size
          let unread := (unread.drop size).drop 1
          if maxFileSizeBytes < size then (none, some unread)
          else if 0 ∈ raw.take binaryPrefixBytes then (none, some unread)
          else (textWithin raw, some unread)
        | none => (git.readGitIndexBlob path, some unread)
      | _ => (none, some unread)

/-- The results of a sequence of reads, each with the reader behind it. -/
def Git.readBlobs (git : Git) : Reader → List Text → List (Option Text × Reader)
  | _, [] => []
  | reader, path :: paths => git.readBlob reader path :: git.readBlobs (git.readBlob reader path).2 paths

theorem mem_encodeChar {c b : ℕ} (h : b ∈ (encodeChar c).getD []) : b = c ∨ 0x80 ≤ b := by
  rw [encodeChar] at h
  split_ifs at h
  · exact .inl (List.mem_singleton.mp h)
  · right
    simp at h
    omega
  · cases h
  · right
    simp at h
    omega
  · right
    simp at h
    omega
  · cases h

theorem newline_mem_encoded {text : Text} : 10 ∈ encoded text ↔ '\n' ∈ text := by
  rw [encoded, List.mem_flatMap]
  constructor
  · rintro ⟨c, hc, hmem⟩
    rcases mem_encodeChar hmem with heq | hhigh
    · have hnewline : c = '\n' := Char.toNat_inj.mp heq.symm
      exact hnewline ▸ hc
    · omega
  · intro h
    exact ⟨'\n', h, by decide⟩

theorem newline_mem_revision {path : Text} : 10 ∈ revision path ↔ '\n' ∈ path := by
  have hslashed : '\n' ∈ slashed path ↔ '\n' ∈ path := by
    rw [slashed, List.mem_map]
    constructor
    · rintro ⟨c, hc, heq⟩
      split at heq
      · cases heq
      · exact heq ▸ hc
    · exact fun h => ⟨'\n', h, rfl⟩
  have hmark : 10 ∉ ascii ":0:".toList := by decide
  rw [revision, List.mem_append, newline_mem_encoded, hslashed]
  exact or_iff_right hmark

section
variable {git : Git} {request rest : Bytes}

theorem answers_cons (h : 10 ∉ request) (rest : Bytes) :
    git.answers (request ++ 10 :: rest) = git.answer request ++ git.answers rest := by
  rw [Git.answers, Git.answers, List.splitOn_append_cons_self_of_not_mem h,
    List.dropLast_cons_of_ne_nil (List.splitOn_ne_nil 10 rest), List.flatMap_cons]

theorem answer_ne_nil (request : Bytes) : git.answer request ≠ [] := by
  rw [Git.answer]
  split <;> simp

theorem answers_of_line (h : 10 ∉ request) : git.answers (request ++ [10]) = git.answer request := by
  rw [answers_cons h, Git.answers, List.splitOn_nil]
  exact List.append_nil _

/-! ## One answer -/

theorem readLine_append {line : Bytes} (h : 10 ∉ line) (rest : Bytes) :
    readLine (line ++ 10 :: rest) = (line ++ [10], rest) := by
  have hplain : ∀ b ∈ line, decide (b ≠ 10) = true := fun b hb => decide_eq_true fun heq => h (heq ▸ hb)
  rw [readLine, List.dropWhile_append_of_pos hplain, List.dropWhile_cons_of_neg (by decide),
    List.takeWhile_append_of_pos hplain, List.takeWhile_cons_of_neg (by decide), List.append_nil]

/-- A word of the header: neither a letter `s` nor white space is in it. -/
def Plain (word : Text) : Prop := word ≠ [] ∧ ∀ c ∈ word, c ≠ 's' ∧ isAsciiSpace c.toNat = false

theorem plain_of_all {word : Text} (hne : word ≠ []) (h : word.all fun c => c ≠ 's' && !isAsciiSpace c.toNat) :
    Plain word := by
  refine ⟨hne, fun c hc => ?_⟩
  simpa using List.all_eq_true.mp h c hc

theorem plain_name (object : GitObject) : Plain object.name := by
  have hdigits : hexDigits.all fun c => c ≠ 's' && !isAsciiSpace c.toNat := by decide
  exact plain_of_all object.named (List.all_eq_true.mpr fun c hc => List.all_eq_true.mp hdigits c (object.hex c hc))

theorem plain_kind (kind : ObjectKind) : Plain kind.text := by
  cases kind <;> exact plain_of_all (by decide) (by decide)

theorem plain_toDigits (n : ℕ) : Plain (Nat.toDigits 10 n) := by
  refine ⟨Nat.toDigits_ne_nil, fun c hc => ?_⟩
  have hdigit : c.isDigit = true := Nat.isDigit_of_mem_toDigits (by omega) (by omega) hc
  constructor
  · rintro rfl
    exact absurd hdigit (by decide)
  · simp only [Char.isDigit, Bool.and_eq_true, decide_eq_true_eq, UInt32.le_iff_toNat_le] at hdigit
    have hlow : 48 ≤ c.toNat := hdigit.1
    rw [isAsciiSpace, decide_eq_false_iff_not]
    omega

theorem Plain.not_mem {word : Text} (h : Plain word) : 10 ∉ ascii word ∧ 115 ∉ ascii word := by
  constructor
  · intro hmem
    obtain ⟨c, hc, heq⟩ := List.mem_map.mp hmem
    have hspace := (h.2 c hc).2
    rw [heq] at hspace
    cases hspace
  · intro hmem
    obtain ⟨c, hc, heq⟩ := List.mem_map.mp hmem
    exact (h.2 c hc).1 (Char.toNat_inj.mp heq)

theorem header_eq (object : GitObject) : object.header = ascii object.name ++ 32 :: (ascii object.kind.text ++
    32 :: ascii (Nat.toDigits 10 object.content.length)) := by
  simp [GitObject.header, ascii]

theorem not_mem_header (object : GitObject) : 10 ∉ object.header ∧ 115 ∉ object.header := by
  obtain ⟨hname, hname'⟩ := (plain_name object).not_mem
  obtain ⟨hkind, hkind'⟩ := (plain_kind object.kind).not_mem
  obtain ⟨hsize, hsize'⟩ := (plain_toDigits object.content.length).not_mem
  rw [header_eq]
  constructor <;> simp [*]

theorem splitWords_word {word : Text} (h : Plain word) {sep : ℕ} (hsep : isAsciiSpace sep = true) (rest : Bytes) :
    splitWords (ascii word ++ sep :: rest) = ascii word :: splitWords rest := by
  have hplain : ∀ b ∈ ascii word, isAsciiSpace b = false := by
    intro b hb
    obtain ⟨c, hc, rfl⟩ := List.mem_map.mp hb
    exact (h.2 c hc).2
  have hne : ascii word ≠ [] := fun hnil => h.1 (List.map_eq_nil_iff.mp hnil)
  rw [splitWords, splitWords, List.splitOnP_append_cons_of_forall_mem hplain sep hsep, List.filter_cons,
    if_pos (decide_eq_true hne)]

theorem splitWords_header (object : GitObject) : splitWords (object.header ++ [10]) =
    [ascii object.name, ascii object.kind.text, ascii (Nat.toDigits 10 object.content.length)] := by
  rw [header_eq, List.append_assoc, List.cons_append, List.append_assoc, List.cons_append,
    splitWords_word (plain_name object) (by decide), splitWords_word (plain_kind object.kind) (by decide),
    splitWords_word (plain_toDigits _) (by decide)]
  rfl

theorem intOf_toDigits (n : ℕ) : intOf (ascii (Nat.toDigits 10 n)) = some n := by
  have htext : (ascii (Nat.toDigits 10 n)).map Char.ofNat = Nat.toDigits 10 n := by
    rw [ascii, List.map_map]
    exact List.map_id'' (fun c => Char.ofNat_toNat c) _
  have hdigits : (Nat.toDigits 10 n).all Char.isDigit = true :=
    List.all_eq_true.mpr fun c hc => Nat.isDigit_of_mem_toDigits (by omega) (by omega) hc
  rw [intOf, htext, if_pos ⟨Nat.toDigits_ne_nil, hdigits⟩, Nat.ofDigitChars_ten_toDigits]

theorem readBlob_answer {path : Text} {unread : Bytes} (hline : 10 ∉ request)
    (h : unread ++ git.answers (revision path ++ [10]) = git.answer request ++ rest) :
    git.readBlob (some unread) path = ((git.resolve request).bind GitObject.shown, some rest) := by
  rw [Git.readBlob, h, Git.answer]
  cases hobject : git.resolve request with
  | none =>
    have hmissing : ascii "missing".toList <:+: request ++ ascii " missing".toList ++ [10] :=
      ⟨request ++ [32], [10], by simp [ascii]⟩
    have hends : 10 ∉ request ++ ascii " missing".toList := by simp [hline, ascii]
    simp only [List.append_assoc (request ++ ascii " missing".toList), List.singleton_append, readLine_append hends]
    rw [if_pos (.inr hmissing)]
    rfl
  | some object =>
    obtain ⟨hends, hs⟩ := not_mem_header object
    have hmissing : ¬ ascii "missing".toList <:+: object.header ++ [10] := by
      intro hinfix
      have hmem : 115 ∈ object.header ++ [10] := hinfix.subset (by decide)
      simp [hs] at hmem
    simp only [List.append_assoc, List.cons_append, readLine_append hends]
    rw [if_neg (not_or.mpr ⟨List.append_ne_nil_of_right_ne_nil _ (List.cons_ne_nil 10 []), hmissing⟩)]
    simp only [splitWords_header, intOf_toDigits, List.take_left, List.drop_left, List.drop_one, List.tail_cons,
      List.nil_append, Option.bind_some]
    rw [GitObject.shown]
    by_cases hsize : maxFileSizeBytes < object.content.length
    · rw [if_pos hsize, if_pos hsize, ite_self]
    · rw [if_neg hsize, if_neg hsize]
      split <;> rfl

theorem readGitIndexBlob_eq (path : Text) :
    git.readGitIndexBlob path = (git.resolve (revision path)).bind GitObject.shown := by
  rw [Git.readGitIndexBlob]
  cases git.resolve (revision path) <;> rfl

theorem readBlob_of_line {path : Text} (h : '\n' ∉ path) :
    git.readBlob (some []) path = (git.readGitIndexBlob path, some []) := by
  have hline : 10 ∉ revision path := fun hmem => h (newline_mem_revision.mp hmem)
  have hanswer : [] ++ git.answers (revision path ++ [10]) = git.answer (revision path) ++ [] := by
    rw [List.nil_append, List.append_nil, answers_of_line hline]
  rw [readBlob_answer hline hanswer, readGitIndexBlob_eq]

theorem unread_of_lines {path : Text} (h : '\n' ∈ path) : (git.readBlob (some []) path).2 ≠ some [] := by
  obtain ⟨first, more, hrevision, hline⟩ := List.eq_append_cons_of_mem (newline_mem_revision.mpr h)
  have hend : 10 ∈ more ++ [10] := List.mem_append_right _ List.mem_cons_self
  obtain ⟨second, rest, hsecond, hline'⟩ := List.eq_append_cons_of_mem hend
  have hanswers : [] ++ git.answers (revision path ++ [10]) =
      git.answer first ++ (git.answer second ++ git.answers rest) := by
    rw [List.nil_append, hrevision, List.append_assoc, List.cons_append, answers_cons hline, hsecond,
      answers_cons hline']
  rw [readBlob_answer hline hanswers]
  intro hnil
  exact List.append_ne_nil_of_left_ne_nil (answer_ne_nil second) _ (Option.some.inj hnil)

/-- A batched read of each path answers as the single read does and leaves nothing unread just when no path holds a
line feed. -/
theorem readBlobs_eq_iff (git : Git) (paths : List Text) :
    git.readBlobs (some []) paths = paths.map (fun path => (git.readGitIndexBlob path, some [])) ↔
      ∀ path ∈ paths, '\n' ∉ path := by
  induction paths with
  | nil => simp [Git.readBlobs]
  | cons path paths ih =>
    rw [Git.readBlobs, List.map_cons, List.cons.injEq, List.forall_mem_cons]
    constructor
    · rintro ⟨hhead, htail⟩
      have hnewline : '\n' ∉ path := fun hmem => unread_of_lines hmem (congrArg Prod.snd hhead)
      rw [readBlob_of_line hnewline] at htail
      exact ⟨hnewline, ih.mp htail⟩
    · rintro ⟨hnewline, hrest⟩
      rw [readBlob_of_line hnewline]
      exact ⟨rfl, ih.mpr hrest⟩

def emptyGit : Git := ⟨fun _ => none, fun _ _ => rfl⟩

/-- The answer to the second line of the path stays in the output. -/
theorem line_feed_misaligns : ¬ ∀ (git : Git) (paths : List Text),
    git.readBlobs (some []) paths = paths.map fun path => (git.readGitIndexBlob path, some []) := by
  intro hall
  have hhead := (List.cons.inj (hall emptyGit [['a', '\n', 'b']])).1
  exact unread_of_lines (List.mem_cons_of_mem _ List.mem_cons_self) (congrArg Prod.snd hhead)

end

end TimeCodeSecurity.Staged
