import TimeCodeSecurity.Foundations.VersionText
import TimeCodeSecurity.Sca.Matcher
import TimeCodeSecurity.Sca.OverlapSoundness

/-! # Poetry's caret and tilde

`normalize_poetry_specifiers` rewrites `^v` and `~v` into a range whose upper end is read off two
splittings of the text: the numeric components of the base version and the pieces of the text between
full stops. `RangeExact` is what Poetry prescribes, with the bump taken from the release itself. The
range is exact where both splittings say the same about the component to raise, and the epoch is zero
(`poetry_exact_iff`).
-/
namespace TimeCodeSecurity.Sca
open Pep440
set_option autoImplicit false

inductive PoetryOperator
  | caret | tilde
deriving DecidableEq, Repr

def PoetryOperator.symbol : PoetryOperator → String
  | .caret => "^"
  | .tilde => "~"

def caretBump : List ℕ → List ℕ
  | [] => []
  | [n] => [n + 1]
  | n :: ns => if n = 0 then 0 :: caretBump ns else [n + 1]

def tildeBump : List ℕ → List ℕ
  | [] => []
  | [n] => [n + 1]
  | n :: m :: _ => [n, m + 1]

def PoetryOperator.bump : PoetryOperator → List ℕ → List ℕ
  | .caret => caretBump
  | .tilde => tildeBump

def bumpVersion (op : PoetryOperator) (v : Version) : Version := { v.base with release := op.bump v.release }

def Version.IsFinal (w : Version) : Prop := w.pre = none ∧ w.post = none ∧ w.dev = none ∧ w.label = none

/-- The specifier text `^t` or `~t`. -/
def poetryText (op : PoetryOperator) (t : String) : String := op.symbol ++ t

/-- The range admits the version itself, and of the final releases those between it and the bump. -/
def RangeExact (allowPre : SpecifierSet → Bool) (op : PoetryOperator) (t : String) (v : Version) : Prop :=
  ∃ S, parseSpecifierSet (normalizePoetrySpecifiers (poetryText op t)) = some S ∧
    SpecifierSet.contains allowPre S v = true ∧
    ∀ w, IsVersion w → Version.IsFinal w → (SpecifierSet.contains allowPre S w = true ↔
      v.key ≤ w.key ∧ w.epoch = v.epoch ∧ w.key < (bumpVersion op v).key)

/-- Clauses of the standard around it keep their meaning. -/
def ClausesKept (op : PoetryOperator) (t : String) : Prop :=
  ∀ (before after : List String) (cs ds : SpecifierSet),
    (∀ p ∈ before ++ after, ',' ∉ p.toList) →
    before.mapM (fun p => parseClause p.toList) = some cs →
    after.mapM (fun p => parseClause p.toList) = some ds →
    parseSpecifierSet (normalizePoetrySpecifiers (",".intercalate (before ++ poetryText op t :: after))) =
      (parseSpecifierSet (normalizePoetrySpecifiers (poetryText op t))).map fun S => cs ++ S ++ ds

/-- A set with a clause that names a pre-release lets pre-releases in. -/
def AllowsNamed (allowPre : SpecifierSet → Bool) : Prop :=
  ∀ S : SpecifierSet, (∃ c ∈ S, c.operator = .ge ∧ (parse c.version).any Version.isPrerelease = true) →
    allowPre S = true

def CaretAgrees (pieces : ℕ) : List ℕ → Prop
  | [] => False
  | [maj] => 0 < maj ∨ pieces = 1
  | [maj, mnr] => 0 < maj ∨ (if 0 < mnr then pieces ≠ 1 else pieces = 2)
  | maj :: mnr :: patch :: more =>
    0 < maj ∨ (pieces ≠ 1 ∧ (0 < mnr ∨ (pieces ≠ 2 ∧ (0 < patch ∨ more = []))))

def TildeAgrees (pieces : ℕ) : List ℕ → Prop
  | [] => False
  | [_] => pieces ≤ 1
  | _ :: _ :: _ => 1 < pieces

def PoetryOperator.Agrees : PoetryOperator → ℕ → List ℕ → Prop
  | .caret => CaretAgrees
  | .tilde => TildeAgrees

/-- Epoch zero, no local label, and agreement about the component to raise. -/
def PoetryReadable (op : PoetryOperator) (t : String) (v : Version) : Prop :=
  v.epoch = 0 ∧ v.label = none ∧ op.Agrees (rawPartCount (stripText t)) v.release

/-! ## Raised releases -/

/-- Component `i` raised by one, what follows dropped. -/
def raiseAt (r : List ℕ) (i : ℕ) : List ℕ := ((List.range i).map fun j => r.getD j 0) ++ [r.getD i 0 + 1]

theorem getD_raiseAt_lt (r : List ℕ) {i j : ℕ} (h : j < i) : (raiseAt r i).getD j 0 = r.getD j 0 := by
  have hlen : j < ((List.range i).map fun k => r.getD k 0).length := by simpa using h
  rw [raiseAt, List.getD_append _ _ _ _ hlen, List.getD_eq_getElem _ _ hlen]
  simp

theorem getD_raiseAt_self (r : List ℕ) (i : ℕ) : (raiseAt r i).getD i 0 = r.getD i 0 + 1 := by
  rw [raiseAt, List.getD_append_right _ _ _ _ (by simp)]
  simp

theorem dropTrailingZeros_cons (n : ℕ) (ns : List ℕ) : dropTrailingZeros (n :: ns) =
    if n = 0 ∧ dropTrailingZeros ns = [] then [] else n :: dropTrailingZeros ns := by
  cases n with
  | zero => cases h : dropTrailingZeros ns <;> simp [dropTrailingZeros, h]
  | succ n => simp [dropTrailingZeros]

theorem dropTrailingZeros_lt {a b : List ℕ} {i : ℕ} (hsame : ∀ j < i, a.getD j 0 = b.getD j 0)
    (hlt : a.getD i 0 < b.getD i 0) : dropTrailingZeros a < dropTrailingZeros b := by
  induction i generalizing a b with
  | zero =>
    cases b with
    | nil => simp at hlt
    | cons m bs =>
      have hm : m ≠ 0 := by
        intro h
        simp [h] at hlt
      rw [dropTrailingZeros_cons m, if_neg fun h => hm h.1]
      cases a with
      | nil => exact List.nil_lt_cons _ _
      | cons n as =>
        rw [dropTrailingZeros_cons n]
        split
        · exact List.nil_lt_cons _ _
        · rw [List.cons_lt_cons_iff]
          exact .inl (by simpa using hlt)
  | succ i ih =>
    have htail : dropTrailingZeros a.tail < dropTrailingZeros b.tail := by
      refine ih (fun j hj => ?_) ?_
      · simpa [List.getD_eq_getElem?_getD] using hsame (j + 1) (by omega)
      · simpa [List.getD_eq_getElem?_getD] using hlt
    have hhead : a.getD 0 0 = b.getD 0 0 := hsame 0 (by omega)
    cases b with
    | nil => simp [dropTrailingZeros] at htail
    | cons m bs =>
      have hne : dropTrailingZeros bs ≠ [] := by
        intro h
        simp [h] at htail
      rw [dropTrailingZeros_cons m, if_neg fun h => hne h.2]
      cases a with
      | nil => exact List.nil_lt_cons _ _
      | cons n as =>
        obtain rfl : n = m := by simpa using hhead
        rw [dropTrailingZeros_cons n]
        split
        · exact List.nil_lt_cons _ _
        · rw [List.cons_lt_cons_iff]
          exact .inr ⟨rfl, by simpa using htail⟩

theorem lt_raiseAt (r : List ℕ) (i : ℕ) : dropTrailingZeros r < dropTrailingZeros (raiseAt r i) :=
  dropTrailingZeros_lt (fun _ hj => (getD_raiseAt_lt r hj).symm) (by rw [getD_raiseAt_self]; omega)

theorem raiseAt_lt_raiseAt (r : List ℕ) {i j : ℕ} (h : i < j) :
    dropTrailingZeros (raiseAt r j) < dropTrailingZeros (raiseAt r i) := by
  refine dropTrailingZeros_lt (i := i) (fun k hk => ?_) ?_
  · rw [getD_raiseAt_lt r hk, getD_raiseAt_lt r (hk.trans h)]
  · rw [getD_raiseAt_lt r h, getD_raiseAt_self]
    omega

def caretIndex : List ℕ → ℕ
  | [] => 0
  | [_] => 0
  | n :: ns => if n = 0 then caretIndex ns + 1 else 0

def tildeIndex : List ℕ → ℕ
  | _ :: _ :: _ => 1
  | _ => 0

def PoetryOperator.index : PoetryOperator → List ℕ → ℕ
  | .caret => caretIndex
  | .tilde => tildeIndex

theorem raiseAt_succ (n : ℕ) (ns : List ℕ) (i : ℕ) : raiseAt (n :: ns) (i + 1) = n :: raiseAt ns i := by
  simp [raiseAt, List.range_succ_eq_map]

theorem caretBump_eq (n : ℕ) (ns : List ℕ) : caretBump (n :: ns) = raiseAt (n :: ns) (caretIndex (n :: ns)) := by
  induction ns generalizing n with
  | nil => simp [caretBump, caretIndex, raiseAt]
  | cons m ns ih =>
    unfold caretBump caretIndex
    split
    next h => rw [raiseAt_succ, ← ih m, h]
    next => simp [raiseAt]

theorem bump_eq (op : PoetryOperator) (n : ℕ) (ns : List ℕ) :
    op.bump (n :: ns) = raiseAt (n :: ns) (op.index (n :: ns)) := by
  cases op with
  | caret => exact caretBump_eq n ns
  | tilde => cases ns <;> simp [PoetryOperator.bump, PoetryOperator.index, tildeBump, tildeIndex, raiseAt]

def codeIndex (op : PoetryOperator) (pieces : ℕ) (r : List ℕ) : ℕ :=
  match op with
  | .caret =>
    if 0 < r.getD 0 0 then 0 else if pieces = 1 then 0 else if 0 < r.getD 1 0 then 1
    else if pieces = 2 then 1 else 2
  | .tilde => if pieces ≤ 1 then 0 else 1

theorem index_eq_iff (op : PoetryOperator) (pieces n : ℕ) (ns : List ℕ) :
    codeIndex op pieces (n :: ns) = op.index (n :: ns) ↔ op.Agrees pieces (n :: ns) := by
  cases op with
  | caret =>
    unfold PoetryOperator.Agrees PoetryOperator.index codeIndex
    match ns with
    | [] => grind [caretIndex, CaretAgrees]
    | [m] => grind [caretIndex, CaretAgrees]
    | m :: p :: more => cases more <;> grind [caretIndex, CaretAgrees]
  | tilde =>
    unfold PoetryOperator.Agrees PoetryOperator.index codeIndex
    cases ns with
    | nil => simp [tildeIndex, TildeAgrees]
    | cons m ns => simp [tildeIndex, TildeAgrees]

theorem key_lt_of_release {v w : Version} (he : v.epoch = w.epoch)
    (h : dropTrailingZeros v.release < dropTrailingZeros w.release) : v.key < w.key := by
  simp only [Version.key, Prod.Lex.toLex_lt_toLex]
  exact .inr ⟨he, .inl h⟩

theorem final_key_congr {a b : List ℕ} (h : dropTrailingZeros a = dropTrailingZeros b) :
    (Version.final a).key = (Version.final b).key := by
  simp [Version.key, Version.final, Version.preKey, Version.postKey, Version.devKey, Version.labelKey, h]

theorem epoch_le_of_key_le {v w : Version} (h : v.key ≤ w.key) : v.epoch ≤ w.epoch := by
  simp only [Version.key, Prod.Lex.toLex_le_toLex] at h
  rcases h with h | ⟨h, -⟩
  · exact h.le
  · exact h.le

def PoetryOperator.high : PoetryOperator → ℕ → List ℕ → Option String
  | .caret => caretHigh
  | .tilde => tildeHigh

theorem high_eq (op : PoetryOperator) (pieces n : ℕ) (ns : List ℕ) :
    ∃ a as, op.high pieces (n :: ns) = some (showDottedText (a :: as)) ∧
      dropTrailingZeros (a :: as) = dropTrailingZeros (raiseAt (n :: ns) (codeIndex op pieces (n :: ns))) := by
  cases op with
  | caret =>
    simp only [PoetryOperator.high, caretHigh, codeIndex, List.getD_cons_zero, List.getD_cons_succ]
    split
    · exact ⟨_, _, rfl, by simp [raiseAt, dropTrailingZeros]⟩
    next hmaj =>
      obtain rfl : n = 0 := by omega
      split
      · exact ⟨_, _, rfl, by simp [raiseAt, dropTrailingZeros]⟩
      · split
        · exact ⟨_, _, rfl, by simp [raiseAt, dropTrailingZeros]⟩
        next hmnr =>
          have hzero : ns.getD 0 0 = 0 := by omega
          split
          · refine ⟨_, _, rfl, ?_⟩
            have hraise : raiseAt (0 :: ns) 1 = [0, ns.getD 0 0 + 1] := by simp [raiseAt]
            rw [hraise, hzero]
            rfl
          · refine ⟨_, _, rfl, ?_⟩
            have hraise : raiseAt (0 :: ns) 2 = [0, ns.getD 0 0, ns.getD 1 0 + 1] := by
              simp [raiseAt, List.range_succ]
            rw [hraise, hzero]
  | tilde =>
    simp only [PoetryOperator.high, tildeHigh, codeIndex]
    split
    · exact ⟨_, _, rfl, by simp [raiseAt, dropTrailingZeros]⟩
    · exact ⟨_, _, rfl, by simp [raiseAt, dropTrailingZeros]⟩

/-! ## The rewritten text -/

theorem splitOn_showDotted (n : ℕ) (ns : List ℕ) :
    (showDotted (n :: ns)).splitOn '.' = (n :: ns).map showNat := by
  refine List.splitOn_intercalate '.' ?_ (by simp)
  intro piece hpiece hdot
  obtain ⟨m, -, rfl⟩ := List.mem_map.mp hpiece
  exact absurd (isDigit_of_mem_showNat hdot) (by decide)

theorem digitParts_showDotted (n : ℕ) (ns : List ℕ) : digitParts (showDotted (n :: ns)) = n :: ns := by
  have hall : ∀ piece ∈ (n :: ns).map showNat, (decide (piece ≠ []) && piece.all Char.isDigit) = true := by
    intro piece hpiece
    obtain ⟨m, -, rfl⟩ := List.mem_map.mp hpiece
    obtain ⟨d, ds, h, -⟩ := showNat_cons m
    simp only [Bool.and_eq_true, decide_eq_true_eq]
    exact ⟨by simp [h], List.all_eq_true.mpr fun c hc => isDigit_of_mem_showNat hc⟩
  rw [digitParts, splitOn_showDotted, List.filter_eq_self.mpr (by simpa using hall), List.map_map]
  exact (List.map_congr_left fun m _ => readNat_showNat m).trans (List.map_id' _)

structure Trimmed (T : List Char) (v : Version) : Prop where
  parses : parse (String.ofList T) = some v
  head : ∀ c ∈ T.head?, isSpace c = false
  last : ∀ c ∈ T.getLast?, isSpace c = false

namespace Trimmed

variable {T : List Char} {v : Version} (h : Trimmed T v)
include h

theorem not_mem {c : Char} (hspace : isSpace c = false) (hc : ¬ (Spelled c.toLower ∨ c.toLower = '+')) :
    c ∉ T := by
  intro hmem
  have := mem_of_parse h.parses (c := c) (by simpa using hmem)
  simp [hspace, hc] at this

theorem ne_nil : T ≠ [] := by
  intro hnil
  have := h.parses
  rw [hnil] at this
  cases this

theorem strip_eq : strip T = T := by
  simpa using @strip_of_pads [] T [] (by simp) (by simp) h.head h.last h.ne_nil

theorem parseClause_ge : parseClause ('>' :: '=' :: T) =
    if v.label = none then some ⟨.ge, String.ofList T⟩ else none := by
  have hstrip : strip ('>' :: '=' :: T) = '>' :: '=' :: T := by
    refine strip_eq_self (by decide) fun c hc => h.last c ?_
    obtain ⟨d, tail, hT⟩ := List.exists_cons_of_ne_nil h.ne_nil
    simpa [hT, List.getLast?_cons_cons] using hc
  have hkey : keyword operatorWords ('>' :: '=' :: T) = some (.ge, T) := by
    simp [keyword, operatorWords, List.dropPrefix?]
  rw [parseClause, hstrip, hkey]
  simp [h.strip_eq, Clause.wellFormed, h.parses]

end Trimmed

theorem showDotted_head (a : ℕ) (as : List ℕ) :
    ∃ d tail, showDotted (a :: as) = d :: tail ∧ d.isDigit = true := by
  obtain ⟨d, ds, h, hd, -⟩ := showNat_cons a
  exact ⟨d, ds ++ dottedTail as, by rw [showDotted_cons, h, List.cons_append], hd⟩

theorem parseClause_lt (a : ℕ) (as : List ℕ) : parseClause ('<' :: showDotted (a :: as)) =
    some ⟨.lt, showDottedText (a :: as)⟩ := by
  obtain ⟨d, tail, hcs, hd⟩ := showDotted_head a as
  have hspace : ∀ c ∈ showDotted (a :: as), isSpace c = false := by
    intro c hc
    rcases mem_showDotted hc with rfl | hc
    · decide
    · exact isSpace_of_isAlphanum (isAlphanum_of_isDigit hc)
  have hlast : ∀ c ∈ (d :: tail).getLast?, isSpace c = false := fun c hc =>
    hspace c (hcs ▸ List.mem_of_getLast? hc)
  have hstrip : strip ('<' :: d :: tail) = '<' :: d :: tail :=
    strip_eq_self (by decide) fun c hc => hlast c (by simpa [List.getLast?_cons_cons] using hc)
  have heq : d ≠ '=' := by
    intro h
    rw [h] at hd
    exact absurd hd (by decide)
  have hkey : keyword operatorWords ('<' :: d :: tail) = some (.lt, d :: tail) := by
    simp [keyword, operatorWords, List.dropPrefix?, heq]
  have htail : strip (d :: tail) = d :: tail :=
    strip_eq_self (isSpace_of_isAlphanum (isAlphanum_of_isDigit hd)) hlast
  have hparse := parse_showDotted a as
  rw [hcs] at hparse
  rw [showDottedText, hcs, parseClause, hstrip, hkey]
  simp only [htail, Clause.wellFormed, hparse]
  rfl

theorem parse_range {T : List Char} {v : Version} (h : Trimmed T v) (a : ℕ) (as : List ℕ) :
    parseSpecifierSet (">=" ++ String.ofList T ++ ",<" ++ showDottedText (a :: as)) =
      if v.label = none then some [⟨.ge, String.ofList T⟩, ⟨.lt, showDottedText (a :: as)⟩] else none := by
  have hlist : (">=" ++ String.ofList T ++ ",<" ++ showDottedText (a :: as)).toList =
      ('>' :: '=' :: T) ++ ',' :: ('<' :: showDotted (a :: as)) := by
    simp [showDottedText]
  have hT : ',' ∉ '>' :: '=' :: T := by
    have := h.not_mem (c := ',') (by decide) (by decide)
    simp [this]
  have hd : ',' ∉ '<' :: showDotted (a :: as) := by
    simp only [List.mem_cons, not_or]
    exact ⟨by decide, fun hmem => absurd (mem_showDotted hmem) (by decide)⟩
  have hfront : strip ('>' :: '=' :: T) ≠ [] := List.ne_nil_of_mem (mem_strip List.mem_cons_self (by decide))
  have hback : strip ('<' :: showDotted (a :: as)) ≠ [] :=
    List.ne_nil_of_mem (mem_strip List.mem_cons_self (by decide))
  rw [parseSpecifierSet, hlist, List.splitOn_append_cons_self_of_not_mem hT,
    List.splitOn_eq_singleton hd]
  simp only [List.filter_cons, hfront, hback, ne_eq, not_false_eq_true, decide_true, if_true,
    List.filter_nil, List.mapM_cons, List.mapM_nil, h.parseClause_ge, parseClause_lt]
  split <;> rfl

/-! ## What the rewriting makes of one clause -/

theorem strip_subset (cs : List Char) : strip cs ⊆ cs := fun _ hc =>
  (List.dropWhile_suffix isSpace).subset ((List.rdropWhile_prefix isSpace _).subset hc)

theorem normalize_of_no_comma {p : String} (h : ',' ∉ p.toList) : normalizePoetrySpecifiers p =
    if strip p.toList = [] then "" else normalizePoetryClause (strip p.toList) := by
  rw [normalizePoetrySpecifiers, List.splitOn_eq_singleton h]
  by_cases hblank : strip p.toList = []
  · simp [hblank]
  · simp [hblank]

theorem trimmed_of_safeParse {t : String} {v : Version} (h : safeParseVersion t = some v) :
    Trimmed (strip t.toList) v := by
  obtain ⟨pre, post, -, -, -, hhead, hlast⟩ := exists_pads t.toList
  refine ⟨?_, hhead, hlast⟩
  unfold safeParseVersion at h
  split at h
  · cases h
  · exact h

def PoetryOperator.char : PoetryOperator → Char
  | .caret => '^'
  | .tilde => '~'

section
variable (op : PoetryOperator) {t : String} {v : Version} (h : safeParseVersion t = some v)
include h

theorem comma_not_mem_poetryText : ',' ∉ (poetryText op t).toList := by
  have ht : ',' ∉ t.toList := by
    intro hmem
    have htrim := trimmed_of_safeParse h
    exact htrim.not_mem (by decide) (by decide) (mem_strip hmem (by decide))
  cases op <;> simpa [poetryText, PoetryOperator.symbol] using ht

theorem strip_poetryText : ∃ pre, (∀ c ∈ pre, isSpace c = true) ∧
    strip (poetryText op t).toList = op.char :: (pre ++ strip t.toList) := by
  obtain ⟨pre, post, ht, hpre, hpost, -, -⟩ := exists_pads t.toList
  have htrim := trimmed_of_safeParse h
  refine ⟨pre, hpre, ?_⟩
  have hlist : (poetryText op t).toList = [] ++ (op.char :: (pre ++ strip t.toList) ++ post) := by
    have happ : (poetryText op t).toList = op.char :: t.toList := by
      cases op <;> simp [poetryText, PoetryOperator.symbol, PoetryOperator.char]
    rw [happ, List.nil_append, List.cons_append, List.append_assoc, ← ht]
  rw [hlist]
  refine strip_of_pads (by simp) hpost (fun c hc => ?_) (fun c hc => htrim.last c ?_) (by simp)
  · obtain rfl : op.char = c := by simpa using hc
    cases op <;> decide
  · obtain ⟨d, tail, hT⟩ := List.exists_cons_of_ne_nil htrim.ne_nil
    rw [hT] at hc ⊢
    rw [← List.cons_append, List.getLast?_append] at hc
    simpa using hc

omit op in
theorem equals_not_behind {pre : List Char} (hpre : ∀ c ∈ pre, isSpace c = true) (tail : List Char) :
    pre ++ strip t.toList ≠ '=' :: tail := by
  intro hcons
  have hmem : '=' ∈ pre ++ strip t.toList := by simp [hcons]
  rcases List.mem_append.mp hmem with hmem | hmem
  · exact absurd (hpre _ hmem) (by decide)
  · exact (trimmed_of_safeParse h).not_mem (by decide) (by decide) hmem

theorem normalizePoetryClause_eq {pre : List Char} (hpre : ∀ c ∈ pre, isSpace c = true) :
    normalizePoetryClause (op.char :: (pre ++ strip t.toList)) =
      (normalizePoetry op.high (stripText t)).getD (String.ofList (op.char :: (pre ++ strip t.toList))) := by
  have htrim := trimmed_of_safeParse h
  have hstrip : strip (pre ++ strip t.toList) = strip t.toList := by
    simpa using @strip_of_pads pre (strip t.toList) [] hpre (by simp) htrim.head htrim.last htrim.ne_nil
  cases op with
  | caret =>
    simp only [normalizePoetryClause, PoetryOperator.char, List.cons.injEq, Char.reduceEq, false_and,
      decide_false, Bool.or_self, Bool.false_eq_true, if_false, hstrip]
    rfl
  | tilde =>
    have hequals := equals_not_behind h hpre
    simp only [normalizePoetryClause, PoetryOperator.char, List.cons.injEq, Char.reduceEq, false_and,
      decide_false, Bool.or_self, Bool.false_eq_true, if_false, hstrip]
    rfl

theorem parse_unrewritten {pre : List Char} (hpre : ∀ c ∈ pre, isSpace c = true)
    (hstrip : strip (poetryText op t).toList = op.char :: (pre ++ strip t.toList)) :
    parseSpecifierSet (String.ofList (op.char :: (pre ++ strip t.toList))) = none := by
  have htwice : strip (op.char :: (pre ++ strip t.toList)) = op.char :: (pre ++ strip t.toList) := by
    rw [← hstrip, strip_strip]
  have hcomma : ',' ∉ op.char :: (pre ++ strip t.toList) := by
    rw [← hstrip]
    exact fun hmem => comma_not_mem_poetryText op h (strip_subset _ hmem)
  have hequals := equals_not_behind h hpre
  have hkey : keyword operatorWords (op.char :: (pre ++ strip t.toList)) = none := by
    cases op with
    | caret => simp [keyword, operatorWords, PoetryOperator.char, List.dropPrefix?]
    | tilde =>
      revert hequals
      cases pre ++ strip t.toList with
      | nil => exact fun _ => by decide
      | cons c cs =>
        intro hequals
        have hc : c ≠ '=' := fun heq => hequals cs (by rw [heq])
        simp [keyword, operatorWords, PoetryOperator.char, List.dropPrefix?, hc]
  have hclause : parseClause (op.char :: (pre ++ strip t.toList)) = none := by
    rw [parseClause, htwice, hkey]
  rw [parseSpecifierSet, String.toList_ofList, List.splitOn_eq_singleton hcomma]
  simp [htwice, hclause]

theorem parse_poetryText : parseSpecifierSet (normalizePoetrySpecifiers (poetryText op t)) =
    (op.high (rawPartCount (stripText t)) (digitParts v.baseVersion)).bind fun high =>
      if v.label = none then some [⟨.ge, stripText t⟩, ⟨.lt, high⟩] else none := by
  have htrim := trimmed_of_safeParse h
  obtain ⟨pre, hpre, hstrip⟩ := strip_poetryText op h
  have hsafe : safeParseVersion (stripText t) = some v := by
    have := safeParseVersion_stripText htrim.parses
    rwa [stripText, String.toList_ofList, strip_strip] at this
  rw [normalize_of_no_comma (comma_not_mem_poetryText op h), hstrip, if_neg (by simp),
    normalizePoetryClause_eq op h hpre, normalizePoetry, hsafe, Option.bind_some]
  cases hdigits : digitParts v.baseVersion with
  | nil =>
    have hnone : op.high (rawPartCount (stripText t)) [] = none := by cases op <;> rfl
    rw [hnone]
    exact parse_unrewritten op h hpre hstrip
  | cons n ns =>
    obtain ⟨a, as, hhigh, -⟩ := high_eq op (rawPartCount (stripText t)) n ns
    rw [hhigh]
    exact parse_range htrim a as

end

/-! ## Compound specifiers -/

def readPieces (pieces : List (List Char)) : Option SpecifierSet :=
  (pieces.filter fun cs => strip cs ≠ []).mapM parseClause

theorem readPieces_append (xs ys : List (List Char)) :
    readPieces (xs ++ ys) = (readPieces xs).bind fun a => (readPieces ys).map (a ++ ·) := by
  rw [readPieces, List.filter_append, List.mapM_append]
  unfold readPieces
  cases (xs.filter fun cs => strip cs ≠ []).mapM parseClause with
  | none => rfl
  | some a => cases (ys.filter fun cs => strip cs ≠ []).mapM parseClause <;> rfl

theorem parseSpecifierSet_eq (s : String) : parseSpecifierSet s = readPieces (s.toList.splitOn ',') := rfl

theorem mapM_flatten_cons (x : String) (xs : List String) :
    ((x :: xs).mapM parseSpecifierSet).map List.flatten = (parseSpecifierSet x).bind fun a =>
      ((xs.mapM parseSpecifierSet).map List.flatten).map (a ++ ·) := by
  rw [List.mapM_cons]
  cases parseSpecifierSet x with
  | none => rfl
  | some a => cases xs.mapM parseSpecifierSet <;> rfl

theorem parse_intercalate (x : String) (xs : List String) :
    parseSpecifierSet (",".intercalate (x :: xs)) =
      ((x :: xs).mapM parseSpecifierSet).map List.flatten := by
  induction xs generalizing x with
  | nil =>
    rw [mapM_flatten_cons]
    cases hx : parseSpecifierSet x <;> simp [hx]
  | cons y ys ih =>
    have hlist : (",".intercalate (x :: y :: ys)).toList = x.toList ++ ',' :: (",".intercalate (y :: ys)).toList := by
      simp [String.intercalate_cons_cons]
    rw [parseSpecifierSet_eq, hlist, List.splitOn_append_cons_self, readPieces_append,
      ← parseSpecifierSet_eq, ← parseSpecifierSet_eq, ih y, ← mapM_flatten_cons]

theorem parse_plain {p : String} (hcomma : ',' ∉ p.toList) {c : Clause} (h : parseClause p.toList = some c) :
    parseSpecifierSet (normalizePoetryClause (strip p.toList)) = some [c] := by
  have hclause : parseClause (strip p.toList) = some c := by
    rw [parseClause, strip_strip]
    exact h
  have hne : strip p.toList ≠ [] := by
    intro hnil
    rw [hnil] at hclause
    cases hclause
  have htext : normalizePoetryClause (strip p.toList) = String.ofList (strip p.toList) := by
    unfold parseClause at h
    revert h hclause
    generalize strip p.toList = X
    intro h hclause
    unfold normalizePoetryClause
    split
    next hstar =>
      have hnone : ∀ Y ∈ [['*'], ['=', '=', '*']], parseClause Y = none := by decide
      rw [hnone X (by simpa using hstar)] at hclause
      cases hclause
    next =>
      split
      next rest _ =>
        have hkey : keyword operatorWords ('^' :: rest) = none := by
          simp [keyword, operatorWords, List.dropPrefix?]
        rw [hkey] at h
        cases h
      next => rfl
      next rest hne _ =>
        have hkey : keyword operatorWords ('~' :: rest) = none := by
          cases rest with
          | nil => decide
          | cons d ds =>
            have hd : d ≠ '=' := fun heq => hne ds (by rw [heq])
            simp [keyword, operatorWords, List.dropPrefix?, hd]
        rw [hkey] at h
        cases h
      next => rfl
  have hnocomma : ',' ∉ strip p.toList := fun hmem => hcomma (strip_subset _ hmem)
  rw [htext, parseSpecifierSet, String.toList_ofList, List.splitOn_eq_singleton hnocomma]
  simp [strip_strip, hne, hclause]

theorem mapM_plain {ps : List String} (hcomma : ∀ p ∈ ps, ',' ∉ p.toList) {cs : SpecifierSet}
    (h : ps.mapM (fun p => parseClause p.toList) = some cs) :
    ps.mapM (fun p => parseSpecifierSet (normalizePoetryClause (strip p.toList))) = some (cs.map fun c => [c]) := by
  induction ps generalizing cs with
  | nil =>
    rw [List.mapM_nil] at h
    cases h
    rfl
  | cons p ps ih =>
    rw [List.mapM_cons] at h
    obtain ⟨c, hc, h⟩ := Option.bind_eq_some_iff.mp h
    obtain ⟨rest, hrest, h⟩ := Option.bind_eq_some_iff.mp h
    cases h
    rw [List.mapM_cons, parse_plain (hcomma p List.mem_cons_self) hc,
      ih (fun q hq => hcomma q (List.mem_cons_of_mem _ hq)) hrest]
    rfl

theorem splitOn_commas {ps : List String} (hcomma : ∀ p ∈ ps, ',' ∉ p.toList) (hne : ps ≠ []) :
    (",".intercalate ps).toList.splitOn ',' = ps.map String.toList := by
  have hlist : (",".intercalate ps).toList = [','].intercalate (ps.map String.toList) := by
    rw [String.toList_intercalate]
    rfl
  rw [hlist]
  refine List.splitOn_intercalate ',' ?_ (by simpa using hne)
  intro l hl
  obtain ⟨p, hp, rfl⟩ := List.mem_map.mp hl
  exact hcomma p hp

theorem normalize_commas {ps : List String} (hcomma : ∀ p ∈ ps, ',' ∉ p.toList)
    (hnonblank : ∀ p ∈ ps, strip p.toList ≠ []) (hne : ps ≠ []) :
    normalizePoetrySpecifiers (",".intercalate ps) =
      ",".intercalate (ps.map fun p => normalizePoetryClause (strip p.toList)) := by
  have hkept : (ps.map fun p => strip p.toList).filter (· ≠ []) = ps.map fun p => strip p.toList := by
    rw [List.filter_eq_self]
    intro l hl
    obtain ⟨p, hp, rfl⟩ := List.mem_map.mp hl
    simpa using hnonblank p hp
  rw [normalizePoetrySpecifiers, splitOn_commas hcomma hne, List.map_map]
  simp only [Function.comp_def, hkept, List.map_map]

theorem strip_ne_nil_of_mapM {ps : List String} {cs : SpecifierSet}
    (h : ps.mapM (fun p => parseClause p.toList) = some cs) : ∀ p ∈ ps, strip p.toList ≠ [] := by
  intro p hp hnil
  obtain ⟨c, -, hc⟩ := Linearization.exists_of_mapM h hp
  rw [parseClause, hnil] at hc
  cases hc

theorem flatten_singles (cs : SpecifierSet) : (cs.map fun c => [c]).flatten = cs := by
  induction cs with
  | nil => rfl
  | cons c cs ih => simp [ih]

theorem clausesKept (op : PoetryOperator) {t : String} {v : Version} (h : safeParseVersion t = some v) :
    ClausesKept op t := by
  intro before after cs ds hcomma hbefore hafter
  have hparts : ∀ p ∈ before ++ poetryText op t :: after, ',' ∉ p.toList := by
    intro p hp
    rcases List.mem_append.mp hp with hp | hp
    · exact hcomma p (List.mem_append_left _ hp)
    · rcases List.mem_cons.mp hp with rfl | hp
      · exact comma_not_mem_poetryText op h
      · exact hcomma p (List.mem_append_right _ hp)
  have hnonblank : ∀ p ∈ before ++ poetryText op t :: after, strip p.toList ≠ [] := by
    intro p hp
    rcases List.mem_append.mp hp with hp | hp
    · exact strip_ne_nil_of_mapM hbefore p hp
    · rcases List.mem_cons.mp hp with rfl | hp
      · obtain ⟨pre, -, hstrip⟩ := strip_poetryText op h
        simp [hstrip]
      · exact strip_ne_nil_of_mapM hafter p hp
  have hown : parseSpecifierSet (normalizePoetrySpecifiers (poetryText op t)) =
      parseSpecifierSet (normalizePoetryClause (strip (poetryText op t).toList)) := by
    rw [normalize_of_no_comma (comma_not_mem_poetryText op h),
      if_neg (hnonblank _ (List.mem_append_right _ List.mem_cons_self))]
  obtain ⟨x, xs, hx⟩ : ∃ x xs, (before ++ poetryText op t :: after).map
      (fun p => normalizePoetryClause (strip p.toList)) = x :: xs :=
    List.exists_cons_of_ne_nil (by simp)
  rw [normalize_commas hparts hnonblank (by simp), hx, parse_intercalate, ← hx, List.mapM_map, List.mapM_append, List.mapM_cons]
  simp only [Function.comp_def]
  rw [mapM_plain (fun p hp => hcomma p (List.mem_append_left _ hp)) hbefore,
    mapM_plain (fun p hp => hcomma p (List.mem_append_right _ hp)) hafter, hown]
  cases parseSpecifierSet (normalizePoetryClause (strip (poetryText op t).toList)) with
  | none => rfl
  | some S =>
    simp [flatten_singles]

/-! ## Exactness -/

theorem contains_range {allowPre : SpecifierSet → Bool} {T : String} {v : Version} (hT : parse T = some v)
    (a : ℕ) (as : List ℕ) (w : Version) :
    SpecifierSet.contains allowPre [⟨.ge, T⟩, ⟨.lt, showDottedText (a :: as)⟩] w = true ↔
      (allowPre [⟨.ge, T⟩, ⟨.lt, showDottedText (a :: as)⟩] = true ∨ w.isPrerelease = false) ∧
        admitsGe v w = true ∧ admitsLt (Version.final (a :: as)) w = true := by
  have hhigh : parse (showDottedText (a :: as)) = some (Version.final (a :: as)) := parse_showDotted a as
  simp [SpecifierSet.contains, Clause.admits, hT, hhigh]

theorem isVersion_final (a : ℕ) (as : List ℕ) : IsVersion (Version.final (a :: as)) :=
  ⟨_, parse_showDotted a as⟩

theorem raiseAt_cons (r : List ℕ) (i : ℕ) : ∃ a as, raiseAt r i = a :: as :=
  List.exists_cons_of_ne_nil (by simp [raiseAt])

theorem isFinal_final (r : List ℕ) : Version.IsFinal (Version.final r) := ⟨rfl, rfl, rfl, rfl⟩

theorem isPrerelease_of_isFinal {w : Version} (h : Version.IsFinal w) : w.isPrerelease = false := by
  simp [Version.isPrerelease, h.1, h.2.2.1]

theorem admits_final {v w : Version} (hw : Version.IsFinal w) (r : List ℕ) :
    (admitsGe v w = true ∧ admitsLt (Version.final r) w = true) ↔
      v.key ≤ w.key ∧ w.key < (Version.final r).key := by
  have hpublic : w.publicPart = w := by
    cases w
    simp_all [Version.publicPart, Version.IsFinal]
  simp [admitsGe, admitsLt, hpublic, isPrerelease_of_isFinal hw]

section
variable {allowPre : SpecifierSet → Bool} {op : PoetryOperator} {t : String} {v : Version}

theorem RangeExact.shape (hv : safeParseVersion t = some v) (h : RangeExact allowPre op t v) :
    v.epoch = 0 ∧ v.label = none := by
  obtain ⟨S, hS, hin, -⟩ := h
  rw [parse_poetryText op hv] at hS
  obtain ⟨high, hhigh, hS⟩ := Option.bind_eq_some_iff.mp hS
  split at hS
  next hlabel =>
    cases hS
    cases hdigits : digitParts v.baseVersion with
    | nil =>
      rw [hdigits] at hhigh
      cases op <;> cases hhigh
    | cons n ns =>
      obtain ⟨a, as, hhigh', -⟩ := high_eq op (rawPartCount (stripText t)) n ns
      rw [hdigits, hhigh'] at hhigh
      cases hhigh
      obtain ⟨-, -, hlt⟩ := (contains_range (trimmed_of_safeParse hv).parses a as v).mp hin
      have hkey : v.key < (Version.final (a :: as)).key := by
        simp only [admitsLt, Bool.and_eq_true, decide_eq_true_eq] at hlt
        exact hlt.1
      exact ⟨Nat.le_zero.mp (epoch_le_of_key_le hkey.le), hlabel⟩
  next => cases hS

theorem baseVersion_of_epoch (he : v.epoch = 0) : v.baseVersion = showDotted v.release := by
  simp [Version.baseVersion, he]

theorem contains_own (hallow : AllowsNamed allowPre) (hlabel : v.label = none) {T : String}
    (hT : parse T = some v) {a : ℕ} {as : List ℕ} (hkey : v.key < (Version.final (a :: as)).key)
    (hbase : v.base.key < (Version.final (a :: as)).base.key) :
    SpecifierSet.contains allowPre [⟨.ge, T⟩, ⟨.lt, showDottedText (a :: as)⟩] v = true := by
  rw [contains_range hT]
  have hpublic : v.publicPart = v := by
    cases v
    simp_all [Version.publicPart]
  refine ⟨?_, by simp [admitsGe, hpublic], by simp [admitsLt, hkey, hbase.ne]⟩
  by_cases hpre : v.isPrerelease = true
  · exact .inl (hallow _ ⟨_, List.mem_cons_self, rfl, by simpa [hT] using hpre⟩)
  · exact .inr (by simpa using hpre)

theorem rangeExact_iff_index (hallow : AllowsNamed allowPre) (hv : safeParseVersion t = some v)
    (he : v.epoch = 0) (hlabel : v.label = none) {n : ℕ} {ns : List ℕ} (hr : v.release = n :: ns) :
    RangeExact allowPre op t v ↔ codeIndex op (rawPartCount (stripText t)) (n :: ns) = op.index (n :: ns) := by
  have hT : parse (stripText t) = some v := (trimmed_of_safeParse hv).parses
  obtain ⟨a, as, hhigh, hraise⟩ := high_eq op (rawPartCount (stripText t)) n ns
  have hset : parseSpecifierSet (normalizePoetrySpecifiers (poetryText op t)) =
      some [⟨.ge, stripText t⟩, ⟨.lt, showDottedText (a :: as)⟩] := by
    rw [parse_poetryText op hv, baseVersion_of_epoch he, hr, digitParts_showDotted, hhigh, Option.bind_some,
      if_pos hlabel]
  have hbump : (bumpVersion op v).key = (Version.final (raiseAt (n :: ns) (op.index (n :: ns)))).key := by
    rw [bumpVersion, hr, bump_eq]
    simp [Version.base, Version.final, he]
  have hcode : (Version.final (a :: as)).key =
      (Version.final (raiseAt (n :: ns) (codeIndex op (rawPartCount (stripText t)) (n :: ns)))).key :=
    final_key_congr hraise
  have habove : ∀ i, v.key < (Version.final (raiseAt (n :: ns) i)).key := fun i =>
    key_lt_of_release he (by rw [hr]; exact lt_raiseAt _ i)
  have hlt : ∀ {i j}, i < j → (Version.final (raiseAt (n :: ns) j)).key <
      (Version.final (raiseAt (n :: ns) i)).key := fun h => key_lt_of_release rfl (raiseAt_lt_raiseAt _ h)
  constructor
  · rintro ⟨S, hS, -, hexact⟩
    rw [hset] at hS
    cases hS
    -- the raised release of either side is a final release the two ends disagree about
    have hfinal : ∀ i, (Version.final (raiseAt (n :: ns) i)).key <
        (Version.final (raiseAt (n :: ns) (codeIndex op (rawPartCount (stripText t)) (n :: ns)))).key ↔
        (Version.final (raiseAt (n :: ns) i)).key < (Version.final (raiseAt (n :: ns) (op.index (n :: ns)))).key := by
      intro i
      obtain ⟨b, bs, hb⟩ := raiseAt_cons (n :: ns) i
      have hw := hexact (Version.final (raiseAt (n :: ns) i)) (hb ▸ isVersion_final b bs) (isFinal_final _)
      rw [contains_range hT, admits_final (isFinal_final _), hbump, hcode] at hw
      have hpre : (Version.final (raiseAt (n :: ns) i)).isPrerelease = false := rfl
      have hepoch : (Version.final (raiseAt (n :: ns) i)).epoch = v.epoch := he.symm
      simpa only [hpre, (habove i).le, hepoch, or_true, true_and] using hw
    rcases lt_trichotomy (codeIndex op (rawPartCount (stripText t)) (n :: ns)) (op.index (n :: ns)) with h | h | h
    · exact absurd ((hfinal _).mp (hlt h)) (lt_irrefl _)
    · exact h
    · exact absurd ((hfinal _).mpr (hlt h)) (lt_irrefl _)
  · intro hindex
    refine ⟨_, hset, ?_, ?_⟩
    · have hbase : v.base.key < (Version.final (a :: as)).base.key := by
        refine key_lt_of_release he ?_
        show dropTrailingZeros v.release < dropTrailingZeros (a :: as)
        rw [hraise, hr]
        exact lt_raiseAt _ _
      exact contains_own hallow hlabel hT (hcode ▸ habove _) hbase
    · intro w _ hw
      rw [contains_range hT, admits_final hw, hbump, hcode, hindex]
      constructor
      · rintro ⟨-, hge, hltw⟩
        have hepoch : w.epoch = 0 := Nat.le_zero.mp (epoch_le_of_key_le hltw.le)
        exact ⟨hge, hepoch.trans he.symm, hltw⟩
      · rintro ⟨hge, -, hltw⟩
        exact ⟨.inr (isPrerelease_of_isFinal hw), hge, hltw⟩

end

/-- The rewriting of a caret or tilde on a version is exact, and leaves the clauses around it alone,
exactly when the epoch is zero, there is no local label, and the pieces of the text and the components of
the release name the same component to raise. -/
theorem poetry_exact_iff (allowPre : SpecifierSet → Bool) (hallow : AllowsNamed allowPre)
    (op : PoetryOperator) (t : String) (v : Version) (hv : safeParseVersion t = some v) :
    (RangeExact allowPre op t v ∧ ClausesKept op t) ↔ PoetryReadable op t v := by
  obtain ⟨n, ns, hr⟩ := List.exists_cons_of_ne_nil (release_ne_nil (trimmed_of_safeParse hv).parses)
  constructor
  · rintro ⟨hexact, -⟩
    obtain ⟨he, hlabel⟩ := hexact.shape hv
    refine ⟨he, hlabel, ?_⟩
    rw [hr, ← index_eq_iff]
    exact (rangeExact_iff_index hallow hv he hlabel hr).mp hexact
  · rintro ⟨he, hlabel, hagrees⟩
    refine ⟨?_, clausesKept op hv⟩
    rw [hr, ← index_eq_iff] at hagrees
    exact (rangeExact_iff_index hallow hv he hlabel hr).mpr hagrees

/-- The rule of the library for the sets a caret or tilde is rewritten to. -/
def namesPrerelease (S : SpecifierSet) : Bool :=
  S.any fun c => c.operator == .ge && (parse c.version).any Version.isPrerelease

theorem allowsNamed_names : AllowsNamed namesPrerelease := by
  intro S h
  obtain ⟨c, hc, hop, hpre⟩ := h
  exact List.any_eq_true.mpr ⟨c, hc, by simp [hop, hpre]⟩

theorem poetry_exact_of_prerelease :
    (RangeExact namesPrerelease .caret "1.2.3rc1" (Version.mk 0 [1, 2, 3] (some (.rc, 1)) none none none) ∧
      ClausesKept .caret "1.2.3rc1") ↔
      PoetryReadable .caret "1.2.3rc1" (Version.mk 0 [1, 2, 3] (some (.rc, 1)) none none none) :=
  poetry_exact_iff namesPrerelease allowsNamed_names .caret "1.2.3rc1" _ (by decide)

/-- `^1!2.3` becomes `>=1!2.3,<4.0.0`, which admits nothing, the version itself included. -/
theorem caret_of_epoch_is_empty : ¬ ∀ (allowPre : SpecifierSet → Bool), AllowsNamed allowPre →
    ∀ (op : PoetryOperator) (t : String) (v : Version), safeParseVersion t = some v →
      RangeExact allowPre op t v ∧ ClausesKept op t := by
  intro h
  have hv : safeParseVersion "1!2.3" = some (Version.mk 1 [2, 3] none none none none) := by decide
  have hshape := (h namesPrerelease allowsNamed_names .caret "1!2.3" _ hv).1.shape hv
  exact absurd hshape.1 (by decide)

end TimeCodeSecurity.Sca
