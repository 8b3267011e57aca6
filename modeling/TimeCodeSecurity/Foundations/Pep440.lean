import Mathlib.Data.Char
import Mathlib.Data.List.DropRight
import Mathlib.Data.List.GetD
import Mathlib.Tactic

/-! # PEP 440 versions and version specifiers

The part of the `packaging` library that a matcher relies on, by its specification: the version
grammar, the total order of versions, and which versions a clause of a specifier set admits.

* `Version.key`: the sort key. Two texts denote the same version exactly when their keys agree
  (`1.0` and `1.0.0`), so every comparison goes through the key.
* `parse`: the grammar, a single left-to-right pass. The regular expression of the specification
  never has to give a character back, so no backtracking is modelled.
* `Clause.admits`: the seven operators and prefix matching. `SpecifierSet.contains` adds the gate on
  pre-releases, whose exact rule is a parameter.
-/
namespace TimeCodeSecurity.Pep440
set_option autoImplicit false

/-- The canonical spellings of the pre-release phases. -/
inductive PreTag
  | a | b | rc
deriving DecidableEq, Repr

def PreTag.rank : PreTag → ℕ
  | .a => 0
  | .b => 1
  | .rc => 2

/-- One dotted segment of a local version label. -/
inductive LocalSegment
  | num (n : ℕ)
  | text (s : List Char)
deriving DecidableEq, Repr

structure Version where
  epoch : ℕ
  release : List ℕ
  pre : Option (PreTag × ℕ)
  post : Option ℕ
  dev : Option ℕ
  label : Option (List LocalSegment)
deriving DecidableEq, Repr

/-- A final release of epoch 0. -/
def Version.final (release : List ℕ) : Version :=
  { epoch := 0, release := release, pre := none, post := none, dev := none, label := none }

def dropTrailingZeros : List ℕ → List ℕ
  | [] => []
  | n :: ns =>
    match n, dropTrailingZeros ns with
    | 0, [] => []
    | n, ns' => n :: ns'

abbrev PreKey := WithBot (WithTop (ℕ ×ₗ ℕ))
abbrev SegmentKey := WithBot ℕ ×ₗ List Char
abbrev Key :=
  ℕ ×ₗ List ℕ ×ₗ PreKey ×ₗ WithBot ℕ ×ₗ WithTop ℕ ×ₗ WithBot (List SegmentKey)

def Version.preKey (v : Version) : PreKey :=
  match v.pre, v.post, v.dev with
  | some (t, n), _, _ => WithBot.some (WithTop.some (toLex (t.rank, n)))
  | none, none, some _ => ⊥
  | none, _, _ => WithBot.some ⊤

def LocalSegment.key : LocalSegment → SegmentKey
  | .num n => toLex (WithBot.some n, [])
  | .text s => toLex (⊥, s)

def Version.postKey (v : Version) : WithBot ℕ :=
  match v.post with
  | some n => WithBot.some n
  | none => ⊥

def Version.devKey (v : Version) : WithTop ℕ :=
  match v.dev with
  | some n => WithTop.some n
  | none => ⊤

def Version.labelKey (v : Version) : WithBot (List SegmentKey) :=
  match v.label with
  | some segs => WithBot.some (segs.map LocalSegment.key)
  | none => ⊥

def Version.key (v : Version) : Key :=
  toLex (v.epoch, toLex (dropTrailingZeros v.release, toLex (v.preKey, toLex (v.postKey,
    toLex (v.devKey, v.labelKey)))))

def Version.publicPart (v : Version) : Version := { v with label := none }

def Version.base (v : Version) : Version :=
  { epoch := v.epoch, release := v.release, pre := none, post := none, dev := none, label := none }

def Version.isPrerelease (v : Version) : Bool := v.pre.isSome || v.dev.isSome
def Version.isPostrelease (v : Version) : Bool := v.post.isSome

/-! ## The version grammar -/

/-- The characters `str.strip` and `\\s` take as white space. -/
def isSpace (c : Char) : Bool :=
  let n := c.toNat
  (9 ≤ n && n ≤ 13) || (28 ≤ n && n ≤ 32) || n == 133 || n == 160 || n == 5760 ||
    (8192 ≤ n && n ≤ 8202) || n == 8232 || n == 8233 || n == 8239 || n == 8287 || n == 12288

/-- `str.strip()`. -/
def strip (cs : List Char) : List Char :=
  (cs.dropWhile isSpace).rdropWhile isSpace

theorem strip_strip (cs : List Char) : strip (strip cs) = strip cs := by
  have hhead : (strip cs).dropWhile isSpace = strip cs := by
    rw [List.dropWhile_eq_self_iff]
    intro hl
    have hpre : strip cs <+: cs.dropWhile isSpace := List.rdropWhile_prefix _ _
    have hlen : 0 < (cs.dropWhile isSpace).length := hl.trans_le hpre.length_le
    rw [hpre.getElem hl]
    exact List.dropWhile_eq_self_iff.mp (List.dropWhile_idempotent _ _) hlen
  rw [strip, hhead, strip, List.rdropWhile_idempotent]

def digitValue (c : Char) : ℕ := c.toNat - 48

def readNat (cs : List Char) : ℕ := cs.foldl (fun n c => 10 * n + digitValue c) 0

def number : List Char → Option (ℕ × List Char)
  | cs =>
    match cs.span Char.isDigit with
    | ([], _) => none
    | (ds, rest) => some (readNat ds, rest)

/-- The rest of a release segment after its first digits: `acc` is the component being read. -/
def releaseTail (acc : ℕ) : List Char → List ℕ × List Char
  | '.' :: c :: cs =>
    if c.isDigit then
      let (ns, rest) := releaseTail (digitValue c) cs
      (acc :: ns, rest)
    else ([acc], '.' :: c :: cs)
  | c :: cs =>
    if c.isDigit then releaseTail (10 * acc + digitValue c) cs
    else ([acc], c :: cs)
  | [] => ([acc], [])

def release : List Char → Option (List ℕ × List Char)
  | c :: cs => if c.isDigit then some (releaseTail (digitValue c) cs) else none
  | [] => none

/-- One optional separator `[-_.]`. -/
def dropSeparator : List Char → List Char
  | c :: cs => if c ∈ ['-', '_', '.'] then cs else c :: cs
  | [] => []

def optionalNumber (cs : List Char) : ℕ × List Char :=
  (number (dropSeparator cs)).getD (0, dropSeparator cs)

/-- The first of `words` that starts `cs`, and what follows it. -/
def keyword {α : Type} (words : List (String × α)) (cs : List Char) : Option (α × List Char) :=
  words.findSome? fun (w, a) => (cs.dropPrefix? w.toList).map fun rest => (a, rest)

def preWords : List (String × PreTag) :=
  [("alpha", .a), ("a", .a), ("beta", .b), ("b", .b), ("preview", .rc), ("pre", .rc), ("c", .rc),
    ("rc", .rc)]

def preSegment (cs : List Char) : Option (PreTag × ℕ) × List Char :=
  match keyword preWords (dropSeparator cs) with
  | some (t, rest) => (some (t, (optionalNumber rest).1), (optionalNumber rest).2)
  | none => (none, cs)

def postWords : List (String × Unit) := [("post", ()), ("rev", ()), ("r", ())]

/-- A post-release is `-N` or a keyword with an optional number. -/
def postSegment (cs : List Char) : Option ℕ × List Char :=
  match (cs.dropPrefix? ['-']).bind number with
  | some (n, rest) => (some n, rest)
  | none =>
    match keyword postWords (dropSeparator cs) with
    | some (_, rest) => (some (optionalNumber rest).1, (optionalNumber rest).2)
    | none => (none, cs)

def devSegment (cs : List Char) : Option ℕ × List Char :=
  match keyword [("dev", ())] (dropSeparator cs) with
  | some (_, rest) => (some (optionalNumber rest).1, (optionalNumber rest).2)
  | none => (none, cs)

def localSegmentOf (cs : List Char) : Option LocalSegment :=
  if cs = [] then none
  else if cs.all Char.isDigit then some (.num (readNat cs))
  else if cs.all Char.isAlphanum then some (.text cs)
  else none

/-- What may follow the public part: nothing, or `+` and a dotted label. -/
def localLabel : List Char → Option (Option (List LocalSegment))
  | [] => some none
  | '+' :: cs =>
    ((cs.splitOnP fun c => c ∈ ['-', '_', '.']).mapM localSegmentOf).map some
  | _ => none

def epochRelease (cs : List Char) : Option (ℕ × List ℕ × List Char) :=
  match number cs with
  | some (e, '!' :: rest) => (release rest).map fun (r, rest') => (e, r, rest')
  | _ => (release cs).map fun (r, rest') => (0, r, rest')

def dropV : List Char → List Char
  | 'v' :: cs => cs
  | cs => cs

def parse (s : String) : Option Version :=
  match epochRelease (dropV ((strip s.toList).map Char.toLower)) with
  | none => none
  | some (e, r, rest) =>
    let (pre, rest) := preSegment rest
    let (post, rest) := postSegment rest
    let (dev, rest) := devSegment rest
    (localLabel rest).map fun label =>
      { epoch := e, release := r, pre := pre, post := post, dev := dev, label := label }

def showNat (n : ℕ) : List Char := Nat.toDigits 10 n

def showDotted (ns : List ℕ) : List Char := List.intercalate ['.'] (ns.map showNat)

def Version.baseVersion (v : Version) : List Char :=
  (if v.epoch = 0 then [] else showNat v.epoch ++ ['!']) ++ showDotted v.release

def PreTag.letters : PreTag → List Char
  | .a => ['a']
  | .b => ['b']
  | .rc => ['r', 'c']

def LocalSegment.show : LocalSegment → List Char
  | .num n => showNat n
  | .text s => s

/-- `str(version)`. -/
def Version.toText (v : Version) : List Char :=
  v.baseVersion ++
    (match v.pre with | some (t, n) => t.letters ++ showNat n | none => []) ++
    (match v.post with | some n => ".post".toList ++ showNat n | none => []) ++
    (match v.dev with | some n => ".dev".toList ++ showNat n | none => []) ++
    (match v.label with
      | some segs => '+' :: List.intercalate ['.'] (segs.map LocalSegment.show)
      | none => [])

inductive Operator
  | ge | gt | le | lt | eq | ne | compatible | arbitrary
deriving DecidableEq, Repr

/-- One clause: its operator and the text after it. -/
structure Clause where
  operator : Operator
  version : String
deriving DecidableEq, Repr

abbrev SpecifierSet := List Clause

/-- `text[:-2]` of a text that ends in `.*`. -/
def wildcardPrefix (text : String) : Option String :=
  (text.toList.reverse.dropPrefix? ['*', '.']).map fun rest => String.ofList rest.reverse

/-- Prefix matching: same epoch, and the release, padded with zeros, starts with `release`. -/
def matchesPrefix (epoch : ℕ) (release : List ℕ) (v : Version) : Bool :=
  v.epoch == epoch &&
    (v.release ++ List.replicate release.length 0).take release.length == release

def admitsGe (spec v : Version) : Bool := decide (spec.key ≤ v.publicPart.key)
def admitsLe (spec v : Version) : Bool := decide (v.publicPart.key ≤ spec.key)

/-- `<V` leaves out the pre-releases of `V` unless `V` is one itself. -/
def admitsLt (spec v : Version) : Bool :=
  decide (v.key < spec.key) &&
    !(!spec.isPrerelease && v.isPrerelease && decide (v.base.key = spec.base.key))

/-- `>V` leaves out the post-releases of `V` unless `V` is one itself, and its local builds. -/
def admitsGt (spec v : Version) : Bool :=
  decide (spec.key < v.key) &&
    !(!spec.isPostrelease && v.isPostrelease && decide (v.base.key = spec.base.key)) &&
    !(v.label.isSome && decide (v.base.key = spec.base.key))

/-- `==V` ignores the local label of the candidate unless `V` has one. -/
def admitsEq (spec v : Version) : Bool :=
  if spec.label.isSome then decide (v.key = spec.key) else decide (v.publicPart.key = spec.key)

def Clause.admitsEqual (c : Clause) (v : Version) : Bool :=
  match wildcardPrefix c.version with
  | some p => (parse p).any fun spec => matchesPrefix spec.epoch spec.release v
  | none => (parse c.version).any fun spec => admitsEq spec v

def Clause.admits (c : Clause) (v : Version) : Bool :=
  match c.operator with
  | .ge => (parse c.version).any fun spec => admitsGe spec v
  | .gt => (parse c.version).any fun spec => admitsGt spec v
  | .le => (parse c.version).any fun spec => admitsLe spec v
  | .lt => (parse c.version).any fun spec => admitsLt spec v
  | .eq => c.admitsEqual v
  | .ne => !c.admitsEqual v
  | .compatible => (parse c.version).any fun spec =>
      admitsGe spec v && matchesPrefix spec.epoch spec.release.dropLast v
  | .arbitrary => v.toText == c.version.toList.map Char.toLower

/-- Membership in a specifier set. Whether a set lets pre-releases in at all is `allowPre`: the rule
differs between releases of the library, and nothing below depends on it. -/
def SpecifierSet.contains (allowPre : SpecifierSet → Bool) (S : SpecifierSet) (v : Version) : Bool :=
  (allowPre S || !v.isPrerelease) && S.all fun c => c.admits v

def operatorWords : List (String × Operator) :=
  [("===", .arbitrary), ("==", .eq), ("~=", .compatible), ("!=", .ne), ("<=", .le), (">=", .ge),
    ("<", .lt), (">", .gt)]

/-- What the grammar asks of the text after an operator: prefix matching only under `==` and `!=`
and only after a bare release, local labels only there, and two components under `~=`. -/
def Clause.wellFormed (c : Clause) : Bool :=
  match c.operator with
  | .arbitrary => c.version ≠ "" && c.version.toList.all fun x => !isSpace x && x ≠ ';' && x ≠ ')'
  | .eq | .ne =>
    match wildcardPrefix c.version with
    | some p => (parse p).any fun v => v.pre = none && v.post = none && v.dev = none && v.label = none
    | none => (parse c.version).isSome
  | .compatible => (parse c.version).any fun v => v.label = none && 2 ≤ v.release.length
  | _ => (parse c.version).any fun v => v.label = none

def parseClause (cs : List Char) : Option Clause :=
  match keyword operatorWords (strip cs) with
  | none => none
  | some (op, rest) =>
    let c : Clause := ⟨op, String.ofList (strip rest)⟩
    if c.wellFormed then some c else none

/-- `SpecifierSet(text)`: clauses between commas, empty ones skipped; `none` is `InvalidSpecifier`. -/
def parseSpecifierSet (text : String) : Option SpecifierSet :=
  ((text.toList.splitOn ',').filter fun cs => strip cs ≠ []).mapM parseClause

/-! ## Equal keys -/

theorem LocalSegment.key_injective : Function.Injective LocalSegment.key := by
  intro x y h
  cases x <;> cases y <;> simp_all [LocalSegment.key]

theorem postKey_eq {v w : Version} (h : v.postKey = w.postKey) : v.post = w.post := by
  unfold Version.postKey at h
  cases hv : v.post <;> cases hw : w.post <;> simp_all

theorem devKey_eq {v w : Version} (h : v.devKey = w.devKey) : v.dev = w.dev := by
  unfold Version.devKey at h
  cases hv : v.dev <;> cases hw : w.dev <;> simp_all

theorem labelKey_eq {v w : Version} (h : v.labelKey = w.labelKey) : v.label = w.label := by
  unfold Version.labelKey at h
  cases hv : v.label <;> cases hw : w.label <;> simp_all
  exact (List.map_injective_iff.mpr LocalSegment.key_injective) h

theorem PreTag.rank_injective : Function.Injective PreTag.rank := by
  intro s t h
  cases s <;> cases t <;> simp_all [PreTag.rank]

theorem preKey_eq {v w : Version} (h : v.preKey = w.preKey) : v.pre = w.pre := by
  unfold Version.preKey at h
  cases hv : v.pre with
  | none => cases hw : w.pre with
    | none => rfl
    | some q =>
      rw [hv, hw] at h
      split at h <;> simp_all
  | some p => cases hw : w.pre with
    | none =>
      rw [hv, hw] at h
      cases hp : w.post <;> cases hd : w.dev <;> simp [hp, hd] at h
    | some q =>
      rw [hv, hw] at h
      simp only [WithBot.coe_inj, WithTop.coe_inj, toLex_inj, Prod.mk.injEq] at h
      exact congrArg some (Prod.ext (PreTag.rank_injective h.1) h.2)

theorem key_eq {v w : Version} (h : v.key = w.key) :
    v.epoch = w.epoch ∧ dropTrailingZeros v.release = dropTrailingZeros w.release ∧
      v.pre = w.pre ∧ v.post = w.post ∧ v.dev = w.dev ∧ v.label = w.label := by
  simp only [Version.key, toLex_inj, Prod.mk.injEq] at h
  obtain ⟨he, hr, hp, hpost, hdev, hlabel⟩ := h
  exact ⟨he, hr, preKey_eq hp, postKey_eq hpost, devKey_eq hdev, labelKey_eq hlabel⟩

theorem publicPart_key_congr {v w : Version} (h : v.key = w.key) :
    v.publicPart.key = w.publicPart.key := by
  obtain ⟨he, hr, hp, hpost, hdev, -⟩ := key_eq h
  simp [Version.key, Version.preKey, Version.postKey, Version.devKey, Version.labelKey,
    Version.publicPart, he, hr, hp, hpost, hdev]

theorem base_key_congr {v w : Version} (h : v.key = w.key) : v.base.key = w.base.key := by
  obtain ⟨he, hr, -⟩ := key_eq h
  simp [Version.key, Version.preKey, Version.postKey, Version.devKey, Version.labelKey,
    Version.base, he, hr]

theorem getD_dropTrailingZeros (ns : List ℕ) (i : ℕ) :
    (dropTrailingZeros ns).getD i 0 = ns.getD i 0 := by
  induction ns generalizing i with
  | nil => rfl
  | cons n ns ih =>
    unfold dropTrailingZeros
    split
    next hns =>
      have hzero : ∀ j, ns.getD j 0 = 0 := fun j => by rw [← ih j, hns]; rfl
      cases i with
      | zero => rfl
      | succ j => simpa using (hzero j).symm
    next =>
      cases i with
      | zero => rfl
      | succ j => simpa using ih j

theorem padded_take_eq (ns : List ℕ) (k : ℕ) :
    (ns ++ List.replicate k 0).take k = (List.range k).map fun i => ns.getD i 0 := by
  apply List.ext_getElem
  · simp
  · intro i h₁ h₂
    have hi : i < k := by simpa using h₂
    simp only [List.getElem_take, List.getElem_map, List.getElem_range]
    by_cases hn : i < ns.length
    · rw [List.getElem_append_left hn, List.getD_eq_getElem _ _ hn]
    · rw [List.getElem_append_right (by omega), List.getElem_replicate,
        List.getD_eq_default _ _ (by omega)]

theorem matchesPrefix_congr {v w : Version} (h : v.key = w.key) (e : ℕ) (r : List ℕ) :
    matchesPrefix e r v = matchesPrefix e r w := by
  obtain ⟨he, hr, -⟩ := key_eq h
  have hpad : (v.release ++ List.replicate r.length 0).take r.length =
      (w.release ++ List.replicate r.length 0).take r.length := by
    rw [padded_take_eq, padded_take_eq]
    refine List.map_congr_left fun i _ => ?_
    rw [← getD_dropTrailingZeros v.release, hr, getD_dropTrailingZeros]
  rw [matchesPrefix, matchesPrefix, he, hpad]

theorem isPrerelease_congr {v w : Version} (h : v.key = w.key) :
    v.isPrerelease = w.isPrerelease := by
  obtain ⟨-, -, hp, -, hdev, -⟩ := key_eq h
  rw [Version.isPrerelease, Version.isPrerelease, hp, hdev]

theorem admitsEqual_congr {v w : Version} (h : v.key = w.key) (c : Clause) :
    c.admitsEqual v = c.admitsEqual w := by
  unfold Clause.admitsEqual admitsEq
  simp only [matchesPrefix_congr h, h, publicPart_key_congr h]

theorem admits_congr {v w : Version} (h : v.key = w.key) {c : Clause}
    (hc : c.operator ≠ .arbitrary) : c.admits v = c.admits w := by
  obtain ⟨-, -, -, hpost, -, hlabel⟩ := key_eq h
  have hpost' : v.isPostrelease = w.isPostrelease := by
    rw [Version.isPostrelease, Version.isPostrelease, hpost]
  unfold Clause.admits
  cases hop : c.operator <;>
    simp only [admitsGe, admitsGt, admitsLe, admitsLt, admitsEqual_congr h, matchesPrefix_congr h,
      publicPart_key_congr h, base_key_congr h, isPrerelease_congr h, hpost', hlabel, h]
  exact absurd hop hc

theorem contains_congr {v w : Version} (h : v.key = w.key) {S : SpecifierSet}
    (hS : ∀ c ∈ S, c.operator ≠ .arbitrary) (allowPre : SpecifierSet → Bool) :
    SpecifierSet.contains allowPre S v = SpecifierSet.contains allowPre S w := by
  have hall : S.all (fun c => c.admits v) = S.all fun c => c.admits w := by
    rw [Bool.eq_iff_iff, List.all_eq_true, List.all_eq_true]
    exact forall₂_congr fun c hc => by rw [admits_congr h (hS c hc)]
  rw [SpecifierSet.contains, SpecifierSet.contains, isPrerelease_congr h, hall]

end TimeCodeSecurity.Pep440
