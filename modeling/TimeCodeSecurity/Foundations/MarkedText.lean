import Mathlib.Data.Int.Notation
import Mathlib.Data.List.Basic

/-! # Marked texts

A text whose characters say whether their author wrote them, and the two ways in which Python lays out a
value in a text: the format specification of `format`, and the directives of `%`. What is asked of a text is
that it has no bad character but those its author wrote.
-/
namespace TimeCodeSecurity.MarkedText
set_option autoImplicit false

structure Mark where
  char : Char
  own : Bool
deriving DecidableEq, Repr

def written (s : String) : List Mark := s.toList.map (⟨·, true⟩)

def brought (s : String) : List Mark := s.toList.map (⟨·, false⟩)

section
variable (bad : Char → Bool)

def Mark.foreign (m : Mark) : Bool := !m.own && bad m.char

/-- No character of the text is a bad one that the author did not write. -/
def Clean (text : List Mark) : Prop := ∀ m ∈ text, m.foreign bad = false

instance (text : List Mark) : Decidable (Clean bad text) := inferInstanceAs (Decidable (∀ m ∈ text, _))

end

section
variable {bad : Char → Bool}

@[simp] theorem clean_nil : Clean bad [] := List.forall_mem_nil _

@[simp] theorem clean_cons {m : Mark} {text : List Mark} :
    Clean bad (m :: text) ↔ m.foreign bad = false ∧ Clean bad text := List.forall_mem_cons

@[simp] theorem clean_append {a b : List Mark} : Clean bad (a ++ b) ↔ Clean bad a ∧ Clean bad b :=
  List.forall_mem_append

@[simp] theorem clean_written (s : String) : Clean bad (written s) := by
  intro m hm
  obtain ⟨c, -, rfl⟩ := List.mem_map.mp hm
  rfl

theorem clean_brought {s : String} : Clean bad (brought s) ↔ ∀ c ∈ s.toList, bad c = false := by
  simp [Clean, brought, Mark.foreign]

theorem clean_replicate {n : ℕ} {m : Mark} :
    Clean bad (List.replicate n m) ↔ n = 0 ∨ m.foreign bad = false := by
  cases n with
  | zero => simp
  | succ n => exact ⟨fun h => .inr (h m (by simp)), fun h x hx => by
      rw [List.eq_of_mem_replicate hx]
      exact h.resolve_left n.succ_ne_zero⟩

theorem clean_flatten {texts : List (List Mark)} : Clean bad texts.flatten ↔ ∀ t ∈ texts, Clean bad t := by
  induction texts with
  | nil => simp
  | cons t texts ih => rw [List.flatten_cons, clean_append, ih, List.forall_mem_cons]

theorem Clean.take {text : List Mark} (h : Clean bad text) (n : ℕ) : Clean bad (text.take n) :=
  fun m hm => h m (List.mem_of_mem_take hm)

end

structure Spec where
  fill : Mark := ⟨' ', true⟩
  align : Option Char := none
  sign : Option Char := none
  coerce : Bool := false
  alternate : Bool := false
  width : ℕ := 0
  grouping : Option Char := none
  precision : Option ℕ := none
  kind : Option Char := none
deriving DecidableEq, Repr

def isAlign (c : Char) : Bool := c == '<' || c == '>' || c == '=' || c == '^'

def readAlign : List Mark → Option Mark × Option Char × List Mark
  | m :: a :: rest =>
    if isAlign a.char then (some m, some a.char, rest)
    else if isAlign m.char then (none, some m.char, a :: rest)
    else (none, none, m :: a :: rest)
  | [m] => if isAlign m.char then (none, some m.char, []) else (none, none, [m])
  | [] => (none, none, [])

def readOne (p : Char → Bool) : List Mark → Option Char × List Mark
  | m :: rest => if p m.char then (some m.char, rest) else (none, m :: rest)
  | [] => (none, [])

def digitsValue (ds : List Mark) : ℕ := ds.foldl (fun n m => 10 * n + (m.char.toNat - '0'.toNat)) 0

def readNat (text : List Mark) : Option ℕ × List Mark :=
  let ds := text.takeWhile (·.char.isDigit)
  (if ds.isEmpty then none else some (digitsValue ds), text.dropWhile (·.char.isDigit))

def readPrecision : List Mark → Option (Option ℕ × List Mark)
  | m :: rest =>
    if m.char = '.' then (readNat rest).1.map fun n => (some n, (readNat rest).2) else some (none, m :: rest)
  | [] => some (none, [])

def readSpec (number : Bool) (text : List Mark) : Option Spec :=
  let (fill, align, text) := readAlign text
  let (sign, text) := readOne (fun c => c == ' ' || c == '+' || c == '-') text
  let (coerce, text) := readOne (· == 'z') text
  let (alternate, text) := readOne (· == '#') text
  let (zero, text) := if fill.isNone then readOne (· == '0') text else (none, text)
  let (width, text) := readNat text
  let (grouping, text) := readOne (fun c => c == ',' || c == '_') text
  (readPrecision text).bind fun (precision, text) =>
    let spec (kind : Option Char) : Spec :=
      { fill := fill.getD ⟨if zero.isSome then '0' else ' ', true⟩
        align := align.or (if zero.isSome && number then some '=' else none)
        sign, coerce := coerce.isSome, alternate := alternate.isSome, width := width.getD 0
        grouping, precision, kind }
    match text with
    | [] => some (spec none)
    | [m] => some (spec (some m.char))
    | _ => none

namespace Spec

/-- Filling up to the width; `=` fills between the head and the body. -/
def pad (s : Spec) (side : Char) (head body : List Mark) : List Mark :=
  let room := s.width - (head ++ body).length
  let filled (n : ℕ) := List.replicate n s.fill
  match (s.align.getD side : Char) with
  | '<' => head ++ body ++ filled room
  | '^' => filled (room / 2) ++ head ++ body ++ filled (room - room / 2)
  | '=' => head ++ filled room ++ body
  | _ => filled room ++ head ++ body

def FillsBad (bad : Char → Bool) (s : Spec) (length : ℕ) : Prop := length < s.width ∧ s.fill.foreign bad = true

instance (bad : Char → Bool) (s : Spec) (length : ℕ) : Decidable (s.FillsBad bad length) :=
  inferInstanceAs (Decidable (_ ∧ _))

variable {bad : Char → Bool}

theorem not_fillsBad_iff {s : Spec} {length : ℕ} :
    ¬s.FillsBad bad length ↔ s.width - length = 0 ∨ s.fill.foreign bad = false := by
  rw [FillsBad, not_and_or, Bool.not_eq_true, Nat.sub_eq_zero_iff_le, Nat.not_lt]

theorem clean_pad_iff {s : Spec} {side : Char} {head body : List Mark} :
    Clean bad (s.pad side head body) ↔
      Clean bad head ∧ Clean bad body ∧ ¬s.FillsBad bad (head ++ body).length := by
  rw [not_fillsBad_iff]
  unfold pad
  generalize s.width - (head ++ body).length = room
  dsimp only
  split <;> simp only [clean_append, clean_replicate]
  · tauto
  · have hhalf : room / 2 = 0 ∧ room - room / 2 = 0 ↔ room = 0 := by omega
    rw [← hhalf]
    tauto
  · tauto
  · tauto

end Spec

/-! ## Directives -/

/-- A directive of `%`. A width or a precision `some none` is `*`. -/
structure Directive where
  key : Option (List Mark) := none
  left : Bool := false
  width : Option (Option ℕ) := none
  precision : Option (Option ℕ) := none
  kind : Char
deriving DecidableEq, Repr

inductive Token
  | keep (m : Mark)
  | directive (d : Directive)
deriving DecidableEq, Repr

def readKey : ℕ → List Mark → Option (List Mark × List Mark)
  | _, [] => none
  | depth, m :: rest =>
    if m.char = ')' then
      match depth with
      | 0 => some ([], rest)
      | depth + 1 => (readKey depth rest).map fun (key, rest) => (m :: key, rest)
    else (readKey (if m.char = '(' then depth + 1 else depth) rest).map fun (key, rest) => (m :: key, rest)

/-- A width or a precision: `*`, or digits. -/
def readAmount : List Mark → Option (Option ℕ) × List Mark
  | m :: rest => if m.char = '*' then (some none, rest) else ((readNat (m :: rest)).1.map some, (readNat (m :: rest)).2)
  | [] => (none, [])

def readKeyed : List Mark → Option (Option (List Mark) × List Mark)
  | m :: rest =>
    if m.char = '(' then (readKey 0 rest).map fun p => (some p.1, p.2) else some (none, m :: rest)
  | [] => some (none, [])

def readPoint : List Mark → Option (Option ℕ) × List Mark
  | m :: rest =>
    if m.char = '.' then ((readAmount rest).1.or (some (some 0)), (readAmount rest).2) else (none, m :: rest)
  | [] => (none, [])

def Mark.isFlag (m : Mark) : Bool := m.char ∈ ['#', '0', '-', ' ', '+']

/-- A directive behind its `%`. -/
def readDirective (text : List Mark) : Option (Directive × List Mark) :=
  (readKeyed text).bind fun (key, text) =>
    let (width, rest) := readAmount (text.dropWhile Mark.isFlag)
    let (precision, rest) := readPoint rest
    match (readOne (· ∈ ['h', 'l', 'L']) rest).2 with
    | m :: rest =>
      let left := (text.takeWhile Mark.isFlag).any (·.char == '-')
      some ({ key, left, width, precision, kind := m.char }, rest)
    | [] => none

def readTokens : ℕ → List Mark → Option (List Token)
  | _, [] => some []
  | 0, _ :: _ => none
  | fuel + 1, m :: rest =>
    if m.char = '%' then
      (readDirective rest).bind fun (d, rest) => (readTokens fuel rest).map (.directive d :: ·)
    else (readTokens fuel rest).map (.keep m :: ·)

def tokens (text : List Mark) : Option (List Token) := readTokens text.length text

section
variable {x : Mark}

theorem readKey_subset {depth : ℕ} {text key rest : List Mark} (h : readKey depth text = some (key, rest))
    (hx : x ∈ rest) : x ∈ text := by
  induction text generalizing depth key with
  | nil => cases h
  | cons m text ih =>
    simp only [readKey] at h
    have hmore : ∀ {d p}, readKey d text = some p → p.2 = rest → x ∈ m :: text := by
      rintro d ⟨k, r⟩ hp he
      subst he
      exact List.mem_cons_of_mem m (ih hp)
    split at h
    · split at h
      · cases h
        exact List.mem_cons_of_mem m hx
      · obtain ⟨p, hp, he⟩ := Option.map_eq_some_iff.mp h
        exact hmore hp (Prod.mk.inj he).2
    · obtain ⟨p, hp, he⟩ := Option.map_eq_some_iff.mp h
      exact hmore hp (Prod.mk.inj he).2

theorem readKeyed_subset {text rest : List Mark} {key : Option (List Mark)}
    (h : readKeyed text = some (key, rest)) (hx : x ∈ rest) : x ∈ text := by
  cases text with
  | nil =>
    cases h
    exact hx
  | cons m text =>
    simp only [readKeyed] at h
    split at h
    · obtain ⟨⟨k, r⟩, hp, he⟩ := Option.map_eq_some_iff.mp h
      cases he
      exact List.mem_cons_of_mem m (readKey_subset hp hx)
    · cases h
      exact hx

theorem readOne_subset {p : Char → Bool} {text : List Mark} (hx : x ∈ (readOne p text).2) : x ∈ text := by
  cases text with
  | nil => exact hx
  | cons m text =>
    simp only [readOne] at hx
    split at hx
    · exact List.mem_cons_of_mem m hx
    · exact hx

theorem readNat_subset {text : List Mark} (hx : x ∈ (readNat text).2) : x ∈ text :=
  (List.dropWhile_sublist _).subset hx

theorem readAmount_subset {text : List Mark} (hx : x ∈ (readAmount text).2) : x ∈ text := by
  cases text with
  | nil => exact hx
  | cons m text =>
    simp only [readAmount] at hx
    split at hx
    · exact List.mem_cons_of_mem m hx
    · exact readNat_subset hx

theorem readPoint_subset {text : List Mark} (hx : x ∈ (readPoint text).2) : x ∈ text := by
  cases text with
  | nil => exact hx
  | cons m text =>
    simp only [readPoint] at hx
    split at hx
    · exact List.mem_cons_of_mem m (readAmount_subset hx)
    · exact hx

theorem readDirective_subset {text rest : List Mark} {d : Directive}
    (h : readDirective text = some (d, rest)) (hx : x ∈ rest) : x ∈ text := by
  obtain ⟨⟨key, behind⟩, hkey, h⟩ := Option.bind_eq_some_iff.mp h
  refine readKeyed_subset hkey ((List.dropWhile_sublist Mark.isFlag).subset (readAmount_subset ?_))
  refine readPoint_subset (readOne_subset (p := (· ∈ ['h', 'l', 'L'])) ?_)
  dsimp only at h
  split at h
  · next m more hmore =>
    cases h
    rw [hmore]
    exact List.mem_cons_of_mem m hx
  · cases h

theorem readTokens_subset {fuel : ℕ} {text : List Mark} {ts : List Token}
    (h : readTokens fuel text = some ts) (hx : .keep x ∈ ts) : x ∈ text := by
  induction fuel generalizing text ts with
  | zero => cases text with
    | nil =>
      cases h
      cases hx
    | cons => cases h
  | succ fuel ih => cases text with
    | nil =>
      cases h
      cases hx
    | cons m rest =>
      simp only [readTokens] at h
      split at h
      · obtain ⟨⟨d, more⟩, hd, h⟩ := Option.bind_eq_some_iff.mp h
        obtain ⟨ts', hts', rfl⟩ := Option.map_eq_some_iff.mp h
        rcases List.mem_cons.mp hx with hx | hx
        · cases hx
        · exact List.mem_cons_of_mem m (readDirective_subset hd (ih hts' hx))
      · obtain ⟨ts', hts', rfl⟩ := Option.map_eq_some_iff.mp h
        rcases List.mem_cons.mp hx with hx | hx
        · cases hx
          exact List.mem_cons_self
        · exact List.mem_cons_of_mem m (ih hts' hx)

end

theorem mem_of_keep_mem_tokens {text : List Mark} {ts : List Token} {m : Mark} (h : tokens text = some ts)
    (hm : .keep m ∈ ts) : m ∈ text := readTokens_subset h hm

def Mark.isPlain (m : Mark) : Bool :=
  !m.char.isDigit && m.char ∉ ['%', '(', '#', '0', '-', ' ', '+', '*', '.', 'h', 'l', 'L']

theorem mem_dropWhile {m : Mark} {p : Mark → Bool} (hp : p m = false) {text : List Mark} (h : m ∈ text) :
    m ∈ text.dropWhile p := by
  induction text with
  | nil => cases h
  | cons x text ih =>
    rw [List.dropWhile_cons]
    split
    · next hx =>
      rcases List.mem_cons.mp h with rfl | h
      · rw [hp] at hx
        cases hx
      · exact ih h
    · exact h

section
variable {m : Mark} (hm : m.isPlain = true)
include hm

theorem Mark.isPlain.isDigit : m.char.isDigit = false := by
  rw [isPlain, Bool.and_eq_true, Bool.not_eq_true'] at hm
  exact hm.1

theorem Mark.isPlain.ne {c : Char} (hc : c ∈ ['%', '(', '#', '0', '-', ' ', '+', '*', '.', 'h', 'l', 'L']) :
    m.char ≠ c := by
  rw [isPlain, Bool.and_eq_true, decide_eq_true_eq] at hm
  rintro rfl
  exact hm.2 hc

theorem mem_readAmount {text : List Mark} (h : m ∈ text) : m ∈ (readAmount text).2 := by
  cases text with
  | nil => exact h
  | cons x text =>
    simp only [readAmount]
    split
    · next hx =>
      rcases List.mem_cons.mp h with rfl | h
      · exact absurd hx (Mark.isPlain.ne hm (by simp))
      · exact h
    · exact mem_dropWhile (Mark.isPlain.isDigit hm) h

theorem mem_readPoint {text : List Mark} (h : m ∈ text) : m ∈ (readPoint text).2 := by
  cases text with
  | nil => exact h
  | cons x text =>
    simp only [readPoint]
    split
    · next hx =>
      rcases List.mem_cons.mp h with rfl | h
      · exact absurd hx (Mark.isPlain.ne hm (by simp))
      · exact mem_readAmount hm h
    · exact h

theorem mem_readLength {text : List Mark} (h : m ∈ text) : m ∈ (readOne (· ∈ ['h', 'l', 'L']) text).2 := by
  cases text with
  | nil => exact h
  | cons x text =>
    simp only [readOne]
    split
    · next hx =>
      rcases List.mem_cons.mp h with rfl | h
      · rw [decide_eq_true_eq] at hx
        have hsub : ['h', 'l', 'L'] ⊆ ['%', '(', '#', '0', '-', ' ', '+', '*', '.', 'h', 'l', 'L'] := by simp
        exact absurd rfl (Mark.isPlain.ne hm (hsub hx))
      · exact h
    · exact h

theorem mem_readDirective {text rest : List Mark} {d : Directive} (hd : readDirective text = some (d, rest))
    (hkey : d.key = none) (h : m ∈ text) : m ∈ rest ∨ d.kind = m.char := by
  obtain ⟨⟨key, behind⟩, hkeyed, hd⟩ := Option.bind_eq_some_iff.mp hd
  dsimp only at hd
  split at hd
  · next x more hmore =>
    cases hd
    have hbehind : behind = text := by
      cases text with
      | nil => cases h
      | cons y text =>
        simp only [readKeyed] at hkeyed
        split at hkeyed
        · obtain ⟨p, -, he⟩ := Option.map_eq_some_iff.mp hkeyed
          cases (Prod.mk.inj he).1.trans hkey
        · cases hkeyed
          rfl
    subst hbehind
    have hflag : m.isFlag = false := by
      rw [Mark.isFlag, decide_eq_false_iff_not]
      have hsub : ['#', '0', '-', ' ', '+'] ⊆ ['%', '(', '#', '0', '-', ' ', '+', '*', '.', 'h', 'l', 'L'] := by simp
      exact fun hc => Mark.isPlain.ne hm (hsub hc) rfl
    have hx : m ∈ x :: rest := hmore ▸ mem_readLength hm (mem_readPoint hm (mem_readAmount hm (mem_dropWhile hflag h)))
    rcases List.mem_cons.mp hx with rfl | hx
    · exact .inr rfl
    · exact .inl hx
  · cases hd

theorem mem_readTokens {fuel : ℕ} {text : List Mark} {ts : List Token} (ht : readTokens fuel text = some ts)
    (h : m ∈ text) :
    .keep m ∈ ts ∨ ∃ d, .directive d ∈ ts ∧ (d.key ≠ none ∨ d.kind = m.char) := by
  induction fuel generalizing text ts with
  | zero => cases text with
    | nil => cases h
    | cons => cases ht
  | succ fuel ih => cases text with
    | nil => cases h
    | cons x rest =>
      have hstep : ∀ {token ts'},
          (Token.keep m ∈ ts' ∨ ∃ d, .directive d ∈ ts' ∧ (d.key ≠ none ∨ d.kind = m.char)) →
          .keep m ∈ token :: ts' ∨ ∃ d, .directive d ∈ token :: ts' ∧ (d.key ≠ none ∨ d.kind = m.char) := by
        rintro token ts' (hk | ⟨d, hd, hor⟩)
        · exact .inl (List.mem_cons_of_mem _ hk)
        · exact .inr ⟨d, List.mem_cons_of_mem _ hd, hor⟩
      simp only [readTokens] at ht
      split at ht
      · next hsign =>
        have hrest : m ∈ rest := by
          rcases List.mem_cons.mp h with rfl | h
          · exact absurd hsign (Mark.isPlain.ne hm (by simp))
          · exact h
        obtain ⟨⟨d, more⟩, hd, ht⟩ := Option.bind_eq_some_iff.mp ht
        obtain ⟨ts', hts', rfl⟩ := Option.map_eq_some_iff.mp ht
        by_cases hkey : d.key = none
        · rcases mem_readDirective hm hd hkey hrest with hmore | hkind
          · exact hstep (ih hts' hmore)
          · exact .inr ⟨d, List.mem_cons_self, .inr hkind⟩
        · exact .inr ⟨d, List.mem_cons_self, .inl hkey⟩
      · obtain ⟨ts', hts', rfl⟩ := Option.map_eq_some_iff.mp ht
        rcases List.mem_cons.mp h with rfl | h
        · exact .inl List.mem_cons_self
        · exact hstep (ih hts' h)

end

def Keyed (text : List Mark) : Prop := ∃ ts d, tokens text = some ts ∧ .directive d ∈ ts ∧ d.key ≠ none

/-! ## Substitution -/

inductive Piece (D : Type)
  | keep (m : Mark)
  | insert (d : Directive) (value : D)

section
variable {D : Type}

/-- The amount that `*` takes from the values. -/
def takeAmount (number : D → Option ℤ) : Option (Option ℕ) → List D → Option (Option ℤ × List D)
  | some none, v :: vs => (number v).map fun n => (some n, vs)
  | some none, [] => none
  | some (some n), vs => some (some n, vs)
  | none, vs => some (none, vs)

/-- A directive without `*`; a width below zero is one to the left, a precision below zero is zero. -/
def Directive.settle (d : Directive) (width precision : Option ℤ) : Directive :=
  { d with
    left := d.left || width.any (· < 0)
    width := width.map fun n => some n.natAbs
    precision := precision.map fun n => some n.toNat }

def plan (number : D → Option ℤ) (item : List Mark → Option D) (mapping : Bool) :
    List Token → List D → Option (List (Piece D))
  | [], vs => if vs.isEmpty || mapping then some [] else none
  | .keep m :: ts, vs => (plan number item mapping ts vs).map (.keep m :: ·)
  | .directive d :: ts, vs =>
    match d.key with
    | some key =>
      if d.width = some none ∨ d.precision = some none then none
      else (item key).bind fun v =>
        (plan number item mapping ts vs).map ((if d.kind = '%' then .keep ⟨'%', true⟩ else .insert d v) :: ·)
    | none =>
      (takeAmount number d.width vs).bind fun (width, vs) =>
        (takeAmount number d.precision vs).bind fun (precision, vs) =>
          if d.kind = '%' then (plan number item mapping ts vs).map (.keep ⟨'%', true⟩ :: ·)
          else
            match vs with
            | v :: vs => (plan number item mapping ts vs).map (.insert (d.settle width precision) v :: ·)
            | [] => none

namespace Piece

/-- The text of a piece, when `write` writes a value in. -/
def text (write : Directive → D → Option (List Mark)) : Piece D → Option (List Mark)
  | .keep m => some [m]
  | .insert d v => write d v

end Piece

def assemble (write : Directive → D → Option (List Mark)) (pieces : List (Piece D)) : Option (List Mark) :=
  (pieces.mapM (Piece.text write)).map List.flatten

variable {bad : Char → Bool} {write : Directive → D → Option (List Mark)}

theorem clean_assemble_iff {pieces : List (Piece D)} {t : List Mark} (h : assemble write pieces = some t) :
    Clean bad t ↔ ∀ p ∈ pieces, ∀ u, p.text write = some u → Clean bad u := by
  obtain ⟨texts, htexts, rfl⟩ := Option.map_eq_some_iff.mp h
  rw [clean_flatten]
  clear h
  induction pieces generalizing texts with
  | nil =>
    cases htexts
    simp
  | cons p ps ih =>
    rw [List.mapM_cons] at htexts
    obtain ⟨u, hu, htexts⟩ := Option.bind_eq_some_iff.mp htexts
    obtain ⟨us, hus, htexts⟩ := Option.bind_eq_some_iff.mp htexts
    cases htexts
    rw [List.forall_mem_cons, List.forall_mem_cons, ih us hus]
    refine and_congr_left fun _ => ⟨fun hclean u' hu' => ?_, fun hclean => hclean u hu⟩
    rw [hu] at hu'
    exact Option.some.inj hu' ▸ hclean

theorem text_of_assemble {pieces : List (Piece D)} {t : List Mark} (h : assemble write pieces = some t)
    {p : Piece D} (hp : p ∈ pieces) : ∃ u, p.text write = some u := by
  obtain ⟨texts, htexts, -⟩ := Option.map_eq_some_iff.mp h
  clear h
  induction pieces generalizing texts with
  | nil => cases hp
  | cons q ps ih =>
    rw [List.mapM_cons] at htexts
    obtain ⟨u, hu, htexts⟩ := Option.bind_eq_some_iff.mp htexts
    obtain ⟨us, hus, -⟩ := Option.bind_eq_some_iff.mp htexts
    rcases List.mem_cons.mp hp with rfl | hp
    · exact ⟨u, hu⟩
    · exact ih hp us hus

variable {number : D → Option ℤ} {item : List Mark → Option D} {mapping : Bool}

theorem plan_directive {d : Directive} {ts : List Token} {vs : List D} {pieces : List (Piece D)}
    (h : plan number item mapping (.directive d :: ts) vs = some pieces) :
    ∃ first vs' ps, pieces = first :: ps ∧ plan number item mapping ts vs' = some ps ∧
      if d.kind = '%' then first = .keep ⟨'%', true⟩ else ∃ d' v, first = .insert d' v ∧ d'.kind = d.kind := by
  simp only [plan] at h
  split at h
  · split at h
    · cases h
    · obtain ⟨v, -, h⟩ := Option.bind_eq_some_iff.mp h
      obtain ⟨ps, hps, rfl⟩ := Option.map_eq_some_iff.mp h
      refine ⟨_, vs, ps, rfl, hps, ?_⟩
      split
      · rfl
      · exact ⟨d, v, rfl, rfl⟩
  · obtain ⟨⟨width, vs₁⟩, -, h⟩ := Option.bind_eq_some_iff.mp h
    obtain ⟨⟨precision, vs₂⟩, -, h⟩ := Option.bind_eq_some_iff.mp h
    dsimp only at h
    split at h
    · next hsign =>
      obtain ⟨ps, hps, rfl⟩ := Option.map_eq_some_iff.mp h
      exact ⟨_, vs₂, ps, rfl, hps, by rw [if_pos hsign]⟩
    · next hsign =>
      cases vs₂ with
      | nil => cases h
      | cons v vs₂ =>
        obtain ⟨ps, hps, rfl⟩ := Option.map_eq_some_iff.mp h
        exact ⟨_, vs₂, ps, rfl, hps, by rw [if_neg hsign]; exact ⟨_, v, rfl, rfl⟩⟩

theorem keep_mem_of_plan {ts : List Token} {vs : List D} {pieces : List (Piece D)} {m : Mark}
    (h : plan number item mapping ts vs = some pieces) (hm : .keep m ∈ pieces) :
    .keep m ∈ ts ∨ m = ⟨'%', true⟩ := by
  induction ts generalizing vs pieces with
  | nil =>
    simp only [plan] at h
    split at h <;> cases h
    cases hm
  | cons token ts ih =>
    cases token with
    | keep x =>
      obtain ⟨ps, hps, rfl⟩ := Option.map_eq_some_iff.mp h
      rcases List.mem_cons.mp hm with hm | hm
      · cases hm
        exact .inl List.mem_cons_self
      · exact (ih hps hm).imp_left (List.mem_cons_of_mem _)
    | directive d =>
      obtain ⟨first, vs', ps, rfl, hps, hfirst⟩ := plan_directive h
      rcases List.mem_cons.mp hm with rfl | hm
      · split at hfirst
        · exact .inr (by cases hfirst; rfl)
        · obtain ⟨d', v, hins, -⟩ := hfirst
          cases hins
      · exact (ih hps hm).imp_left (List.mem_cons_of_mem _)

theorem plan_complete {ts : List Token} {vs : List D} {pieces : List (Piece D)}
    (h : plan number item mapping ts vs = some pieces) :
    (∀ m, .keep m ∈ ts → .keep m ∈ pieces) ∧
      ∀ d, .directive d ∈ ts → d.kind = '%' ∨ ∃ d' v, .insert d' v ∈ pieces ∧ d'.kind = d.kind := by
  induction ts generalizing vs pieces with
  | nil => exact ⟨nofun, nofun⟩
  | cons token ts ih =>
    cases token with
    | keep x =>
      obtain ⟨ps, hps, rfl⟩ := Option.map_eq_some_iff.mp h
      obtain ⟨hkeep, hdir⟩ := ih hps
      refine ⟨fun m hm => ?_, fun d hd => ?_⟩
      · rcases List.mem_cons.mp hm with hm | hm
        · cases hm
          exact List.mem_cons_self
        · exact List.mem_cons_of_mem _ (hkeep m hm)
      · rcases List.mem_cons.mp hd with hd | hd
        · cases hd
        · refine (hdir d hd).imp_right ?_
          rintro ⟨d', v, hmem, hkind⟩
          exact ⟨d', v, List.mem_cons_of_mem _ hmem, hkind⟩
    | directive e =>
      obtain ⟨first, vs', ps, rfl, hps, hfirst⟩ := plan_directive h
      obtain ⟨hkeep, hdir⟩ := ih hps
      refine ⟨fun m hm => ?_, fun d hd => ?_⟩
      · rcases List.mem_cons.mp hm with hm | hm
        · cases hm
        · exact List.mem_cons_of_mem _ (hkeep m hm)
      · rcases List.mem_cons.mp hd with hd | hd
        · cases hd
          split at hfirst
          · next hsign => exact .inl hsign
          · obtain ⟨d', v, rfl, hkind⟩ := hfirst
            exact .inr ⟨d', v, List.mem_cons_self, hkind⟩
        · refine (hdir d hd).imp_right ?_
          rintro ⟨d', v, hmem, hkind⟩
          exact ⟨d', v, List.mem_cons_of_mem _ hmem, hkind⟩

end

end TimeCodeSecurity.MarkedText
