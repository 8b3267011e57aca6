import Mathlib.Data.List.Induction

/-! # UTF-8

Code points and octets are numbers. Surrogates are code points that the encoding refuses; the decoding has
either no error, or a replacement for each longest run of octets that starts a character and does not end it.
-/
namespace TimeCodeSecurity.Utf8
set_option autoImplicit false

def encodeChar (c : ℕ) : Option (List ℕ) :=
  if c < 0x80 then some [c]
  else if c < 0x800 then some [0xC0 + c / 64, 0x80 + c % 64]
  else if 0xD800 ≤ c ∧ c ≤ 0xDFFF then none
  else if c < 0x10000 then some [0xE0 + c / 4096, 0x80 + c / 64 % 64, 0x80 + c % 64]
  else if c < 0x110000 then
    some [0xF0 + c / 262144, 0x80 + c / 4096 % 64, 0x80 + c / 64 % 64, 0x80 + c % 64]
  else none

def encode (text : List ℕ) : Option (List ℕ) := (text.mapM encodeChar).map List.flatten

structure Begun where
  owed : ℕ
  low : ℕ := 0x80
  high : ℕ := 0xBF
  bits : ℕ
deriving DecidableEq, Repr

def lead (b : ℕ) : Option Begun :=
  if b < 0x80 then some { owed := 0, bits := b }
  else if 0xC2 ≤ b ∧ b ≤ 0xDF then some { owed := 1, bits := b - 0xC0 }
  else if b = 0xE0 then some { owed := 2, low := 0xA0, bits := 0 }
  else if b = 0xED then some { owed := 2, high := 0x9F, bits := 0xD }
  else if 0xE1 ≤ b ∧ b ≤ 0xEF then some { owed := 2, bits := b - 0xE0 }
  else if b = 0xF0 then some { owed := 3, low := 0x90, bits := 0 }
  else if b = 0xF4 then some { owed := 3, high := 0x8F, bits := 4 }
  else if 0xF1 ≤ b ∧ b ≤ 0xF3 then some { owed := 3, bits := b - 0xF0 }
  else none

/-- The characters of the octets, `none` for each error. An octet that does not go on with a character is
looked at again as a first one. -/
def decodeFrom : Option Begun → List ℕ → List (Option ℕ)
  | none, [] => []
  | some _, [] => [none]
  | begun, b :: rest =>
    let fits := begun.any fun s => s.low ≤ b && b ≤ s.high
    let next := if fits then begun.map fun s => { owed := s.owed - 1, bits := s.bits * 64 + (b - 0x80) } else lead b
    (if begun.isSome && !fits then [none] else []) ++
      match next with
      | none => none :: decodeFrom none rest
      | some s => if s.owed = 0 then some s.bits :: decodeFrom none rest else decodeFrom (some s) rest

/-- `bytes.decode()`. -/
def decode (octets : List ℕ) : Option (List ℕ) := (decodeFrom none octets).mapM id

/-- `bytes.decode("utf-8", "replace")`. -/
def decodeReplace (octets : List ℕ) : List ℕ := (decodeFrom none octets).map (·.getD 0xFFFD)

theorem decodeReplace_of_decode {octets text : List ℕ} (h : decode octets = some text) :
    decodeReplace octets = text := by
  rw [decode] at h
  rw [decodeReplace]
  generalize decodeFrom none octets = chars at h ⊢
  induction chars generalizing text with
  | nil =>
    cases h
    rfl
  | cons c cs ih =>
    rw [List.mapM_cons] at h
    obtain ⟨x, hx, h⟩ := Option.bind_eq_some_iff.mp h
    obtain ⟨xs, hxs, h⟩ := Option.bind_eq_some_iff.mp h
    cases h
    have hc : c = some x := hx
    rw [List.map_cons, ih hxs, hc, Option.getD_some]

/-! ## ASCII octets -/

theorem decodeFrom_cons_ascii {b : ℕ} (hb : b < 0x80) (rest : List ℕ) :
    decodeFrom none (b :: rest) = some b :: decodeFrom none rest := by
  simp [decodeFrom, lead, hb]

structure Begun.Proper (s : Begun) : Prop where
  high : 0x80 ≤ s.low
  one : s.owed = 1 → 2 ≤ s.bits
  two : s.owed = 2 → 2 ≤ 64 * s.bits + (s.low - 0x80)
  three : s.owed = 3 → 1 ≤ 64 * s.bits + (s.low - 0x80)
  few : s.owed ≤ 3

theorem proper_of_lead {b : ℕ} {s : Begun} (h : lead b = some s) (hb : 0x80 ≤ b) : s.Proper ∧ s.owed ≠ 0 := by
  rw [lead, if_neg (by omega)] at h
  split_ifs at h <;> cases h <;>
    exact ⟨⟨by simp, by simp <;> omega, by simp <;> omega, by simp <;> omega, by simp⟩, by simp⟩

theorem Begun.Proper.next {s : Begun} (h : s.Proper) {b : ℕ} (hlow : s.low ≤ b) (howed : s.owed - 1 ≠ 0) :
    Begun.Proper { owed := s.owed - 1, bits := s.bits * 64 + (b - 0x80) } := by
  obtain ⟨hhigh, hone, htwo, hthree, hfew⟩ := h
  have hcases : s.owed = 2 ∨ s.owed = 3 := by omega
  rcases hcases with hs | hs
  · have hbits := htwo hs
    exact ⟨by simp, fun _ => by simp only; omega, fun h' => by simp only at h'; omega,
      fun h' => by simp only at h'; omega, by simp only; omega⟩
  · have hbits := hthree hs
    exact ⟨by simp, fun h' => by simp only at h'; omega, fun _ => by simp only; omega,
      fun h' => by simp only at h'; omega, by simp only; omega⟩

def Underway (begun : Option Begun) : Prop := ∀ s ∈ begun, s.Proper ∧ s.owed ≠ 0

theorem decodeFrom_ascii {begun : Option Begun} (h : Underway begun) {b : ℕ} (hb : b < 0x80) (rest : List ℕ) :
    decodeFrom begun (b :: rest) = decodeFrom begun [] ++ some b :: decodeFrom none rest := by
  cases begun with
  | none => exact decodeFrom_cons_ascii hb rest
  | some s =>
    have hhigh := (h s rfl).1.high
    have hnot : ¬ s.low ≤ b := by omega
    simp [decodeFrom, lead, hb, hnot]

theorem decodeFrom_lead {begun : Option Begun} {b : ℕ} (hb : 0x80 ≤ b) (pre : List (Option ℕ))
    (hpre : ∀ c, some c ∈ pre → 0x80 ≤ c)
    (heq : ∀ rest, decodeFrom begun (b :: rest) = pre ++ match lead b with
      | none => none :: decodeFrom none rest
      | some s => if s.owed = 0 then some s.bits :: decodeFrom none rest else decodeFrom (some s) rest) :
    ∃ out next, (∀ rest, decodeFrom begun (b :: rest) = out ++ decodeFrom next rest) ∧ Underway next ∧
      (∀ c, some c ∈ out → 0x80 ≤ c) ∧ (out ≠ [] ∨ next ≠ none) := by
  cases hl : lead b with
  | none =>
    rw [hl] at heq
    refine ⟨pre ++ [none], none, fun rest => ?_, (fun s hs => by cases hs), fun c hc => ?_, .inl (by simp)⟩
    · rw [heq, List.append_assoc]
      rfl
    · exact hpre c (by simpa using hc)
  | some s =>
    obtain ⟨hproper, howed⟩ := proper_of_lead hl hb
    rw [hl] at heq
    refine ⟨pre, some s, fun rest => ?_, ?_, hpre, .inr (by simp)⟩
    · rw [heq]
      simp [howed]
    · intro s' hs'
      cases hs'
      exact ⟨hproper, howed⟩

theorem decodeFrom_high {begun : Option Begun} (h : Underway begun) {b : ℕ} (hb : 0x80 ≤ b) :
    ∃ out next, (∀ rest, decodeFrom begun (b :: rest) = out ++ decodeFrom next rest) ∧ Underway next ∧
      (∀ c, some c ∈ out → 0x80 ≤ c) ∧ (out ≠ [] ∨ next ≠ none) := by
  cases begun with
  | none => exact decodeFrom_lead hb [] (fun c hc => by cases hc) fun rest => by simp [decodeFrom]
  | some s =>
    obtain ⟨hproper, howed⟩ := h s rfl
    by_cases hfits : (s.low ≤ b && b ≤ s.high) = true
    · have hlow : s.low ≤ b := of_decide_eq_true (Bool.and_eq_true_iff.mp hfits).1
      by_cases hlast : s.owed - 1 = 0
      · refine ⟨[some (s.bits * 64 + (b - 0x80))], none, fun rest => ?_, (fun s hs => by cases hs), ?_,
          .inl (by simp)⟩
        · simp [decodeFrom, hfits, hlast]
        · intro c hc
          have hbits := hproper.one (by omega)
          rw [Option.some.inj (List.mem_singleton.mp hc)]
          omega
      · refine ⟨[], some { owed := s.owed - 1, bits := s.bits * 64 + (b - 0x80) }, fun rest => ?_, ?_,
          (fun c hc => by cases hc), .inr (by simp)⟩
        · simp [decodeFrom, hfits, hlast]
        · intro s' hs'
          cases hs'
          exact ⟨hproper.next hlow hlast, hlast⟩
    · refine decodeFrom_lead hb [none] (fun c hc => by simp at hc) fun rest => ?_
      simp [decodeFrom, hfits]

theorem underway_none : Underway none := fun s hs => by cases hs

theorem decodeFrom_concat_ascii {begun : Option Begun} (h : Underway begun) (xs : List ℕ) {b : ℕ} (hb : b < 0x80) :
    decodeFrom begun (xs ++ [b]) = decodeFrom begun xs ++ [some b] := by
  induction xs generalizing begun with
  | nil => exact decodeFrom_ascii h hb []
  | cons x xs ih =>
    by_cases hx : x < 0x80
    · rw [List.cons_append, decodeFrom_ascii h hx, decodeFrom_ascii h hx, ih underway_none, List.append_assoc]
      rfl
    · obtain ⟨out, next, heq, hnext, -⟩ := decodeFrom_high h (Nat.not_lt.mp hx)
      rw [List.cons_append, heq, heq, ih hnext, List.append_assoc]

theorem decodeFrom_concat_high {begun : Option Begun} (h : Underway begun) (xs : List ℕ) {b : ℕ} (hb : 0x80 ≤ b) :
    ∃ pre x, decodeFrom begun (xs ++ [b]) = pre ++ [x] ∧ ∀ c, x = some c → 0x80 ≤ c := by
  induction xs generalizing begun with
  | nil =>
    obtain ⟨out, next, heq, -, hout, hne⟩ := decodeFrom_high h hb
    rw [List.nil_append, heq]
    cases next with
    | some s => exact ⟨out, none, rfl, fun c hc => by cases hc⟩
    | none =>
      have hnil : out ≠ [] := hne.resolve_right (by simp)
      refine ⟨out.dropLast, out.getLast hnil, ?_, fun c hc => hout c (hc ▸ List.getLast_mem hnil)⟩
      rw [List.dropLast_concat_getLast]
      exact List.append_nil out
  | cons x xs ih =>
    by_cases hx : x < 0x80
    · obtain ⟨pre, y, heq, hy⟩ := ih underway_none
      exact ⟨decodeFrom begun [] ++ some x :: pre, y, by
        rw [List.cons_append, decodeFrom_ascii h hx, heq, List.append_assoc]; rfl, hy⟩
    · obtain ⟨out, next, heq, hnext, -⟩ := decodeFrom_high h (Nat.not_lt.mp hx)
      obtain ⟨pre, y, heq', hy⟩ := ih hnext
      exact ⟨out ++ pre, y, by rw [List.cons_append, heq, heq', List.append_assoc], hy⟩

theorem decodeReplace_concat_ascii (xs : List ℕ) {b : ℕ} (hb : b < 0x80) :
    decodeReplace (xs ++ [b]) = decodeReplace xs ++ [b] := by
  rw [decodeReplace, decodeFrom_concat_ascii underway_none xs hb, List.map_append, ← decodeReplace]
  rfl

theorem suffix_decodeReplace_iff {ending octets : List ℕ} (hend : ∀ b ∈ ending, b < 0x80) :
    ending <:+ decodeReplace octets ↔ ending <:+ octets := by
  induction ending using List.reverseRecOn generalizing octets with
  | nil => simp
  | append_singleton init b ih =>
    have hb : b < 0x80 := hend b (by simp)
    have hinit : ∀ c ∈ init, c < 0x80 := fun c hc => hend c (by simp [hc])
    rcases List.eq_nil_or_concat octets with rfl | ⟨xs, x, rfl⟩
    · simp [decodeReplace, decodeFrom]
    rw [List.concat_eq_append]
    have hne : init ++ [b] ≠ [] := by simp
    by_cases hx : x < 0x80
    · rw [decodeReplace_concat_ascii xs hx, List.suffix_concat_iff, List.suffix_concat_iff, or_iff_right hne,
        or_iff_right hne]
      refine exists_congr fun t => and_congr_right fun ht => ?_
      rw [← (List.append_singleton_inj.mp ht).1]
      exact ih hinit
    · obtain ⟨pre, y, heq, hy⟩ := decodeFrom_concat_high underway_none xs (Nat.not_lt.mp hx)
      have hlast : b ≠ y.getD 0xFFFD := by
        cases y with
        | none => exact (by simp only [Option.getD_none]; omega)
        | some c =>
          have hc := hy c rfl
          exact (by simp only [Option.getD_some]; omega)
      rw [decodeReplace, heq, List.map_append, List.map_singleton, List.suffix_concat_iff, List.suffix_concat_iff,
        or_iff_right hne, or_iff_right hne]
      constructor
      · rintro ⟨t, ht, -⟩
        exact absurd (List.append_singleton_inj.mp ht).2 hlast
      · rintro ⟨t, ht, -⟩
        have hbx := (List.append_singleton_inj.mp ht).2
        omega

example : decode [0x3C, 0xC3, 0xA4, 0xE2, 0x82, 0xAC] = some [0x3C, 0xE4, 0x20AC] := by decide

example : decodeReplace [0xE2, 0x82, 0x3C, 0xFF] = [0xFFFD, 0x3C, 0xFFFD] := by decide

end TimeCodeSecurity.Utf8
