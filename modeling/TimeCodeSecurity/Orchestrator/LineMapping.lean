import TimeCodeSecurity.Orchestrator.Remediation

/-! # Lines of pending findings

`map_line_number`: a finding that waits while another one is patched is moved by the opcodes of `difflib`. These
cut both texts into blocks from the left to the right; the lines of an equal block are the same in both.
-/
namespace TimeCodeSecurity.Orchestrator
open KeptLines
set_option autoImplicit false

/-- `content.splitlines(keepends=True)`. -/
def contentLines (content : Text) : List Text := cut Scanner.isLineBoundary content

/-! ## Blocks -/

section
variable {α : Type} (prev new : List α)

def Opcode.Agrees (op : Opcode) : Prop :=
  op.i2 - op.i1 = op.j2 - op.j1 ∧
    ∀ d : ℕ, d < op.i2 - op.i1 → prev[op.i1.toNat + d]? = new[op.j1.toNat + d]?

def Partition : ℕ → ℕ → List Opcode → Prop
  | i, j, [] => i = prev.length ∧ j = new.length
  | i, j, op :: rest => op.i1 = i ∧ op.j1 = j ∧ (op.equal = true → op.Agrees prev new) ∧
      ∃ i' j' : ℕ, op.i2 = i' ∧ op.j2 = j' ∧ i ≤ i' ∧ j ≤ j' ∧ Partition i' j' rest

def Opcode.target (op : Opcode) (k : ℤ) : ℤ := if op.equal then op.j1 + (k - op.i1) + 1 else op.j1 + 1

end

section
variable {α : Type} {prev new : List α} {i j : ℕ} {ops : List Opcode}

theorem Partition.le (h : Partition prev new i j ops) : i ≤ prev.length ∧ j ≤ new.length := by
  induction ops generalizing i j with
  | nil => exact ⟨h.1.le, h.2.le⟩
  | cons op rest ih =>
    obtain ⟨-, -, -, i', j', -, -, hi, hj, hrest⟩ := h
    have hle := ih hrest
    exact ⟨hi.trans hle.1, hj.trans hle.2⟩

structure Opcode.InPartition (prev new : List α) (op : Opcode) : Prop where
  start : 0 ≤ op.i1 ∧ 0 ≤ op.j1
  forward : op.i1 ≤ op.i2 ∧ op.j1 ≤ op.j2
  inside : op.i2 ≤ prev.length ∧ op.j2 ≤ new.length
  agrees : op.equal = true → op.Agrees prev new

theorem Partition.block (h : Partition prev new i j ops) {op : Opcode} (hop : op ∈ ops) :
    op.InPartition prev new := by
  induction ops generalizing i j with
  | nil => cases hop
  | cons head rest ih =>
    obtain ⟨hi1, hj1, hagrees, i', j', hi2, hj2, hi, hj, hrest⟩ := h
    rcases List.mem_cons.mp hop with rfl | hop
    · have hle := hrest.le
      exact ⟨by omega, by omega, by omega, hagrees⟩
    · exact ih hrest hop

theorem mapThrough_eq (h : Partition prev new i j ops) {k : ℕ} (hi : i ≤ k) (hk : k < prev.length)
    (oldLine shift : ℤ) :
    ∃ op ∈ ops, op.i1 ≤ k ∧ k < op.i2 ∧ mapThrough oldLine k shift ops = op.target k := by
  induction ops generalizing i j shift with
  | nil =>
    have hlast := h.1
    omega
  | cons op rest ih =>
    obtain ⟨hi1, -, -, i', j', hi2, -, -, -, hrest⟩ := h
    by_cases hbehind : i' ≤ k
    · obtain ⟨op', hop', hin⟩ := ih hrest hbehind (shift + ((op.j2 - op.j1) - (op.i2 - op.i1)))
      refine ⟨op', List.mem_cons_of_mem _ hop', ?_⟩
      rwa [mapThrough, if_pos (by omega)]
    · refine ⟨op, List.mem_cons_self, by omega, by omega, ?_⟩
      rw [mapThrough, if_neg (by omega), if_pos (by omega)]
      rfl

theorem mapThrough_gt (h : Partition prev new i j ops) {k : ℕ} (hi : i ≤ k) (hk : k < prev.length)
    (oldLine shift : ℤ) : j < mapThrough oldLine k shift ops := by
  induction ops generalizing i j shift with
  | nil =>
    have hlast := h.1
    omega
  | cons op rest ih =>
    obtain ⟨hi1, hj1, -, i', j', hi2, hj2, -, hj, hrest⟩ := h
    rw [mapThrough]
    split
    · have hlater := ih hrest (by omega) (shift + ((op.j2 - op.j1) - (op.i2 - op.i1)))
      omega
    · rw [if_pos (by omega)]
      split <;> omega

theorem mapThrough_mono (h : Partition prev new i j ops) {k k' : ℕ} (hi : i ≤ k) (hkk : k ≤ k')
    (hk' : k' < prev.length) (oldLine oldLine' shift : ℤ) :
    mapThrough oldLine k shift ops ≤ mapThrough oldLine' k' shift ops := by
  induction ops generalizing i j shift with
  | nil =>
    have hlast := h.1
    omega
  | cons op rest ih =>
    obtain ⟨hi1, hj1, hagrees, i', j', hi2, hj2, -, hj, hrest⟩ := h
    rw [mapThrough, mapThrough]
    by_cases hk : op.i2 ≤ k
    · rw [if_pos hk, if_pos (by omega)]
      exact ih hrest (by omega) _
    rw [if_neg hk, if_pos (by omega)]
    by_cases hlater : op.i2 ≤ k'
    · rw [if_pos hlater]
      have hgt := mapThrough_gt hrest (by omega) hk' oldLine'
        (shift + ((op.j2 - op.j1) - (op.i2 - op.i1)))
      by_cases hequal : op.equal = true
      · have hlength := (hagrees hequal).1
        rw [if_pos hequal]
        omega
      · rw [if_neg hequal]
        omega
    · have hin : op.i1 ≤ k' := by omega
      rw [if_neg hlater, if_pos hin]
      split <;> omega

end

/-! ## Tracking -/

section
variable {ρ κ σ : Type} (E : Engines ρ κ σ)

/-- What `difflib` promises of its opcodes. -/
def OpcodesPartition (prevContent newContent : Text) : Prop :=
  Partition (contentLines prevContent) (contentLines newContent) 0 0 (E.opcodes prevContent newContent)

/-- The lines of pending findings follow the edit. -/
structure TracksLines (prevContent newContent : Text) : Prop where
  sameText : ∀ op ∈ E.opcodes prevContent newContent, op.equal = true → ∀ oldLine : ℕ,
    op.i1 < oldLine → oldLine ≤ op.i2 → ∃ line,
      (contentLines prevContent)[oldLine - 1]? = some line ∧
        (contentLines newContent)[(mapLineNumber E prevContent newContent oldLine - 1).toNat]? = some line
  inRange : newContent ≠ [] → ∀ oldLine : ℕ, 1 ≤ oldLine → oldLine ≤ (contentLines prevContent).length →
    1 ≤ mapLineNumber E prevContent newContent oldLine ∧
      mapLineNumber E prevContent newContent oldLine ≤ (contentLines newContent).length
  monotone : ∀ oldLine oldLine' : ℕ, 1 ≤ oldLine → oldLine ≤ oldLine' →
    oldLine' ≤ (contentLines prevContent).length →
      mapLineNumber E prevContent newContent oldLine ≤ mapLineNumber E prevContent newContent oldLine'

variable {E} {prevContent newContent : Text}

theorem mapLineNumber_of_pos (k : ℕ) : mapLineNumber E prevContent newContent (k + 1 : ℕ) =
    mapThrough (k + 1 : ℕ) k 0 (E.opcodes prevContent newContent) := by
  rw [mapLineNumber, if_neg (by omega)]
  congr 1
  omega

theorem mapLineNumber_mono (h : OpcodesPartition E prevContent newContent) {oldLine oldLine' : ℕ}
    (hpos : 1 ≤ oldLine) (hle : oldLine ≤ oldLine') (hlast : oldLine' ≤ (contentLines prevContent).length) :
    mapLineNumber E prevContent newContent oldLine ≤ mapLineNumber E prevContent newContent oldLine' := by
  obtain ⟨k, rfl⟩ := Nat.exists_eq_add_of_le' hpos
  obtain ⟨k', rfl⟩ := Nat.exists_eq_add_of_le' (hpos.trans hle)
  rw [mapLineNumber_of_pos, mapLineNumber_of_pos]
  exact mapThrough_mono h (Nat.zero_le k) (by omega) (by omega) _ _ 0

theorem mapLineNumber_eq (h : OpcodesPartition E prevContent newContent) {k : ℕ}
    (hk : k < (contentLines prevContent).length) :
    ∃ op ∈ E.opcodes prevContent newContent, op.InPartition (contentLines prevContent) (contentLines newContent) ∧
      op.i1 ≤ k ∧ k < op.i2 ∧ mapLineNumber E prevContent newContent (k + 1 : ℕ) = op.target k := by
  obtain ⟨op, hop, hstart, hstop, htarget⟩ := mapThrough_eq h (Nat.zero_le k) hk (k + 1 : ℕ) 0
  exact ⟨op, hop, h.block hop, hstart, hstop, (mapLineNumber_of_pos k).trans htarget⟩

theorem Partition.disjoint {α : Type} {prev new : List α} {i j : ℕ} {ops : List Opcode}
    (h : Partition prev new i j ops) {op op' : Opcode} (hop : op ∈ ops) (hop' : op' ∈ ops) {k : ℤ}
    (hin : op.i1 ≤ k ∧ k < op.i2) (hin' : op'.i1 ≤ k ∧ k < op'.i2) : op = op' := by
  have hlater : ∀ {i j : ℕ} {ops : List Opcode}, Partition prev new i j ops → ∀ o ∈ ops, (i : ℤ) ≤ o.i1 := by
    intro i j ops
    induction ops generalizing i j with
    | nil => simp
    | cons head rest ih =>
      rintro ⟨hi1, -, -, i', j', hi2, -, hi, -, hrest⟩ o ho
      rcases List.mem_cons.mp ho with rfl | ho
      · exact hi1.ge
      · have hle := ih hrest o ho
        omega
  induction ops generalizing i j with
  | nil => cases hop
  | cons head rest ih =>
    obtain ⟨hi1, -, -, i', j', hi2, -, hi, -, hrest⟩ := h
    rcases List.mem_cons.mp hop with heq | hmem <;> rcases List.mem_cons.mp hop' with heq' | hmem'
    · exact heq.trans heq'.symm
    · have hle := hlater hrest op' hmem'
      rw [heq] at hin
      omega
    · have hle := hlater hrest op hmem
      rw [heq'] at hin'
      omega
    · exact ih hrest hmem hmem'

theorem sameText_of_partition (h : OpcodesPartition E prevContent newContent) {op : Opcode}
    (hop : op ∈ E.opcodes prevContent newContent) (hequal : op.equal = true) {oldLine : ℕ}
    (hstart : op.i1 < oldLine) (hstop : oldLine ≤ op.i2) : ∃ line,
      (contentLines prevContent)[oldLine - 1]? = some line ∧
        (contentLines newContent)[(mapLineNumber E prevContent newContent oldLine - 1).toNat]? = some line := by
  have hblock := h.block hop
  obtain ⟨k, rfl⟩ := Nat.exists_eq_add_of_le' (show 1 ≤ oldLine by have := hblock.start; omega)
  have hk : k < (contentLines prevContent).length := by
    have := hblock.inside
    omega
  obtain ⟨op', hop', -, hstart', hstop', htarget⟩ := mapLineNumber_eq h hk
  obtain rfl := h.disjoint hop hop' (k := k) (by omega) ⟨hstart', hstop'⟩
  obtain ⟨d, hd⟩ := Int.eq_ofNat_of_zero_le (show 0 ≤ k - op.i1 by omega)
  have hagree := (hblock.agrees hequal).2 d (by omega)
  have hold : op.i1.toNat + d = k := by
    have := hblock.start
    omega
  have hnew : (op.target k - 1).toNat = op.j1.toNat + d := by
    have := hblock.start
    rw [Opcode.target, if_pos hequal]
    omega
  rw [htarget, hnew, ← hagree, hold, Nat.add_sub_cancel, List.getElem?_eq_getElem hk]
  exact ⟨_, rfl, rfl⟩

/-- **Pending lines track the edit**, unless lines behind the last one of the new text are deleted. -/
theorem tracksLines_iff (h : OpcodesPartition E prevContent newContent) :
    TracksLines E prevContent newContent ↔ (newContent ≠ [] →
      ∀ op ∈ E.opcodes prevContent newContent, op.i1 < op.i2 → op.j1 < (contentLines newContent).length) := by
  constructor
  · intro htracks hne op hop hlines
    have hblock := h.block hop
    obtain ⟨k, hk⟩ := Int.eq_ofNat_of_zero_le hblock.start.1
    have hlast := hblock.inside
    have hrange := htracks.inRange hne (k + 1) (by omega) (by omega)
    obtain ⟨op', hop', -, hstart', hstop', htarget⟩ :=
      mapLineNumber_eq h (show k < (contentLines prevContent).length by omega)
    obtain rfl := h.disjoint hop hop' (k := k) (by omega) ⟨hstart', hstop'⟩
    rw [htarget, Opcode.target] at hrange
    split at hrange <;> omega
  · intro hdeleted
    refine ⟨fun op hop hequal oldLine => sameText_of_partition h hop hequal, ?_, fun _ _ => mapLineNumber_mono h⟩
    intro hne oldLine hpos hlast
    obtain ⟨k, rfl⟩ := Nat.exists_eq_add_of_le' hpos
    obtain ⟨op, hop, hblock, hstart, hstop, htarget⟩ := mapLineNumber_eq h (Nat.lt_of_succ_le hlast)
    have hj := hblock.start
    have hinside := hblock.inside
    have hlt := hdeleted hne op hop (by omega)
    rw [htarget, Opcode.target]
    split
    next hequal =>
      have hlength := (hblock.agrees hequal).1
      omega
    · omega

end

def enginesWith (ops : List Opcode) : Engines Unit Unit Unit where
  refineFindingLineNumber := fun _ _ => .error ""
  remediate := fun _ _ _ => .error ""
  resolveTargetSignature := fun _ _ => none
  verifyFix := none
  opcodes := fun _ _ => ops
  scanSourceForVerification := fun _ _ => .error ""

namespace LineInserted

/-- A line is put in front of the one line there is. -/
def engines : Engines Unit Unit Unit := enginesWith [⟨false, 0, 0, 0, 1⟩, ⟨true, 0, 1, 1, 2⟩]

def before : Text := ['a', '\n']

def after : Text := ['x', '\n', 'a', '\n']

theorem opcodesPartition : OpcodesPartition engines before after := by
  refine ⟨rfl, rfl, ?_, 0, 1, rfl, rfl, by decide, by decide, rfl, rfl, fun _ => ⟨rfl, fun d hd => ?_⟩, 1, 2,
    rfl, rfl, by decide, by decide, rfl, rfl⟩
  · intro hequal
    cases hequal
  · have hlt : (d : ℤ) < 1 := hd
    obtain rfl : d = 0 := by omega
    rfl

end LineInserted

open LineInserted in
theorem tracksLines_of_insertion : TracksLines engines before after := by
  refine (tracksLines_iff opcodesPartition).mpr fun _ op hop hlines => ?_
  have hcases : op = ⟨false, 0, 0, 0, 1⟩ ∨ op = ⟨true, 0, 1, 1, 2⟩ := by simpa [engines, enginesWith] using hop
  rcases hcases with rfl | rfl
  · exact absurd hlines (by decide)
  · decide

namespace LastLineDeleted

/-- Of two lines the second is deleted. -/
def engines : Engines Unit Unit Unit := enginesWith [⟨true, 0, 1, 0, 1⟩, ⟨false, 1, 2, 1, 1⟩]

def before : Text := ['a', '\n', 'b', '\n']

def after : Text := ['a', '\n']

end LastLineDeleted

open LastLineDeleted in
theorem deleted_line_is_past_the_end :
    OpcodesPartition engines before after ∧ ¬ TracksLines engines before after := by
  refine ⟨⟨rfl, rfl, fun _ => ⟨rfl, fun d hd => ?_⟩, 1, 1, rfl, rfl, by decide, by decide, rfl, rfl, ?_,
    2, 1, rfl, rfl, by decide, by decide, rfl, rfl⟩, fun h => ?_⟩
  · have hlt : (d : ℤ) < 1 := hd
    obtain rfl : d = 0 := by omega
    rfl
  · intro hequal
    cases hequal
  · have hrange := h.inRange (by decide) 2 (by decide) (by decide)
    revert hrange
    decide

end TimeCodeSecurity.Orchestrator
