import Mathlib.Data.List.Nodup
import TimeCodeSecurity.Foundations.Replacing

/-! # Escapes written and undone one after another

Some characters are written as an escape, which one of them begins. The escapes are written by one replacement
after another, that of the beginning character first, and undone by one replacement after another, that of the
beginning character last.
-/
namespace TimeCodeSecurity.Escapes
open Replacing
set_option autoImplicit false

variable {α κ : Type}

/-- `lead` is the character that begins every escape. -/
structure Table (α κ : Type) where
  char : κ → α
  tail : κ → List α
  lead : κ
  width : ℕ
  char_inj : Function.Injective char
  tail_inj : Function.Injective tail
  width_tail : ∀ k, (tail k).length = width
  char_not_mem : ∀ k j, char j ∉ tail k

variable (T : Table α κ)

def Table.code (k : κ) : List α := T.char T.lead :: T.tail k

theorem Table.code_ne_nil (k : κ) : T.code k ≠ [] := List.cons_ne_nil _ _

theorem Table.not_tail_prefix {k j : κ} (h : j ≠ k) (rest : List α) : ¬ T.tail k <+: T.tail j ++ rest := by
  intro hstart
  have hlength : (T.tail k).length = (T.tail j).length := by rw [T.width_tail, T.width_tail]
  have htail : T.tail k <+: T.tail j :=
    List.prefix_of_prefix_length_le hstart (List.prefix_append _ _) (Nat.le_of_eq hlength)
  exact h (T.tail_inj (htail.eq_of_length hlength).symm)

theorem Table.char_not_mem_code {k j : κ} (h : j ≠ T.lead) : T.char j ∉ T.code k := by
  rw [Table.code, List.mem_cons, not_or]
  exact ⟨fun heq => h (T.char_inj heq), T.char_not_mem k j⟩

section Texts
variable [DecidableEq α]

/-- The escapes of `ks`, written in this order. -/
def Table.encode (ks : List κ) (text : List α) : List α :=
  ks.foldl (fun text k => replaceAll [T.char k] (T.code k) text) text

/-- The escapes of `ks`, undone in this order. -/
def Table.decode (ks : List κ) (text : List α) : List α :=
  ks.foldl (fun text k => replaceAll (T.code k) [T.char k] text) text

/-! ## The characters to escape, marked -/

def Table.piece (ks : List κ) (a : α) : Piece α κ :=
  match ks.find? fun k => T.char k = a with
  | some k => .mark k
  | none => .raw a

def Table.pieces (ks : List κ) (text : List α) : List (Piece α κ) := text.map (T.piece ks)

theorem Table.piece_eq_mark {ks : List κ} {a : α} {k : κ} (h : T.piece ks a = .mark k) :
    k ∈ ks ∧ T.char k = a := by
  rw [Table.piece] at h
  cases hfind : ks.find? fun k => T.char k = a with
  | none =>
    rw [hfind] at h
    cases h
  | some j =>
    rw [hfind] at h
    obtain rfl : j = k := Piece.mark.inj h
    exact ⟨List.mem_of_find?_eq_some hfind, by simpa using List.find?_some hfind⟩

theorem Table.piece_eq_raw {ks : List κ} {a b : α} (h : T.piece ks a = .raw b) :
    a = b ∧ ∀ k ∈ ks, b ≠ T.char k := by
  rw [Table.piece] at h
  cases hfind : ks.find? fun k => T.char k = a with
  | some j =>
    rw [hfind] at h
    cases h
  | none =>
    rw [hfind] at h
    obtain rfl : a = b := Piece.raw.inj h
    refine ⟨rfl, fun k hk heq => ?_⟩
    have hnone := List.find?_eq_none.mp hfind k hk
    simp only [decide_eq_true_eq] at hnone
    exact hnone heq.symm

theorem Table.render_pieces (ks : List κ) (text : List α) :
    render (fun k => [T.char k]) (T.pieces ks text) = text := by
  induction text with
  | nil => rfl
  | cons a text ih =>
    rw [Table.pieces, List.map_cons, ← Table.pieces]
    cases h : T.piece ks a with
    | raw b => rw [render, ih, (T.piece_eq_raw h).1]
    | mark k => rw [render, ih, (T.piece_eq_mark h).2, List.singleton_append]

theorem Table.mem_of_marks {ks : List κ} {text : List α} {k : κ} (h : k ∈ marks (T.pieces ks text)) : k ∈ ks := by
  induction text with
  | nil => cases h
  | cons a text ih =>
    rw [Table.pieces, List.map_cons, ← Table.pieces] at h
    cases hpiece : T.piece ks a with
    | raw b =>
      rw [hpiece] at h
      exact ih h
    | mark j =>
      rw [hpiece, marks, List.mem_cons] at h
      rcases h with rfl | h
      · exact (T.piece_eq_mark hpiece).1
      · exact ih h

theorem Table.scans {ks : List κ} {f : κ → List α} {k : κ} {c : α} {rest : List α} (hk : f k = c :: rest)
    (hraw : ∃ j ∈ ks, c = T.char j)
    (hmark : ∀ j, j ≠ k → c ∉ f j ∨ ∃ t, f j = c :: t ∧ c ∉ t ∧ ∀ u, ¬ rest <+: t ++ u) (text : List α) :
    Scans f k (T.pieces ks text) := by
  induction text with
  | nil => trivial
  | cons a text ih =>
    rw [Table.pieces, List.map_cons, ← Table.pieces]
    cases hpiece : T.piece ks a with
    | raw b =>
      refine ⟨fun hstart => ?_, ih⟩
      rw [hk, List.cons_prefix_cons] at hstart
      obtain ⟨j, hj, hc⟩ := hraw
      exact (T.piece_eq_raw hpiece).2 j hj (hstart.1.symm.trans hc)
    | mark j =>
      refine ⟨or_iff_not_imp_left.mpr fun hj i hi hstart => ?_, ih⟩
      rw [hk, List.drop_eq_getElem_cons hi, List.cons_append, List.cons_prefix_cons] at hstart
      obtain ⟨hc, hrest⟩ := hstart
      rcases hmark j hj with hfree | ⟨t, ht, hfree, hnot⟩
      · exact hfree (hc ▸ List.getElem_mem hi)
      · cases i with
        | zero =>
          rw [ht] at hrest
          exact hnot _ hrest
        | succ i =>
          have hmem : c ∈ t := by
            simp only [ht, List.getElem_cons_succ] at hc
            exact hc ▸ List.getElem_mem _
          exact hfree hmem

variable [DecidableEq κ]

theorem Table.scansAll_encode {all : List κ} (text : List α) {ks : List κ} (hks : ∀ k ∈ ks, k ∈ all)
    (hlead : ks.Pairwise fun _ k => k ≠ T.lead) {f : κ → List α} (hnodup : ks.Nodup)
    (hstill : ∀ k ∈ ks, f k = [T.char k])
    (hf : ∀ k, f k = [T.char k] ∨ f k = T.code k ∧ T.lead ∉ ks) :
    ScansAll f T.code (T.pieces all text) ks := by
  induction ks generalizing f with
  | nil => trivial
  | cons k ks ih =>
    rw [List.forall_mem_cons] at hks
    obtain ⟨hfirst, hlead⟩ := List.pairwise_cons.mp hlead
    obtain ⟨hk, hnodup⟩ := List.nodup_cons.mp hnodup
    have hfk : f k = [T.char k] := hstill k List.mem_cons_self
    refine ⟨T.scans hfk ⟨k, hks.1, rfl⟩ (fun j hj => .inl ?_) text, ih hks.2 hlead hnodup ?_ ?_⟩
    · rcases hf j with hsingle | ⟨hcode, habsent⟩
      · rw [hsingle, List.mem_singleton]
        exact fun heq => hj (T.char_inj heq).symm
      · rw [hcode]
        exact T.char_not_mem_code fun heq => habsent (heq ▸ List.mem_cons_self)
    · intro j hj
      have hne : j ≠ k := fun heq => hk (heq ▸ hj)
      rw [Function.update_of_ne hne]
      exact hstill j (List.mem_cons_of_mem k hj)
    · intro j
      by_cases hj : j = k
      · refine .inr ⟨by rw [hj, Function.update_self], fun hmem => hfirst _ hmem rfl⟩
      · rw [Function.update_of_ne hj]
        exact (hf j).imp_right fun h => ⟨h.1, fun hmem => h.2 (List.mem_cons_of_mem k hmem)⟩

theorem Table.scansAll_decode {all : List κ} (hall : T.lead ∈ all) (text : List α) {ks : List κ}
    (hlead : ks.Pairwise fun k _ => k ≠ T.lead) {f : κ → List α} (hnodup : ks.Nodup)
    (hstill : ∀ k ∈ ks, f k = T.code k)
    (hf : ∀ k, f k = T.code k ∨ f k = [T.char k] ∧ (k = T.lead → ks = [])) :
    ScansAll f (fun k => [T.char k]) (T.pieces all text) ks := by
  induction ks generalizing f with
  | nil => trivial
  | cons k ks ih =>
    obtain ⟨hfirst, hlead⟩ := List.pairwise_cons.mp hlead
    obtain ⟨hk, hnodup⟩ := List.nodup_cons.mp hnodup
    have hfk : f k = T.char T.lead :: T.tail k := hstill k List.mem_cons_self
    refine ⟨T.scans hfk ⟨T.lead, hall, rfl⟩ (fun j hj => ?_) text, ih hlead hnodup ?_ ?_⟩
    · rcases hf j with hcode | ⟨hsingle, hnone⟩
      · exact .inr ⟨T.tail j, hcode, T.char_not_mem j T.lead, T.not_tail_prefix hj⟩
      · left
        rw [hsingle, List.mem_singleton]
        exact fun heq => List.cons_ne_nil k ks (hnone (T.char_inj heq).symm)
    · intro j hj
      have hne : j ≠ k := fun heq => hk (heq ▸ hj)
      rw [Function.update_of_ne hne]
      exact hstill j (List.mem_cons_of_mem k hj)
    · intro j
      by_cases hj : j = k
      · refine .inr ⟨by rw [hj, Function.update_self], fun hlast => ?_⟩
        exact List.eq_nil_iff_forall_not_mem.mpr fun i hi => hfirst i hi (hj ▸ hlast)
      · rw [Function.update_of_ne hj]
        exact (hf j).imp_right fun h => ⟨h.1, fun hlast => absurd (h.2 hlast) (List.cons_ne_nil k ks)⟩

theorem Table.encode_eq_render {ks : List κ} (hnodup : ks.Nodup) (hlead : ks.Pairwise fun _ k => k ≠ T.lead)
    (text : List α) : T.encode ks text = render T.code (T.pieces ks text) := by
  have hscans := T.scansAll_encode text (fun _ hk => hk) hlead (f := fun k => [T.char k]) hnodup
    (fun _ _ => rfl) fun _ => .inl rfl
  have hfold := foldl_replaceAll_render hnodup (fun k _ => List.cons_ne_nil (T.char k) []) hscans
  rw [T.render_pieces] at hfold
  rw [Table.encode, hfold]
  refine render_congr fun k hk => ?_
  rw [override, if_pos (T.mem_of_marks hk)]

theorem Table.decode_encode {ks ds : List κ} (hks : ks.Nodup) (hfirst : ks.Pairwise fun _ k => k ≠ T.lead)
    (hmem : T.lead ∈ ks) (hds : ds.Nodup) (hlast : ds.Pairwise fun k _ => k ≠ T.lead)
    (hall : ∀ k ∈ ks, k ∈ ds) (text : List α) : T.decode ds (T.encode ks text) = text := by
  have hscans := T.scansAll_decode hmem text hlast (f := T.code) hds (fun _ _ => rfl) fun _ => .inl rfl
  rw [T.encode_eq_render hks hfirst, Table.decode, foldl_replaceAll_render hds (fun k _ => T.code_ne_nil k) hscans]
  have hsingle : render (override T.code (fun k => [T.char k]) ds) (T.pieces ks text) =
      render (fun k => [T.char k]) (T.pieces ks text) := by
    refine render_congr fun k hk => ?_
    rw [override, if_pos (hall k (T.mem_of_marks hk))]
  rw [hsingle, T.render_pieces]

theorem Table.char_not_mem_encode {ks : List κ} (hnodup : ks.Nodup)
    (hlead : ks.Pairwise fun _ k => k ≠ T.lead) {k : κ} (hk : k ∈ ks) (hne : k ≠ T.lead) (text : List α) :
    T.char k ∉ T.encode ks text := by
  rw [T.encode_eq_render hnodup hlead]
  induction text with
  | nil => exact List.not_mem_nil
  | cons a text ih =>
    rw [Table.pieces, List.map_cons, ← Table.pieces]
    cases hpiece : T.piece ks a with
    | raw b =>
      rw [render, List.mem_cons, not_or]
      exact ⟨fun heq => (T.piece_eq_raw hpiece).2 k hk heq.symm, ih⟩
    | mark j =>
      rw [render, List.mem_append, not_or]
      exact ⟨T.char_not_mem_code hne, ih⟩

end Texts

end TimeCodeSecurity.Escapes
