import Mathlib.Data.List.Basic

/-! # Replacing pieces of a text

A text is read as single characters and marked pieces. When a scan for the text of a mark finds it at the
mark's own places only, replacing the text everywhere changes the text of that mark and nothing else.
-/
namespace TimeCodeSecurity.Replacing
set_option autoImplicit false

variable {α κ : Type}

def replaceFrom [DecidableEq α] (old new : List α) : ℕ → List α → List α
  | _, [] => []
  | 0, c :: rest =>
    if old.isPrefixOf (c :: rest) then new ++ replaceFrom old new (old.length - 1) rest
    else c :: replaceFrom old new 0 rest
  | skip + 1, _ :: rest => replaceFrom old new skip rest

/-- `text.replace(old, new)` for a text `old` that is not empty. -/
def replaceAll [DecidableEq α] (old new text : List α) : List α := replaceFrom old new 0 text

inductive Piece (α κ : Type)
  | raw (a : α)
  | mark (k : κ)

/-- The text in which the mark `k` reads `f k`. -/
def render (f : κ → List α) : List (Piece α κ) → List α
  | [] => []
  | .raw a :: ps => a :: render f ps
  | .mark k :: ps => f k ++ render f ps

def marks : List (Piece α κ) → List κ
  | [] => []
  | .raw _ :: ps => marks ps
  | .mark k :: ps => k :: marks ps

/-- A scan from the left finds the text of the mark `k` at the marks `k` only. -/
def Scans (f : κ → List α) (k : κ) : List (Piece α κ) → Prop
  | [] => True
  | .raw a :: ps => ¬ f k <+: a :: render f ps ∧ Scans f k ps
  | .mark j :: ps =>
    (j = k ∨ ∀ i < (f j).length, ¬ f k <+: (f j).drop i ++ render f ps) ∧ Scans f k ps

instance Scans.decidable [DecidableEq α] [DecidableEq κ] (f : κ → List α) (k : κ) :
    ∀ ps : List (Piece α κ), Decidable (Scans f k ps)
  | [] => .isTrue trivial
  | .raw a :: ps =>
    have := Scans.decidable f k ps
    inferInstanceAs (Decidable (¬ f k <+: a :: render f ps ∧ Scans f k ps))
  | .mark j :: ps =>
    have := Scans.decidable f k ps
    inferInstanceAs (Decidable
      ((j = k ∨ ∀ i < (f j).length, ¬ f k <+: (f j).drop i ++ render f ps) ∧ Scans f k ps))

theorem render_congr {f g : κ → List α} {ps : List (Piece α κ)} (h : ∀ k ∈ marks ps, f k = g k) :
    render f ps = render g ps := by
  induction ps with
  | nil => rfl
  | cons p ps ih =>
    cases p with
    | raw a => rw [render, render, ih h]
    | mark k =>
      rw [marks, List.forall_mem_cons] at h
      rw [render, render, h.1, ih h.2]

variable [DecidableEq α]

theorem replaceFrom_skip (old new xs rest : List α) :
    replaceFrom old new xs.length (xs ++ rest) = replaceFrom old new 0 rest := by
  induction xs with
  | nil => rfl
  | cons x xs ih => exact ih

theorem replaceAll_match {old : List α} (new : List α) (hold : old ≠ []) (rest : List α) :
    replaceAll old new (old ++ rest) = new ++ replaceAll old new rest := by
  obtain ⟨c, cs, rfl⟩ := List.exists_cons_of_ne_nil hold
  have hprefix : (c :: cs).isPrefixOf (c :: (cs ++ rest)) = true :=
    List.isPrefixOf_iff_prefix.mpr (List.prefix_append (c :: cs) rest)
  rw [replaceAll, List.cons_append, replaceFrom, if_pos hprefix, List.length_cons, Nat.add_sub_cancel,
    replaceFrom_skip]
  rfl

theorem replaceAll_cons {old : List α} (new : List α) {c : α} {rest : List α} (h : ¬ old <+: c :: rest) :
    replaceAll old new (c :: rest) = c :: replaceAll old new rest := by
  have hprefix : ¬ old.isPrefixOf (c :: rest) = true := fun hp => h (List.isPrefixOf_iff_prefix.mp hp)
  rw [replaceAll, replaceFrom, if_neg hprefix]
  rfl

theorem replaceAll_append {old : List α} (new : List α) (xs rest : List α)
    (h : ∀ i < xs.length, ¬ old <+: xs.drop i ++ rest) :
    replaceAll old new (xs ++ rest) = xs ++ replaceAll old new rest := by
  induction xs with
  | nil => rfl
  | cons x xs ih =>
    have hhead : ¬ old <+: x :: (xs ++ rest) := h 0 (Nat.zero_lt_succ _)
    have htail : ∀ i < xs.length, ¬ old <+: xs.drop i ++ rest := fun i hi =>
      h (i + 1) (Nat.succ_lt_succ hi)
    rw [List.cons_append, replaceAll_cons new hhead, ih htail, List.cons_append]

variable [DecidableEq κ]

theorem replaceAll_render {f : κ → List α} {k : κ} (new : List α) (hne : f k ≠ []) {ps : List (Piece α κ)}
    (h : Scans f k ps) : replaceAll (f k) new (render f ps) = render (Function.update f k new) ps := by
  induction ps with
  | nil => rfl
  | cons p ps ih =>
    cases p with
    | raw a =>
      obtain ⟨hhead, htail⟩ := h
      rw [render, render, replaceAll_cons new hhead, ih htail]
    | mark j =>
      obtain ⟨hhead, htail⟩ := h
      rw [render, render]
      by_cases hj : j = k
      · rw [hj, replaceAll_match new hne, ih htail, Function.update_self]
      · rw [replaceAll_append new _ _ (hhead.resolve_left hj), ih htail, Function.update_of_ne hj]

/-- The text in which the marks of `ks` read by `g` and the others by `f`. -/
def override (f g : κ → List α) (ks : List κ) (k : κ) : List α := if k ∈ ks then g k else f k

def ScansAll (f g : κ → List α) (ps : List (Piece α κ)) : List κ → Prop
  | [] => True
  | k :: ks => Scans f k ps ∧ ScansAll (Function.update f k (g k)) g ps ks

instance ScansAll.decidable (f g : κ → List α) (ps : List (Piece α κ)) :
    ∀ ks : List κ, Decidable (ScansAll f g ps ks)
  | [] => .isTrue trivial
  | k :: ks =>
    have := ScansAll.decidable (Function.update f k (g k)) g ps ks
    inferInstanceAs (Decidable (Scans f k ps ∧ ScansAll (Function.update f k (g k)) g ps ks))

theorem foldl_replaceAll_render {f g : κ → List α} {ps : List (Piece α κ)} {ks : List κ}
    (hnodup : ks.Nodup) (hne : ∀ k ∈ ks, f k ≠ []) (h : ScansAll f g ps ks) :
    ks.foldl (fun text k => replaceAll (f k) (g k) text) (render f ps) = render (override f g ks) ps := by
  induction ks generalizing f with
  | nil => exact render_congr fun k _ => by simp [override]
  | cons k ks ih =>
    obtain ⟨hhead, htail⟩ := h
    obtain ⟨hk, hnodup⟩ := List.nodup_cons.mp hnodup
    rw [List.forall_mem_cons] at hne
    -- the texts still to be replaced are the same after this one
    have hsame : ∀ j ∈ ks, Function.update f k (g k) j = f j := by
      intro j hj
      have hjk : j ≠ k := fun heq => hk (heq ▸ hj)
      rw [Function.update_of_ne hjk]
    have hrest := ih hnodup (fun j hj => by rw [hsame j hj]; exact hne.2 j hj) htail
    rw [List.foldl_cons, replaceAll_render (g k) hne.1 hhead]
    have hfold : ks.foldl (fun text j => replaceAll (f j) (g j) text)
          (render (Function.update f k (g k)) ps) =
        ks.foldl (fun text j => replaceAll (Function.update f k (g k) j) (g j) text)
          (render (Function.update f k (g k)) ps) :=
      List.foldl_ext _ _ _ fun text j hj => by rw [hsame j hj]
    rw [hfold, hrest]
    refine render_congr fun j _ => ?_
    by_cases hjk : j = k
    · simp [override, hjk, hk]
    · simp [override, hjk]

end TimeCodeSecurity.Replacing

/-! ## Writing over spans

Spans of a row of cells are written over in place, one after the other. Some cells are kept; over the other cells of
a span comes a text, with blanks behind it. The kept cells stay where they are, so what a span leaves at a place is
known from the row as it was before any of them.
-/
namespace TimeCodeSecurity.Overwriting

structure Span (α : Type) where
  start : ℕ
  stop : ℕ
  text : List α
deriving DecidableEq, Repr

def Span.Covers {α : Type} (s : Span α) (p : ℕ) : Prop := s.start ≤ p ∧ p < s.stop

instance {α : Type} (s : Span α) (p : ℕ) : Decidable (s.Covers p) :=
  inferInstanceAs (Decidable (s.start ≤ p ∧ p < s.stop))

section
variable {α : Type} (keep : α → Bool) (blank : α)

def fill : List α → List α → List α
  | _, [] => []
  | text, c :: cells =>
    if keep c then c :: fill text cells else text.headD blank :: fill text.tail cells

def write (cells : List α) (s : Span α) : List α :=
  cells.take s.start ++ fill keep blank s.text ((cells.take s.stop).drop s.start) ++
    cells.drop (max s.start s.stop)

def leaves (cells : List α) (p : ℕ) (s : Span α) : Option α :=
  if s.Covers p then (fill keep blank s.text ((cells.take s.stop).drop s.start))[p - s.start]? else none

def kept (cells : List α) : List (Option α) := cells.map fun c => if keep c then some c else none

/-! ## One span -/

variable {keep blank}

@[simp]
theorem kept_cons (c : α) (cells : List α) :
    kept keep (c :: cells) = (if keep c then some c else none) :: kept keep cells := rfl

theorem length_eq_of_kept {cells cells' : List α} (h : kept keep cells = kept keep cells') :
    cells.length = cells'.length := by
  simpa [kept] using congrArg List.length h

theorem getElem?_of_kept {cells cells' : List α} (h : kept keep cells = kept keep cells') {c : α}
    (hc : keep c = true) (p : ℕ) : cells[p]? = some c ↔ cells'[p]? = some c := by
  have hread : ∀ row : List α, row[p]? = some c ↔ (kept keep row)[p]? = some (some c) := by
    intro row
    rw [kept, List.getElem?_map]
    cases row[p]? with
    | none => simp
    | some d =>
      by_cases hd : keep d = true
      · simp [hd]
      · have hne : d ≠ c := fun h => hd (h ▸ hc)
        simp [hd, hne]
  rw [hread, hread, h]

@[simp]
theorem length_fill (text cells : List α) : (fill keep blank text cells).length = cells.length := by
  induction cells generalizing text with
  | nil => simp [fill]
  | cons c cells ih =>
    rw [fill]
    split <;> simp [ih]

theorem fill_congr {cells cells' : List α} (h : kept keep cells = kept keep cells') (text : List α) :
    fill keep blank text cells = fill keep blank text cells' := by
  induction cells generalizing cells' text with
  | nil =>
    have hnil : cells' = [] := List.length_eq_zero_iff.mp (length_eq_of_kept h).symm
    rw [hnil]
  | cons c cells ih =>
    cases cells' with
    | nil => simp [kept] at h
    | cons c' cells' =>
      obtain ⟨hhead, htail⟩ := List.cons.inj h
      have hrest := fun text => ih htail text
      by_cases hc : keep c = true
      · have hc' : keep c' = true ∧ c = c' := by
          by_cases hc' : keep c' = true <;> simp_all
        rw [fill, fill, if_pos hc, if_pos hc'.1, hc'.2, hrest]
      · have hc' : ¬keep c' = true := by
          intro hc'
          simp [hc, hc'] at hhead
        rw [fill, fill, if_neg hc, if_neg hc', hrest]

theorem kept_fill (hblank : keep blank = false) {text : List α} (htext : ∀ c ∈ text, keep c = false)
    (cells : List α) : kept keep (fill keep blank text cells) = kept keep cells := by
  induction cells generalizing text with
  | nil => simp [fill]
  | cons c cells ih =>
    by_cases hc : keep c = true
    · rw [fill, if_pos hc, kept_cons, kept_cons, ih htext]
    · have hhead : keep (text.headD blank) = false := by
        cases text with
        | nil => exact hblank
        | cons t text => exact htext t List.mem_cons_self
      rw [fill, if_neg hc, kept_cons, kept_cons, ih fun x hx => htext x (List.mem_of_mem_tail hx), hhead, if_neg hc]
      rfl

theorem kept_write (hblank : keep blank = false) {s : Span α} (htext : ∀ c ∈ s.text, keep c = false)
    (cells : List α) : kept keep (write keep blank cells s) = kept keep cells := by
  have hfill := kept_fill hblank htext ((cells.take s.stop).drop s.start)
  rw [write, kept, List.map_append, List.map_append]
  show _ ++ kept keep (fill keep blank s.text _) ++ _ = _
  rw [hfill, kept, ← List.map_append, ← List.map_append]
  apply congrArg
  rcases Nat.le_total s.start s.stop with h | h
  · rw [Nat.max_eq_right h]
    have htake : cells.take s.start = (cells.take s.stop).take s.start := by
      rw [List.take_take, Nat.min_eq_left h]
    rw [htake, List.take_append_drop, List.take_append_drop]
  · have hnil : (cells.take s.stop).drop s.start = [] := by
      apply List.drop_eq_nil_of_le
      simp only [List.length_take]
      omega
    rw [Nat.max_eq_left h, hnil, List.append_nil, List.take_append_drop]

theorem leaves_congr {cells cells' : List α} (h : kept keep cells = kept keep cells') (p : ℕ) (s : Span α) :
    leaves keep blank cells p s = leaves keep blank cells' p s := by
  have hslice : kept keep ((cells.take s.stop).drop s.start) = kept keep ((cells'.take s.stop).drop s.start) := by
    simp only [kept, List.map_drop, List.map_take] at h ⊢
    rw [h]
  rw [leaves, leaves, fill_congr hslice]

theorem getElem?_write (cells : List α) (s : Span α) (p : ℕ) :
    (write keep blank cells s)[p]? = (leaves keep blank cells p s).or cells[p]? := by
  have hlen : ((cells.take s.stop).drop s.start).length = min s.stop cells.length - s.start := by simp
  rw [write, leaves]
  rcases Nat.lt_or_ge p s.start with hbefore | hstart
  · rw [if_neg fun h => by have := h.1; omega, Option.none_or]
    rcases Nat.lt_or_ge p cells.length with hp | hp
    · rw [List.append_assoc, List.getElem?_append_left (by simp; omega), List.getElem?_take_of_lt hbefore]
    · rw [List.getElem?_eq_none hp]
      apply List.getElem?_eq_none
      simp only [List.length_append, List.length_take, length_fill, List.length_drop]
      omega
  · rcases Nat.lt_or_ge p cells.length with hp | hp
    · rw [List.append_assoc, List.getElem?_append_right (by simp; omega), List.length_take,
        Nat.min_eq_left (by omega)]
      rcases Nat.lt_or_ge p s.stop with hstop | hstop
      · have hin : p - s.start < (fill keep blank s.text ((cells.take s.stop).drop s.start)).length := by
          rw [length_fill, hlen]
          omega
        rw [if_pos ⟨hstart, hstop⟩, List.getElem?_append_left hin, List.getElem?_eq_getElem hin, Option.some_or]
      · rw [if_neg fun h => by have := h.2; omega, Option.none_or,
          List.getElem?_append_right (by rw [length_fill, hlen]; omega), length_fill, hlen, List.getElem?_drop]
        congr 1
        omega
    · rw [List.getElem?_eq_none hp, Option.or_none]
      have hnone : (fill keep blank s.text ((cells.take s.stop).drop s.start))[p - s.start]? = none := by
        apply List.getElem?_eq_none
        rw [length_fill, hlen]
        omega
      rw [hnone, ite_self]
      apply List.getElem?_eq_none
      simp only [List.length_append, List.length_take, length_fill, List.length_drop]
      omega

theorem kept_foldl_write (hblank : keep blank = false) {spans : List (Span α)}
    (htext : ∀ s ∈ spans, ∀ c ∈ s.text, keep c = false) (cells : List α) :
    kept keep (spans.foldl (write keep blank) cells) = kept keep cells := by
  induction spans generalizing cells with
  | nil => rfl
  | cons s spans ih =>
    rw [List.forall_mem_cons] at htext
    rw [List.foldl_cons, ih htext.2, kept_write hblank htext.1]

theorem getElem?_foldl_write (hblank : keep blank = false) {spans : List (Span α)}
    (htext : ∀ s ∈ spans, ∀ c ∈ s.text, keep c = false) (cells : List α) (p : ℕ) :
    (spans.foldl (write keep blank) cells)[p]? =
      (spans.filterMap (leaves keep blank cells p)).getLast?.or cells[p]? := by
  induction spans generalizing cells with
  | nil => simp
  | cons s spans ih =>
    rw [List.forall_mem_cons] at htext
    have hsame : leaves keep blank (write keep blank cells s) p = leaves keep blank cells p :=
      funext fun t => leaves_congr (kept_write hblank htext.1 cells) p t
    rw [List.foldl_cons, ih htext.2, hsame, getElem?_write, List.filterMap_cons]
    cases leaves keep blank cells p s with
    | none => rw [Option.none_or]
    | some c =>
      rw [List.getLast?_cons]
      cases (spans.filterMap (leaves keep blank cells p)).getLast? <;> rfl

theorem getElem?_foldl_write_eq_iff (hblank : keep blank = false) {spans : List (Span α)}
    (htext : ∀ s ∈ spans, ∀ c ∈ s.text, keep c = false) (cells : List α) (p : ℕ) :
    (spans.foldl (write keep blank) cells)[p]? = cells[p]? ↔
      ∀ c, (spans.filterMap (leaves keep blank cells p)).getLast? = some c → cells[p]? = some c := by
  rw [getElem?_foldl_write hblank htext]
  cases (spans.filterMap (leaves keep blank cells p)).getLast? with
  | none => simp
  | some c => simp [eq_comm]

end

end TimeCodeSecurity.Overwriting

/-! ## Single replacements -/

namespace TimeCodeSecurity.Replacing

variable {α : Type}

section
variable [DecidableEq α] {old : List α}

theorem replace_induction {motive : List α → Prop} (hold : old ≠ []) (nil : motive [])
    (hit : ∀ rest, motive rest → motive (old ++ rest))
    (miss : ∀ c rest, ¬ old <+: c :: rest → motive rest → motive (c :: rest)) (text : List α) : motive text := by
  match text with
  | [] => exact nil
  | c :: text =>
    by_cases hprefix : old <+: c :: text
    · obtain ⟨rest, hrest⟩ := hprefix
      have hshort : rest.length < (c :: text).length := by
        have hlength := congrArg List.length hrest
        have hpos := List.length_pos_iff.mpr hold
        rw [List.length_append] at hlength
        omega
      rw [← hrest]
      exact hit rest (replace_induction hold nil hit miss rest)
    · exact miss c text hprefix (replace_induction hold nil hit miss text)
termination_by text.length
decreasing_by
  · exact hshort
  · exact Nat.lt_succ_self text.length

theorem mem_replaceAll {new text : List α} (hold : old ≠ []) {c : α} (h : c ∈ replaceAll old new text) :
    c ∈ text ∨ c ∈ new := by
  induction text using replace_induction hold with
  | nil => cases h
  | hit rest ih =>
    rw [replaceAll_match new hold] at h
    rcases List.mem_append.mp h with h | h
    · exact .inr h
    · exact (ih h).imp_left (List.mem_append_right old)
  | miss d rest hmiss ih =>
    rw [replaceAll_cons new hmiss] at h
    rcases List.mem_cons.mp h with rfl | h
    · exact .inl List.mem_cons_self
    · exact (ih h).imp_left (List.mem_cons_of_mem d)

/-- `text.replace(old, new, 1)`. -/
def replaceFirst (old new : List α) : List α → List α
  | [] => if old = [] then new else []
  | c :: rest => if old <+: c :: rest then new ++ (c :: rest).drop old.length else c :: replaceFirst old new rest

theorem replaceFirst_cases (old new text : List α) : replaceFirst old new text = text ∨
    ∃ a b, text = a ++ (old ++ b) ∧ replaceFirst old new text = a ++ (new ++ b) := by
  induction text with
  | nil =>
    rw [replaceFirst]
    split
    next hold => exact .inr ⟨[], [], by simp [hold], by simp⟩
    · exact .inl rfl
  | cons c rest ih =>
    rw [replaceFirst]
    split
    next hold =>
      obtain ⟨b, hb⟩ := hold
      refine .inr ⟨[], b, by simpa using hb.symm, ?_⟩
      rw [← hb, List.drop_left, List.nil_append]
    · rcases ih with h | ⟨a, b, h, hnew⟩
      · exact .inl (by rw [h])
      · exact .inr ⟨c :: a, b, by rw [h]; rfl, by rw [hnew]; rfl⟩

theorem replaceAll_singleton (a : α) (new text : List α) :
    replaceAll [a] new text = text.flatMap fun c => if c = a then new else [c] := by
  induction text with
  | nil => rfl
  | cons c text ih =>
    rw [List.flatMap_cons, ← ih]
    by_cases hc : c = a
    · rw [if_pos hc, hc]
      exact replaceAll_match new (List.cons_ne_nil a []) text
    · rw [if_neg hc]
      refine replaceAll_cons new fun hprefix => hc ?_
      exact (List.cons_prefix_cons.mp hprefix).1.symm

end

theorem infix_of_infix_append_cons {m x y : List α} {c : α} (hc : c ∉ m) (h : m <:+: x ++ c :: y) :
    m <:+: x ∨ m <:+: y := by
  rcases List.infix_append_iff.mp h with h | h | ⟨front, back, rfl, hfront, hback⟩
  · exact .inl h
  · rcases List.infix_cons_iff.mp h with h | h
    · cases m with
      | nil => exact .inl List.nil_infix
      | cons d m =>
        obtain ⟨rfl, -⟩ := List.cons_prefix_cons.mp h
        exact absurd List.mem_cons_self hc
    · exact .inr h
  · cases back with
    | nil => exact .inl (by simpa using hfront.isInfix)
    | cons d back =>
      obtain ⟨rfl, -⟩ := List.cons_prefix_cons.mp hback
      exact absurd (List.mem_append_right front List.mem_cons_self) hc

/-- The second text is the first with the character `z` put in at some places. -/
inductive Inserted (z : α) : List α → List α → Prop
  | nil : Inserted z [] []
  | keep (c : α) {t t' : List α} (h : Inserted z t t') : Inserted z (c :: t) (c :: t')
  | insert {t t' : List α} (h : Inserted z t t') : Inserted z t (z :: t')

section
variable {z : α} {t t' m : List α}

theorem Inserted.append (s : List α) (h : Inserted z t t') : Inserted z (s ++ t) (s ++ t') := by
  induction s with
  | nil => exact h
  | cons c s ih => exact .keep c ih

theorem Inserted.prefix_of_prefix (h : Inserted z t t') (hz : z ∉ m) (hm : m <+: t') : m <+: t := by
  induction h generalizing m with
  | nil => exact hm
  | keep c _ ih =>
    cases m with
    | nil => exact List.nil_prefix
    | cons d m =>
      obtain ⟨rfl, hrest⟩ := List.cons_prefix_cons.mp hm
      exact List.cons_prefix_cons.mpr ⟨rfl, ih (fun hmem => hz (List.mem_cons_of_mem d hmem)) hrest⟩
  | insert _ _ =>
    cases m with
    | nil => exact List.nil_prefix
    | cons d m =>
      obtain ⟨rfl, -⟩ := List.cons_prefix_cons.mp hm
      exact absurd List.mem_cons_self hz

theorem Inserted.part_of_part (h : Inserted z t t') (hz : z ∉ m) (hm : m <:+: t') : m <:+: t := by
  induction h with
  | nil => exact hm
  | keep c h ih =>
    rcases List.infix_cons_iff.mp hm with hm | hm
    · exact (Inserted.prefix_of_prefix (.keep c h) hz hm).isInfix
    · exact (ih hm).trans (List.suffix_cons c _).isInfix
  | insert h ih =>
    rcases List.infix_cons_iff.mp hm with hm | hm
    · exact (Inserted.prefix_of_prefix (.insert h) hz hm).isInfix
    · exact ih hm

variable [DecidableEq α] {a : α} {tail : List α}

theorem inserted_replaceAll (a z : α) (tail text : List α) :
    Inserted z text (replaceAll (a :: tail) (a :: z :: tail) text) := by
  induction text using replace_induction (List.cons_ne_nil a tail) with
  | nil => exact .nil
  | hit rest ih =>
    rw [replaceAll_match _ (List.cons_ne_nil a tail)]
    exact .keep a (.insert (ih.append tail))
  | miss c rest hmiss ih =>
    rw [replaceAll_cons _ hmiss]
    exact .keep c ih

theorem not_infix_replaceAll (hne : tail ≠ []) (ha : a ∉ tail) (hz : z ∉ a :: tail) (text : List α) :
    ¬ a :: tail <:+: replaceAll (a :: tail) (a :: z :: tail) text := by
  induction text using replace_induction (List.cons_ne_nil a tail) with
  | nil => exact fun h => List.cons_ne_nil a tail (List.eq_nil_of_infix_nil h)
  | hit rest ih =>
    rw [replaceAll_match _ (List.cons_ne_nil a tail)]
    intro h
    obtain ⟨b, tail, rfl⟩ := List.exists_cons_of_ne_nil hne
    rcases List.infix_cons_iff.mp h with h | h
    · obtain ⟨rfl, -⟩ := List.cons_prefix_cons.mp (List.cons_prefix_cons.mp h).2
      exact hz (by simp)
    rcases List.infix_cons_iff.mp h with h | h
    · obtain ⟨rfl, -⟩ := List.cons_prefix_cons.mp h
      exact hz List.mem_cons_self
    -- it would begin among the others, or behind them
    have hbehind : ∀ s : List α, a ∉ s → ∀ u, a :: b :: tail <:+: s ++ u → a :: b :: tail <:+: u := by
      intro s hs u
      induction s with
      | nil => exact id
      | cons d s ihs =>
        intro hinfix
        rcases List.infix_cons_iff.mp hinfix with hinfix | hinfix
        · obtain ⟨rfl, -⟩ := List.cons_prefix_cons.mp hinfix
          exact absurd List.mem_cons_self hs
        · exact ihs (fun hmem => hs (List.mem_cons_of_mem d hmem)) hinfix
    exact ih (hbehind _ ha _ h)
  | miss c rest hmiss ih =>
    rw [replaceAll_cons _ hmiss]
    intro h
    rcases List.infix_cons_iff.mp h with h | h
    · exact hmiss (Inserted.prefix_of_prefix (.keep c (inserted_replaceAll a z tail rest)) hz h)
    · exact ih h

end

end TimeCodeSecurity.Replacing
