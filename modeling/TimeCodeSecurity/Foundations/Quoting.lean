import Mathlib.Data.List.Basic

/-! # Statements with placeholders

A statement with quoted literals and places for values. A driver sees a placeholder in each question mark
outside the literals and puts the literal of a value there: a text between quotes, a number as it is. A place
may have stood between quotes that were taken off with the value.
-/
namespace TimeCodeSecurity.Quoting
set_option autoImplicit false

abbrev Text : Type := List Char

inductive Quote
  | single | double
deriving DecidableEq, Repr

def Quote.char : Quote → Char
  | .single => '\''
  | .double => '"'

def quoteOf (c : Char) : Option Quote :=
  if c = '\'' then some .single else if c = '"' then some .double else none

@[simp] theorem quoteOf_char (q : Quote) : quoteOf q.char = some q := by
  cases q <;> decide

abbrev State : Type := Option Quote

def step : State → Char → State
  | none, c => quoteOf c
  | some q, c => if quoteOf c = some q then none else some q

def run (st : State) (t : Text) : State := t.foldl step st

theorem step_step (q : Quote) (st : State) : step (step st q.char) q.char = st := by
  cases st with
  | none => simp [step]
  | some r => by_cases hqr : q = r <;> simp [step, hqr]

theorem step_mark (st : State) : step st '?' = st := by
  cases st <;> rfl

def seen : State → Text → ℕ
  | _, [] => 0
  | st, c :: t => (if st = none ∧ c = '?' then 1 else 0) + seen (step st c) t

def fill : State → Text → List Text → Option Text
  | _, [], ws => if ws.isEmpty then some [] else none
  | st, c :: t, ws =>
    if st = none ∧ c = '?' then
      match ws with
      | [] => none
      | w :: ws => (fill st t ws).map (w ++ ·)
    else (fill (step st c) t ws).map (c :: ·)

theorem fill_cons (st : State) (c : Char) (t : Text) (ws : List Text) : fill st (c :: t) ws =
    if st = none ∧ c = '?' then
      match ws with
      | [] => none
      | w :: ws => (fill st t ws).map (w ++ ·)
    else (fill (step st c) t ws).map (c :: ·) := rfl

/-! ## Statements with places -/

inductive Spot (α : Type)
  | char (c : Char)
  | hole (a : α) (quote : Option Quote)

variable {α : Type}

/-- The statement as it is sent; `none` is a placeholder that was put in. -/
def sent : List (Spot α) → List (Option Char)
  | [] => []
  | .char c :: spots => some c :: sent spots
  | .hole _ _ :: spots => none :: sent spots

def written (t : List (Option Char)) : Text := t.map (·.getD '?')

def holes : List (Spot α) → List α
  | [] => []
  | .char _ :: spots => holes spots
  | .hole a _ :: spots => a :: holes spots

def Outside (st : State) (t : List (Option Char)) : Prop :=
  ∀ front back, t = front ++ none :: back → run st (written front) = none

def Placed : State → List (Spot α) → Prop
  | _, [] => True
  | st, .char c :: spots => ¬(st = none ∧ c = '?') ∧ Placed (step st c) spots
  | st, .hole _ none :: spots => st = none ∧ Placed st spots
  | st, .hole _ (some q) :: spots => st = none ∧ Placed (step (step st q.char) q.char) spots

@[simp] theorem written_cons (c : Option Char) (t : List (Option Char)) :
    written (c :: t) = c.getD '?' :: written t := rfl

theorem outside_char {st : State} {c : Char} {t : List (Option Char)} :
    Outside st (some c :: t) ↔ Outside (step st c) t := by
  constructor
  · intro h front back hsplit
    exact h (some c :: front) back (by rw [hsplit, List.cons_append])
  · intro h front back hsplit
    cases front with
    | nil => cases (List.cons.inj hsplit).1
    | cons d front =>
      obtain ⟨rfl, hrest⟩ := List.cons.inj hsplit
      exact h front back hrest

theorem outside_mark {st : State} {t : List (Option Char)} : Outside st (none :: t) ↔ st = none ∧ Outside st t := by
  constructor
  · intro h
    refine ⟨h [] t rfl, fun front back hsplit => ?_⟩
    have hrun := h (none :: front) back (by rw [hsplit, List.cons_append])
    rwa [written_cons, Option.getD_none, run, List.foldl_cons, step_mark, ← run] at hrun
  · rintro ⟨hst, h⟩ front back hsplit
    cases front with
    | nil => exact hst
    | cons d front =>
      obtain ⟨rfl, hrest⟩ := List.cons.inj hsplit
      rw [written_cons, Option.getD_none, run, List.foldl_cons, step_mark, ← run]
      exact h front back hrest

theorem holes_le_seen {st : State} {spots : List (Spot α)} (h : Outside st (sent spots)) :
    (holes spots).length ≤ seen st (written (sent spots)) := by
  induction spots generalizing st with
  | nil => exact Nat.zero_le _
  | cons spot spots ih =>
    cases spot with
    | char c =>
      have := ih (outside_char.mp h)
      rw [sent, written_cons, Option.getD_some, seen, holes]
      omega
    | hole a quote =>
      obtain ⟨hst, h⟩ := outside_mark.mp h
      have := ih h
      rw [sent, written_cons, Option.getD_none, seen, step_mark, if_pos ⟨hst, rfl⟩, holes, List.length_cons]
      omega

theorem placed_iff {st : State} {spots : List (Spot α)} :
    Outside st (sent spots) ∧ seen st (written (sent spots)) = (holes spots).length ↔ Placed st spots := by
  induction spots generalizing st with
  | nil =>
    refine iff_of_true ⟨fun front back h => ?_, rfl⟩ trivial
    cases front <;> cases h
  | cons spot spots ih =>
    cases spot with
    | char c =>
      rw [sent, Placed, ← ih, outside_char, written_cons, Option.getD_some, seen, holes]
      constructor
      · rintro ⟨hout, hseen⟩
        have hle := holes_le_seen hout
        split_ifs at hseen with hmark
        · omega
        · exact ⟨hmark, hout, by omega⟩
      · rintro ⟨hmark, hout, hseen⟩
        exact ⟨hout, by rw [if_neg hmark, hseen, Nat.zero_add]⟩
    | hole a quote =>
      have hplaced : Placed st (.hole a quote :: spots) ↔ st = none ∧ Placed st spots := by
        cases quote with
        | none => rfl
        | some q => rw [Placed, step_step]
      rw [hplaced, ← ih, sent, outside_mark, written_cons, Option.getD_none, seen, step_mark, holes,
        List.length_cons]
      constructor
      · rintro ⟨⟨hst, hout⟩, hseen⟩
        rw [if_pos ⟨hst, rfl⟩] at hseen
        exact ⟨hst, hout, by omega⟩
      · rintro ⟨hst, hout, hseen⟩
        exact ⟨⟨hst, hout⟩, by rw [if_pos ⟨hst, rfl⟩, hseen, Nat.add_comm]⟩

inductive SqlValue
  | text (s : Text)
  | number (c : Char) (s : Text)
deriving DecidableEq, Repr

def SqlValue.shown : SqlValue → Text
  | .text s => s
  | .number c s => c :: s

def SqlValue.isText : SqlValue → Bool
  | .text _ => true
  | .number .. => false

inductive Literal : SqlValue → Text → Prop
  | text (s : Text) (q : Quote) : Literal (.text s) (q.char :: s ++ [q.char])
  | number (c : Char) (s : Text) : Literal (.number c s) (c :: s)

def SqlValue.QuoteFree (v : SqlValue) : Prop := ∀ c ∈ v.shown, quoteOf c = none

def quoteText : Option Quote → Text
  | none => []
  | some q => [q.char]

def original (val : α → SqlValue) : List (Spot α) → Text
  | [] => []
  | .char c :: spots => c :: original val spots
  | .hole a quote :: spots => quoteText quote ++ (val a).shown ++ quoteText quote ++ original val spots

def filled : List (Spot α) → List Text → Text
  | .char c :: spots, ws => c :: filled spots ws
  | .hole _ _ :: spots, w :: ws => w ++ filled spots ws
  | _, _ => []

theorem fill_sent {st : State} {spots : List (Spot α)} {ws : List Text} (h : Placed st spots)
    (hlength : ws.length = (holes spots).length) :
    fill st (written (sent spots)) ws = some (filled spots ws) := by
  induction spots generalizing st ws with
  | nil =>
    obtain rfl := List.length_eq_zero_iff.mp hlength
    rfl
  | cons spot spots ih =>
    cases spot with
    | char c =>
      obtain ⟨hmark, h⟩ := h
      rw [sent, written_cons, Option.getD_some, fill_cons, if_neg hmark, ih h hlength]
      rfl
    | hole a quote =>
      have hplaced : st = none ∧ Placed st spots := by
        cases quote with
        | none => exact h
        | some q =>
          rw [Placed, step_step] at h
          exact h
      cases ws with
      | nil => exact absurd hlength (by simp [holes])
      | cons w ws =>
        rw [sent, written_cons, Option.getD_none, fill_cons, if_pos ⟨hplaced.1, rfl⟩]
        show (fill st (written (sent spots)) ws).map (w ++ ·) = _
        rw [ih hplaced.2 (Nat.succ.inj hlength)]
        rfl

theorem written_append (a b : List (Option Char)) : written (a ++ b) = written a ++ written b := List.map_append

@[simp] theorem written_some (t : Text) : written (t.map some) = t := by
  induction t with
  | nil => rfl
  | cons c t ih => exact congrArg (c :: ·) ih

theorem sent_append (as bs : List (Spot α)) : sent (as ++ bs) = sent as ++ sent bs := by
  induction as with
  | nil => rfl
  | cons a as ih => cases a <;> simp [sent, ih]

theorem holes_append (as bs : List (Spot α)) : holes (as ++ bs) = holes as ++ holes bs := by
  induction as with
  | nil => rfl
  | cons a as ih => cases a <;> simp [holes, ih]

theorem original_append (val : α → SqlValue) (as bs : List (Spot α)) :
    original val (as ++ bs) = original val as ++ original val bs := by
  induction as with
  | nil => rfl
  | cons a as ih => cases a <;> simp [original, ih]

def plainText (t : Text) : List (Spot α) := t.map .char

@[simp] theorem sent_plainText (t : Text) : sent (plainText t : List (Spot α)) = t.map some := by
  induction t with
  | nil => rfl
  | cons c t ih => simpa [plainText, sent] using ih

@[simp] theorem holes_plainText (t : Text) : holes (plainText t : List (Spot α)) = [] := by
  induction t with
  | nil => rfl
  | cons c t ih => simpa [plainText, holes] using ih

@[simp] theorem original_plainText (val : α → SqlValue) (t : Text) : original val (plainText t) = t := by
  induction t with
  | nil => rfl
  | cons c t ih => simpa [plainText, original] using ih

/-! ## Getting the statement back -/

def Typed (val : α → SqlValue) : List (Spot α) → Prop
  | [] => True
  | .char _ :: spots => Typed val spots
  | .hole a quote :: spots => (val a).isText = quote.isSome ∧ Typed val spots

theorem exists_filled {val : α → SqlValue} {spots : List (Spot α)} (h : Typed val spots) :
    ∃ ws, List.Forall₂ Literal ((holes spots).map val) ws ∧ filled spots ws = original val spots := by
  induction spots with
  | nil => exact ⟨[], .nil, rfl⟩
  | cons spot spots ih =>
    cases spot with
    | char c =>
      obtain ⟨ws, hws, heq⟩ := ih h
      exact ⟨ws, hws, congrArg (c :: ·) heq⟩
    | hole a quote =>
      obtain ⟨htext, h⟩ := h
      obtain ⟨ws, hws, heq⟩ := ih h
      cases hv : val a with
      | text s =>
        cases quote with
        | none =>
          rw [hv] at htext
          cases htext
        | some q =>
          refine ⟨(q.char :: s ++ [q.char]) :: ws, .cons (hv ▸ .text s q) hws, ?_⟩
          rw [filled, original, heq, hv]
          rfl
      | number c s =>
        cases quote with
        | none =>
          refine ⟨(c :: s) :: ws, .cons (hv ▸ .number c s) hws, ?_⟩
          rw [filled, original, heq, hv]
          simp [quoteText, SqlValue.shown]
        | some q =>
          rw [hv] at htext
          cases htext

theorem original_ne_filled {val : α → SqlValue} {spots : List (Spot α)} {ws : List Text}
    (hws : List.Forall₂ Literal ((holes spots).map val) ws) (hfree : ∀ a ∈ holes spots, (val a).QuoteFree)
    {quotes : Text} (hquotes : ∀ c ∈ quotes, quoteOf c ≠ none) (htwo : 2 ≤ quotes.length) :
    original val spots ≠ quotes ++ filled spots ws := by
  induction spots generalizing ws quotes with
  | nil =>
    intro h
    have hlength := congrArg List.length h
    rw [List.length_append] at hlength
    exact absurd hlength (by simp only [original, List.length_nil]; omega)
  | cons spot spots ih =>
    obtain ⟨x, y, more, rfl⟩ : ∃ x y more, quotes = x :: y :: more := by
      match quotes, htwo with
      | x :: y :: more, _ => exact ⟨x, y, more, rfl⟩
    have hx := hquotes x (by simp)
    have hy := hquotes y (by simp)
    have hmore : ∀ c ∈ more, quoteOf c ≠ none := fun c hc => hquotes c (by simp [hc])
    have hboth : ∀ (q : Quote) (before : Text), (∀ c ∈ before, quoteOf c ≠ none) →
        ∀ c ∈ before ++ [q.char, q.char], quoteOf c ≠ none := by
      intro q before hbefore c hc
      rcases List.mem_append.mp hc with hc | hc
      · exact hbefore c hc
      · simp only [List.mem_cons, List.not_mem_nil, or_false, or_self] at hc
        simp [hc]
    intro h
    cases spot with
    | char c =>
      -- The character is a quote itself and goes behind the others.
      rw [original, filled, List.cons_append] at h
      obtain ⟨rfl, hrest⟩ := List.cons.inj h
      have hlonger : ∀ d ∈ y :: more ++ [c], quoteOf d ≠ none := by
        intro d hd
        rcases List.mem_append.mp hd with hd | hd
        · exact hquotes d (by simp [List.mem_cons.mp hd])
        · rwa [List.mem_singleton.mp hd]
      exact ih hws hfree hlonger (by simp) (by rw [hrest]; simp)
    | hole a quote =>
      have hfreeA := hfree a List.mem_cons_self
      have hfree' : ∀ b ∈ holes spots, (val b).QuoteFree := fun b hb => hfree b (List.mem_cons_of_mem _ hb)
      cases hws with
      | @cons v w vs ws hw hws =>
      rw [original, filled] at h
      generalize val a = v at hw hfreeA h
      cases hw with
      | text s q =>
        cases s with
        | nil =>
          -- An empty text only adds quotes.
          cases quote with
          | none =>
            exact ih hws hfree' (hboth q (x :: y :: more) hquotes) (by simp)
              (by simpa [quoteText, SqlValue.shown] using h)
          | some r =>
            have hrest : original val spots = (more ++ [q.char, q.char]) ++ filled spots ws := by
              simp only [quoteText, SqlValue.shown, List.cons_append, List.nil_append] at h
              simpa using (List.cons.inj (List.cons.inj h).2).2
            exact ih hws hfree' (hboth q more hmore) (by simp) hrest
        | cons d s =>
          have hd := hfreeA d List.mem_cons_self
          cases quote with
          | none => exact hx ((List.cons.inj h).1 ▸ hd)
          | some r => exact hy ((List.cons.inj (List.cons.inj h).2).1 ▸ hd)
      | number d s =>
        have hd := hfreeA d List.mem_cons_self
        cases quote with
        | none => exact hx ((List.cons.inj h).1 ▸ hd)
        | some r => exact hy ((List.cons.inj (List.cons.inj h).2).1 ▸ hd)

theorem typed_of_filled {val : α → SqlValue} {spots : List (Spot α)} {ws : List Text}
    (hws : List.Forall₂ Literal ((holes spots).map val) ws) (hfree : ∀ a ∈ holes spots, (val a).QuoteFree)
    (h : original val spots = filled spots ws) : Typed val spots := by
  induction spots generalizing ws with
  | nil => trivial
  | cons spot spots ih =>
    cases spot with
    | char c => exact ih hws hfree (List.cons.inj h).2
    | hole a quote =>
      have hfreeA := hfree a List.mem_cons_self
      have hfree' : ∀ b ∈ holes spots, (val b).QuoteFree := fun b hb => hfree b (List.mem_cons_of_mem _ hb)
      cases hws with
      | @cons v w vs ws hw hws =>
      rw [original, filled] at h
      rw [Typed]
      generalize val a = v at hw hfreeA h ⊢
      cases hw with
      | text s q =>
        cases quote with
        | none =>
          exfalso
          cases s with
          | nil =>
            have hpair : ∀ c ∈ [q.char, q.char], quoteOf c ≠ none := by simp
            exact original_ne_filled hws hfree' hpair (by simp) (by simpa [quoteText, SqlValue.shown] using h)
          | cons d s =>
            have hd := hfreeA d List.mem_cons_self
            rw [(List.cons.inj h).1, quoteOf_char] at hd
            cases hd
        | some r =>
          refine ⟨rfl, ih hws hfree' ?_⟩
          simp only [quoteText, SqlValue.shown, List.cons_append, List.nil_append, List.append_assoc] at h
          have hrest := List.append_cancel_left (List.cons.inj h).2
          exact (List.cons.inj hrest).2
      | number d s =>
        cases quote with
        | none =>
          refine ⟨rfl, ih hws hfree' ?_⟩
          simpa [quoteText, SqlValue.shown] using h
        | some r =>
          have hd := hfreeA d List.mem_cons_self
          rw [← (List.cons.inj h).1, quoteOf_char] at hd
          cases hd

end TimeCodeSecurity.Quoting
