import TimeCodeSecurity.Scanner.DeadCode

/-! # How a test comes out

The truth of a test when it is evaluated. `not`, `and` and `or` go by the truth of their operands and `and`
and `or` stop early; any other expression may come out either way each time, since its evaluation and its
`__bool__` may run code.
-/
namespace TimeCodeSecurity.Scanner
open Py
set_option autoImplicit false

def truthOf : Constant → Bool
  | .none => false
  | .bool b => b
  | .int n => n ≠ 0
  | .float q => q ≠ 0
  | .str s => s ≠ ""
  | .bytes s => s ≠ ""
  | .ellipsis => true

def stopsAt : BoolOp → Bool
  | .and => false
  | .or => true

def isAtom : Expr → Bool
  | .constant .. | .unaryOp _ .not _ | .boolOp .. => false
  | _ => true

mutual

/-- `e` can come out as `b`. -/
inductive Answers : Expr → Bool → Prop
  | constant {pos value} : Answers (.constant pos value) (truthOf value)
  | atom {e b} : isAtom e = true → Answers e b
  | not {pos operand b} : Answers operand b → Answers (.unaryOp pos .not operand) (!b)
  | boolOp {pos op values answers b} : Operands op values answers b → Answers (.boolOp pos op values) b

inductive Operands : BoolOp → List Expr → List (Expr × Bool) → Bool → Prop
  | done {op} : Operands op [] [] (!stopsAt op)
  | stop {op e rest} : Answers e (stopsAt op) → Operands op (e :: rest) [(e, stopsAt op)] (stopsAt op)
  | next {op e rest answers b} : Answers e (!stopsAt op) → Operands op rest answers b →
      Operands op (e :: rest) ((e, !stopsAt op) :: answers) b

end

/-- An evaluation of the test of an `if`: the answers of its operands and what comes out. -/
inductive Evaluation : Expr → List (Expr × Bool) → Bool → Prop
  | boolOp {pos op values answers b} : Operands op values answers b →
      Evaluation (.boolOp pos op values) answers b
  | other {test b} : (∀ pos op values, test ≠ .boolOp pos op values) → Answers test b →
      Evaluation test [] b

theorem Evaluation.answers {test : Expr} {answers : List (Expr × Bool)} {b : Bool}
    (h : Evaluation test answers b) : Answers test b := by
  cases h with
  | boolOp h => exact .boolOp h
  | other _ h => exact h

/-! ## Literals decide -/

theorem truthOf_of_constantTruthiness {c : Constant} {b : Bool} (h : constantTruthiness c = some b) :
    truthOf c = b := by
  cases c with
  | ellipsis => cases h
  | none | bool _ | int _ | float _ | str _ | bytes _ => exact Option.some.inj h

def combined (op : BoolOp) (parts : List (Option Bool)) : Option Bool :=
  if parts.any (· = some (stopsAt op)) then some (stopsAt op)
  else if parts.all (· = some (!stopsAt op)) then some (!stopsAt op) else none

theorem literalTruthiness_boolOp (pos : Pos) (op : BoolOp) (values : List Expr) :
    literalTruthiness (.boolOp pos op values) = combined op (literalTruthinesses values) := by
  cases op with
  | and => rfl
  | or => rfl

theorem literalTruthiness_of_isAtom {e : Expr} (h : isAtom e = true) : literalTruthiness e = none := by
  unfold literalTruthiness
  split
  · cases h
  · cases h
  · cases h
  · cases h
  · rfl

mutual

theorem answer_of_literal : ∀ (e : Expr) {b b' : Bool}, literalTruthiness e = some b → Answers e b' →
    b' = b := by
  intro e b b' hlit hans
  cases hans with
  | constant => exact truthOf_of_constantTruthiness hlit
  | atom hatom =>
    rw [literalTruthiness_of_isAtom hatom] at hlit
    cases hlit
  | @not pos operand c hop =>
    obtain ⟨d, hd, rfl⟩ := Option.map_eq_some_iff.mp hlit
    rw [answer_of_literal operand hd hop]
  | @boolOp pos op values answers _ hops =>
    rw [literalTruthiness_boolOp, combined] at hlit
    split_ifs at hlit with hany hall
    · rw [← Option.some.inj hlit]
      exact answer_of_any values hops hany
    · rw [← Option.some.inj hlit]
      exact answer_of_all values hops hall

theorem answer_of_any : ∀ (values : List Expr) {op : BoolOp} {answers : List (Expr × Bool)} {b : Bool},
    Operands op values answers b → (literalTruthinesses values).any (· = some (stopsAt op)) = true →
    b = stopsAt op
  | [], _, _, _, _, hany => by cases hany
  | e :: rest, op, _, _, hops, hany => by
    cases hops with
    | stop => rfl
    | next hans hrest =>
      have hrest' : (literalTruthinesses rest).any (· = some (stopsAt op)) = true := by
        rw [literalTruthinesses, List.any_cons, Bool.or_eq_true] at hany
        refine hany.resolve_left fun hhead => ?_
        have hanswer := answer_of_literal e (of_decide_eq_true hhead) hans
        cases hstop : stopsAt op with
        | true => simp [hstop] at hanswer
        | false => simp [hstop] at hanswer
      exact answer_of_any rest hrest hrest'

theorem answer_of_all : ∀ (values : List Expr) {op : BoolOp} {answers : List (Expr × Bool)} {b : Bool},
    Operands op values answers b → (literalTruthinesses values).all (· = some (!stopsAt op)) = true →
    b = !stopsAt op
  | [], _, _, _, hops, _ => by
    cases hops
    rfl
  | e :: rest, op, _, _, hops, hall => by
    rw [literalTruthinesses, List.all_cons, Bool.and_eq_true] at hall
    cases hops with
    | stop hans => exact answer_of_literal e (of_decide_eq_true hall.1) hans
    | next _ hrest => exact answer_of_all rest hrest hall.2

end

/-- An operand and the negation of one that prints alike both came out as `b`. -/
def PairComesOut (unparse : Expr → String) (answers : List (Expr × Bool)) (b : Bool) : Prop :=
  ∃ x pos y, (∀ pos' z, x ≠ .unaryOp pos' .not z) ∧ (x, b) ∈ answers ∧
    (.unaryOp pos .not y, b) ∈ answers ∧ unparse y = unparse x

theorem Operands.all_asked {op : BoolOp} {values : List Expr} {answers : List (Expr × Bool)}
    (h : Operands op values answers (!stopsAt op)) : ∀ e ∈ values, (e, !stopsAt op) ∈ answers := by
  induction values generalizing answers with
  | nil =>
    intro e he
    cases he
  | cons x rest ih =>
    generalize hb : (!stopsAt op) = b at h
    cases h with
    | stop _ =>
      cases hop : stopsAt op with
      | true => simp [hop] at hb
      | false => simp [hop] at hb
    | next hans hrest =>
      subst hb
      intro e he
      rcases List.mem_cons.mp he with rfl | he
      · exact List.mem_cons_self
      · exact List.mem_cons_of_mem _ (ih hrest e he)

theorem pairComesOut_of_complementPair {unparse : Expr → String} {op : BoolOp} {test : Expr}
    {answers : List (Expr × Bool)} (hpair : complementPair unparse op test = true)
    (heval : Evaluation test answers (!stopsAt op)) : PairComesOut unparse answers (!stopsAt op) := by
  cases test with
  | boolOp pos op' values =>
    simp only [complementPair, Bool.and_eq_true, decide_eq_true_eq, List.any_eq_true,
      List.mem_filterMap] at hpair
    obtain ⟨rfl, key, ⟨m, hm, hmkey⟩, n, hn, hnkey⟩ := hpair
    have hasked : ∀ e ∈ values, (e, !stopsAt op') ∈ answers := by
      generalize hb : (!stopsAt op') = b at heval
      cases heval with
      | boolOp hops =>
        subst hb
        exact hops.all_asked
      | other hno _ => exact absurd rfl (hno _ _ _)
    -- the first match names a negated operand, the second one that is not
    obtain ⟨pos', y, rfl, hy⟩ : ∃ pos' y, m = .unaryOp pos' .not y ∧ unparse y = key := by
      split at hmkey
      · exact ⟨_, _, rfl, Option.some.inj hmkey⟩
      · cases hmkey
    split at hnkey
    · cases hnkey
    · next hplain =>
      exact ⟨n, pos', y, hplain, hasked n hn, hasked _ hm, by rw [hy, ← Option.some.inj hnkey]⟩
  | _ => cases hpair

end TimeCodeSecurity.Scanner
