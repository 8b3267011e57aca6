import TimeCodeSecurity.Scanner.FoldRequests

/-! # Folding part by part

Whether an expression folds when its parts do. The parts are folded in turn, and a name that an earlier part
has followed counts as a cycle for the later ones; an f-string with a hole, an addition of a truth value to a
number and a truth value as an index do not fold whatever the parts are.
-/
namespace TimeCodeSecurity.Scanner
open Py
set_option autoImplicit false

def isHole : Expr → Bool
  | .formattedValue .. => true
  | _ => false

def holeValue : Expr → Expr
  | .formattedValue _ value none none => value
  | e => e

def displayParts : Expr → List Expr
  | .dict _ keys values => (keys.zip values).flatMap fun p => p.1.toList ++ [p.2]
  | .list _ elts _ | .tuple _ elts _ => elts
  | _ => []

/-- The parts of an operation, of an f-string, and of a look-up in a display. -/
def parts : Expr → List Expr
  | .binOp _ left _ right => [left, right]
  | .joinedStr _ values => values.map holeValue
  | .subscript _ base index _ => displayParts base ++ [index]
  | _ => []

def hasParts : Expr → Bool
  | .binOp .. | .joinedStr .. | .subscript .. => true
  | _ => false

def pairs : List Value → List (Value × Value)
  | key :: value :: rest => (key, value) :: pairs rest
  | _ => []

def displayOf (vs : List Value) : Expr → Option Container
  | .dict _ keys values => if (keys.zip values).any (·.1.isNone) then none else some (.dict (pairs vs))
  | .list _ elts _ | .tuple _ elts _ => if elts.any isStarred then none else some (.seq vs)
  | _ => none

section
variable (binary : BinOp → Value → Value → Option Value) (read : Container → Value → Option Value)

def finish : Expr → List Value → Option Value
  | .binOp _ _ op _, [a, b] => binary op a b
  | .joinedStr .., vs => (Value.joinParts vs).map .str
  | .subscript _ base _ _, vs => (displayOf vs.dropLast base).bind fun c => vs.getLast?.bind (read c)
  | _, _ => none

end

/-- The operators that the folder supports. What Python answers where literals of one kind do not determine it
alone, as for numbers with a floating point or repeated texts, is `other`. -/
def operation (addFloat : ℚ → ℚ → ℚ) (other : BinOp → Value → Value → Option Value) (op : BinOp) (a b : Value) :
    Option Value :=
  match op with
  | .add | .sub | .mult | .bitOr | .bitAnd => (Value.binary addFloat op a b).or (other op a b)
  | _ => none

def resultOf (addFloat : ℚ → ℚ → ℚ) (other : BinOp → Value → Value → Option Value) : Expr → List Value → Option Value :=
  finish (operation addFloat other) fun c key => c.item key none

def foldedOf (addFloat : ℚ → ℚ → ℚ) : Expr → List Value → Option Value :=
  finish (fun op a b => foldBinary addFloat op (some a) (some b)) fun c key => readLiteralMember c (some key)

def operandsFit (op : BinOp) (a b : Value) : Bool :=
  match op, a, b with
  | .add, .str _, .str _ | .add, .bytes _, .bytes _ | .add, .float _, .float _ => true
  | .add, .int _, .bool _ => false
  | _, a, b => a.asInt.isSome && b.asInt.isSome

def Fits : Expr → List Value → Bool
  | .binOp _ _ op _, [a, b] => operandsFit op a b
  | .joinedStr _ values, _ => values.all fun e => !isHole e
  | .subscript _ base _ _, vs =>
    match displayOf vs.dropLast base, vs.getLast? with
    | some (.seq _), some (.bool _) => false
    | _, _ => true
  | _, _ => true

section
variable {addFloat : ℚ → ℚ → ℚ} {other : BinOp → Value → Value → Option Value} {op : BinOp} {a b v : Value}

theorem foldBinary_of_operation (hfit : operandsFit op a b = true) (h : operation addFloat other op a b = some v) :
    foldBinary addFloat op (some a) (some b) = some v := by
  cases op <;> simp only [operation, reduceCtorEq] at h <;>
    cases a <;> cases b <;> simp [operandsFit, Value.asInt] at hfit <;>
    simpa [foldBinary, Value.binary, Value.asInt] using h

theorem operandsFit_of_foldBinary (h : foldBinary addFloat op (some a) (some b) = some v) :
    operandsFit op a b = true := by
  cases op with
  | add | sub | mult | bitOr | bitAnd =>
    cases a <;> cases b <;> simp_all [foldBinary, operandsFit, Value.binary, Value.asInt]
  | _ => cases h

end

section
variable {addFloat : ℚ → ℚ → ℚ} {other : BinOp → Value → Value → Option Value} {e : Expr} {vs : List Value} {v : Value}

theorem foldedOf_of_resultOf (hfit : Fits e vs = true) (h : resultOf addFloat other e vs = some v) :
    foldedOf addFloat e vs = some v := by
  unfold resultOf finish at h
  unfold foldedOf finish
  split at h
  · exact foldBinary_of_operation hfit h
  · exact h
  · rename_i base _ _ vs
    obtain ⟨c, hc, h⟩ := Option.bind_eq_some_iff.mp h
    obtain ⟨key, hkey, h⟩ := Option.bind_eq_some_iff.mp h
    simp only [hc, hkey, Option.bind_some]
    cases c with
    | dict items =>
      simp only [Container.item] at h
      split at h
      · exact h
      · cases h
    | seq elements =>
      simp only [Fits, hc, hkey] at hfit
      cases key <;> simp_all [Container.item, Value.asInt, readLiteralMember]
  · cases h

theorem fits_of_foldedOf (hholes : ∀ pos values, e = .joinedStr pos values → ∀ x ∈ values, isHole x = false)
    (h : foldedOf addFloat e vs = some v) : Fits e vs = true := by
  unfold foldedOf finish at h
  unfold Fits
  split at h
  · exact operandsFit_of_foldBinary h
  · rename_i vs pos values
    simpa using hholes pos values rfl
  · rename_i base _ _ vs
    obtain ⟨c, hc, h⟩ := Option.bind_eq_some_iff.mp h
    obtain ⟨key, hkey, h⟩ := Option.bind_eq_some_iff.mp h
    simp only [hc, hkey]
    cases c with
    | dict items => rfl
    | seq elements => cases key <;> simp_all [readLiteralMember]
  · cases h

end

/-! ## Parts in turn -/

section
variable (addFloat : ℚ → ℚ → ℚ) (F : Folder FoldM)

inductive InTurn : List Expr → List Value → List String → List String → Prop
  | nil {visited} : InTurn [] [] visited visited
  | cons {e es v vs visited visited₁ visited'} :
      (foldExpr addFloat F e).run visited = some (some v, visited₁) → InTurn es vs visited₁ visited' →
      InTurn (e :: es) (v :: vs) visited visited'

end

section
variable {addFloat : ℚ → ℚ → ℚ} {F : Folder FoldM} {visited visited' : List String}

theorem inTurn_append {es es' : List Expr} {vs : List Value} :
    InTurn addFloat F (es ++ es') vs visited visited' ↔ ∃ us us' visited₁, vs = us ++ us' ∧
      InTurn addFloat F es us visited visited₁ ∧ InTurn addFloat F es' us' visited₁ visited' := by
  induction es generalizing vs visited with
  | nil =>
    constructor
    · exact fun h => ⟨[], vs, visited, rfl, .nil, h⟩
    · rintro ⟨us, us', visited₁, rfl, hnil, h⟩
      cases hnil
      exact h
  | cons e es ih =>
    constructor
    · intro h
      cases h with
      | cons hrun hrest =>
        obtain ⟨us, us', visited₁, rfl, hus, hus'⟩ := ih.mp hrest
        exact ⟨_ :: us, us', visited₁, rfl, .cons hrun hus, hus'⟩
    · rintro ⟨us, us', visited₁, rfl, hus, hus'⟩
      cases hus with
      | cons hrun hrest => exact .cons hrun (ih.mpr ⟨_, us', visited₁, rfl, hrest, hus'⟩)

theorem run_bind_of_eq {α β : Type} {m : FoldM α} {f : α → FoldM β} {a : α} {visited visited₁ : List String}
    (h : m.run visited = some (a, visited₁)) : (m >>= f).run visited = (f a).run visited₁ := by
  rw [StateT.run_bind, h]
  rfl

theorem membersFolded_iff {es : List Expr} {vs : List Value} :
    (membersFolded (foldEachMember addFloat F es)).run visited = some (some vs, visited') ↔
      es.any isStarred = false ∧ InTurn addFloat F es vs visited visited' := by
  induction es generalizing vs visited with
  | nil =>
    constructor
    · intro h
      obtain ⟨heq, rfl⟩ := Prod.mk.inj (Option.some.inj h)
      obtain rfl := Option.some.inj heq
      exact ⟨rfl, .nil⟩
    · rintro ⟨-, h⟩
      cases h
      rfl
  | cons e es ih =>
    rw [foldEachMember, List.any_cons]
    cases hstarred : isStarred e with
    | true =>
      refine iff_of_false (fun h => ?_) fun h => nomatch h.1
      cases run_pure_eq_some h
    | false =>
      simp only [Bool.false_eq_true, if_false, membersFolded, Bool.false_or]
      constructor
      · intro h
        obtain ⟨v, visited₁, hv, h⟩ := run_bind_eq_some h
        cases v with
        | none => cases run_pure_eq_some h
        | some v =>
          obtain ⟨rest, visited₂, hrest, h⟩ := run_bind_eq_some h
          obtain ⟨heq, rfl⟩ := Prod.mk.inj (Option.some.inj h)
          obtain ⟨us, rfl, rfl⟩ := Option.map_eq_some_iff.mp heq
          obtain ⟨hstars, hturn⟩ := ih.mp hrest
          exact ⟨hstars, .cons hv hturn⟩
      · rintro ⟨hstars, h⟩
        cases h with
        | cons hv hturn =>
          rw [run_bind_of_eq hv]
          simp only
          rw [run_bind_of_eq (ih.mpr ⟨hstars, hturn⟩)]
          rfl

theorem joinFolded_iff {es : List Expr} {text : String} :
    (joinFolded (foldEach addFloat F es)).run visited = some (some text, visited') ↔
      ∃ vs, InTurn addFloat F es vs visited visited' ∧ Value.joinParts vs = some text := by
  induction es generalizing text visited with
  | nil =>
    constructor
    · intro h
      obtain ⟨heq, rfl⟩ := Prod.mk.inj (Option.some.inj h)
      exact ⟨[], .nil, heq⟩
    · rintro ⟨vs, h, htext⟩
      cases h
      rw [← htext]
      rfl
  | cons e es ih =>
    rw [foldEach, joinFolded]
    constructor
    · intro h
      obtain ⟨v, visited₁, hv, h⟩ := run_bind_eq_some h
      split at h
      · rename_i s
        obtain ⟨rest, visited₂, hrest, h⟩ := run_bind_eq_some h
        obtain ⟨heq, rfl⟩ := Prod.mk.inj (Option.some.inj h)
        obtain ⟨t, rfl, rfl⟩ := Option.map_eq_some_iff.mp heq
        obtain ⟨vs, hturn, ht⟩ := ih.mp hrest
        refine ⟨.str s :: vs, .cons hv hturn, ?_⟩
        rw [Value.joinParts] at ht ⊢
        rw [List.foldr_cons, ht]
        rfl
      · cases run_pure_eq_some h
    · rintro ⟨vs, h, htext⟩
      cases h with
      | @cons _ _ v vs _ _ _ hv hturn =>
        rw [Value.joinParts, List.foldr_cons] at htext
        cases v with
        | str s =>
          obtain ⟨t, ht, rfl⟩ := Option.map_eq_some_iff.mp htext
          rw [run_bind_of_eq hv]
          simp only
          rw [run_bind_of_eq (ih.mpr ⟨vs, hturn, ht⟩)]
          rfl
        | _ => cases htext

theorem itemsFolded_iff {keys : List (Option Expr)} {values : List Expr} {items : List (Value × Value)} :
    (itemsFolded (foldEachKey addFloat F keys) (foldEach addFloat F values)).run visited =
        some (some items, visited') ↔
      (keys.zip values).any (·.1.isNone) = false ∧ ∃ vs,
        InTurn addFloat F ((keys.zip values).flatMap fun p => p.1.toList ++ [p.2]) vs visited visited' ∧
          pairs vs = items := by
  induction keys generalizing values items visited with
  | nil =>
    have hnil : itemsFolded (foldEachKey addFloat F []) (foldEach addFloat F values) = pure (some []) := by
      cases values <;> rfl
    rw [hnil]
    constructor
    · intro h
      obtain ⟨heq, rfl⟩ := Prod.mk.inj (Option.some.inj h)
      exact ⟨rfl, [], .nil, Option.some.inj heq⟩
    · rintro ⟨-, vs, h, rfl⟩
      cases h
      rfl
  | cons key keys ih =>
    cases values with
    | nil =>
      have hnil : itemsFolded (foldEachKey addFloat F (key :: keys)) (foldEach addFloat F []) = pure (some []) := by
        cases key <;> rfl
      rw [hnil]
      constructor
      · intro h
        obtain ⟨heq, rfl⟩ := Prod.mk.inj (Option.some.inj h)
        exact ⟨rfl, [], .nil, Option.some.inj heq⟩
      · rintro ⟨-, vs, h, rfl⟩
        cases h
        rfl
    | cons value values =>
      cases key with
      | none =>
        refine iff_of_false (fun h => ?_) fun h => nomatch h.1
        cases run_pure_eq_some h
      | some key =>
        rw [foldEachKey, foldEach, itemsFolded]
        simp only [List.zip_cons_cons, List.any_cons, Option.isNone_some, Bool.false_or, List.flatMap_cons,
          Option.toList_some, List.cons_append, List.nil_append]
        constructor
        · intro h
          obtain ⟨k, visited₁, hk, h⟩ := run_bind_eq_some h
          obtain ⟨v, visited₂, hv, h⟩ := run_bind_eq_some h
          cases k with
          | none => cases run_pure_eq_some h
          | some k =>
            cases v with
            | none => cases run_pure_eq_some h
            | some v =>
              obtain ⟨rest, visited₃, hrest, h⟩ := run_bind_eq_some h
              obtain ⟨heq, rfl⟩ := Prod.mk.inj (Option.some.inj h)
              obtain ⟨more, rfl, rfl⟩ := Option.map_eq_some_iff.mp heq
              obtain ⟨hkeys, vs, hturn, rfl⟩ := ih.mp hrest
              exact ⟨hkeys, k :: v :: vs, .cons hk (.cons hv hturn), rfl⟩
        · rintro ⟨hkeys, vs, h, rfl⟩
          cases h with
          | cons hk h =>
            cases h with
            | cons hv hturn =>
              rw [run_bind_of_eq hk, run_bind_of_eq hv]
              simp only
              rw [run_bind_of_eq (ih.mpr ⟨hkeys, _, hturn, rfl⟩)]
              rfl

theorem foldContainer_iff {base : Expr} {c : Container} :
    (foldContainer addFloat F base).run visited = some (some c, visited') ↔
      ∃ vs, InTurn addFloat F (displayParts base) vs visited visited' ∧ displayOf vs base = some c := by
  have hseq (es : List Expr) : (do
      let vs ← membersFolded (foldEachMember addFloat F es)
      pure (vs.map .seq) : FoldM (Option Container)).run visited = some (some c, visited') ↔
      ∃ vs, InTurn addFloat F es vs visited visited' ∧
        (if es.any isStarred then none else some (Container.seq vs)) = some c := by
    constructor
    · intro h
      obtain ⟨vs, visited₁, hvs, h⟩ := run_bind_eq_some h
      obtain ⟨heq, rfl⟩ := Prod.mk.inj (Option.some.inj h)
      obtain ⟨vs, rfl, rfl⟩ := Option.map_eq_some_iff.mp heq
      obtain ⟨hstarred, hturn⟩ := membersFolded_iff.mp hvs
      exact ⟨vs, hturn, by rw [hstarred]; rfl⟩
    · rintro ⟨vs, hturn, hc⟩
      split at hc
      · cases hc
      · rename_i hstarred
        rw [run_bind_of_eq (membersFolded_iff.mpr ⟨by simpa using hstarred, hturn⟩), ← hc]
        rfl
  cases base with
  | dict pos keys values =>
    constructor
    · intro h
      obtain ⟨items, visited₁, hitems, h⟩ := run_bind_eq_some h
      obtain ⟨heq, rfl⟩ := Prod.mk.inj (Option.some.inj h)
      obtain ⟨items, rfl, rfl⟩ := Option.map_eq_some_iff.mp heq
      obtain ⟨hkeys, vs, hturn, rfl⟩ := itemsFolded_iff.mp hitems
      exact ⟨vs, hturn, by rw [displayOf, hkeys]; rfl⟩
    · rintro ⟨vs, hturn, hc⟩
      rw [displayOf] at hc
      split at hc
      · cases hc
      · rename_i hkeys
        rw [foldContainer, run_bind_of_eq (itemsFolded_iff.mpr ⟨Bool.eq_false_iff.mpr hkeys, vs, hturn, rfl⟩), ← hc]
        rfl
  | list pos elts ctx => exact hseq elts
  | tuple pos elts ctx => exact hseq elts
  | _ =>
    refine iff_of_false (fun h => ?_) ?_
    · cases run_pure_eq_some h
    · rintro ⟨vs, -, hc⟩
      cases hc

theorem InTurn.isHole_eq_false {es : List Expr} {vs : List Value} (h : InTurn addFloat F es vs visited visited') :
    ∀ e ∈ es, isHole e = false := by
  induction h with
  | nil => exact fun e he => absurd he List.not_mem_nil
  | @cons e es v vs _ _ _ hrun _ ih =>
    intro e' he'
    rcases List.mem_cons.mp he' with rfl | he'
    · cases e' with
      | formattedValue => cases run_pure_eq_some hrun
      | _ => rfl
    · exact ih e' he'

end

theorem map_holeValue {values : List Expr} (h : ∀ e ∈ values, isHole e = false) : values.map holeValue = values := by
  calc values.map holeValue = values.map id := List.map_congr_left fun e he => by
        have hhole := h e he
        cases e <;> first | rfl | cases hhole
    _ = values := List.map_id values

/-! ## Requests -/

section
variable (addFloat : ℚ → ℚ → ℚ) (T : Tracker) (scope : String) (line : ℕ)

def requestFolder : Folder FoldM where
  constant := foldConstant
  name := foldName addFloat T
    (evalStaticConstant addFloat T ((T.assignments.length + 1) * T.assignments.length)) scope line
  other := pure none

def Alone (e : Expr) (v : Value) : Prop := T.staticConstant addFloat e scope line = some v

/-- No mark that the one can come to is one that the other can come to. -/
def Apart (certain : Bool) (e e' : Expr) : Prop :=
  ∀ k, Follows addFloat T certain scope line e k → ¬Follows addFloat T certain scope line e' k

/-- The parts fold on their own, to values of which the whole has the value `v`. -/
def Composed (other : BinOp → Value → Value → Option Value) (e : Expr) (v : Value) : Prop :=
  ∃ vs, List.Forall₂ (Alone addFloat T scope line) (parts e) vs ∧ resultOf addFloat other e vs = some v

/-- The whole folds to what its parts make. -/
def Composes (other : BinOp → Value → Value → Option Value) (e : Expr) : Prop :=
  ∀ v, Composed addFloat T scope line other e v → Alone addFloat T scope line e v

/-- The values of the parts are of types that fit. -/
def PartsFit (e : Expr) : Prop :=
  ∀ vs, List.Forall₂ (Alone addFloat T scope line) (parts e) vs → Fits e vs = true

end

section
variable {addFloat : ℚ → ℚ → ℚ} {T : Tracker} {scope : String} {line : ℕ}

theorem alone_iff {e : Expr} {v : Value} : Alone addFloat T scope line e v ↔
    ∃ visited, (foldExpr addFloat (requestFolder addFloat T scope line) e).run [] = some (some v, visited) := by
  obtain ⟨visited, hrun⟩ := T.run_requestFuel addFloat e scope line
  have hfold : (foldExpr addFloat (requestFolder addFloat T scope line) e).run [] =
      some (T.staticConstant addFloat e scope line, visited) := hrun
  rw [Alone, hfold]
  constructor
  · intro h
    exact ⟨visited, by rw [h]⟩
  · rintro ⟨visited', h⟩
    exact (Prod.mk.inj (Option.some.inj h)).1

theorem alone_binOp_iff {pos : Pos} {left right : Expr} {op : BinOp} {v : Value} :
    Alone addFloat T scope line (.binOp pos left op right) v ↔ ∃ vs visited,
      InTurn addFloat (requestFolder addFloat T scope line) [left, right] vs [] visited ∧
        foldedOf addFloat (.binOp pos left op right) vs = some v := by
  rw [alone_iff]
  constructor
  · rintro ⟨visited, h⟩
    rw [foldExpr] at h
    obtain ⟨a, visited₁, ha, h⟩ := run_bind_eq_some h
    obtain ⟨b, visited₂, hb, h⟩ := run_bind_eq_some h
    have hv := run_pure_eq_some h
    obtain ⟨a, b, rfl, rfl, -⟩ := foldBinary_eq hv
    exact ⟨[a, b], visited₂, .cons ha (.cons hb .nil), hv⟩
  · rintro ⟨vs, visited, hturn, hv⟩
    cases hturn with
    | cons ha hturn =>
      cases hturn with
      | cons hb hturn =>
        cases hturn
        refine ⟨visited, ?_⟩
        rw [foldExpr, run_bind_of_eq ha, run_bind_of_eq hb, ← hv]
        rfl

theorem alone_joinedStr_iff {pos : Pos} {values : List Expr} {v : Value} :
    Alone addFloat T scope line (.joinedStr pos values) v ↔ (∀ e ∈ values, isHole e = false) ∧ ∃ vs visited,
      InTurn addFloat (requestFolder addFloat T scope line) (values.map holeValue) vs [] visited ∧
        foldedOf addFloat (.joinedStr pos values) vs = some v := by
  rw [alone_iff]
  constructor
  · rintro ⟨visited, h⟩
    rw [foldExpr] at h
    obtain ⟨text, visited₁, htext, h⟩ := run_bind_eq_some h
    obtain ⟨text, rfl, rfl⟩ := Option.map_eq_some_iff.mp (run_pure_eq_some h)
    obtain ⟨vs, hturn, hjoin⟩ := joinFolded_iff.mp htext
    refine ⟨hturn.isHole_eq_false, vs, visited₁, by rwa [map_holeValue hturn.isHole_eq_false], ?_⟩
    show (Value.joinParts vs).map Value.str = _
    rw [hjoin]
    rfl
  · rintro ⟨hholes, vs, visited, hturn, hv⟩
    rw [map_holeValue hholes] at hturn
    obtain ⟨text, hjoin, rfl⟩ := Option.map_eq_some_iff.mp (show (Value.joinParts vs).map Value.str = _ from hv)
    refine ⟨visited, ?_⟩
    rw [foldExpr, run_bind_of_eq (joinFolded_iff.mpr ⟨vs, hturn, hjoin⟩)]
    rfl

theorem alone_subscript_iff {pos : Pos} {base index : Expr} {ctx : Ctx} {v : Value} :
    Alone addFloat T scope line (.subscript pos base index ctx) v ↔ ∃ vs visited,
      InTurn addFloat (requestFolder addFloat T scope line) (displayParts base ++ [index]) vs [] visited ∧
        foldedOf addFloat (.subscript pos base index ctx) vs = some v := by
  rw [alone_iff]
  have hfolded (us : List Value) (key : Value) : foldedOf addFloat (.subscript pos base index ctx) (us ++ [key]) =
      (displayOf us base).bind fun c => readLiteralMember c (some key) := by
    show ((displayOf (us ++ [key]).dropLast base).bind fun c =>
      (us ++ [key]).getLast?.bind fun key => readLiteralMember c (some key)) = _
    rw [List.dropLast_concat, List.getLast?_concat]
    rfl
  constructor
  · rintro ⟨visited, h⟩
    rw [foldExpr] at h
    obtain ⟨c, visited₁, hc, h⟩ := run_bind_eq_some h
    cases c with
    | none => cases run_pure_eq_some h
    | some c =>
      obtain ⟨key, visited₂, hkey, h⟩ := run_bind_eq_some h
      have hv := run_pure_eq_some h
      cases key with
      | none => cases hv
      | some key =>
        obtain ⟨us, hturn, hdisplay⟩ := foldContainer_iff.mp hc
        refine ⟨us ++ [key], visited₂, inTurn_append.mpr ⟨us, [key], visited₁, rfl, hturn, .cons hkey .nil⟩, ?_⟩
        rw [hfolded, hdisplay]
        exact hv
  · rintro ⟨vs, visited, hturn, hv⟩
    obtain ⟨us, us', visited₁, rfl, hus, hus'⟩ := inTurn_append.mp hturn
    cases hus' with
    | @cons _ _ key _ _ _ _ hkey hnil =>
      cases hnil
      rw [hfolded] at hv
      obtain ⟨c, hdisplay, hread⟩ := Option.bind_eq_some_iff.mp hv
      refine ⟨visited, ?_⟩
      rw [foldExpr, run_bind_of_eq (foldContainer_iff.mpr ⟨us, hus, hdisplay⟩)]
      simp only
      rw [run_bind_of_eq hkey, hread]
      rfl

theorem alone_iff_inTurn {e : Expr} (hparts : hasParts e = true) {v : Value} : Alone addFloat T scope line e v ↔
    (∀ pos values, e = .joinedStr pos values → ∀ x ∈ values, isHole x = false) ∧ ∃ vs visited,
      InTurn addFloat (requestFolder addFloat T scope line) (parts e) vs [] visited ∧
        foldedOf addFloat e vs = some v := by
  cases e with
  | binOp pos left op right =>
    rw [alone_binOp_iff]
    exact ⟨fun h => ⟨fun _ _ heq => (nomatch heq), h⟩, fun h => h.2⟩
  | joinedStr pos values =>
    rw [alone_joinedStr_iff]
    refine ⟨fun h => ⟨fun pos' values' heq => ?_, h.2⟩, fun h => ⟨h.1 pos values rfl, h.2⟩⟩
    obtain ⟨-, rfl⟩ := Expr.joinedStr.inj heq
    exact h.1
  | subscript pos base index ctx =>
    rw [alone_subscript_iff]
    exact ⟨fun h => ⟨fun _ _ heq => (nomatch heq), h⟩, fun h => h.2⟩
  | _ => cases hparts

theorem uniform_request (e : Expr) : Uniform (Follows addFloat T false scope line e)
    (foldExpr addFloat (requestFolder addFloat T scope line) e) :=
  uniform_evalStaticConstant addFloat T T.requestFuel e scope line

theorem demands_request (e : Expr) : Demands (Follows addFloat T true scope line e)
    (foldExpr addFloat (requestFolder addFloat T scope line) e) :=
  demands_evalStaticConstant addFloat T T.requestFuel e scope line

theorem run_of_unmarked {e : Expr} {visited : List String}
    (h : ∀ k, Follows addFloat T false scope line e k → k ∉ visited) : ∃ marks,
      (∀ k ∈ marks, Follows addFloat T false scope line e k) ∧
        (foldExpr addFloat (requestFolder addFloat T scope line) e).run visited =
          some (T.staticConstant addFloat e scope line, marks ++ visited) := by
  obtain ⟨visited₁, hrun⟩ := T.run_requestFuel addFloat e scope line
  obtain ⟨marks, hmarks, -, hagree⟩ := uniform_request e [] _ visited₁ hrun
  refine ⟨marks, hmarks, hagree visited fun k hk => ?_⟩
  exact iff_of_false (h k hk) List.not_mem_nil

theorem inTurn_iff_of_apart {es : List Expr} {vs : List Value}
    (hapart : es.Pairwise (Apart addFloat T scope line false))
    {visited : List String} (h : ∀ e ∈ es, ∀ k, Follows addFloat T false scope line e k → k ∉ visited) :
    (∃ visited', InTurn addFloat (requestFolder addFloat T scope line) es vs visited visited') ↔
      List.Forall₂ (Alone addFloat T scope line) es vs := by
  induction es generalizing vs visited with
  | nil =>
    constructor
    · rintro ⟨visited', hturn⟩
      cases hturn
      exact .nil
    · intro halone
      cases halone
      exact ⟨visited, .nil⟩
  | cons e es ih =>
    obtain ⟨hfirst, hrest⟩ := List.pairwise_cons.mp hapart
    obtain ⟨marks, hmarks, hrun⟩ := run_of_unmarked (h e List.mem_cons_self)
    have hunmarked : ∀ e' ∈ es, ∀ k, Follows addFloat T false scope line e' k → k ∉ marks ++ visited := by
      intro e' he' k hk hmem
      rcases List.mem_append.mp hmem with hmem | hmem
      · exact hfirst e' he' k (hmarks k hmem) hk
      · exact h e' (List.mem_cons_of_mem e he') k hk hmem
    constructor
    · rintro ⟨visited', hturn⟩
      cases hturn with
      | @cons _ _ v vs _ visited₁ _ hv hturn =>
        rw [hrun] at hv
        obtain ⟨halone, rfl⟩ := Prod.mk.inj (Option.some.inj hv)
        exact .cons halone ((ih hrest hunmarked).mp ⟨visited', hturn⟩)
    · intro halone
      cases halone with
      | @cons _ v _ vs halone hes =>
        obtain ⟨visited', hturn⟩ := (ih hrest hunmarked).mpr hes
        rw [show T.staticConstant addFloat e scope line = some v from halone] at hrun
        exact ⟨visited', .cons hrun hturn⟩

theorem apart_of_inTurn {es : List Expr} {vs : List Value} {visited visited' : List String}
    (h : InTurn addFloat (requestFolder addFloat T scope line) es vs visited visited') :
    es.Pairwise (Apart addFloat T scope line true) ∧
      ∀ e ∈ es, ∀ k, Follows addFloat T true scope line e k → k ∉ visited := by
  induction h with
  | nil => exact ⟨.nil, fun e he => absurd he List.not_mem_nil⟩
  | @cons e es v vs visited visited₁ visited' hrun _ ih =>
    obtain ⟨hgrows, hmarks⟩ := demands_request e _ _ _ hrun
    refine ⟨List.pairwise_cons.mpr ⟨fun e' he' k hk hk' => ?_, ih.1⟩, fun e' he' k hk hmem => ?_⟩
    · exact ih.2 e' he' k hk' (hmarks rfl k hk).1
    · rcases List.mem_cons.mp he' with rfl | he'
      · exact (hmarks rfl k hk).2 hmem
      · exact ih.2 e' he' k hk (hgrows hmem)

theorem hasParts_of_composed {other : BinOp → Value → Value → Option Value} {e : Expr} {v : Value}
    (h : Composed addFloat T scope line other e v) : hasParts e = true := by
  obtain ⟨vs, -, hresult⟩ := h
  cases e <;> first | rfl | cases hresult

theorem composes_of_apart {other : BinOp → Value → Value → Option Value} {e : Expr}
    (hapart : (parts e).Pairwise (Apart addFloat T scope line false)) (hfit : PartsFit addFloat T scope line e) :
    Composes addFloat T scope line other e := by
  intro v hcomposed
  have hparts := hasParts_of_composed hcomposed
  obtain ⟨vs, halone, hresult⟩ := hcomposed
  have hfits := hfit vs halone
  obtain ⟨visited, hturn⟩ := (inTurn_iff_of_apart hapart fun _ _ _ _ => List.not_mem_nil).mpr halone
  refine (alone_iff_inTurn hparts).mpr ⟨?_, vs, visited, hturn, foldedOf_of_resultOf hfits hresult⟩
  rintro pos values rfl x hx
  have hall : (values.all fun e => !isHole e) = true := by
    cases vs <;> exact hfits
  simpa using List.all_eq_true.mp hall x hx

theorem apart_of_composes {other : BinOp → Value → Value → Option Value} {e : Expr}
    (h : Composes addFloat T scope line other e) {v : Value} (hcomposed : Composed addFloat T scope line other e v) :
    (parts e).Pairwise (Apart addFloat T scope line true) ∧
      ((parts e).Pairwise (Apart addFloat T scope line false) → PartsFit addFloat T scope line e) := by
  have hparts := hasParts_of_composed hcomposed
  obtain ⟨hholes, us, visited, hturn, hfolded⟩ := (alone_iff_inTurn hparts).mp (h v hcomposed)
  refine ⟨(apart_of_inTurn hturn).1, fun hapart vs halone => ?_⟩
  have hus := (inTurn_iff_of_apart hapart fun _ _ _ _ => List.not_mem_nil).mp ⟨visited, hturn⟩
  have heq : us = vs := by
    have hfun : Relator.RightUnique (Alone addFloat T scope line) :=
      fun e u w hu hw => Option.some.inj ((show _ = some u from hu).symm.trans hw)
    exact List.right_unique_forall₂' hfun hus halone
  rw [← heq]
  exact fits_of_foldedOf hholes hfolded

end

/-- `d = "a"`, in the module `m`. -/
def nameTable : Tracker := { assignments := [⟨"d", .constant {} (.str "a"), 1, "m:global", false⟩] }

/-- `d + d`. -/
def doubled : Expr := .binOp {} (.name {} "d" .load) .add (.name {} "d" .load)

end TimeCodeSecurity.Scanner
