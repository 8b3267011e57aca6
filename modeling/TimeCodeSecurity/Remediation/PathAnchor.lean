import TimeCodeSecurity.Remediation.PathExpressions

/-! # The base of a path

What the emitted block promises of a path expression: `safe_base` holds the leading operand and nothing else,
the other operands are resolved against it in order, and harmless values name the same file as before. It does
so of two operands only, and of these not always.
-/
namespace TimeCodeSecurity.Remediation
open Py PosixPath
set_option autoImplicit false

section
variable (leaf : Names → Expr → Option PathValue) (names : Names) (varName : String)

def target (base read : Expr) : Option PathValue :=
  (value leaf names base).bind fun v => v.fspath.bind fun s =>
    value leaf (rebind names "safe_base" (.path s)) read

/-- An expression that means the same once `safe_base` is bound. -/
def IgnoresBase (e : Expr) : Prop :=
  ∀ s, value leaf (rebind names "safe_base" (.path s)) e = value leaf names e

def BenignValues (e : Expr) (v : PathValue) : Prop :=
  value leaf names e = some v ∧
    ∀ r ∈ (operandsOf e).tail, ∃ w, value leaf names r = some w ∧ Benign w.spelled

/-- The block for `e`, which was cut into `base` and `file`, anchors its check. -/
structure Anchored (e base file : Expr) : Prop where
  baseOnly : ∃ lead rest, operandsOf e = lead :: rest ∧ isStarred lead = false ∧
    ∀ b ∈ guardBlock varName base file, b.1 = "safe_base" → b.2 = .resolved lead
  inOrder : ∃ read, behindSlash .test file = some read ∧ quotients read = safeBase :: quotients file ∧
    List.Forall₂ Appears (operandsOf e).tail (summands file) ∧ IgnoresBase leaf names file
  sameFile : ∀ v, BenignValues leaf names e v → ∃ read s, behindSlash .test file = some read ∧
    target leaf names base read = some (.path s) ∧ denotes s = denotes v.spelled

def resolvedOperand (e r : Expr) : Expr := if isSum e then unwrapStr r else r

/-- Two operands: a leading one, and one that stays whole behind a slash and is a path without its `str()`. -/
structure Straight (e lead r : Expr) : Prop where
  two : operandsOf e = [lead, r]
  single : isStarred lead = false
  appears : Appears r (resolvedOperand e r)
  whole : divides .test (resolvedOperand e r) = true
  free : varName ≠ "safe_base" ∧ IgnoresBase leaf names (resolvedOperand e r)
  isText : ∀ v, BenignValues leaf names e v →
    ∃ w s, value leaf names (resolvedOperand e r) = some w ∧ w.fspath = some s
  slash : isSum e = true → ∀ v a b, BenignValues leaf names e v → value leaf names lead = some (.text a) →
    value leaf names r = some (.text b) → Closed a ∨ b = []

end

theorem quotients_of_not_div {e : Expr} (h : ∀ pos l r, e ≠ .binOp pos l .div r) : quotients e = [e] := by
  cases e with
  | binOp pos l op r =>
    cases op with
    | div => exact absurd rfl (h pos l r)
    | _ => rfl
  | _ => rfl

theorem quotients_ne_single {e x : Expr} (h : quotients x = [x]) : quotients x ≠ safeBase :: quotients e := by
  intro heq
  rw [h] at heq
  have hnil := (List.cons.inj heq).2
  cases e with
  | binOp pos l op r => cases op <;> simp [quotients] at hnil
  | _ => cases hnil

theorem single_of_map {before : Option Expr} {f : Expr → Expr} (hf : ∀ x, quotients (f x) = [f x]) :
    ∀ read, before.map f = some read → quotients read = [read] := by
  intro read hread
  obtain ⟨x, -, rfl⟩ := Option.map_eq_some_iff.mp hread
  exact hf x

theorem not_div_of_loose {e : Expr} {place : Level} (hplace : place.ctorIdx ≤ Level.term.ctorIdx)
    (hloose : (level e).ctorIdx < place.ctorIdx) (pos : Pos) (l r : Expr) : e ≠ .binOp pos l .div r := by
  rintro rfl
  exact absurd hloose (Nat.not_lt.mpr hplace)

theorem behindSlash_cases (e : Expr) {place : Level} (hplace : place.ctorIdx ≤ Level.term.ctorIdx) :
    (behindSlash place e = some (.binOp {} safeBase .div e) ∧ divides place e = true ∧ quotients e = [e]) ∨
    (∃ pos l r, e = .binOp pos l .div r ∧ divides place e = divides .term l ∧
      behindSlash place e = (behindSlash .term l).map fun l' => .binOp pos l' .div r) ∨
    (divides place e = false ∧ ∀ read, behindSlash place e = some read → quotients read = [read]) := by
  rw [behindSlash.eq_def place e, divides.eq_def place e]
  by_cases hloose : (level e).ctorIdx < place.ctorIdx
  · rw [if_pos hloose, decide_eq_true hloose, Bool.true_or]
    exact .inl ⟨rfl, rfl, quotients_of_not_div (not_div_of_loose hplace hloose)⟩
  rw [if_neg hloose, decide_eq_false hloose, Bool.false_or]
  cases e with
  | binOp pos l op r =>
    cases op with
    | div => exact .inr (.inl ⟨pos, l, r, rfl, by simp, by simp [opLevel]⟩)
    | pow => exact .inl ⟨by simp, by simp, rfl⟩
    | _ => exact .inr (.inr ⟨by simp, by simpa using single_of_map fun _ => rfl⟩)
  | boolOp pos op vs =>
    cases vs with
    | nil => cases op <;> exact .inl ⟨rfl, rfl, rfl⟩
    | cons v vs => cases op <;> exact .inr (.inr ⟨rfl, single_of_map fun _ => rfl⟩)
  | ifExp pos test body orelse => exact .inr (.inr ⟨rfl, single_of_map fun _ => rfl⟩)
  | compare pos l ops cs => exact .inr (.inr ⟨rfl, single_of_map fun _ => rfl⟩)
  | lambda pos args body => exact .inr (.inr ⟨rfl, fun _ h => nomatch h⟩)
  | starred pos value ctx => exact .inr (.inr ⟨rfl, fun _ h => nomatch h⟩)
  | unaryOp pos op x =>
    cases op with
    | not => exact .inr (.inr ⟨rfl, fun _ h => nomatch h⟩)
    | _ => exact .inl ⟨rfl, rfl, rfl⟩
  | _ => exact .inl ⟨rfl, rfl, rfl⟩

theorem quotients_behindSlash_iff (e : Expr) {place : Level} (hplace : place.ctorIdx ≤ Level.term.ctorIdx) :
    (∃ read, behindSlash place e = some read ∧ quotients read = safeBase :: quotients e) ↔
      divides place e = true := by
  rcases behindSlash_cases e hplace with ⟨hread, hdivides, hquot⟩ | ⟨pos, l, r, rfl, hdivides, hread⟩ |
    ⟨hdivides, hsingle⟩
  · rw [hread, hdivides, hquot]
    exact ⟨fun _ => rfl, fun _ => ⟨_, rfl, rfl⟩⟩
  · rw [hdivides, hread, ← quotients_behindSlash_iff l (Nat.le_refl Level.term.ctorIdx)]
    simp only [Option.map_eq_some_iff]
    constructor
    · rintro ⟨_, ⟨l', hl', rfl⟩, hquot⟩
      exact ⟨l', hl', List.append_cancel_right hquot⟩
    · rintro ⟨l', hl', hquot⟩
      exact ⟨_, ⟨l', hl', rfl⟩, by rw [quotients, quotients, hquot, List.cons_append]⟩
  · rw [hdivides]
    refine iff_of_false ?_ Bool.false_ne_true
    rintro ⟨read, hread, hquot⟩
    exact quotients_ne_single (hsingle read hread) hquot
termination_by sizeOf e

/-! ## Values behind the slash -/

section
variable {leaf : Names → Expr → Option PathValue} {names : Names}

theorem divided_path {t b : Text} {w : PathValue} (hw : w.fspath = some b) (o : Option PathValue) :
    divided (.path t) w o = some (.path (PosixPath.join (plain t) b)) := by
  rw [divided, hw]
  rfl

theorem divided_some {v w u : PathValue} {a b : Text} {o : Option PathValue} (hv : v.fspath = some a)
    (hw : w.fspath = some b) (h : divided v w o = some u) : u = .path (PosixPath.join a b) := by
  rw [divided, hv, hw] at h
  simp only at h
  split at h
  · exact (Option.some.inj h).symm
  · cases h

theorem divided_other {v w u : PathValue} {o : Option PathValue} (hnone : v.fspath = none ∨ w.fspath = none)
    (h : divided v w o = some u) : u.fspath = none := by
  unfold divided at h
  split at h
  next hv hw =>
    rw [hv, hw] at hnone
    simp at hnone
  · obtain ⟨u', -, rfl⟩ := Option.map_eq_some_iff.mp h
    rfl

theorem value_div {pos : Pos} {l r : Expr} {v : PathValue} (h : value leaf names (.binOp pos l .div r) = some v) :
    ∃ vl vr, value leaf names l = some vl ∧ value leaf names r = some vr ∧
      divided vl vr (leaf names (.binOp pos l .div r)) = some v := by
  obtain ⟨vl, hl, h⟩ := Option.bind_eq_some_iff.mp h
  obtain ⟨vr, hr, h⟩ := Option.bind_eq_some_iff.mp h
  exact ⟨vl, vr, hl, hr, h⟩

def GoesBehind (leaf : Names → Expr → Option PathValue) (names : Names) (t : Text) (read : Expr) (v : PathValue) :
    Prop :=
  (∀ s, v.fspath = some s → absolute s = false → ∃ u, value leaf names read = some (.path u) ∧
    denotes u = (absolute t, components t ++ components s)) ∧
  (v.fspath = none → ∀ w, value leaf names read = some w → w.fspath = none)

theorem goesBehind_single {t : Text} (hbase : names "safe_base" = some (.path t)) {e : Expr} {v : PathValue}
    (hv : value leaf names e = some v) : GoesBehind leaf names t (.binOp {} safeBase .div e) v := by
  have hvalue : value leaf names (.binOp {} safeBase .div e) =
      divided (.path t) v (leaf names (.binOp {} safeBase .div e)) := by
    rw [value, safeBase, value_name, hbase, hv]
    rfl
  refine ⟨fun s hs hrel => ⟨_, hvalue.trans (divided_path hs _), ?_⟩, fun hnone w hw => ?_⟩
  · rw [join_relative hrel, absolute_plain, components_plain]
  · exact divided_other (.inr hnone) (hvalue.symm.trans hw)

theorem goesBehind_quotient {t : Text} {l l' r : Expr} {pos : Pos} {v : PathValue}
    (hv : value leaf names (.binOp pos l .div r) = some v)
    (hl' : ∀ vl, value leaf names l = some vl → GoesBehind leaf names t l' vl) :
    GoesBehind leaf names t (.binOp pos l' .div r) v := by
  obtain ⟨vl, vr, hl, hr, hdiv⟩ := value_div hv
  obtain ⟨hpath, hother⟩ := hl' vl hl
  constructor
  · intro s hs hrel
    obtain ⟨a, ha⟩ : ∃ a, vl.fspath = some a := Option.ne_none_iff_exists'.mp fun hnone => by
      rw [divided_other (.inl hnone) hdiv] at hs
      cases hs
    obtain ⟨b, hb⟩ : ∃ b, vr.fspath = some b := Option.ne_none_iff_exists'.mp fun hnone => by
      rw [divided_other (.inr hnone) hdiv] at hs
      cases hs
    obtain rfl := divided_some ha hb hdiv
    obtain rfl := Option.some.inj hs
    rw [absolute_plain] at hrel
    obtain ⟨harel, hbrel⟩ := absolute_join hrel
    obtain ⟨u, hu, hden⟩ := hpath a ha harel
    refine ⟨PosixPath.join (plain u) b, ?_, ?_⟩
    · rw [value, hu, hr]
      exact divided_path hb _
    · have habs := congrArg Prod.fst hden
      have hcomps := congrArg Prod.snd hden
      have hjoin := congrArg Prod.snd (join_relative (a := a) hbrel)
      simp only [denotes] at habs hcomps hjoin
      rw [join_relative hbrel, absolute_plain, components_plain, components_plain, hjoin, habs, hcomps,
        List.append_assoc]
  · intro hnone w hw
    obtain ⟨wl, wr, hwl, hwr, hdiv'⟩ := value_div hw
    obtain rfl := Option.some.inj (hr.symm.trans hwr)
    refine divided_other ?_ hdiv'
    by_cases ha : vl.fspath = none
    · exact .inl (hother ha wl hwl)
    · obtain ⟨a, ha⟩ := Option.ne_none_iff_exists'.mp ha
      refine .inr (by_contra fun hb => ?_)
      obtain ⟨b, hb⟩ := Option.ne_none_iff_exists'.mp hb
      rw [divided_some ha hb hdiv] at hnone
      cases hnone

theorem goesBehind_read {t : Text} (hbase : names "safe_base" = some (.path t)) (e : Expr) {place : Level}
    (hplace : place.ctorIdx ≤ Level.term.ctorIdx) {read : Expr} {v : PathValue}
    (hread : behindSlash place e = some read) (hdivides : divides place e = true)
    (hv : value leaf names e = some v) : GoesBehind leaf names t read v := by
  rcases behindSlash_cases e hplace with ⟨hsingle, -, -⟩ | ⟨pos, l, r, rfl, hl, hmap⟩ | ⟨hfalse, -⟩
  · obtain rfl := Option.some.inj (hsingle.symm.trans hread)
    exact goesBehind_single hbase hv
  · obtain ⟨l', hl', rfl⟩ := Option.map_eq_some_iff.mp (hmap.symm.trans hread)
    exact goesBehind_quotient hv fun vl hvl =>
      goesBehind_read hbase l (Nat.le_refl Level.term.ctorIdx) hl' (hl.symm.trans hdivides) hvl
  · rw [hfalse] at hdivides
    cases hdivides
termination_by sizeOf e

end

theorem summands_cases (e : Expr) : (∃ pos l r, e = .binOp pos l .add r) ∨ summands e = [e] := by
  cases e with
  | binOp pos l op r =>
    cases op with
    | add => exact .inl ⟨pos, l, r, rfl⟩
    | _ => exact .inr rfl
  | _ => exact .inr rfl

theorem summands_ne_nil (e : Expr) : summands e ≠ [] := by
  rcases summands_cases e with ⟨pos, l, r, rfl⟩ | hself
  · simp [summands]
  · simp [hself]

theorem eq_of_summands_single {e x : Expr} (h : summands e = [x]) : x = e := by
  rcases summands_cases e with ⟨pos, l, r, rfl⟩ | hself
  · have hlength := congrArg List.length h
    have := List.length_pos_iff.mpr (summands_ne_nil l)
    simp only [summands, List.length_append, List.length_singleton] at hlength
    omega
  · exact (List.cons.inj (h.symm.trans hself)).1

theorem summands_of_divides {e : Expr} (h : divides .test e = true) : summands e = [e] := by
  rcases summands_cases e with ⟨pos, l, r, rfl⟩ | hself
  · have hlevel : ¬(level (.binOp pos l .add r)).ctorIdx < Level.test.ctorIdx :=
      (by decide : ¬Level.arith.ctorIdx < Level.test.ctorIdx)
    rw [divides, decide_eq_false hlevel] at h
    simp at h
  · exact hself

theorem decomposePathExpression_cases {e base file : Expr}
    (h : decomposePathExpression e = .ok (base, file)) :
    (∃ pos r, e = .binOp pos base .add r ∧ file = unwrapStr r) ∨
    ∃ pos p v c more keywords, e = .call pos (.attr p v "join" c) (base :: file :: more) keywords := by
  unfold decomposePathExpression at h
  split at h
  · obtain ⟨rfl, rfl⟩ := Prod.mk.inj (Except.ok.inj h)
    exact .inl ⟨_, _, rfl, rfl⟩
  · obtain ⟨rfl, rfl⟩ := Prod.mk.inj (Except.ok.inj h)
    exact .inr ⟨_, _, _, _, _, _, rfl⟩
  · cases h

theorem operands_of_decompose {e base file lead r : Expr} (h : decomposePathExpression e = .ok (base, file))
    (hops : operandsOf e = [lead, r]) : lead = base ∧ resolvedOperand e r = file := by
  rcases decomposePathExpression_cases h with ⟨pos, right, rfl, rfl⟩ | ⟨pos, p, v, c, more, keywords, rfl⟩
  · obtain ⟨hl, hr⟩ := List.append_inj' (show summands base ++ [right] = [lead] ++ [r] from hops) rfl
    rw [List.cons.inj hr |>.1]
    exact ⟨eq_of_summands_single hl, rfl⟩
  · obtain ⟨hlead, hrest⟩ := List.cons.inj hops
    exact ⟨hlead.symm, (List.cons.inj hrest).1.symm⟩

/-! ## The guarantee -/

section
variable {leaf : Names → Expr → Option PathValue} {names : Names} {varName : String} {e base file lead r : Expr}

theorem str_of_fspath {w : PathValue} {s : Text} (h : w.fspath = some s) : w.str = s ∧ w.spelled = s := by
  cases w with
  | text t => exact ⟨Option.some.inj h, Option.some.inj h⟩
  | path t => exact ⟨Option.some.inj h, Option.some.inj h⟩
  | bytes t => cases h
  | other t => cases h

theorem concatenated_text {v w : PathValue} {b : Text} {u : PathValue} (h : concatenated v w = some u)
    (hw : w.fspath = some b) : ∃ a, v = .text a ∧ w = .text b ∧ u = .text (a ++ b) := by
  unfold concatenated at h
  split at h
  · obtain rfl := Option.some.inj hw
    exact ⟨_, rfl, rfl, (Option.some.inj h).symm⟩
  · cases hw
  · cases h

theorem joined_text {v w u : PathValue} {b : Text} (h : joined [v, w] = some u) (hw : w.fspath = some b) :
    ∃ a, v.fspath = some a ∧ u = .text (PosixPath.join a b) := by
  have hcontent : w.content = none := by
    cases w <;> first | rfl | cases hw
  cases hv : v.fspath with
  | some a =>
    refine ⟨a, rfl, ?_⟩
    simp only [joined, List.mapM_cons, List.mapM_nil, hv, hw, Option.bind_eq_bind, Option.bind_some,
      Option.pure_def] at h
    exact (Option.some.inj h).symm
  | none => cases hv' : v.content <;> simp [joined, hv, hcontent, hv'] at h

theorem value_appears {w : PathValue} (happears : Appears r file) (hr : value leaf names r = some w) :
    ∃ u, value leaf names file = some u ∧ ∀ s, u.fspath = some s → w.fspath = some s ∧ w.spelled = s := by
  rcases happears with rfl | ⟨pos, p, c, rfl⟩
  · exact ⟨w, hr, fun s hs => ⟨hs, (str_of_fspath hs).2⟩⟩
  · rw [value_str] at hr
    obtain ⟨u, hu, rfl⟩ := Option.map_eq_some_iff.mp hr
    exact ⟨u, hu, fun s hs => ⟨congrArg some (str_of_fspath hs).1, (str_of_fspath hs).1⟩⟩

theorem goesBehind_target {vb w : PathValue} {a : Text} {read : Expr} (hbase : value leaf names base = some vb)
    (ha : vb.fspath = some a) (hread : behindSlash .test file = some read) (hwhole : divides .test file = true)
    (hfree : IgnoresBase leaf names file) (hw : value leaf names file = some w) :
    target leaf names base read = value leaf (rebind names "safe_base" (.path a)) read ∧
      GoesBehind leaf (rebind names "safe_base" (.path a)) a read w := by
  constructor
  · rw [target, hbase]
    simp only [Option.bind_some, ha]
  · exact goesBehind_read (by simp [rebind]) file (by decide) hread hwhole ((hfree a).trans hw)

theorem fspath_of_target {vb v : PathValue} {read : Expr} (hbase : value leaf names base = some vb)
    (h : target leaf names base read = some v) : ∃ a, vb.fspath = some a := by
  rw [target, hbase, Option.bind_some] at h
  obtain ⟨a, ha, -⟩ := Option.bind_eq_some_iff.mp h
  exact ⟨a, ha⟩

theorem benign_values {v : PathValue} (hdec : decomposePathExpression e = .ok (base, file))
    (hops : operandsOf e = [lead, r]) (hbenign : BenignValues leaf names e v) :
    ∃ vb w, value leaf names base = some vb ∧ value leaf names r = some w ∧ Benign w.spelled ∧
      (if isSum e then concatenated vb w else joined [vb, w]) = some v := by
  obtain ⟨hv, hrest⟩ := hbenign
  obtain ⟨w, hw, hplain⟩ := hrest r (by simp [hops])
  rcases decomposePathExpression_cases hdec with ⟨pos, right, rfl, rfl⟩ | ⟨pos, p, v', c, more, keywords, rfl⟩
  · obtain ⟨-, hr⟩ := List.append_inj' (show summands base ++ [right] = [lead] ++ [r] from hops) rfl
    obtain rfl := (List.cons.inj hr).1
    rw [value_add] at hv
    obtain ⟨vb, hb, hv⟩ := Option.bind_eq_some_iff.mp hv
    rw [hw] at hv
    exact ⟨vb, w, hb, hw, hplain, hv⟩
  · obtain ⟨-, hmore⟩ := List.cons.inj hops
    obtain ⟨rfl, hnil⟩ := List.cons.inj hmore
    obtain ⟨rfl, hkeywords⟩ := List.append_eq_nil_iff.mp hnil
    obtain rfl := List.map_eq_nil_iff.mp hkeywords
    rw [value_join] at hv
    obtain ⟨vs, hvs, hv⟩ := Option.bind_eq_some_iff.mp hv
    simp only [values, hw, Option.map_some, Option.bind_some] at hvs
    obtain ⟨vb, hb, hvs⟩ := Option.bind_eq_some_iff.mp hvs
    obtain rfl := Option.some.inj hvs
    exact ⟨vb, w, hb, hw, hplain, hv⟩

/-- The block anchors its check on the leading operand just for straight expressions. -/
theorem anchored_iff (leaf : Names → Expr → Option PathValue) (names : Names) (varName : String)
    {e base file : Expr} (hdec : decomposePathExpression e = .ok (base, file)) :
    Anchored leaf names varName e base file ↔ ∃ lead r, Straight leaf names varName e lead r := by
  constructor
  · rintro ⟨⟨lead, rest, hops, hsingle, hblock⟩, ⟨read, hread, hquot, happear, hfree⟩, hsame⟩
    have hwhole := (quotients_behindSlash_iff file (by decide)).mp ⟨read, hread, hquot⟩
    rw [summands_of_divides hwhole, hops, List.tail_cons] at happear
    obtain ⟨r, rfl⟩ : ∃ r, rest = [r] := by
      cases happear with
      | cons _ hnil =>
        cases hnil
        exact ⟨_, rfl⟩
    obtain ⟨rfl, hfile⟩ := operands_of_decompose hdec hops
    have hr : Appears r file := by
      cases happear with
      | cons hr _ => exact hr
    -- What is resolved has a text, or nothing is resolved at all.
    have htext : ∀ v, BenignValues leaf names e v → ∃ w s, value leaf names file = some w ∧ w.fspath = some s := by
      intro v hbenign
      obtain ⟨read', s, hread', htarget, -⟩ := hsame v hbenign
      obtain rfl := Option.some.inj (hread.symm.trans hread')
      obtain ⟨vb, w, hb, hw, -, -⟩ := benign_values hdec hops hbenign
      obtain ⟨u, hu, -⟩ := value_appears hr hw
      obtain ⟨a, ha⟩ := fspath_of_target hb htarget
      obtain ⟨hvalue, hbehind⟩ := goesBehind_target hb ha hread hwhole hfree hu
      cases hs : u.fspath with
      | some t => exact ⟨u, t, hu, hs⟩
      | none => cases hbehind.2 hs _ (hvalue.symm.trans htarget)
    refine ⟨lead, r, hops, hsingle, hfile ▸ hr, hfile ▸ hwhole, ⟨?_, hfile ▸ hfree⟩, hfile ▸ htext, ?_⟩
    · intro hvar
      cases hblock (varName, .behindBase file) (by simp [guardBlock]) hvar
    · intro hsum v a b hbenign ha hb
      obtain ⟨read', s, hread', htarget, hden⟩ := hsame v hbenign
      obtain rfl := Option.some.inj (hread.symm.trans hread')
      obtain ⟨vb, w, hvb, hw, hplain, hv⟩ := benign_values hdec hops hbenign
      obtain rfl := Option.some.inj (ha.symm.trans hvb)
      obtain rfl := Option.some.inj (hb.symm.trans hw)
      rw [if_pos hsum] at hv
      obtain rfl := Option.some.inj hv
      obtain ⟨u, t, hu, ht⟩ := htext _ hbenign
      obtain ⟨u', hu', hshown⟩ := value_appears hr hb
      obtain rfl := Option.some.inj (hu.symm.trans hu')
      obtain rfl := Option.some.inj (hshown t ht).1
      obtain ⟨hvalue, hbehind⟩ := goesBehind_target ha rfl hread hwhole hfree hu
      obtain ⟨s', hs', hden'⟩ := hbehind.1 b ht hplain.relative
      obtain rfl := PathValue.path.inj (Option.some.inj (htarget.symm.trans (hvalue.trans hs')))
      exact (denotes_append_iff hplain).mp (hden.symm.trans hden')
  · rintro ⟨lead, r, hops, hsingle, happears, hwhole, ⟨hvar, hfree⟩, htext, hslash⟩
    obtain ⟨rfl, hfile⟩ := operands_of_decompose hdec hops
    rw [hfile] at happears hwhole hfree htext
    obtain ⟨read, hread, hquot⟩ := (quotients_behindSlash_iff file (by decide)).mpr hwhole
    refine ⟨⟨lead, [r], hops, hsingle, ?_⟩, ⟨read, hread, hquot, ?_, hfree⟩, ?_⟩
    · intro b hb htarget
      rcases List.mem_cons.mp hb with rfl | hb
      · rfl
      · obtain rfl := List.mem_singleton.mp hb
        exact absurd htarget hvar
    · rw [hops, summands_of_divides hwhole]
      exact .cons happears .nil
    · intro v hbenign
      obtain ⟨u, b, hu, hb⟩ := htext v hbenign
      obtain ⟨vb, w, hvb, hw, hplain, hv⟩ := benign_values hdec hops hbenign
      obtain ⟨u', hu', hshown⟩ := value_appears happears hw
      obtain rfl := Option.some.inj (hu.symm.trans hu')
      obtain ⟨hwb, hspelled⟩ := hshown b hb
      rw [hspelled] at hplain
      obtain ⟨a, ha, hden⟩ : ∃ a, vb.fspath = some a ∧
          denotes v.spelled = (absolute a, components a ++ components b) := by
        cases hsum : isSum e with
        | true =>
          rw [if_pos hsum] at hv
          obtain ⟨a, rfl, rfl, rfl⟩ := concatenated_text hv hwb
          exact ⟨a, rfl, (denotes_append_iff hplain).mpr (hslash hsum _ a b hbenign hvb hw)⟩
        | false =>
          rw [if_neg (Bool.eq_false_iff.mp hsum)] at hv
          obtain ⟨a, ha, rfl⟩ := joined_text hv hwb
          exact ⟨a, ha, join_relative hplain.relative⟩
      obtain ⟨hvalue, hbehind⟩ := goesBehind_target hvb ha hread hwhole hfree hu
      obtain ⟨s, hs, hden'⟩ := hbehind.1 b hb hplain.relative
      exact ⟨read, s, hread, hvalue.trans hs, hden'.trans hden.symm⟩

end

def baseName : Expr := .name {} "base_dir" .load
def folderName : Expr := .name {} "folder" .load
def fileName : Expr := .name {} "filename" .load

/-- `base_dir + folder + filename` is resolved against `base_dir + folder`. -/
theorem untrusted_operand_in_base : ¬∀ (leaf : Names → Expr → Option PathValue) (names : Names)
    (varName : String) (e base file : Expr), decomposePathExpression e = .ok (base, file) →
      Anchored leaf names varName e base file := by
  intro h
  have hanchored := h (fun _ _ => none) (fun _ => none) "path"
    (.binOp {} (.binOp {} baseName .add folderName) .add fileName) _ _ rfl
  obtain ⟨lead, rest, hops, -, hblock⟩ := hanchored.baseOnly
  have hlead : lead = baseName := (List.cons.inj hops).1.symm
  have hbase := hblock ("safe_base", .resolved (.binOp {} baseName .add folderName)) (by simp [guardBlock]) rfl
  rw [hlead] at hbase
  cases GuardValue.resolved.inj hbase

namespace TwoNames

def path : Expr := .binOp {} baseName .add fileName

theorem anchored_iff_path : Anchored (fun _ _ => none) (fun _ => some (.text ['/'])) "path" path baseName fileName ↔
    ∃ lead r, Straight (fun _ _ => none) (fun _ => some (.text ['/'])) "path" path lead r :=
  anchored_iff (fun _ _ => none) (fun _ => some (.text ['/'])) "path" rfl

end TwoNames

end TimeCodeSecurity.Remediation
