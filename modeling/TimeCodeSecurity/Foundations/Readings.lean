import Mathlib.Data.Set.Card
import Mathlib.Tactic.Positivity
import Mathlib.Tactic.Ring

/-! # Ways to read a word

A pattern reads a word along a tree of choices: which alternative, and how many turns of a repeat. The
number of trees of a word is bounded by a polynomial in its length exactly when no repeat without a bound
reads a word in two ways.
-/
namespace TimeCodeSecurity.Readings
set_option autoImplicit false

inductive Rx (α : Type)
  | never
  | empty
  | one (S : α → Prop)
  | cat (e f : Rx α)
  | alt (e f : Rx α)
  /-- `lo` turns at least, and at most `hi` where there is a bound. -/
  | rep (lo : ℕ) (hi : Option ℕ) (e : Rx α)

inductive Reading (α : Type)
  | unit
  | letter (a : α)
  | pair (t s : Reading α)
  | left (t : Reading α)
  | right (t : Reading α)

section
variable {α : Type}

def Reading.word : Reading α → List α
  | .unit => []
  | .letter a => [a]
  | .pair t s => t.word ++ s.word
  | .left t => t.word
  | .right t => t.word

def Pairs (R S : Reading α → List α → Prop) (t : Reading α) (w : List α) : Prop :=
  ∃ a b u v, R a u ∧ S b v ∧ t = .pair a b ∧ w = u ++ v

def Turns (R : Reading α → List α → Prop) : ℕ → Reading α → List α → Prop
  | 0 => fun t w => t = .unit ∧ w = []
  | n + 1 => Pairs R (Turns R n)

def Looped (R : Reading α → List α → Prop) (lo : ℕ) (t : Reading α) (w : List α) : Prop :=
  ∃ n, lo ≤ n ∧ Turns R n t w

def Rx.Reads : Rx α → Reading α → List α → Prop
  | never => fun _ _ => False
  | empty => fun t w => t = .unit ∧ w = []
  | one S => fun t w => ∃ a, S a ∧ t = .letter a ∧ w = [a]
  | cat e f => Pairs e.Reads f.Reads
  | alt e f => fun t w => (∃ a, e.Reads a w ∧ t = .left a) ∨ ∃ a, f.Reads a w ∧ t = .right a
  | rep lo none e => Looped e.Reads lo
  | rep lo (some hi) e => fun t w => ∃ n, lo ≤ n ∧ n ≤ hi ∧ Turns e.Reads n t w

def OneWay (R : Reading α → List α → Prop) : Prop := ∀ t t' w, R t w → R t' w → t = t'

def PolynomialWays (R : Reading α → List α → Prop) : Prop :=
  ∃ c k : ℕ, ∀ w, {t | R t w}.encard ≤ (c * (w.length + 1) ^ k : ℕ)

def Spelled (R : Reading α → List α → Prop) : Prop := ∀ t w, R t w → t.word = w

variable {R S : Reading α → List α → Prop}

theorem Spelled.pairs (hR : Spelled R) (hS : Spelled S) : Spelled (Pairs R S) := by
  rintro t w ⟨a, b, u, v, ha, hb, rfl, rfl⟩
  rw [Reading.word, hR a u ha, hS b v hb]

theorem Spelled.turns (hR : Spelled R) : ∀ n, Spelled (Turns R n)
  | 0 => by
    rintro t w ⟨rfl, rfl⟩
    rfl
  | n + 1 => hR.pairs (Spelled.turns hR n)

theorem Rx.spelled (e : Rx α) : Spelled e.Reads := by
  induction e with
  | never => exact fun _ _ h => h.elim
  | empty =>
    rintro t w ⟨rfl, rfl⟩
    rfl
  | one S =>
    rintro t w ⟨a, -, rfl, rfl⟩
    rfl
  | cat e f ihe ihf => exact ihe.pairs ihf
  | alt e f ihe ihf =>
    rintro t w (⟨a, ha, rfl⟩ | ⟨a, ha, rfl⟩)
    · exact ihe a w ha
    · exact ihf a w ha
  | rep lo hi e ih =>
    cases hi with
    | none => exact fun t w ⟨n, _, h⟩ => ih.turns n t w h
    | some hi => exact fun t w ⟨n, _, _, h⟩ => ih.turns n t w h

theorem exists_turns {t : Reading α} {w : List α} (h : R t w) : ∀ n, ∃ s v, Turns R n s v
  | 0 => ⟨.unit, [], rfl, rfl⟩
  | n + 1 =>
    let ⟨s, v, hs⟩ := exists_turns h n
    ⟨.pair t s, w ++ v, t, s, w, v, h, hs, rfl, rfl⟩

/-! ## PolynomialWays bounds -/

theorem PolynomialWays.of_oneWay (h : OneWay R) : PolynomialWays R := by
  refine ⟨1, 0, fun w => ?_⟩
  rw [pow_zero, mul_one, Nat.cast_one, Set.encard_le_one_iff]
  exact fun t t' ht ht' => h t t' w ht ht'

theorem PolynomialWays.mono (h : ∀ t w, R t w → S t w) (hS : PolynomialWays S) : PolynomialWays R := by
  obtain ⟨c, k, hS⟩ := hS
  exact ⟨c, k, fun w => (Set.encard_le_encard fun t ht => h t w ht).trans (hS w)⟩

theorem PolynomialWays.of_map {f : Reading α → Reading α} {g : List α → List α} (d : ℕ) (hf : f.Injective)
    (hg : ∀ w, (g w).length ≤ d * (w.length + 1)) (h : ∀ t w, R t w → S (f t) (g w))
    (hS : PolynomialWays S) : PolynomialWays R := by
  obtain ⟨c, k, hS⟩ := hS
  refine ⟨c * (d + 1) ^ k, k, fun w => ?_⟩
  have hle : {t | R t w}.encard ≤ {t | S t (g w)}.encard := by
    rw [← hf.injOn.encard_image]
    refine Set.encard_le_encard ?_
    rintro _ ⟨t, ht, rfl⟩
    exact h t w ht
  refine (hle.trans (hS _)).trans ?_
  have hlen : (g w).length + 1 ≤ (d + 1) * (w.length + 1) := by
    have hw := hg w
    have hexp : (d + 1) * (w.length + 1) = d * (w.length + 1) + (w.length + 1) := by ring
    omega
  have hpow := Nat.pow_le_pow_left hlen k
  rw [mul_pow] at hpow
  have hmul := Nat.mul_le_mul_left c hpow
  rw [← mul_assoc] at hmul
  exact_mod_cast hmul

theorem PolynomialWays.union (hR : PolynomialWays R) (hS : PolynomialWays S) :
    PolynomialWays fun t w => R t w ∨ S t w := by
  obtain ⟨c, k, hR⟩ := hR
  obtain ⟨d, m, hS⟩ := hS
  refine ⟨c + d, k + m, fun w => ?_⟩
  have hunion : {t | R t w ∨ S t w}.encard ≤ {t | R t w}.encard + {t | S t w}.encard :=
    Set.encard_union_le _ _
  refine (hunion.trans (add_le_add (hR w) (hS w))).trans ?_
  have hk : (w.length + 1) ^ k ≤ (w.length + 1) ^ (k + m) := Nat.pow_le_pow_right (by omega) (by omega)
  have hm : (w.length + 1) ^ m ≤ (w.length + 1) ^ (k + m) := Nat.pow_le_pow_right (by omega) (by omega)
  have hsum := add_le_add (Nat.mul_le_mul_left c hk) (Nat.mul_le_mul_left d hm)
  rw [← add_mul] at hsum
  exact_mod_cast hsum

theorem PolynomialWays.image {f : Reading α → Reading α} (hR : PolynomialWays R) :
    PolynomialWays fun t w => ∃ a, R a w ∧ t = f a := by
  obtain ⟨c, k, hR⟩ := hR
  refine ⟨c, k, fun w => le_trans ?_ (hR w)⟩
  refine le_trans (Set.encard_le_encard ?_) (Set.encard_image_le f _)
  rintro _ ⟨a, ha, rfl⟩
  exact ⟨a, ha, rfl⟩

theorem encard_lt_le {T : Type} (A : ℕ → Set T) (b : ℕ) (n : ℕ) (h : ∀ i < n, (A i).encard ≤ b) :
    {t | ∃ i < n, t ∈ A i}.encard ≤ (n * b : ℕ) := by
  induction n with
  | zero =>
    have hempty : {t | ∃ i < 0, t ∈ A i} = ∅ := by simp
    rw [hempty]
    simp
  | succ n ih =>
    have hsub : {t | ∃ i < n + 1, t ∈ A i} ⊆ {t | ∃ i < n, t ∈ A i} ∪ A n := by
      rintro t ⟨i, hi, ht⟩
      rcases Nat.lt_succ_iff_lt_or_eq.mp hi with hlt | rfl
      · exact .inl ⟨i, hlt, ht⟩
      · exact .inr ht
    refine (Set.encard_le_encard hsub).trans ((Set.encard_union_le _ _).trans ?_)
    refine (add_le_add (ih fun i hi => h i (by omega)) (h n (by omega))).trans ?_
    rw [← Nat.cast_add, Nat.add_mul, one_mul]

theorem PolynomialWays.pairs (hR : PolynomialWays R) (hS : PolynomialWays S) : PolynomialWays (Pairs R S) := by
  obtain ⟨c, k, hR⟩ := hR
  obtain ⟨d, m, hS⟩ := hS
  refine ⟨c * d, k + m + 1, fun w => ?_⟩
  let A : ℕ → Set (Reading α) := fun i =>
    (fun p : Reading α × Reading α => Reading.pair p.1 p.2) '' ({t | R t (w.take i)} ×ˢ {t | S t (w.drop i)})
  have hsub : {t | Pairs R S t w} ⊆ {t | ∃ i < w.length + 1, t ∈ A i} := by
    rintro t ⟨a, b, u, v, ha, hb, rfl, rfl⟩
    refine ⟨u.length, by rw [List.length_append]; omega, (a, b), ⟨?_, ?_⟩, rfl⟩
    · simpa using ha
    · simpa using hb
  have hone : ∀ i < w.length + 1,
      (A i).encard ≤ (c * (w.length + 1) ^ k * (d * (w.length + 1) ^ m) : ℕ) := by
    intro i hi
    refine (Set.encard_image_le _ _).trans ?_
    rw [Set.encard_prod]
    have htake : (w.take i).length + 1 ≤ w.length + 1 := by
      rw [List.length_take]
      omega
    have hdrop : (w.drop i).length + 1 ≤ w.length + 1 := by
      rw [List.length_drop]
      omega
    have hleft := (hR (w.take i)).trans
      (Nat.cast_le.mpr (Nat.mul_le_mul_left c (Nat.pow_le_pow_left htake k)))
    have hright := (hS (w.drop i)).trans
      (Nat.cast_le.mpr (Nat.mul_le_mul_left d (Nat.pow_le_pow_left hdrop m)))
    exact (mul_le_mul' hleft hright).trans (by rw [← Nat.cast_mul])
  refine (Set.encard_le_encard hsub).trans ((encard_lt_le A _ _ hone).trans (Nat.cast_le.mpr ?_))
  exact le_of_eq (by ring)

theorem PolynomialWays.turns (hR : PolynomialWays R) : ∀ n, PolynomialWays (Turns R n)
  | 0 => .of_oneWay fun _ _ _ h h' => h.1.trans h'.1.symm
  | n + 1 => hR.pairs (PolynomialWays.turns hR n)

theorem PolynomialWays.upTo (hR : PolynomialWays R) (n : ℕ) :
    PolynomialWays fun t w => ∃ i ≤ n, Turns R i t w := by
  induction n with
  | zero =>
    refine (hR.turns 0).mono ?_
    rintro t w ⟨i, hi, h⟩
    rwa [Nat.le_zero.mp hi] at h
  | succ n ih =>
    refine (ih.union (hR.turns (n + 1))).mono ?_
    rintro t w ⟨i, hi, h⟩
    rcases Nat.le_succ_iff.mp hi with hle | rfl
    · exact .inl ⟨i, hle, h⟩
    · exact .inr h

theorem add_le_mul_succ (m n : ℕ) : m + n ≤ (m + 1) * (n + 1) := by
  have hexp : (m + 1) * (n + 1) = m * n + m + n + 1 := by ring
  omega

theorem PolynomialWays.left_of_pairs {b : Reading α} {v : List α} (hb : S b v) (h : PolynomialWays (Pairs R S)) :
    PolynomialWays R := by
  refine h.of_map (f := (Reading.pair · b)) (g := (· ++ v)) (v.length + 1) ?_ ?_ ?_
  · intro t t' heq
    exact (Reading.pair.inj heq).1
  · intro w
    rw [List.length_append, Nat.add_comm]
    exact add_le_mul_succ v.length w.length
  · exact fun t w ht => ⟨t, b, w, v, ht, hb, rfl, rfl⟩

theorem PolynomialWays.right_of_pairs {a : Reading α} {u : List α} (ha : R a u) (h : PolynomialWays (Pairs R S)) :
    PolynomialWays S := by
  refine h.of_map (f := (Reading.pair a ·)) (g := (u ++ ·)) (u.length + 1) ?_ ?_ ?_
  · intro t t' heq
    exact (Reading.pair.inj heq).2
  · intro w
    rw [List.length_append]
    exact add_le_mul_succ u.length w.length
  · exact fun t w ht => ⟨a, t, u, w, ha, ht, rfl, rfl⟩

/-! ## A loop with two readings of a word -/

def Reading.append : Reading α → Reading α → Reading α
  | .pair a t, s => .pair a (t.append s)
  | _, s => s

theorem Turns.append {n m : ℕ} {t s : Reading α} {u v : List α} (ht : Turns R n t u) (hs : Turns R m s v) :
    Turns R (n + m) (t.append s) (u ++ v) := by
  induction n generalizing t u with
  | zero =>
    obtain ⟨rfl, rfl⟩ := ht
    rwa [Nat.zero_add]
  | succ n ih =>
    obtain ⟨a, b, x, y, ha, hb, rfl, rfl⟩ := ht
    rw [Nat.add_right_comm, List.append_assoc]
    exact ⟨a, b.append s, x, y ++ v, ha, ih hb, rfl, rfl⟩

theorem Turns.append_inj (hR : Spelled R) (hempty : ∀ t, ¬R t []) {n n' : ℕ} {t t' s s' : Reading α}
    {u : List α} (ht : Turns R n t u) (ht' : Turns R n' t' u) (h : t.append s = t'.append s') :
    t = t' ∧ s = s' := by
  have hnil : ∀ {m : ℕ} {x : Reading α}, Turns R m x [] → x = .unit := by
    intro m x hx
    cases m with
    | zero => exact hx.1
    | succ m =>
      obtain ⟨a, b, y, z, ha, -, -, heq⟩ := hx
      rw [(List.append_eq_nil_iff.mp heq.symm).1] at ha
      exact (hempty a ha).elim
  induction n generalizing n' t t' u with
  | zero =>
    obtain ⟨rfl, rfl⟩ := ht
    rw [hnil ht'] at h ⊢
    exact ⟨rfl, h⟩
  | succ n ih =>
    obtain ⟨a, b, x, y, ha, hb, rfl, rfl⟩ := ht
    cases n' with
    | zero =>
      obtain ⟨rfl, heq⟩ := ht'
      rw [(List.append_eq_nil_iff.mp heq).1] at ha
      exact (hempty a ha).elim
    | succ n' =>
      obtain ⟨a', b', x', y', ha', hb', rfl, heq⟩ := ht'
      obtain ⟨rfl, hrest⟩ := Reading.pair.inj h
      -- the same first turn spells the same first part
      rw [← hR a x ha, ← hR a x' ha'] at heq
      rw [← List.append_cancel_left heq] at hb'
      obtain ⟨rfl, rfl⟩ := ih hb hb' hrest
      exact ⟨rfl, rfl⟩

/-- A word, `n` times. -/
def times (w : List α) (n : ℕ) : List α := (List.replicate n w).flatten

theorem length_times (w : List α) (n : ℕ) : (times w n).length = n * w.length := by
  rw [times, List.length_flatten, List.map_replicate, List.sum_replicate_nat]

theorem two_pow_le (hR : Spelled R) (hempty : ∀ t, ¬R t []) {lo : ℕ} {t t' : Reading α} {w : List α}
    (ht : Looped R lo t w) (ht' : Looped R lo t' w) (hne : t ≠ t') (n : ℕ) :
    (2 ^ n : ℕ) ≤ {s | Looped R lo s (times w (n + 1))}.encard := by
  obtain ⟨i, hi, hti⟩ := ht
  obtain ⟨j, hj, htj⟩ := ht'
  induction n with
  | zero =>
    rw [pow_zero, Nat.cast_one, Set.one_le_encard_iff_nonempty]
    have hone : times w (0 + 1) = w := by simp [times]
    exact ⟨t, i, hi, by rwa [hone]⟩
  | succ n ih =>
    have hcons : times w (n + 1 + 1) = w ++ times w (n + 1) := by simp [times, List.replicate_succ]
    have hadd : ∀ {m x}, lo ≤ m → Turns R m x w → ∀ s, Looped R lo s (times w (n + 1)) →
        Looped R lo (x.append s) (times w (n + 1 + 1)) := by
      rintro m x hm hx s ⟨l, hl, hs⟩
      exact ⟨m + l, by omega, hcons ▸ hx.append hs⟩
    have hsub : (t.append '' {s | Looped R lo s (times w (n + 1))}) ∪
        (t'.append '' {s | Looped R lo s (times w (n + 1))}) ⊆
          {s | Looped R lo s (times w (n + 1 + 1))} := by
      rintro _ (⟨s, hs, rfl⟩ | ⟨s, hs, rfl⟩)
      · exact hadd hi hti s hs
      · exact hadd hj htj s hs
    have hdisjoint : Disjoint (t.append '' {s | Looped R lo s (times w (n + 1))})
        (t'.append '' {s | Looped R lo s (times w (n + 1))}) := by
      rw [Set.disjoint_left]
      rintro _ ⟨s, -, rfl⟩ ⟨s', -, heq⟩
      exact hne (hti.append_inj hR hempty htj heq.symm).1
    have hinj : ∀ {m x}, Turns R m x w → Function.Injective x.append :=
      fun hx s s' heq => (hx.append_inj hR hempty hx heq).2
    refine le_trans ?_ (Set.encard_le_encard hsub)
    rw [Set.encard_union_eq hdisjoint, (hinj hti).injOn.encard_image, (hinj htj).injOn.encard_image,
      pow_succ, mul_two, Nat.cast_add]
    exact add_le_add ih ih

theorem infinite_of_empty {s : Reading α} (hs : R s []) (lo : ℕ) : {t | Looped R lo t []}.Infinite := by
  let turn : ℕ → Reading α := fun n => n.rec .unit fun _ t => .pair s t
  have hturn : ∀ n, Turns R n (turn n) [] := by
    intro n
    induction n with
    | zero => exact ⟨rfl, rfl⟩
    | succ n ih => exact ⟨s, turn n, [], [], hs, ih, rfl, rfl⟩
  have hinj : Function.Injective turn := by
    intro n
    induction n with
    | zero =>
      intro m h
      cases m with
      | zero => rfl
      | succ m => cases h
    | succ n ih =>
      intro m h
      cases m with
      | zero => cases h
      | succ m => rw [ih (Reading.pair.inj h).2]
  refine Set.infinite_of_injective_forall_mem (f := fun n => turn (lo + n)) ?_ ?_
  · intro n m h
    have heq := hinj h
    omega
  · exact fun n => ⟨lo + n, by omega, hturn _⟩

theorem exists_lt_two_pow (c d k : ℕ) : ∃ n, c * (d * (n + 1) + 1) ^ k < 2 ^ n := by
  -- at `n + 1 = 2 ^ (2 * j)` both sides are powers of two
  let C := c * (d + 1) ^ k
  let j := C + 2 * k
  have hj : j < 2 ^ j := Nat.lt_two_pow_self
  have hsq : (j + 1) * (j + 1) ≤ 2 ^ (2 * j) := by
    rw [two_mul, pow_add]
    exact Nat.mul_le_mul hj hj
  have hexp : C + 2 * j * k + 1 ≤ (j + 1) * (j + 1) := by
    have hk : 2 * k * j ≤ j * j := Nat.mul_le_mul_right j (by omega)
    have hcomm : 2 * j * k = 2 * k * j := by ring
    have hmul : (j + 1) * (j + 1) = j * j + 2 * j + 1 := by ring
    omega
  refine ⟨2 ^ (2 * j) - 1, ?_⟩
  have hn : 2 ^ (2 * j) - 1 + 1 = 2 ^ (2 * j) := by omega
  rw [hn]
  calc c * (d * 2 ^ (2 * j) + 1) ^ k
      ≤ c * ((d + 1) * 2 ^ (2 * j)) ^ k := by
        refine Nat.mul_le_mul_left c (Nat.pow_le_pow_left ?_ k)
        rw [add_mul, one_mul]
        exact Nat.add_le_add_left Nat.one_le_two_pow _
    _ = C * 2 ^ (2 * j * k) := by rw [mul_pow, ← pow_mul, ← mul_assoc]
    _ < 2 ^ C * 2 ^ (2 * j * k) := Nat.mul_lt_mul_of_pos_right Nat.lt_two_pow_self (by positivity)
    _ = 2 ^ (C + 2 * j * k) := by rw [pow_add]
    _ ≤ 2 ^ (2 ^ (2 * j) - 1) := Nat.pow_le_pow_right (by omega) (by omega)

theorem OneWay.of_polynomialWays (hR : Spelled R) {lo : ℕ} (h : PolynomialWays (Looped R lo)) :
    OneWay (Looped R lo) := by
  obtain ⟨c, k, h⟩ := h
  by_cases hempty : ∃ s, R s []
  · obtain ⟨s, hs⟩ := hempty
    have htop := h []
    rw [(infinite_of_empty hs lo).encard_eq] at htop
    exact absurd (top_le_iff.mp htop) (ENat.natCast_ne_top _)
  · push Not at hempty
    intro t t' w ht ht'
    by_contra hne
    obtain ⟨n, hn⟩ := exists_lt_two_pow c w.length k
    have hle := (two_pow_le hR hempty ht ht' hne n).trans (h _)
    rw [length_times, Nat.mul_comm (n + 1)] at hle
    have hnat : 2 ^ n ≤ c * (w.length * (n + 1) + 1) ^ k := by exact_mod_cast hle
    omega

def Rx.LoopsOneWay : Rx α → Prop
  | never | empty | one _ => True
  | cat e f => (∃ t w, (cat e f).Reads t w) → e.LoopsOneWay ∧ f.LoopsOneWay
  | alt e f => e.LoopsOneWay ∧ f.LoopsOneWay
  | rep lo none e => OneWay (rep lo none e).Reads
  | rep lo (some hi) e => lo ≤ hi → 0 < hi → e.LoopsOneWay

theorem Rx.polynomialWays_of_loopsOneWay (e : Rx α) (h : e.LoopsOneWay) : PolynomialWays e.Reads := by
  induction e with
  | never => exact .of_oneWay fun _ _ _ h => h.elim
  | empty => exact .of_oneWay fun _ _ _ h h' => h.1.trans h'.1.symm
  | one S =>
    refine .of_oneWay ?_
    rintro t t' w ⟨a, -, rfl, rfl⟩ ⟨b, -, rfl, heq⟩
    rw [(List.cons.inj heq).1]
  | cat e f ihe ihf =>
    by_cases hread : ∃ t w, (cat e f).Reads t w
    · exact (ihe (h hread).1).pairs (ihf (h hread).2)
    · exact .of_oneWay fun t _ w ht => (hread ⟨t, w, ht⟩).elim
  | alt e f ihe ihf => exact (ihe h.1).image.union (ihf h.2).image
  | rep lo hi e ih =>
    cases hi with
    | none => exact .of_oneWay h
    | some hi =>
      by_cases hpos : lo ≤ hi ∧ 0 < hi
      · exact ((ih (h hpos.1 hpos.2)).upTo hi).mono fun t w ⟨n, _, hn, ht⟩ => ⟨n, hn, ht⟩
      · refine .of_oneWay ?_
        -- at most the reading without a turn is left
        rintro t t' w ⟨n, hlo, hhi, ht⟩ ⟨m, hlo', hhi', ht'⟩
        have hn : n = 0 := by omega
        have hm : m = 0 := by omega
        subst hn hm
        exact ht.1.trans ht'.1.symm

theorem Rx.loopsOneWay_of_polynomialWays (e : Rx α) (h : PolynomialWays e.Reads) : e.LoopsOneWay := by
  induction e with
  | never | empty | one => trivial
  | cat e f ihe ihf =>
    rintro ⟨_, _, a, b, u, v, ha, hb, -, -⟩
    exact ⟨ihe (h.left_of_pairs hb), ihf (h.right_of_pairs ha)⟩
  | alt e f ihe ihf =>
    constructor
    · refine ihe (h.of_map (f := .left) (g := id) 1 (fun _ _ => Reading.left.inj) ?_ ?_)
      · exact fun w => by rw [id]; omega
      · exact fun t w ht => .inl ⟨t, ht, rfl⟩
    · refine ihf (h.of_map (f := .right) (g := id) 1 (fun _ _ => Reading.right.inj) ?_ ?_)
      · exact fun w => by rw [id]; omega
      · exact fun t w ht => .inr ⟨t, ht, rfl⟩
  | rep lo hi e ih =>
    cases hi with
    | none => exact .of_polynomialWays e.spelled h
    | some hi =>
      intro hle hpos
      apply ih
      by_cases hread : ∃ t w, e.Reads t w
      · -- one turn is free, the others are filled up
        obtain ⟨t, w, ht⟩ := hread
        obtain ⟨s, v, hs⟩ := exists_turns ht (lo - 1)
        refine PolynomialWays.left_of_pairs (S := Turns e.Reads (lo - 1)) hs (h.mono fun t w ht => ?_)
        exact ⟨lo - 1 + 1, by omega, by omega, ht⟩
      · exact .of_oneWay fun t _ w ht => (hread ⟨t, w, ht⟩).elim

theorem Rx.polynomialWays_iff (e : Rx α) : PolynomialWays e.Reads ↔ e.LoopsOneWay :=
  ⟨e.loopsOneWay_of_polynomialWays, e.polynomialWays_of_loopsOneWay⟩

def PrefixFixed (R : Reading α → List α → Prop) : Prop :=
  ∀ t t' w w', R t w → R t' w' → w <+: w' → t = t'

def Starts (R : Reading α → List α → Prop) (F : α → Prop) : Prop := ∀ t w, R t w → ∃ a ∈ w.head?, F a

theorem Starts.pairs {F : α → Prop} (hR : Starts R F) : Starts (Pairs R S) F := by
  rintro t w ⟨a, b, u, v, ha, -, -, rfl⟩
  obtain ⟨x, hx, hF⟩ := hR a u ha
  refine ⟨x, ?_, hF⟩
  rw [List.head?_append, Option.mem_def.mp hx]
  rfl

theorem PrefixFixed.eq_of_prefix (fR : PrefixFixed R) {a b : Reading α} {u v x y : List α} (ha : R a u)
    (hb : R b v) (h : u ++ x <+: v ++ y) : a = b := by
  rcases List.prefix_or_prefix_of_prefix ((List.prefix_append u x).trans h) (List.prefix_append v y) with h | h
  · exact fR a b u v ha hb h
  · exact (fR b a v u hb ha h).symm

theorem PrefixFixed.pairs (hR : Spelled R) (fR : PrefixFixed R) (fS : PrefixFixed S) : PrefixFixed (Pairs R S) := by
  rintro _ _ _ _ ⟨a, b, u, v, ha, hb, rfl, rfl⟩ ⟨a', b', u', v', ha', hb', rfl, rfl⟩ hpre
  obtain rfl := fR.eq_of_prefix ha ha' hpre
  rw [← hR a u ha, ← hR a u' ha', List.prefix_append_right_inj] at hpre
  rw [fS b b' v v' hb hb' hpre]

theorem PrefixFixed.turns (hR : Spelled R) (fR : PrefixFixed R) : ∀ n, PrefixFixed (Turns R n)
  | 0 => fun _ _ _ _ h h' _ => h.1.trans h'.1.symm
  | n + 1 => fR.pairs hR (PrefixFixed.turns hR fR n)

theorem PrefixFixed.looped (hR : Spelled R) (fR : PrefixFixed R) {F : α → Prop} (hF : Starts R F) (lo : ℕ) :
    OneWay (Looped R lo) := by
  rintro t t' w ⟨n, -, ht⟩ ⟨m, -, ht'⟩
  clear lo
  induction n generalizing m t t' w with
  | zero =>
    obtain ⟨rfl, rfl⟩ := ht
    cases m with
    | zero => exact ht'.1.symm
    | succ m =>
      obtain ⟨x, hx, -⟩ := (hF.pairs) t' [] ht'
      cases hx
  | succ n ih =>
    cases m with
    | zero =>
      obtain ⟨rfl, rfl⟩ := ht'
      obtain ⟨x, hx, -⟩ := (hF.pairs) t [] ht
      cases hx
    | succ m =>
      obtain ⟨a, b, u, v, ha, hb, rfl, rfl⟩ := ht
      obtain ⟨a', b', u', v', ha', hb', rfl, heq⟩ := ht'
      obtain rfl := fR.eq_of_prefix ha ha' (heq ▸ List.prefix_rfl : u ++ v <+: u' ++ v')
      rw [← hR a u ha, ← hR a u' ha'] at heq
      rw [← List.append_cancel_left heq] at hb'
      rw [ih b b' v hb m hb']

end

end TimeCodeSecurity.Readings
