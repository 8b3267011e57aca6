import Mathlib.Data.List.Induction
import Mathlib.Order.MinMax

/-! # Folding candidates into one bound

A bound is a point with a flag that says whether the point itself is admitted. A list of candidates is
folded into the tightest of them. Each candidate carries a mode: what flag it installs, and whether it
also replaces a bound at its own point. Where two modes disagree about that the fold depends on the
order of the list, and `Settled` says that it does not.
-/
namespace TimeCodeSecurity.BoundFolds
set_option autoImplicit false

/-- `weak` and `closed` install an admitted point, `strict` and `limit` an excluded one. At an equal
point `weak` never replaces, `closed` replaces an excluded point, `limit` an admitted one and `strict`
both. -/
inductive Mode
  | weak | closed | strict | limit
deriving DecidableEq, Repr

def Mode.admits : Mode → Bool
  | .weak | .closed => true
  | .strict | .limit => false

structure Cand (α : Type) where
  point : α
  mode : Mode
deriving DecidableEq, Repr

variable {α κ : Type} [LinearOrder κ]

/-- Does a candidate at `k` replace a bound at `kb` with this flag? -/
def Mode.replaces (m : Mode) (k kb : κ) (flag : Bool) : Bool :=
  match m with
  | .weak => decide (kb < k)
  | .closed => decide (kb < k) || (decide (k = kb) && !flag)
  | .strict => decide (kb ≤ k)
  | .limit => decide (kb < k) || (decide (k = kb) && flag)

variable (key : α → κ)

def step (o : Option (α × Bool)) (c : Cand α) : Option (α × Bool) :=
  match o with
  | none => some (c.point, c.mode.admits)
  | some b =>
    if c.mode.replaces (key c.point) (key b.1) b.2 then some (c.point, c.mode.admits) else some b

def tighten (L : List (Cand α)) : Option (α × Bool) := L.foldl (step key) none

@[simp] theorem tighten_nil : tighten key [] = none := rfl

@[simp] theorem tighten_concat (M : List (Cand α)) (c : Cand α) :
    tighten key (M ++ [c]) = step key (tighten key M) c := by
  simp [tighten]

theorem step_cases (b : α × Bool) (c : Cand α) :
    (step key (some b) c = some (c.point, c.mode.admits) ∧ key b.1 ≤ key c.point ∧
      (key b.1 = key c.point → c.mode ≠ .weak ∧ (c.mode = .closed → b.2 = false))) ∨
    (step key (some b) c = some b ∧ key c.point ≤ key b.1 ∧
      (key b.1 = key c.point → c.mode = .weak ∨ c.mode ≠ .strict ∧ b.2 = c.mode.admits)) := by
  obtain ⟨p, f⟩ := b
  obtain ⟨q, m⟩ := c
  rcases lt_trichotomy (key p) (key q) with hlt | heq | hgt
  · left
    cases m <;> simp [step, Mode.replaces, hlt, hlt.le, hlt.ne]
  · cases m <;> cases f <;> simp [step, Mode.replaces, Mode.admits, heq]
  · right
    cases m <;> simp [step, Mode.replaces, hgt.not_gt, hgt.not_ge, hgt.le, hgt.ne, hgt.ne']

/-! ## What the fold computes -/

def Top (L : List (Cand α)) (c : Cand α) : Prop := c ∈ L ∧ ∀ d ∈ L, key d.point ≤ key c.point

/-- `b` comes from a top candidate, and an excluded top point is admitted only where a `closed`
candidate stands at it. -/
def Tightest (L : List (Cand α)) (b : α × Bool) : Prop :=
  ∃ c, Top key L c ∧ b = (c.point, c.mode.admits) ∧
    (b.2 = true → ∀ d, Top key L d → d.mode.admits = false → ∃ e, Top key L e ∧ e.mode = .closed)

theorem Top.key_eq {L : List (Cand α)} {c d : Cand α} (hc : Top key L c) (hd : Top key L d) :
    key c.point = key d.point := le_antisymm (hd.2 c hc.1) (hc.2 d hd.1)

theorem Top.of_key_eq {L : List (Cand α)} {c d : Cand α} (hc : Top key L c) (hd : d ∈ L)
    (h : key d.point = key c.point) : Top key L d := ⟨hd, fun e he => h ▸ hc.2 e he⟩

theorem Top.perm {L M : List (Cand α)} (h : L.Perm M) {c : Cand α} (hc : Top key L c) :
    Top key M c := ⟨h.mem_iff.mp hc.1, fun d hd => hc.2 d (h.mem_iff.mpr hd)⟩

theorem top_concat {M : List (Cand α)} {c d : Cand α} (hc : Top key M c)
    (h : key c.point ≤ key d.point) : Top key (M ++ [d]) d := by
  refine ⟨by simp, fun e he => ?_⟩
  rcases List.mem_append.mp he with he | he
  · exact (hc.2 e he).trans h
  · rw [List.mem_singleton.mp he]

theorem Top.append {M : List (Cand α)} {c d : Cand α} (hc : Top key M c)
    (h : key d.point ≤ key c.point) : Top key (M ++ [d]) c := by
  refine ⟨List.mem_append_left _ hc.1, fun e he => ?_⟩
  rcases List.mem_append.mp he with he | he
  · exact hc.2 e he
  · rw [List.mem_singleton.mp he]
    exact h

theorem Top.of_concat {M : List (Cand α)} {c d : Cand α} (h : Top key (M ++ [d]) c) :
    c = d ∨ Top key M c := by
  rcases List.mem_append.mp h.1 with hc | hc
  · exact .inr ⟨hc, fun e he => h.2 e (List.mem_append_left _ he)⟩
  · exact .inl (List.mem_singleton.mp hc)

theorem Tightest.step {M : List (Cand α)} {b : α × Bool} (h : Tightest key M b) (d : Cand α) :
    ∃ b', step key (some b) d = some b' ∧ Tightest key (M ++ [d]) b' := by
  obtain ⟨c, hc, rfl, hflag⟩ := h
  rcases step_cases key (c.point, c.mode.admits) d with ⟨hstep, hle, heq⟩ | ⟨hstep, hle, heq⟩
  · refine ⟨_, hstep, d, top_concat key hc hle, rfl, fun hadm e he hexcl => ?_⟩
    simp only at hadm heq
    -- the installed point is admitted: an excluded one beside it means that `d` is `closed`
    have hkey : key e.point = key d.point := he.key_eq key (top_concat key hc hle)
    rcases he.of_concat key with rfl | he'
    · rw [hadm] at hexcl
      cases hexcl
    · have hne := (heq (((hc.key_eq key he').trans hkey))).1
      refine ⟨d, top_concat key hc hle, ?_⟩
      cases hm : d.mode <;> simp_all [Mode.admits]
  · refine ⟨_, hstep, c, hc.append key hle, rfl, fun hadm e he hexcl => ?_⟩
    simp only at hadm heq
    have hkey : key e.point = key c.point := he.key_eq key (hc.append key hle)
    rcases he.of_concat key with rfl | he'
    · -- the new point is excluded and did not replace: it cannot stand at the top
      rcases heq hkey.symm with hweak | ⟨-, hsame⟩
      · rw [hweak] at hexcl
        cases hexcl
      · rw [hadm, hexcl] at hsame
        cases hsame
    · obtain ⟨f, hf, hclosed⟩ := hflag hadm e he' hexcl
      have hle' : key d.point ≤ key f.point := hf.key_eq key hc ▸ hle
      exact ⟨f, hf.append key hle', hclosed⟩

theorem tighten_tightest (L : List (Cand α)) :
    (L = [] ∧ tighten key L = none) ∨ ∃ b, tighten key L = some b ∧ Tightest key L b := by
  induction L using List.reverseRecOn with
  | nil => exact .inl ⟨rfl, rfl⟩
  | append_singleton M c ih =>
    right
    rw [tighten_concat]
    rcases ih with ⟨rfl, hM⟩ | ⟨b, hM, hb⟩
    · rw [hM]
      refine ⟨_, rfl, c, by simp [Top], rfl, fun hadm d hd hexcl => ?_⟩
      obtain rfl : d = c := by simpa [Top] using hd.1
      simp only at hadm
      rw [hadm] at hexcl
      cases hexcl
    · rw [hM]
      exact hb.step key c

theorem tightest_of_eq {L : List (Cand α)} {b : α × Bool} (h : tighten key L = some b) :
    Tightest key L b := by
  rcases tighten_tightest key L with ⟨-, hnone⟩ | ⟨b', hb', htight⟩
  · rw [h] at hnone
    cases hnone
  · rw [h] at hb'
    cases hb'
    exact htight

theorem tighten_eq_none {L : List (Cand α)} : tighten key L = none ↔ L = [] := by
  rcases tighten_tightest key L with ⟨hL, hnone⟩ | ⟨b, hb, c, hc, -⟩
  · simp [hL]
  · rw [hb]
    simp only [reduceCtorEq, false_iff]
    exact List.ne_nil_of_mem hc.1

/-! ## Order -/

/-- No `closed` candidate stands beside an excluded one at the top. -/
def Settled (L : List (Cand α)) : Prop :=
  ∀ c ∈ L, ∀ d ∈ L, c.mode = .closed → d.mode.admits = false → key c.point = key d.point →
    ∃ e ∈ L, key c.point < key e.point

instance (L : List (Cand α)) : Decidable (Settled key L) := by
  unfold Settled
  infer_instance

def reading (o : Option (α × Bool)) : Option (κ × Bool) := o.map fun b => (key b.1, b.2)

theorem Settled.not_top {L : List (Cand α)} (h : Settled key L) {c d : Cand α} (hc : Top key L c)
    (hd : Top key L d) (hclosed : c.mode = .closed) : d.mode.admits = true := by
  by_contra hexcl
  obtain ⟨e, he, hlt⟩ := h c hc.1 d hd.1 hclosed (by simpa using hexcl) (hc.key_eq key hd)
  exact absurd (hc.2 e he) hlt.not_ge

theorem Settled.flag {L : List (Cand α)} (h : Settled key L) {b : α × Bool}
    (hb : tighten key L = some b) : b.2 = true ↔ ∀ d, Top key L d → d.mode.admits = true := by
  obtain ⟨c, hc, rfl, hflag⟩ := tightest_of_eq key hb
  constructor
  · intro hadm d hd
    by_contra hexcl
    obtain ⟨e, he, hclosed⟩ := hflag hadm d hd (by simpa using hexcl)
    exact hexcl (h.not_top key he hd hclosed)
  · intro hall
    exact hall c hc

theorem Settled.perm {L M : List (Cand α)} (hp : L.Perm M) (h : Settled key L) : Settled key M := by
  intro c hc d hd hclosed hexcl heq
  obtain ⟨e, he, hlt⟩ := h c (hp.mem_iff.mpr hc) d (hp.mem_iff.mpr hd) hclosed hexcl heq
  exact ⟨e, hp.mem_iff.mp he, hlt⟩

theorem Settled.reading_perm {L M : List (Cand α)} (hp : L.Perm M) (h : Settled key L) :
    reading key (tighten key L) = reading key (tighten key M) := by
  cases hL : tighten key L with
  | none =>
    have hnil := (tighten_eq_none key).mp hL
    subst hnil
    rw [List.nil_perm.mp hp]
    rfl
  | some b =>
    cases hM : tighten key M with
    | none =>
      have hnil := (tighten_eq_none key).mp hM
      subst hnil
      rw [List.perm_nil.mp hp] at hL
      cases hL
    | some b' =>
      have hflag := h.flag key hL
      have hflag' := (h.perm key hp).flag key hM
      obtain ⟨c, hc, hbc, -⟩ := tightest_of_eq key hL
      obtain ⟨c', hc', hbc', -⟩ := tightest_of_eq key hM
      have hkey : key b.1 = key b'.1 := by
        rw [hbc, hbc']
        exact (hc.perm key hp).key_eq key hc'
      have hsame : b.2 = b'.2 := by
        rw [Bool.eq_iff_iff, hflag, hflag']
        constructor
        · intro hall d hd
          exact hall d (hd.perm key hp.symm)
        · intro hall d hd
          exact hall d (hd.perm key hp)
      simp [reading, hkey, hsame]

theorem tighten_concat_flag {M : List (Cand α)} {c : Cand α} (hc : Top key (M ++ [c]) c)
    (hm : c.mode ≠ .weak) : ∃ p, tighten key (M ++ [c]) = some (p, c.mode.admits) := by
  rw [tighten_concat]
  cases hM : tighten key M with
  | none => exact ⟨c.point, rfl⟩
  | some b =>
    obtain ⟨d, hd, rfl, -⟩ := tightest_of_eq key hM
    rcases step_cases key (d.point, d.mode.admits) c with ⟨hstep, -⟩ | ⟨hstep, hle, heq⟩
    · exact ⟨_, hstep⟩
    · have hkey : key d.point = key c.point :=
        le_antisymm (hc.2 d (List.mem_append_left _ hd.1)) hle
      rcases heq hkey with hweak | ⟨-, hsame⟩
      · exact absurd hweak hm
      · refine ⟨d.point, ?_⟩
        rw [hstep]
        exact congrArg (fun f => some (d.point, f)) hsame

theorem tighten_concat_strict {M : List (Cand α)} {c : Cand α} (hc : Top key (M ++ [c]) c)
    (hm : c.mode = .strict) : tighten key (M ++ [c]) = some (c.point, false) := by
  rw [tighten_concat]
  have hadm : c.mode.admits = false := by rw [hm]; rfl
  cases hM : tighten key M with
  | none => simp [step, hadm]
  | some b =>
    obtain ⟨d, hd, rfl, -⟩ := tightest_of_eq key hM
    have hle : key d.point ≤ key c.point := hc.2 d (List.mem_append_left _ hd.1)
    simp [step, Mode.replaces, hm, hle, Mode.admits]

theorem tighten_cons_admits {M : List (Cand α)} {c : Cand α} (hc : Top key (c :: M) c)
    (hall : ∀ d, Top key (c :: M) d → d.mode.admits = true) :
    tighten key (c :: M) = some (c.point, true) := by
  have hadm : c.mode.admits = true := hall c hc
  suffices h : ∀ N : List (Cand α), (∀ d ∈ N, d ∈ c :: M) →
      N.foldl (step key) (some (c.point, true)) = some (c.point, true) by
    simpa [tighten, step, hadm] using h M fun d hd => List.mem_cons_of_mem _ hd
  intro N
  induction N with
  | nil => intro _; rfl
  | cons d N ih =>
    intro hN
    have hd : d ∈ c :: M := hN d (by simp)
    have hkeep : step key (some (c.point, true)) d = some (c.point, true) := by
      rcases step_cases key (c.point, true) d with ⟨-, hle, heq⟩ | ⟨hstep, -⟩
      · -- a replacement at the top would have to exclude its point
        have hkey : key c.point = key d.point := le_antisymm hle (hc.2 d hd)
        have hd' := hall d (hc.of_key_eq key hd hkey.symm)
        obtain ⟨hweak, hclosed⟩ := heq hkey
        cases hm : d.mode <;> simp_all [Mode.admits]
      · exact hstep
    rw [List.foldl_cons, hkeep]
    exact ih fun e he => hN e (List.mem_cons_of_mem _ he)

def Decides (L : List (Cand α)) (c : Cand α) : Prop :=
  Top key L c ∧ (c.mode.admits = true → ∀ d, Top key L d → d.mode.admits = true)

theorem Decides.perm {L M : List (Cand α)} (hp : L.Perm M) {c : Cand α} (h : Decides key L c) :
    Decides key M c :=
  ⟨h.1.perm key hp, fun hadm d hd => h.2 hadm d (hd.perm key hp.symm)⟩

theorem Settled.decides {L : List (Cand α)} (h : Settled key L) {b : α × Bool}
    (hb : tighten key L = some b) : ∃ c, Decides key L c ∧ b = (c.point, c.mode.admits) := by
  have hflag := h.flag key hb
  obtain ⟨c, hc, rfl, -⟩ := tightest_of_eq key hb
  exact ⟨c, ⟨hc, hflag.mp⟩, rfl⟩

/-- `k` lies on the admitted side of a point. -/
def Inside (k : κ) (b : α × Bool) : Prop := key b.1 < k ∨ key b.1 = k ∧ b.2 = true

@[simp] theorem inside_true {k : κ} {p : α} : Inside key k (p, true) ↔ key p ≤ k := by
  simp [Inside, le_iff_lt_or_eq]

@[simp] theorem inside_false {k : κ} {p : α} : Inside key k (p, false) ↔ key p < k := by
  simp [Inside]

theorem inside_tighten {L : List (Cand α)} {k : κ}
    (h : ∀ c ∈ L, Inside key k (c.point, c.mode.admits)) {b : α × Bool}
    (hb : tighten key L = some b) : Inside key k b := by
  obtain ⟨c, hc, rfl, -⟩ := tightest_of_eq key hb
  exact h c hc.1

theorem Settled.inside_of_tighten {L : List (Cand α)} (hs : Settled key L) {k : κ}
    (h : ∀ b, tighten key L = some b → Inside key k b) :
    ∀ c ∈ L, Inside key k (c.point, c.mode.admits) := by
  intro c hc
  rcases tighten_tightest key L with ⟨rfl, -⟩ | ⟨b, hb, d, hd, hbd, -⟩
  · cases hc
  · have hle : key c.point ≤ key d.point := hd.2 c hc
    have hflag := hs.flag key hb
    rcases h b hb with hlt | ⟨heq, hadm⟩
    · rw [hbd] at hlt
      exact .inl (hle.trans_lt hlt)
    · rw [hbd] at heq
      simp only at heq
      rcases hle.lt_or_eq with hlt | hkey
      · exact .inl (heq ▸ hlt)
      · exact .inr ⟨hkey.trans heq, hflag.mp hadm c (hd.of_key_eq key hc hkey)⟩

variable {β : Type} (f : β → Option (Cand α))

theorem exists_cons {S : List β} {d : Cand α} (h : d ∈ S.filterMap f) :
    ∃ (T : List β) (M : List (Cand α)), T.Perm S ∧ T.filterMap f = d :: M := by
  obtain ⟨c, hc, hd⟩ := List.mem_filterMap.mp h
  obtain ⟨s, t, rfl⟩ := List.append_of_mem hc
  exact ⟨c :: (s ++ t), (s ++ t).filterMap f, List.perm_middle.symm, by simp [hd]⟩

theorem exists_concat {S : List β} {d : Cand α} (h : d ∈ S.filterMap f) :
    ∃ (T : List β) (M : List (Cand α)), T.Perm S ∧ T.filterMap f = M ++ [d] := by
  obtain ⟨c, hc, hd⟩ := List.mem_filterMap.mp h
  obtain ⟨s, t, rfl⟩ := List.append_of_mem hc
  refine ⟨s ++ t ++ [c], (s ++ t).filterMap f, ?_, by simp [hd]⟩
  exact (List.perm_append_singleton c (s ++ t)).trans List.perm_middle.symm

theorem exists_flag {S : List β} {d : Cand α} (hd : Top key (S.filterMap f) d)
    (hm : d.mode ≠ .weak) :
    ∃ T : List β, T.Perm S ∧ ∃ p, tighten key (T.filterMap f) = some (p, d.mode.admits) := by
  obtain ⟨T, M, hp, hT⟩ := exists_concat f hd.1
  have htop : Top key (M ++ [d]) d := hT ▸ hd.perm key (hp.symm.filterMap f)
  exact ⟨T, hp, hT ▸ tighten_concat_flag key htop hm⟩

theorem settled_of_readings {S : List β}
    (h : ∀ T : List β, T.Perm S → reading key (tighten key (T.filterMap f)) =
      reading key (tighten key (S.filterMap f))) : Settled key (S.filterMap f) := by
  intro c hc d hd hclosed hexcl heq
  by_contra hmax
  have hctop : Top key (S.filterMap f) c := by
    refine ⟨hc, fun e he => not_lt.mp fun hlt => hmax ⟨e, he, hlt⟩⟩
  have hdtop : Top key (S.filterMap f) d := hctop.of_key_eq key hd heq.symm
  have hdm : d.mode ≠ .weak := by
    intro hm
    rw [hm] at hexcl
    cases hexcl
  -- `c` last admits the point, `d` last excludes it
  obtain ⟨T, hT, p, hp⟩ := exists_flag key f hctop (by simp [hclosed])
  obtain ⟨U, hU, q, hq⟩ := exists_flag key f hdtop hdm
  have hsame := (h T hT).trans (h U hU).symm
  have hadm : c.mode.admits = true := by
    rw [hclosed]
    rfl
  rw [hp, hq, hadm, hexcl] at hsame
  simp [reading] at hsame

theorem exists_deciding {S : List β} {d : Cand α} (h : Decides key (S.filterMap f) d)
    (hm : d.mode ≠ .limit) :
    ∃ T : List β, T.Perm S ∧ tighten key (T.filterMap f) = some (d.point, d.mode.admits) := by
  cases hadm : d.mode.admits with
  | true =>
    obtain ⟨T, M, hp, hT⟩ := exists_cons f h.1.1
    have hdec : Decides key (d :: M) d := hT ▸ h.perm key (hp.symm.filterMap f)
    exact ⟨T, hp, hT ▸ tighten_cons_admits key hdec.1 (hdec.2 hadm)⟩
  | false =>
    have hstrict : d.mode = .strict := by
      cases hmode : d.mode <;> simp_all [Mode.admits]
    obtain ⟨T, M, hp, hT⟩ := exists_concat f h.1.1
    have htop : Top key (M ++ [d]) d := hT ▸ h.1.perm key (hp.symm.filterMap f)
    exact ⟨T, hp, hT ▸ tighten_concat_strict key htop hstrict⟩

end TimeCodeSecurity.BoundFolds
