import TimeCodeSecurity.Foundations.VersionText

/-! # The order of versions

The versions that some text denotes, as positions in the order. Between any two of them there is a
third, because a local label can always be made longer by something small enough; there is no last
one, and the first one is `0.dev0`.
-/
namespace TimeCodeSecurity.Pep440
set_option autoImplicit false

/-! ## Segments of a label -/

def smallSegment (n : ℕ) : List Char := List.replicate n '0' ++ ['a']

theorem letterSegment_small (n : ℕ) : LetterSegment (smallSegment n) where
  alphanum := by
    intro c hc
    rcases List.mem_append.mp hc with hc | hc
    · rw [List.eq_of_mem_replicate hc]; decide
    · rw [List.mem_singleton.mp hc]; decide
  lower := by simp [smallSegment]
  letter := by simp [smallSegment]

def Wordy (t : List Char) : Prop := (∀ c ∈ t, c.isAlphanum = true) ∧ t.all Char.isDigit = false

theorem zero_lt_of_isAlphanum {c : Char} (h : c.isAlphanum = true) (hne : c ≠ '0') : '0' < c := by
  have hval : c.val ≠ '0'.val := fun heq => hne (Char.ext heq)
  rw [Char.lt_def]
  have hranges := ranges_of_isAlphanum h
  have hnat : c.val.toNat ≠ 48 := fun heq => hval (UInt32.toNat_inj.mp heq)
  rw [UInt32.lt_iff_toNat_lt]
  have : '0'.val.toNat = 48 := rfl
  omega

theorem smallSegment_lt {t : List Char} (ht : Wordy t) : smallSegment t.length < t := by
  obtain ⟨halnum, hletter⟩ := ht
  induction t with
  | nil => simp at hletter
  | cons c t ih =>
    have hsmall : smallSegment (c :: t).length = '0' :: smallSegment t.length := by
      simp [smallSegment, List.replicate_succ]
    rw [hsmall, List.cons_lt_cons_iff]
    by_cases hc : c = '0'
    · subst hc
      exact .inr ⟨rfl, ih (fun d hd => halnum d (List.mem_cons_of_mem _ hd)) (by simpa using hletter)⟩
    · exact .inl (zero_lt_of_isAlphanum (halnum c List.mem_cons_self) hc)

def LocalSegment.Written : LocalSegment → Prop
  | .num _ => True
  | .text t => Wordy t

theorem written_of_localSegmentOf {piece : List Char} {seg : LocalSegment}
    (h : localSegmentOf piece = some seg) : seg.Written := by
  unfold localSegmentOf at h
  split at h
  · cases h
  · split at h
    · cases h; trivial
    next hdigit =>
      split at h
      next halnum =>
        cases h
        exact ⟨List.all_eq_true.mp halnum, by simpa using hdigit⟩
      next => cases h

theorem exists_small_lt {seg : LocalSegment} (h : seg.Written) :
    ∃ n, (LocalSegment.text (smallSegment n)).key < seg.key := by
  cases seg with
  | num n => exact ⟨0, Prod.Lex.toLex_lt_toLex.mpr (.inl (WithBot.bot_lt_coe n))⟩
  | text t => exact ⟨t.length, Prod.Lex.toLex_lt_toLex.mpr (.inr ⟨rfl, smallSegment_lt h⟩)⟩

theorem exists_append_lt {L M : List LocalSegment} (hM : ∀ seg ∈ M, seg.Written)
    (h : L.map LocalSegment.key < M.map LocalSegment.key) :
    ∃ n, (L ++ [LocalSegment.text (smallSegment n)]).map LocalSegment.key < M.map LocalSegment.key := by
  induction L generalizing M with
  | nil =>
    cases M with
    | nil => simp at h
    | cons m M =>
      obtain ⟨n, hn⟩ := exists_small_lt (hM m List.mem_cons_self)
      refine ⟨n, ?_⟩
      rw [List.nil_append, List.map_cons, List.map_cons, List.cons_lt_cons_iff]
      exact .inl hn
  | cons l L ih =>
    cases M with
    | nil => simp at h
    | cons m M =>
      rw [List.map_cons, List.map_cons, List.cons_lt_cons_iff] at h
      rcases h with h | ⟨heq, h⟩
      · refine ⟨0, ?_⟩
        rw [List.cons_append, List.map_cons, List.map_cons, List.cons_lt_cons_iff]
        exact .inl h
      · obtain ⟨n, hn⟩ := ih (fun seg hseg => hM seg (List.mem_cons_of_mem _ hseg)) h
        refine ⟨n, ?_⟩
        rw [List.cons_append, List.map_cons, List.map_cons, List.cons_lt_cons_iff]
        exact .inr ⟨heq, hn⟩

theorem lt_append_segment (L : List LocalSegment) (seg : LocalSegment) :
    L.map LocalSegment.key < (L ++ [seg]).map LocalSegment.key := by
  induction L with
  | nil => simp
  | cons l L ih =>
    rw [List.cons_append, List.map_cons, List.map_cons, List.cons_lt_cons_iff]
    exact .inr ⟨rfl, ih⟩

theorem written_of_parse {s : String} {v : Version} (h : parse s = some v) {segs : List LocalSegment}
    (hlabel : v.label = some segs) : segs ≠ [] ∧ ∀ seg ∈ segs, seg.Written := by
  rw [parse_eq] at h
  obtain ⟨⟨p, rest⟩, -, hmap⟩ := Option.bind_eq_some_iff.mp h
  obtain ⟨label, hread, rfl⟩ := Option.map_eq_some_iff.mp hmap
  obtain rfl : label = some segs := hlabel
  obtain ⟨-, hnone⟩ | ⟨cs, rfl⟩ := localLabel_cases hread
  · cases hnone
  · simp only [localLabel_plus] at hread
    obtain ⟨segs', hsegs, heq⟩ := Option.map_eq_some_iff.mp hread
    obtain rfl : segs' = segs := Option.some.inj heq
    constructor
    · intro hnil
      obtain ⟨x, xs, hx⟩ := List.exists_cons_of_ne_nil (List.splitOnP_ne_nil isLabelSeparator cs)
      obtain ⟨seg, hseg, -⟩ := Linearization.exists_of_mapM hsegs (hx ▸ List.mem_cons_self)
      simp [hnil] at hseg
    · intro seg hseg
      obtain ⟨piece, -, hpiece⟩ := (Linearization.mem_mapM_iff hsegs).mp hseg
      exact written_of_localSegmentOf hpiece

abbrev VersionKey := {k : Key // ∃ s v, parse s = some v ∧ v.key = k}

/-- The version with one more small segment in its label. -/
def Version.longer (v : Version) (n : ℕ) : Version :=
  { v with label := some (v.label.getD [] ++ [.text (smallSegment n)]) }

theorem parse_longer {s : String} {v : Version} (h : parse s = some v) (n : ℕ) :
    ∃ s', parse s' = some (v.longer n) :=
  exists_longer h (letterSegment_small n)

def Version.publicKey (v : Version) : ℕ ×ₗ List ℕ ×ₗ PreKey ×ₗ WithBot ℕ ×ₗ WithTop ℕ :=
  toLex (v.epoch, toLex (dropTrailingZeros v.release, toLex (v.preKey, toLex (v.postKey, v.devKey))))

theorem key_lt_iff {v w : Version} :
    v.key < w.key ↔ v.publicKey < w.publicKey ∨ (v.publicKey = w.publicKey ∧ v.labelKey < w.labelKey) := by
  simp only [Version.key, Version.publicKey, Prod.Lex.toLex_lt_toLex, toLex_inj, Prod.mk.injEq]
  tauto

theorem lt_longer (v : Version) (n : ℕ) : v.key < (v.longer n).key := by
  refine key_lt_iff.mpr (.inr ⟨rfl, ?_⟩)
  simp only [Version.longer, Version.labelKey]
  cases v.label with
  | none => exact WithBot.bot_lt_coe _
  | some L => exact WithBot.coe_lt_coe.mpr (lt_append_segment L _)

theorem exists_longer_lt {s : String} {v w : Version} (hw : parse s = some w) (h : v.key < w.key) :
    ∃ n, (v.longer n).key < w.key := by
  rcases key_lt_iff.mp h with hpublic | ⟨hpublic, hlabel⟩
  · exact ⟨0, key_lt_iff.mpr (.inl hpublic)⟩
  · -- only the labels differ: the longer label still lies below the greater one
    cases hM : w.label with
    | none =>
      rw [Version.labelKey, Version.labelKey, hM] at hlabel
      exact absurd hlabel not_lt_bot
    | some M =>
      obtain ⟨hne, hwritten⟩ := written_of_parse hw hM
      have hroom : (v.label.getD []).map LocalSegment.key < M.map LocalSegment.key := by
        rw [Version.labelKey, Version.labelKey, hM] at hlabel
        cases hL : v.label with
        | none =>
          obtain ⟨m, M', rfl⟩ := List.exists_cons_of_ne_nil hne
          simp
        | some L =>
          rw [hL] at hlabel
          exact WithBot.coe_lt_coe.mp hlabel
      obtain ⟨n, hn⟩ := exists_append_lt hwritten hroom
      refine ⟨n, key_lt_iff.mpr (.inr ⟨hpublic, ?_⟩)⟩
      simp only [Version.longer, Version.labelKey, hM]
      exact WithBot.coe_lt_coe.mpr hn

instance : DenselyOrdered VersionKey where
  dense := by
    intro ⟨k, s, v, hv, hk⟩ ⟨k', s', w, hw, hk'⟩ h
    subst hk hk'
    obtain ⟨n, hn⟩ := exists_longer_lt hw h
    obtain ⟨t, ht⟩ := parse_longer hv n
    exact ⟨⟨_, t, _, ht, rfl⟩, lt_longer v n, hn⟩

instance : NoMaxOrder VersionKey where
  exists_gt := by
    intro ⟨k, s, v, hv, hk⟩
    subst hk
    obtain ⟨t, ht⟩ := parse_longer hv 0
    exact ⟨⟨_, t, _, ht, rfl⟩, lt_longer v 0⟩

/-- `0.dev0`, the first version. -/
def Version.first : Version :=
  { epoch := 0, release := [0], pre := none, post := none, dev := some 0, label := none }

theorem parse_first : parse "0.dev0" = some Version.first := by decide

theorem first_key_le (v : Version) : Version.first.key ≤ v.key := by
  have hbot : Version.first.key = toLex (0, toLex ([], toLex (⊥, toLex (⊥, toLex (0, ⊥))))) := rfl
  rw [hbot]
  refine Prod.Lex.toLex_mono ⟨Nat.zero_le _, Prod.Lex.toLex_mono ⟨not_lt.mp (List.not_lt_nil _), ?_⟩⟩
  exact Prod.Lex.toLex_mono ⟨bot_le, Prod.Lex.toLex_mono ⟨bot_le,
    Prod.Lex.toLex_mono ⟨bot_le, bot_le⟩⟩⟩

instance : OrderBot VersionKey where
  bot := ⟨Version.first.key, "0.dev0", _, parse_first, rfl⟩
  bot_le := by
    intro ⟨k, s, v, hv, hk⟩
    subst hk
    exact first_key_le v

end TimeCodeSecurity.Pep440
