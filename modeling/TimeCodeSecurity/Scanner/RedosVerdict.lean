import TimeCodeSecurity.Scanner.Redos

/-! # Which patterns the check misses

A pattern has more than polynomially many ways to match exactly when one of its repeats without a bound reads
a word in two ways. Where the walk comes to such a repeat and its body has no optional parts, an unflagged body
is fixed by its first characters, alternative by alternative. What the walk leaves out are the bodies of
delimited repeats, small repeats and empty alternatives inside a repeat, and alternatives that it cannot read.
-/
namespace TimeCodeSecurity.Scanner
open Readings
set_option autoImplicit false

mutual
def PatternToken.plain : PatternToken → Bool
  | .literal _ | .notLiteral _ | .any => true
  -- `\d` has more digits than `REGEX_DIGIT_CHARS`
  | .inSet members => !members.contains (.category .digit)
  | .subpattern body => !body.isEmpty && sequencePlain body
  | .branch branches => branchesPlain branches
  | .repeated _ lo hi body =>
    decide (0 < lo) && decide (hi = some lo) && !delimited body && !body.isEmpty && sequencePlain body
  | .anchor | .other => false

def sequencePlain : List PatternToken → Bool
  | [] => true
  | token :: tokens => token.plain && sequencePlain tokens

def branchesPlain : List (List PatternToken) → Bool
  | [] => true
  | branch :: branches =>
    !branch.isEmpty && sequencePlain branch && (regexFirstChars branch).isSome && branchesPlain branches
end

mutual
def PatternToken.multipliesWithin : PatternToken → Bool
  | .subpattern body => sequenceMultiplies body
  | .branch branches => branchesMultiply branches
  | .repeated _ _ hi body => !delimited body && (multiplies hi || sequenceMultiplies body)
  | _ => false

def sequenceMultiplies : List PatternToken → Bool
  | [] => false
  | token :: tokens => token.multipliesWithin || sequenceMultiplies tokens

def branchesMultiply : List (List PatternToken) → Bool
  | [] => false
  | branch :: branches => sequenceMultiplies branch || branchesMultiply branches
end

def judged (body : List PatternToken) : Bool :=
  !delimited body && (!body.isEmpty && sequencePlain body || sequenceMultiplies body)

section
variable (inCategory : CharCategory → ℕ → Prop)

mutual
def PatternToken.LoopsSure (walked : Bool) : PatternToken → Prop
  | .subpattern body => SequenceLoopsSure walked body
  | .branch branches => BranchesLoopsSure walked branches
  | .repeated _ lo none body =>
    (walked && judged body) = true ∨ OneWay (Looped (sequenceRx inCategory body).Reads lo)
  | .repeated _ lo (some hi) body => lo ≤ hi → 0 < hi → SequenceLoopsSure (walked && !delimited body) body
  | _ => True

def SequenceLoopsSure (walked : Bool) : List PatternToken → Prop
  | [] => True
  | token :: tokens =>
    (∃ t w, (sequenceRx inCategory (token :: tokens)).Reads t w) →
      token.LoopsSure walked ∧ SequenceLoopsSure walked tokens

def BranchesLoopsSure (walked : Bool) : List (List PatternToken) → Prop
  | [] => True
  | branch :: branches => SequenceLoopsSure walked branch ∧ BranchesLoopsSure walked branches
end

mutual
theorem walkToken_of_multipliesWithin {depth : ℕ} (s : WalkState) :
    ∀ token : PatternToken, token.multipliesWithin = true → depth + token.nesting ≤ regexParseDepthLimit →
      walkToken true depth s token = true
  | .literal _, h, _ | .notLiteral _, h, _ | .any, h, _ | .inSet _, h, _ | .anchor, h, _ | .other, h, _ => by
    cases h
  | .subpattern body, h, hdepth => by
    rw [PatternToken.nesting] at hdepth
    rw [walkToken, walk_of_multiplies _ body h (by omega), Bool.and_true, decide_eq_true_eq]
    omega
  | .branch branches, h, hdepth => by
    rw [PatternToken.nesting] at hdepth
    rw [walkToken, walkBranches_of_multiply branches h (by omega), Bool.and_true]
    rw [decide_eq_true (by omega : depth + 1 ≤ regexParseDepthLimit), Bool.or_true]
  | .repeated _ lo hi body, h, hdepth => by
    rw [PatternToken.nesting] at hdepth
    rw [PatternToken.multipliesWithin, Bool.and_eq_true, Bool.or_eq_true] at h
    obtain ⟨hdelim, hmul | hin⟩ := h
    · rw [walkToken, hmul, hdelim]
      rfl
    · rw [walkToken, Bool.true_or, walk_of_multiplies _ body hin (by omega), hdelim,
        decide_eq_true (by omega : depth + 1 ≤ regexParseDepthLimit)]
      simp

theorem walk_of_multiplies {depth : ℕ} (s : WalkState) :
    ∀ tokens : List PatternToken, sequenceMultiplies tokens = true →
      depth + sequenceNesting tokens ≤ regexParseDepthLimit → walkSequence true depth s tokens = true
  | [], h, _ => by cases h
  | token :: tokens, h, hdepth => by
    rw [sequenceNesting] at hdepth
    rw [sequenceMultiplies, Bool.or_eq_true] at h
    rw [walkSequence, Bool.or_eq_true]
    rcases h with h | h
    · exact .inl (walkToken_of_multipliesWithin s token h (by omega))
    · exact .inr (walk_of_multiplies _ tokens h (by omega))

theorem walkBranches_of_multiply {depth : ℕ} :
    ∀ branches : List (List PatternToken), branchesMultiply branches = true →
      depth + 1 + branchesNesting branches ≤ regexParseDepthLimit → walkBranches true depth branches = true
  | [], h, _ => by cases h
  | branch :: branches, h, hdepth => by
    rw [branchesNesting] at hdepth
    rw [branchesMultiply, Bool.or_eq_true] at h
    rw [walkBranches, Bool.or_eq_true]
    rcases h with h | h
    · exact .inl (walk_of_multiplies _ branch h (by omega))
    · exact .inr (walkBranches_of_multiply branches h (by omega))
end

/-! ## Plain bodies -/

theorem meets_of_mem {a b : List ℕ} {x : ℕ} (ha : x ∈ a) (hb : x ∈ b) : meets a b = true :=
  List.any_eq_true.mpr ⟨x, ha, List.contains_iff_mem.mpr hb⟩

theorem mem_spelledChars {x : ℕ} {members : List SetMember} {chars : List ℕ}
    (hdigit : (.category .digit) ∉ members) (hchars : spelledChars firstCategory members = some chars)
    (h : ∃ m ∈ members, m.Holds inCategory x) : x ∈ chars := by
  induction members generalizing chars with
  | nil =>
    obtain ⟨m, hm, -⟩ := h
    cases hm
  | cons m members ih =>
    obtain ⟨n, hn, hx⟩ := h
    have htail : ∀ {rest}, spelledChars firstCategory members = some rest → n ∈ members → x ∈ rest :=
      fun hrest hmem => ih (fun hmem => hdigit (List.mem_cons_of_mem _ hmem)) hrest ⟨n, hmem, hx⟩
    cases m with
    | negate => cases hchars
    | literal c =>
      rw [spelledChars, Option.map_eq_some_iff] at hchars
      obtain ⟨rest, hrest, rfl⟩ := hchars
      rcases List.mem_cons.mp hn with rfl | hn
      · exact List.mem_cons.mpr (.inl hx)
      · exact List.mem_cons_of_mem _ (htail hrest hn)
    | range start stop =>
      rw [spelledChars] at hchars
      split_ifs at hchars
      rw [Option.map_eq_some_iff] at hchars
      obtain ⟨rest, hrest, rfl⟩ := hchars
      rcases List.mem_cons.mp hn with rfl | hn
      · obtain ⟨hstart, hstop⟩ := hx
        exact List.mem_append_left _ (List.mem_range'_1.mpr ⟨hstart, by omega⟩)
      · exact List.mem_append_right _ (htail hrest hn)
    | category k =>
      have hk : k ≠ .digit := by
        rintro rfl
        exact hdigit List.mem_cons_self
      rw [spelledChars, firstCategory, if_neg hk] at hchars
      cases hchars

theorem InSet.exists_holds {x : ℕ} {members : List SetMember} {chars : List ℕ}
    (hchars : spelledChars firstCategory members = some chars) (h : InSet inCategory x members) :
    ∃ m ∈ members, m.Holds inCategory x := by
  cases members with
  | nil => exact h
  | cons m members =>
    cases m with
    | negate => cases hchars
    | literal | range | category => exact h

structure OpensWith (e : Rx ℕ) (first : Option (List ℕ)) : Prop where
  prefixFixed : PrefixFixed e.Reads
  starts : Starts e.Reads fun x => ∀ chars, first = some chars → x ∈ chars

theorem opensWith_one {S : ℕ → Prop} {first : Option (List ℕ)}
    (h : ∀ x chars, S x → first = some chars → x ∈ chars) : OpensWith (.one S) first := by
  constructor
  · rintro _ _ _ _ ⟨a, -, rfl, rfl⟩ ⟨b, -, rfl, rfl⟩ hpre
    rw [List.cons_prefix_cons] at hpre
    rw [hpre.1]
  · rintro _ _ ⟨a, ha, rfl, rfl⟩
    exact ⟨a, rfl, fun chars hchars => h a chars ha hchars⟩

theorem regexFirstChars_cons {token : PatternToken} (h : token.plain = true) (tokens : List PatternToken) :
    regexFirstChars (token :: tokens) = regexFirstChars [token] := by
  cases token with
  | anchor => cases h
  | _ => rfl

theorem mem_branchesFirstChars {x : ℕ} :
    ∀ {branches : List (List PatternToken)} {chars : List ℕ}, branchesFirstChars branches = some chars →
      (x ∈ chars ↔ ∃ branch ∈ branches, ∃ first, regexFirstChars branch = some first ∧ x ∈ first)
  | [], chars, h => by
    obtain rfl := Option.some.inj h
    simp
  | branch :: branches, chars, h => by
    rw [branchesFirstChars] at h
    obtain ⟨first, hfirst, h⟩ := Option.bind_eq_some_iff.mp h
    obtain ⟨rest, hrest, h⟩ := Option.bind_eq_some_iff.mp h
    obtain rfl := Option.some.inj h
    rw [List.mem_append, mem_branchesFirstChars hrest]
    simp [hfirst]

theorem exists_branchesFirstChars :
    ∀ {branches : List (List PatternToken)}, branchesPlain branches = true →
      ∃ chars, branchesFirstChars branches = some chars
  | [], _ => ⟨[], rfl⟩
  | branch :: branches, h => by
    rw [branchesPlain, Bool.and_eq_true, Bool.and_eq_true] at h
    obtain ⟨first, hfirst⟩ := Option.isSome_iff_exists.mp h.1.2
    obtain ⟨rest, hrest⟩ := exists_branchesFirstChars h.2
    exact ⟨first ++ rest, by rw [branchesFirstChars, hfirst, hrest]; rfl⟩

theorem OpensWith.alternative {branch : List PatternToken} {branches : List (List PatternToken)}
    {first chars : List ℕ} (hfirst : regexFirstChars branch = some first)
    (hchars : branchesFirstChars branches = some chars)
    (hmeet : startsMeet ((branch :: branches).map regexFirstChars) = false)
    (h : OpensWith (sequenceRx inCategory branch) (some first))
    (hrest : OpensWith (branchesRx inCategory branches) (some chars)) :
    OpensWith (branchesRx inCategory (branch :: branches)) (some (first ++ chars)) := by
  rw [List.map_cons, hfirst, startsMeet, Bool.or_eq_false_iff] at hmeet
  have hapart : ∀ x ∈ first, x ∉ chars := by
    intro x hx hmem
    obtain ⟨other, hother, starts, hstarts, hxs⟩ := (mem_branchesFirstChars hchars).mp hmem
    have hany := List.any_eq_false.mp hmeet.1 (some starts) (List.mem_map.mpr ⟨other, hother, hstarts⟩)
    exact hany (meets_of_mem hx hxs)
  -- words that go on from one another start alike
  have hcross : ∀ {a b : Reading ℕ} {u v : List ℕ}, (sequenceRx inCategory branch).Reads a u →
      (branchesRx inCategory branches).Reads b v → u <+: v ∨ v <+: u → False := by
    intro a b u v ha hb hpre
    obtain ⟨x, hx, hxf⟩ := h.starts a u ha
    obtain ⟨y, hy, hyc⟩ := hrest.starts b v hb
    have hsame : x = y := by
      cases u with
      | nil => cases hx
      | cons c u =>
        cases v with
        | nil => cases hy
        | cons d v =>
          have hcd : c = d := hpre.elim (fun h => (List.cons_prefix_cons.mp h).1)
            fun h => (List.cons_prefix_cons.mp h).1.symm
          rw [← Option.some.inj hx, ← Option.some.inj hy, hcd]
    exact hapart x (hxf first rfl) (hsame ▸ hyc chars rfl)
  constructor
  · rintro _ _ u v (⟨a, ha, rfl⟩ | ⟨a, ha, rfl⟩) (⟨b, hb, rfl⟩ | ⟨b, hb, rfl⟩) hpre
    · rw [h.prefixFixed a b u v ha hb hpre]
    · exact (hcross ha hb (.inl hpre)).elim
    · exact (hcross hb ha (.inr hpre)).elim
    · rw [hrest.prefixFixed a b u v ha hb hpre]
  · rintro _ u (⟨a, ha, rfl⟩ | ⟨a, ha, rfl⟩)
    · obtain ⟨x, hx, hxf⟩ := h.starts a u ha
      exact ⟨x, hx, fun _ h => Option.some.inj h ▸ List.mem_append_left _ (hxf first rfl)⟩
    · obtain ⟨x, hx, hxc⟩ := hrest.starts a u ha
      exact ⟨x, hx, fun _ h => Option.some.inj h ▸ List.mem_append_right _ (hxc chars rfl)⟩

theorem walk_eq_false_of_and {depth : ℕ} {b : Bool} (hdepth : depth + 1 ≤ regexParseDepthLimit)
    (h : (decide (depth + 1 ≤ regexParseDepthLimit) && b) = false) : b = false := by
  rwa [decide_eq_true hdepth, Bool.true_and] at h

mutual
theorem opensWith_token {depth : ℕ} (s : WalkState) :
    ∀ token : PatternToken, token.plain = true → walkToken true depth s token = false →
      depth + token.nesting ≤ regexParseDepthLimit →
        OpensWith (token.rx inCategory) (regexFirstChars [token])
  | .literal c, _, _, _ => opensWith_one fun x chars hx hchars => by
    obtain rfl := Option.some.inj hchars
    exact List.mem_singleton.mpr hx
  | .notLiteral c, _, _, _ => opensWith_one nofun
  | .any, _, _, _ => opensWith_one nofun
  | .inSet members, hplain, _, _ => opensWith_one fun x chars hx hchars => by
    rw [PatternToken.plain, Bool.not_eq_true', ← Bool.not_eq_true, List.contains_iff_mem] at hplain
    exact mem_spelledChars inCategory hplain hchars (hx.exists_holds inCategory hchars)
  | .subpattern body, hplain, hwalk, hdepth => by
    rw [PatternToken.nesting] at hdepth
    rw [walkToken] at hwalk
    rw [PatternToken.plain, Bool.and_eq_true, Bool.not_eq_true', List.isEmpty_eq_false_iff] at hplain
    obtain ⟨hfixed, hstarts⟩ := opensWith_sequence {} body hplain.2
      (walk_eq_false_of_and (by omega) hwalk) (by omega)
    exact ⟨hfixed, hstarts hplain.1⟩
  | .branch branches, hplain, hwalk, hdepth => by
    rw [PatternToken.nesting] at hdepth
    rw [walkToken, Bool.or_eq_false_iff, Bool.or_eq_false_iff, Bool.true_and, Bool.true_and] at hwalk
    exact opensWith_branches branches hplain (walk_eq_false_of_and (by omega) hwalk.2) (by omega) hwalk.1.2
  | .repeated _ lo hi body, hplain, hwalk, hdepth => by
    rw [PatternToken.nesting] at hdepth
    rw [PatternToken.plain] at hplain
    simp only [Bool.and_eq_true, decide_eq_true_eq, Bool.not_eq_true', List.isEmpty_eq_false_iff] at hplain
    obtain ⟨⟨⟨⟨hlo, rfl⟩, hdelim⟩, hne⟩, hbody⟩ := hplain
    rw [walkToken, Bool.or_eq_false_iff, Bool.or_eq_false_iff, hdelim, Bool.not_false, Bool.true_and,
      Bool.true_or] at hwalk
    obtain ⟨hfixed, hstarts⟩ := opensWith_sequence {} body hbody
      (walk_eq_false_of_and (by omega) hwalk.1.2) (by omega)
    have hspelled := (sequenceRx inCategory body).spelled
    constructor
    · rintro t t' w w' ⟨n, hn, hn', ht⟩ ⟨m, hm, hm', ht'⟩ hpre
      obtain rfl : n = m := by omega
      exact hfixed.turns hspelled n t t' w w' ht ht' hpre
    · rintro t w ⟨n, hn, -, ht⟩
      obtain ⟨m, rfl⟩ : ∃ m, n = m + 1 := ⟨n - 1, by omega⟩
      exact (hstarts hne).pairs t w ht

theorem opensWith_sequence {depth : ℕ} (s : WalkState) :
    ∀ tokens : List PatternToken, sequencePlain tokens = true → walkSequence true depth s tokens = false →
      depth + sequenceNesting tokens ≤ regexParseDepthLimit →
        PrefixFixed (sequenceRx inCategory tokens).Reads ∧
          (tokens ≠ [] → Starts (sequenceRx inCategory tokens).Reads
            fun x => ∀ chars, regexFirstChars tokens = some chars → x ∈ chars)
  | [], _, _, _ => ⟨fun _ _ _ _ h h' _ => h.1.trans h'.1.symm, fun h => (h rfl).elim⟩
  | token :: tokens, hplain, hwalk, hdepth => by
    rw [sequenceNesting] at hdepth
    rw [sequencePlain, Bool.and_eq_true] at hplain
    rw [walkSequence, Bool.or_eq_false_iff] at hwalk
    have htoken := opensWith_token s token hplain.1 hwalk.1 (by omega)
    have hrest := (opensWith_sequence _ tokens hplain.2 hwalk.2 (by omega)).1
    refine ⟨htoken.prefixFixed.pairs (token.rx inCategory).spelled hrest, fun _ => ?_⟩
    rw [regexFirstChars_cons hplain.1]
    exact htoken.starts.pairs

theorem opensWith_branches {depth : ℕ} :
    ∀ branches : List (List PatternToken), branchesPlain branches = true →
      walkBranches true depth branches = false → depth + 1 + branchesNesting branches ≤ regexParseDepthLimit →
        startsMeet (branches.map regexFirstChars) = false →
          OpensWith (branchesRx inCategory branches) (branchesFirstChars branches)
  | [], _, _, _, _ => ⟨fun _ _ _ _ h => h.elim, fun _ _ h => h.elim⟩
  | branch :: branches, hplain, hwalk, hdepth, hmeet => by
    rw [branchesNesting] at hdepth
    rw [branchesPlain, Bool.and_eq_true, Bool.and_eq_true, Bool.and_eq_true, Bool.not_eq_true',
      List.isEmpty_eq_false_iff] at hplain
    obtain ⟨⟨⟨hne, hbranch⟩, hsome⟩, hbranches⟩ := hplain
    rw [walkBranches, Bool.or_eq_false_iff] at hwalk
    obtain ⟨first, hfirst⟩ := Option.isSome_iff_exists.mp hsome
    obtain ⟨chars, hchars⟩ := exists_branchesFirstChars hbranches
    have hmeet' : startsMeet (branches.map regexFirstChars) = false := by
      rw [List.map_cons, hfirst, startsMeet, Bool.or_eq_false_iff] at hmeet
      exact hmeet.2
    obtain ⟨hfixed, hstarts⟩ := opensWith_sequence {} branch hbranch hwalk.1 (by omega)
    have hrest := opensWith_branches branches hbranches hwalk.2 (by omega) hmeet'
    have hall : branchesFirstChars (branch :: branches) = some (first ++ chars) := by
      rw [branchesFirstChars, hfirst, hchars]
      rfl
    rw [hall]
    exact .alternative inCategory hfirst hchars hmeet ⟨hfixed, hfirst ▸ hstarts hne⟩ (hchars ▸ hrest)
end

theorem oneWay_of_judged {depth : ℕ} {s : WalkState} {body : List PatternToken} (h : judged body = true)
    (hwalk : walkSequence true depth s body = false) (hdepth : depth + sequenceNesting body ≤ regexParseDepthLimit)
    (lo : ℕ) : OneWay (Looped (sequenceRx inCategory body).Reads lo) := by
  rw [judged, Bool.and_eq_true, Bool.or_eq_true] at h
  rcases h.2 with hplain | hmul
  · rw [Bool.and_eq_true, Bool.not_eq_true', List.isEmpty_eq_false_iff] at hplain
    obtain ⟨hfixed, hstarts⟩ := opensWith_sequence inCategory s body hplain.2 hwalk hdepth
    exact hfixed.looped (sequenceRx inCategory body).spelled (hstarts hplain.1) lo
  · rw [walk_of_multiplies s body hmul hdepth] at hwalk
    cases hwalk

/-! ## All repeats of a pattern -/

mutual
theorem loopsOneWay_token {insideRepeat walked : Bool} {depth : ℕ} (s : WalkState) :
    ∀ token : PatternToken, token.LoopsSure inCategory walked →
      (walked = true → walkToken insideRepeat depth s token = false) →
        depth + token.nesting ≤ regexParseDepthLimit → (token.rx inCategory).LoopsOneWay
  | .literal _, _, _, _ | .notLiteral _, _, _, _ | .any, _, _, _ | .inSet _, _, _, _ => trivial
  | .anchor, _, _, _ | .other, _, _, _ => trivial
  | .subpattern body, h, hwalk, hdepth => by
    rw [PatternToken.nesting] at hdepth
    have hbody : walked = true → walkSequence insideRepeat (depth + 1) {} body = false := by
      intro hw
      have htoken := hwalk hw
      rw [walkToken] at htoken
      exact walk_eq_false_of_and (by omega) htoken
    exact loopsOneWay_sequence {} body h hbody (by omega)
  | .branch branches, h, hwalk, hdepth => by
    rw [PatternToken.nesting] at hdepth
    have hbranches : walked = true → walkBranches insideRepeat depth branches = false := by
      intro hw
      have htoken := hwalk hw
      rw [walkToken, Bool.or_eq_false_iff] at htoken
      exact walk_eq_false_of_and (by omega) htoken.2
    exact loopsOneWay_branches branches h hbranches (by omega)
  | .repeated _ lo none body, h, hwalk, hdepth => by
    rw [PatternToken.nesting] at hdepth
    rcases h with h | h
    · rw [Bool.and_eq_true] at h
      have hbody := hwalk h.1
      have hdelim := (Bool.and_eq_true _ _ ▸ h.2 : (!delimited body) = true ∧ _).1
      rw [walkToken, Bool.or_eq_false_iff, Bool.or_eq_false_iff, hdelim, Bool.true_and] at hbody
      have hinside : (insideRepeat || multiplies none) = true := Bool.or_true _
      rw [hinside] at hbody
      exact oneWay_of_judged inCategory h.2 (walk_eq_false_of_and (by omega) hbody.1.2) (by omega) lo
    · exact h
  | .repeated _ lo (some hi) body, h, hwalk, hdepth => by
    rw [PatternToken.nesting] at hdepth
    intro hle hpos
    have hbody : (walked && !delimited body) = true →
        walkSequence (insideRepeat || multiplies (some hi)) (depth + 1) {} body = false := by
      intro hw
      rw [Bool.and_eq_true] at hw
      have htoken := hwalk hw.1
      rw [walkToken, Bool.or_eq_false_iff, Bool.or_eq_false_iff, hw.2, Bool.true_and] at htoken
      exact walk_eq_false_of_and (by omega) htoken.1.2
    exact loopsOneWay_sequence {} body (h hle hpos) hbody (by omega)

theorem loopsOneWay_sequence {insideRepeat walked : Bool} {depth : ℕ} (s : WalkState) :
    ∀ tokens : List PatternToken, SequenceLoopsSure inCategory walked tokens →
      (walked = true → walkSequence insideRepeat depth s tokens = false) →
        depth + sequenceNesting tokens ≤ regexParseDepthLimit → (sequenceRx inCategory tokens).LoopsOneWay
  | [], _, _, _ => trivial
  | token :: tokens, h, hwalk, hdepth => by
    rw [sequenceNesting] at hdepth
    intro hread
    have hsure := h hread
    constructor
    · have htoken := fun hw => (Bool.or_eq_false_iff.mp (hwalk hw)).1
      exact loopsOneWay_token s token hsure.1 htoken (by omega)
    · have htokens := fun hw => (Bool.or_eq_false_iff.mp (hwalk hw)).2
      exact loopsOneWay_sequence (s.after token) tokens hsure.2 htokens (by omega)

theorem loopsOneWay_branches {insideRepeat walked : Bool} {depth : ℕ} :
    ∀ branches : List (List PatternToken), BranchesLoopsSure inCategory walked branches →
      (walked = true → walkBranches insideRepeat depth branches = false) →
        depth + 1 + branchesNesting branches ≤ regexParseDepthLimit →
          (branchesRx inCategory branches).LoopsOneWay
  | [], _, _, _ => trivial
  | branch :: branches, h, hwalk, hdepth => by
    rw [branchesNesting] at hdepth
    constructor
    · have hbranch := fun hw => (Bool.or_eq_false_iff.mp (hwalk hw)).1
      exact loopsOneWay_sequence {} branch h.1 hbranch (by omega)
    · have hbranches := fun hw => (Bool.or_eq_false_iff.mp (hwalk hw)).2
      exact loopsOneWay_branches branches h.2 hbranches (by omega)
end

mutual
theorem loopsSure_token {walked : Bool} :
    ∀ token : PatternToken, (token.rx inCategory).LoopsOneWay → token.LoopsSure inCategory walked
  | .literal _, _ | .notLiteral _, _ | .any, _ | .inSet _, _ | .anchor, _ | .other, _ => trivial
  | .subpattern body, h => loopsSure_sequence body h
  | .branch branches, h => loopsSure_branches branches h
  | .repeated _ _ none _, h => .inr h
  | .repeated _ _ (some _) body, h => fun hle hpos => loopsSure_sequence body (h hle hpos)

theorem loopsSure_sequence {walked : Bool} :
    ∀ tokens : List PatternToken, (sequenceRx inCategory tokens).LoopsOneWay →
      SequenceLoopsSure inCategory walked tokens
  | [], _ => trivial
  | token :: tokens, h => fun hread =>
    ⟨loopsSure_token token (h hread).1, loopsSure_sequence tokens (h hread).2⟩

theorem loopsSure_branches {walked : Bool} :
    ∀ branches : List (List PatternToken), (branchesRx inCategory branches).LoopsOneWay →
      BranchesLoopsSure inCategory walked branches
  | [], _ => trivial
  | branch :: branches, h => ⟨loopsSure_sequence branch h.1, loopsSure_branches branches h.2⟩
end

theorem isRedosVulnerablePattern_eq_walk {parse : String → Option (List PatternToken)} {source : String}
    {tokens : List PatternToken} (hparse : parse source = some tokens) (hempty : source = "" → tokens = []) :
    isRedosVulnerablePattern parse source = walkSequence false 0 {} tokens := by
  rw [isRedosVulnerablePattern]
  split_ifs with h
  · rw [hempty h]
    rfl
  · rw [hparse]
    exact Bool.true_and _

/-- A pattern with more than polynomially many ways to match is reported. -/
def ExponentialReported (parse : String → Option (List PatternToken)) (source : String) (p : RegexPattern) : Prop :=
  ¬PolynomialWays (sequenceRx inCategory p.tokens).Reads → isRedosVulnerablePattern parse source = true

/-- On a pattern that is not reported the condition is necessary, too. -/
theorem exponentialReported_of_loopsSure (parse : String → Option (List PatternToken)) (source : String)
    (p : RegexPattern) (hparse : parse source = some p.tokens) (hempty : source = "" → p.tokens = []) :
    (SequenceLoopsSure inCategory true p.tokens → ExponentialReported inCategory parse source p) ∧
      (isRedosVulnerablePattern parse source = false → ExponentialReported inCategory parse source p →
        SequenceLoopsSure inCategory true p.tokens) := by
  rw [ExponentialReported, isRedosVulnerablePattern_eq_walk hparse hempty]
  have hdepth : 0 + sequenceNesting p.tokens ≤ regexParseDepthLimit := by
    rw [Nat.zero_add]
    exact p.shallow
  constructor
  · intro hsure hexp
    by_contra hwalk
    rw [Bool.not_eq_true] at hwalk
    exact hexp ((Rx.polynomialWays_iff _).mpr
      (loopsOneWay_sequence inCategory {} p.tokens hsure (fun _ => hwalk) hdepth))
  · intro hwalk hreported
    refine loopsSure_sequence inCategory p.tokens ((Rx.polynomialWays_iff _).mp ?_)
    by_contra hexp
    rw [hreported hexp] at hwalk
    cases hwalk

end

/-- `(ab|c)*`. -/
def alternatives : RegexPattern where
  tokens := [.repeated .max 0 none [.subpattern [.branch [[.literal 97, .literal 98], [.literal 99]]]]]
  covered := rfl
  shallow := by decide

theorem alternatives_reported :
    (SequenceLoopsSure (fun _ _ => False) true alternatives.tokens →
      ExponentialReported (fun _ _ => False) (fun _ => some alternatives.tokens) "(ab|c)*" alternatives) ∧
    (isRedosVulnerablePattern (fun _ => some alternatives.tokens) "(ab|c)*" = false →
      ExponentialReported (fun _ _ => False) (fun _ => some alternatives.tokens) "(ab|c)*" alternatives →
        SequenceLoopsSure (fun _ _ => False) true alternatives.tokens) ∧
    SequenceLoopsSure (fun _ _ => False) true alternatives.tokens :=
  have h := exponentialReported_of_loopsSure (fun _ _ => False) (fun _ => some alternatives.tokens) "(ab|c)*"
    alternatives rfl (by simp)
  ⟨h.1, h.2, fun _ => ⟨.inl rfl, trivial⟩⟩

/-- `((a+)+b)*`. -/
def delimitedBody : RegexPattern where
  tokens := [.repeated .max 0 none [.subpattern [
    .repeated .max 1 none [.subpattern [.repeated .max 1 none [.literal 97]]], .literal 98]]]
  covered := rfl
  shallow := by decide

theorem reads_cat_empty {e : Rx ℕ} {t : Reading ℕ} {w : List ℕ} (h : e.Reads t w) :
    (Rx.cat e .empty).Reads (.pair t .unit) w :=
  ⟨t, .unit, w, [], h, ⟨rfl, rfl⟩, rfl, (List.append_nil w).symm⟩

theorem turns_one {R : Reading ℕ → List ℕ → Prop} {t : Reading ℕ} {w : List ℕ} (h : R t w) :
    Turns R 1 (.pair t .unit) w :=
  ⟨t, .unit, w, [], h, ⟨rfl, rfl⟩, rfl, (List.append_nil w).symm⟩

theorem not_polynomialWays_delimitedBody (inCategory : CharCategory → ℕ → Prop) :
    ¬PolynomialWays (sequenceRx inCategory delimitedBody.tokens).Reads := by
  intro hpoly
  let letter : Reading ℕ := .pair (.letter 97) .unit
  have hletter : (Rx.cat (.one (· = 97)) .empty).Reads letter [97] := reads_cat_empty ⟨97, rfl, rfl, rfl⟩
  have hone : Looped (Rx.cat (.one (· = 97)) .empty).Reads 1 (.pair letter .unit) [97] :=
    ⟨1, le_rfl, turns_one hletter⟩
  have htwo : Looped (Rx.cat (.one (· = 97)) .empty).Reads 1 (.pair letter (.pair letter .unit)) [97, 97] :=
    ⟨2, by omega, letter, _, [97], [97], hletter, turns_one hletter, rfl, rfl⟩
  let plus : Rx ℕ := .cat (.cat (.rep 1 none (.cat (.one (· = 97)) .empty)) .empty) .empty
  have hplus : ∀ {t w}, Looped (Rx.cat (.one (· = 97)) .empty).Reads 1 t w →
      plus.Reads (.pair (.pair t .unit) .unit) w := fun h => reads_cat_empty (reads_cat_empty h)
  have hbody : ∀ {t}, Looped plus.Reads 1 t [97, 97] →
      (Rx.cat (.cat (.rep 1 none plus) (.cat (.one (· = 98)) .empty)) .empty).Reads
        (.pair (.pair t (.pair (.letter 98) .unit)) .unit) [97, 97, 98] := fun {t} h =>
    reads_cat_empty ⟨t, _, [97, 97], [98], h, reads_cat_empty ⟨98, rfl, rfl, rfl⟩, rfl, rfl⟩
  have hloops := (Rx.polynomialWays_iff _).mp hpoly
    ⟨_, _, .unit, .unit, [], [], ⟨0, le_rfl, rfl, rfl⟩, ⟨rfl, rfl⟩, rfl, rfl⟩
  have hsame := hloops.1 _ _ [97, 97, 98]
    ⟨1, by omega, turns_one (hbody ⟨1, le_rfl, turns_one (hplus htwo)⟩)⟩
    ⟨1, by omega, turns_one (hbody
      ⟨2, by omega, _, _, [97], [97], hplus hone, turns_one (hplus hone), rfl, rfl⟩)⟩
  cases hsame

theorem exponential_not_reported :
    ¬∀ (inCategory : CharCategory → ℕ → Prop) (parse : String → Option (List PatternToken))
      (source : String) (p : RegexPattern), parse source = some p.tokens → (source = "" → p.tokens = []) →
        ExponentialReported inCategory parse source p := by
  intro hall
  have hreported := hall (fun _ _ => False) (fun _ => some delimitedBody.tokens) "((a+)+b)*" delimitedBody rfl
    (by simp) (not_polynomialWays_delimitedBody _)
  have hwalk : isRedosVulnerablePattern (fun _ => some delimitedBody.tokens) "((a+)+b)*" =
      walkSequence false 0 {} delimitedBody.tokens := isRedosVulnerablePattern_eq_walk rfl (by simp)
  rw [hwalk] at hreported
  cases hreported

end TimeCodeSecurity.Scanner
