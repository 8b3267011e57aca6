import TimeCodeSecurity.Foundations.Replacing
import TimeCodeSecurity.Foundations.Separators
import TimeCodeSecurity.Foundations.Tables
import Mathlib.Data.List.Dedup
import Mathlib.Data.List.Sort
import Mathlib.Data.Char
import Mathlib.Data.List.Lex

/-! # The secret vault

`SecretVault` replaces the secrets of a text by numbered tokens, longest secret first, and puts them back from
the map of the tokens. What the detectors find in a text is left open.
-/
namespace TimeCodeSecurity.Secrets
open Replacing Tables
set_option autoImplicit false

abbrev Text := List Char

/-- The secrets of the matches of each provider pattern, `find_high_entropy_secrets_ast` and
`find_high_entropy_secrets_regex`. -/
structure Detectors where
  patterns : List (Text → List Text)
  highEntropyAst : Text → List Text
  highEntropyRegex : Text → List Text

def tokenPrefix : Text := "__TCS_VAULT_TOKEN_".toList

def token (idx : ℕ) : Text := tokenPrefix ++ (Nat.toDigits 10 idx ++ ['_', '_'])

def detected (d : Detectors) (code : Text) : List Text :=
  (d.patterns.flatMap (· code) ++ (d.highEntropyAst code ++ d.highEntropyRegex code)).filter
    fun s => s ≠ [] ∧ ¬ tokenPrefix <+: s

def LongerFirst (s s' : Text) : Prop := s'.length ≤ s.length

instance : DecidableRel LongerFirst := fun s s' => inferInstanceAs (Decidable (s'.length ≤ s.length))

/-- `find_all_secrets`; secrets of one length come in the order of a set, which nothing reads. -/
def findAllSecrets (d : Detectors) (code : Text) : List Text :=
  if code = [] then [] else (detected d code).dedup.insertionSort LongerFirst

/-- `code.find(s)`, a large number when it is not there. -/
def position (code s : Text) : ℕ :=
  if s <:+: code then code.tails.findIdx (s.isPrefixOf ·) else 999999999

/-- The order of `appearance_key`. -/
def AppearsFirst (code s s' : Text) : Prop :=
  position code s < position code s' ∨ position code s = position code s' ∧
    (s'.length < s.length ∨ s.length = s'.length ∧ s ≤ s')

instance (code : Text) : DecidableRel (AppearsFirst code) := fun s s' =>
  inferInstanceAs (Decidable (position code s < position code s' ∨ position code s = position code s' ∧
    (s'.length < s.length ∨ s.length = s'.length ∧ s ≤ s')))

def numbered (d : Detectors) (code : Text) : List Text :=
  (findAllSecrets d code).insertionSort (AppearsFirst code)

/-- `secret_to_token`; all secrets are different. -/
def secretToToken (d : Detectors) (code : Text) : List (Text × Text) :=
  ((numbered d code).zipIdx 1).map fun e => (e.1, token e.2)

def replaceEach (table : List (Text × Text)) (text : Text) : Text :=
  (table.insertionSort fun e e' => LongerFirst e.1 e'.1).foldl (fun text e => replaceAll e.1 e.2 text) text

def redact (d : Detectors) (code : Text) : Text × List (Text × Text) :=
  if code = [] then ([], [])
  else if findAllSecrets d code = [] then (code, [])
  else (replaceEach (secretToToken d code) code, (secretToToken d code).map Prod.swap)

inductive RestorationError
  | vaultRestorationError
deriving DecidableEq, Repr

def isWordChar (c : Char) : Bool := c.isAlphanum || c = '_'

/-- `__TCS_VAULT_TOKEN_[a-zA-Z0-9_]+__` is somewhere in the text. -/
def hasResidualToken (text : Text) : Bool :=
  text.tails.any fun t => tokenPrefix.isPrefixOf t &&
    decide (['_', '_'] <:+: ((t.drop tokenPrefix.length).takeWhile isWordChar).drop 1)

def restore (redacted : Text) (vaultMap : List (Text × Text)) (fallbackOnError : Bool) :
    Except RestorationError Text :=
  if redacted = [] then .ok []
  else
    let restored := replaceEach vaultMap redacted
    if (vaultMap.any (fun e => e.1 <:+: restored) || hasResidualToken restored) && !fallbackOnError then
      .error .vaultRestorationError
    else .ok restored

/-- `redact_code` with the map that the instance has. -/
def redactCode (d : Detectors) (vaultMap : List (Text × Text)) (code : Text) :
    Text × List (Text × Text) :=
  ((redact d code).1, setItems vaultMap (redact d code).2)

def redactCodes (d : Detectors) (vaultMap : List (Text × Text)) : List Text → List Text × List (Text × Text)
  | [] => ([], vaultMap)
  | code :: codes =>
    let r := redactCode d vaultMap code
    let rest := redactCodes d r.2 codes
    (r.1 :: rest.1, rest.2)

theorem token_ne_nil (idx : ℕ) : token idx ≠ [] := by
  rw [token]
  exact List.append_ne_nil_of_right_ne_nil _ (List.append_ne_nil_of_right_ne_nil _ (by simp))

theorem token_injective : Function.Injective token := Separators.numbered_injective tokenPrefix ['_', '_']

theorem tokenPrefix_infix_token (idx : ℕ) : tokenPrefix <:+: token idx :=
  (List.prefix_append _ _).isInfix

theorem mem_findAllSecrets {d : Detectors} {code s : Text} (h : s ∈ findAllSecrets d code) : s ≠ [] := by
  rw [findAllSecrets] at h
  split_ifs at h with hcode
  · cases h
  · have hdetected := List.mem_dedup.mp ((List.mem_insertionSort _).mp h)
    have hfilter := (List.mem_filter.mp hdetected).2
    exact (of_decide_eq_true hfilter).1

/-! ## There and back

When each secret and each token is found at its own marks only, redacting a text gives the text with tokens at
the marks, and restoring it gives the text with whatever the map then has for the tokens. The numbers start
again with every text, so the map has the secrets of the last text that got so far.
-/

/-- The secret with number `i` of a text, counted from 0. -/
def own (d : Detectors) (code : Text) (i : ℕ) : Text := (numbered d code).getD i []

def count (d : Detectors) (code : Text) : ℕ := (numbered d code).length

/-- The token with number `i`, counted from 0. -/
def tok (i : ℕ) : Text := token (i + 1)

/-- The numbers below `n`, those of the longest text first. -/
def orderBy (f : ℕ → Text) (n : ℕ) : List ℕ :=
  (List.range n).insertionSort fun i j => LongerFirst (f i) (f j)

def most (d : Detectors) (codes : List Text) : ℕ := (codes.map (count d)).foldl max 0

/-- The secret with number `i` of the last text that has so many. -/
def shared (d : Detectors) (codes : List Text) (i : ℕ) : Text :=
  ((codes.filter (i < count d ·)).getLast?.map (own d · i)).getD []

theorem tok_ne_nil (i : ℕ) : tok i ≠ [] := token_ne_nil _

theorem tok_injective : Function.Injective tok := fun _ _ h => Nat.succ_injective (token_injective h)

theorem nodup_orderBy (f : ℕ → Text) (n : ℕ) : (orderBy f n).Nodup :=
  (List.perm_insertionSort _ _).nodup_iff.mpr List.nodup_range

theorem mem_orderBy {f : ℕ → Text} {n i : ℕ} : i ∈ orderBy f n ↔ i < n := by
  rw [orderBy, List.mem_insertionSort, List.mem_range]

theorem own_ne_nil {d : Detectors} {code : Text} {i : ℕ} (h : i < count d code) : own d code i ≠ [] := by
  have hmem : own d code i ∈ numbered d code := by
    rw [own, List.getD_eq_getElem?_getD, List.getElem?_eq_getElem h, Option.getD_some]
    exact List.getElem_mem h
  exact mem_findAllSecrets ((List.mem_insertionSort _).mp hmem)

def tableOf (f g : ℕ → Text) (n : ℕ) : List (Text × Text) := (List.range n).map fun i => (f i, g i)

theorem replaceEach_tableOf (f g : ℕ → Text) (n : ℕ) (text : Text) :
    replaceEach (tableOf f g n) text =
      (orderBy f n).foldl (fun text i => replaceAll (f i) (g i) text) text := by
  have hsort : (tableOf f g n).insertionSort (fun e e' => LongerFirst e.1 e'.1) =
      (orderBy f n).map fun i => (f i, g i) := by
    rw [orderBy, tableOf]
    exact (List.map_insertionSort (fun i j => LongerFirst (f i) (f j))
      (fun e e' : Text × Text => LongerFirst e.1 e'.1) (fun i => (f i, g i)) (List.range n)
      fun _ _ _ _ => Iff.rfl).symm
  rw [replaceEach, hsort, List.foldl_map]

theorem secretToToken_eq (d : Detectors) (code : Text) :
    secretToToken d code = tableOf (own d code) tok (count d code) := by
  apply List.ext_getElem
  · simp [secretToToken, tableOf, count]
  · intro i h h'
    have hi : i < (numbered d code).length := by simpa [secretToToken] using h
    simp [secretToToken, tableOf, own, tok, hi, Nat.add_comm]

theorem redact_eq (d : Detectors) (code : Text) :
    redact d code =
      (replaceEach (tableOf (own d code) tok (count d code)) code, tableOf tok (own d code) (count d code)) := by
  have hswap : (secretToToken d code).map Prod.swap = tableOf tok (own d code) (count d code) := by
    rw [secretToToken_eq, tableOf, tableOf, List.map_map]
    rfl
  have hnone : findAllSecrets d code = [] → count d code = 0 := fun h => by
    rw [count, numbered, h]
    rfl
  rw [redact]
  split_ifs with hcode hfound
  · have hzero : count d code = 0 := hnone (by rw [findAllSecrets, if_pos hcode])
    rw [hzero, hcode]
    rfl
  · rw [hnone hfound]
    rfl
  · rw [hswap, secretToToken_eq]

theorem redactCodes_eq (d : Detectors) (vaultMap : List (Text × Text)) (codes : List Text) :
    redactCodes d vaultMap codes = (codes.map fun code => (redact d code).1,
      codes.foldl (fun m code => setItems m (tableOf tok (own d code) (count d code))) vaultMap) := by
  induction codes generalizing vaultMap with
  | nil => rfl
  | cons code codes ih =>
    have hmap : (redact d code).2 = tableOf tok (own d code) (count d code) := by rw [redact_eq]
    rw [redactCodes]
    simp only [ih, redactCode, hmap]
    rfl

/-! ## The map of an instance -/

theorem setItem_tableOf {f : ℕ → Text} {n i : ℕ} (a : Text) (h : i < n) :
    setItem (tableOf tok f n) (tok i) a = tableOf tok (Function.update f i a) n := by
  have hany : (tableOf tok f n).any (·.1 = tok i) = true :=
    List.any_eq_true.mpr ⟨(tok i, f i), List.mem_map.mpr ⟨i, List.mem_range.mpr h, rfl⟩, by simp⟩
  rw [setItem, if_pos hany, tableOf, tableOf, List.map_map]
  apply List.map_congr_left
  intro j _
  by_cases hj : j = i
  · simp [hj]
  · have hne : tok j ≠ tok i := fun heq => hj (tok_injective heq)
    simp [hj, hne]

theorem setItem_tableOf_new (f : ℕ → Text) (n : ℕ) (a : Text) :
    setItem (tableOf tok f n) (tok n) a = tableOf tok f n ++ [(tok n, a)] := by
  refine setItem_of_notMem a fun hmem => ?_
  obtain ⟨e, he, hkey⟩ := List.mem_map.mp hmem
  obtain ⟨i, hi, rfl⟩ := List.mem_map.mp he
  have heq : i = n := tok_injective hkey
  exact absurd (List.mem_range.mp hi) (by omega)

theorem tableOf_succ (f g : ℕ → Text) (n : ℕ) : tableOf f g (n + 1) = tableOf f g n ++ [(f n, g n)] := by
  rw [tableOf, List.range_succ, List.map_append]
  rfl

theorem tableOf_congr {f g g' : ℕ → Text} {n : ℕ} (h : ∀ i < n, g i = g' i) : tableOf f g n = tableOf f g' n :=
  List.map_congr_left fun i hi => by rw [h i (List.mem_range.mp hi)]

theorem setItems_tableOf (f g : ℕ → Text) (m n : ℕ) :
    setItems (tableOf tok f m) (tableOf tok g n) =
      tableOf tok (fun i => if i < n then g i else f i) (max m n) := by
  induction n with
  | zero =>
    rw [Nat.max_eq_left (Nat.zero_le m)]
    show tableOf tok f m = tableOf tok (fun i => if i < 0 then g i else f i) m
    exact tableOf_congr fun i _ => (if_neg (Nat.not_lt_zero i)).symm
  | succ n ih =>
    rw [tableOf_succ, setItems, List.foldl_append]
    show setItem (setItems (tableOf tok f m) (tableOf tok g n)) (tok n) (g n) = _
    rw [ih]
    by_cases hn : n < m
    · have hmax : max m n = m := by omega
      have hmax' : max m (n + 1) = m := by omega
      rw [hmax, hmax', setItem_tableOf _ hn]
      refine tableOf_congr fun i _ => ?_
      by_cases hi : i = n
      · simp [hi]
      · have hiff : i < n + 1 ↔ i < n := by omega
        simp [hi, hiff]
    · have hmax : max m n = n := by omega
      have hmax' : max m (n + 1) = n + 1 := by omega
      rw [hmax, hmax', setItem_tableOf_new, tableOf_succ, if_pos (Nat.lt_succ_self n)]
      congr 1
      exact tableOf_congr fun i hi => by rw [if_pos hi, if_pos (by omega)]

theorem shared_append (d : Detectors) (codes : List Text) (code : Text) (i : ℕ) :
    shared d (codes ++ [code]) i = if i < count d code then own d code i else shared d codes i := by
  rw [shared, List.filter_append]
  by_cases hi : i < count d code
  · simp [hi]
  · simp [hi, shared]

theorem most_append (d : Detectors) (codes : List Text) (code : Text) :
    most d (codes ++ [code]) = max (most d codes) (count d code) := by
  rw [most, List.map_append, List.foldl_append]
  rfl

theorem redactCodes_map (d : Detectors) (codes : List Text) :
    (redactCodes d [] codes).2 = tableOf tok (shared d codes) (most d codes) := by
  rw [redactCodes_eq]
  induction codes using List.reverseRecOn with
  | nil => rfl
  | append_singleton codes code ih =>
    rw [List.foldl_append, List.foldl_cons, List.foldl_nil]
    simp only at ih
    rw [ih, setItems_tableOf, most_append]
    exact tableOf_congr fun i _ => (shared_append d codes code i).symm

theorem count_le_most {d : Detectors} {codes : List Text} {code : Text} (h : code ∈ codes) :
    count d code ≤ most d codes := by
  induction codes using List.reverseRecOn with
  | nil => cases h
  | append_singleton codes last ih =>
    rw [most_append]
    rcases List.mem_append.mp h with h | h
    · exact (ih h).trans (le_max_left _ _)
    · rw [List.mem_singleton.mp h]
      exact le_max_right _ _

/-- The text does not contain the start of a token. -/
def TokenFree (code : Text) : Prop := ¬ tokenPrefix <:+: code

instance : DecidablePred TokenFree := fun code => inferInstanceAs (Decidable (¬ tokenPrefix <:+: code))

theorem redact_marked {d : Detectors} {code : Text} {ps : List (Piece Char ℕ)}
    (htext : render (own d code) ps = code) (hnumbers : ∀ i ∈ marks ps, i < count d code)
    (hscan : ScansAll (own d code) tok ps (orderBy (own d code) (count d code))) :
    (redact d code).1 = render tok ps := by
  have hne : ∀ i ∈ orderBy (own d code) (count d code), own d code i ≠ [] := fun i hi =>
    own_ne_nil (mem_orderBy.mp hi)
  rw [redact_eq]
  show replaceEach (tableOf (own d code) tok (count d code)) code = render tok ps
  have hfold := foldl_replaceAll_render (nodup_orderBy _ _) hne hscan
  rw [htext] at hfold
  rw [replaceEach_tableOf, hfold]
  refine render_congr fun i hi => ?_
  rw [override, if_pos (mem_orderBy.mpr (hnumbers i hi))]

theorem replaceEach_tokens {f : ℕ → Text} {n : ℕ} {ps : List (Piece Char ℕ)}
    (hnumbers : ∀ i ∈ marks ps, i < n) (hscan : ScansAll tok f ps (orderBy tok n)) :
    replaceEach (tableOf tok f n) (render tok ps) = render f ps := by
  rw [replaceEach_tableOf, foldl_replaceAll_render (nodup_orderBy _ _) (fun i _ => tok_ne_nil i) hscan]
  refine render_congr fun i hi => ?_
  rw [override, if_pos (mem_orderBy.mpr (hnumbers i hi))]

theorem replaceEach_nil (table : List (Text × Text)) : replaceEach table [] = [] := by
  rw [replaceEach]
  induction table.insertionSort fun e e' => LongerFirst e.1 e'.1 with
  | nil => rfl
  | cons e es ih => exact ih

theorem hasResidualToken_eq_false {text : Text} (h : TokenFree text) : hasResidualToken text = false := by
  rw [Bool.eq_false_iff]
  intro hres
  obtain ⟨t, ht, hboth⟩ := List.any_eq_true.mp hres
  have hstart := List.isPrefixOf_iff_prefix.mp (Bool.and_eq_true_iff.mp hboth).1
  exact h (hstart.isInfix.trans ((List.mem_tails t text).mp ht).isInfix)

theorem restore_ok_iff {f : ℕ → Text} {n : ℕ} {redacted code : Text} (hfree : TokenFree code) :
    restore redacted (tableOf tok f n) false = .ok code ↔ replaceEach (tableOf tok f n) redacted = code := by
  have htokens : ((tableOf tok f n).any fun e => decide (e.1 <:+: code)) = false := by
    rw [Bool.eq_false_iff]
    intro hany
    obtain ⟨e, he, hin⟩ := List.any_eq_true.mp hany
    obtain ⟨i, _, rfl⟩ := List.mem_map.mp he
    exact hfree ((tokenPrefix_infix_token _).trans (of_decide_eq_true hin))
  rw [restore]
  by_cases hempty : redacted = []
  · rw [if_pos hempty, hempty, replaceEach_nil]
    exact ⟨fun h => Except.ok.inj h, fun h => by rw [h]⟩
  · rw [if_neg hempty]
    constructor
    · intro h
      simp only at h
      split_ifs at h with hremaining
      exact Except.ok.inj h
    · intro h
      simp only [h, htokens, hasResidualToken_eq_false hfree]
      rfl

/-- The secrets of a text can be marked so that, while they are replaced, longest first, each is found at its
marks only, and so is each token while the tokens are put back. -/
structure Placed (d : Detectors) (codes : List Text) (code : Text) (ps : List (Piece Char ℕ)) : Prop where
  text : render (own d code) ps = code
  numbers : ∀ i ∈ marks ps, i < count d code
  redacting : ScansAll (own d code) tok ps (orderBy (own d code) (count d code))
  restoring : ScansAll tok (shared d codes) ps (orderBy tok (most d codes))

/-- After all texts were redacted, each is restored. -/
def ServesAll (d : Detectors) (codes : List Text) : Prop :=
  (redactCodes d [] codes).1.map (fun redacted => restore redacted (redactCodes d [] codes).2 false) =
    codes.map .ok

theorem replaceEach_placed {d : Detectors} {codes : List Text} {code : Text} {ps : List (Piece Char ℕ)}
    (hmem : code ∈ codes) (h : Placed d codes code ps) :
    replaceEach (tableOf tok (shared d codes) (most d codes)) (redact d code).1 = render (shared d codes) ps := by
  rw [redact_marked h.text h.numbers h.redacting]
  exact replaceEach_tokens (fun i hi => (h.numbers i hi).trans_le (count_le_most hmem)) h.restoring

/-- One vault serves the texts exactly when each of them is the same with the secrets of the last texts that
have as many. -/
theorem servesAll_iff (d : Detectors) (codes : List Text) (ps : Text → List (Piece Char ℕ))
    (hfree : ∀ code ∈ codes, TokenFree code) (hplaced : ∀ code ∈ codes, Placed d codes code (ps code)) :
    ServesAll d codes ↔ ∀ code ∈ codes, render (shared d codes) (ps code) = code := by
  have heach : ∀ code ∈ codes, restore (redact d code).1 (redactCodes d [] codes).2 false = .ok code ↔
      render (shared d codes) (ps code) = code := by
    intro code hcode
    rw [redactCodes_map, restore_ok_iff (hfree code hcode), replaceEach_placed hcode (hplaced code hcode)]
  have htexts : (redactCodes d [] codes).1 = codes.map fun code => (redact d code).1 := by rw [redactCodes_eq]
  rw [ServesAll, htexts, List.map_map, List.map_inj_left]
  exact forall₂_congr heach

/-- `\b(?:AKIA|ASIA|ABIA|ACCA)[0-9A-Z]{14,16}\b` on a text of ASCII characters. -/
def awsAccessKeys (code : Text) : List Text :=
  (code.splitOnP (!isWordChar ·)).filter fun word =>
    (["AKIA", "ASIA", "ABIA", "ACCA"].any fun start => start.toList = word.take 4) &&
      (word.drop 4).all (fun c => c.isDigit || c.isUpper) && 18 ≤ word.length && word.length ≤ 20

def awsOnly : Detectors :=
  { patterns := [awsAccessKeys], highEntropyAst := fun _ => [], highEntropyRegex := fun _ => [] }

def keyAtFive (code : Text) : List (Piece Char ℕ) :=
  (code.take 5).map .raw ++ .mark 0 :: (code.drop 23).map .raw

theorem servesAll_one_key :
    ServesAll awsOnly ["a = 'AKIA11111111111111'".toList, "b = 'AKIA11111111111111'".toList] := by
  refine (servesAll_iff awsOnly _ keyAtFive ?_ ?_).mpr ?_
  · decide +kernel
  · intro code hcode
    rcases List.mem_cons.mp hcode with rfl | hcode
    · exact ⟨by decide +kernel, by decide +kernel, by decide +kernel, by decide +kernel⟩
    · rw [List.mem_singleton.mp hcode]
      exact ⟨by decide +kernel, by decide +kernel, by decide +kernel, by decide +kernel⟩
  · decide +kernel

/-- The key of the second text is written into the first. -/
theorem second_key_in_first_text :
    ¬ ServesAll awsOnly ["a = 'AKIA11111111111111'".toList, "b = 'AKIA22222222222222'".toList] := by
  intro h
  have hsome := congrArg (List.map Except.toOption) h
  revert hsome
  decide +kernel

/-- What is said of `redact` and `restore`. -/
structure Reversible (d : Detectors) (code : Text) : Prop where
  restored : restore (redact d code).1 (redact d code).2 false = .ok code
  nothingLeft : findAllSecrets d (redact d code).1 = []

def joinedLiteral : Text := "password = 'aB3$xY7!pQ5' 'qW9@zL2#kMv'".toList

/-- The value of the assignment, which stands nowhere in the text. -/
def joinedDetectors : Detectors :=
  { patterns := []
    highEntropyAst := fun code => if code = joinedLiteral then ["aB3$xY7!pQ5qW9@zL2#kMv".toList] else []
    highEntropyRegex := fun _ => [] }

end TimeCodeSecurity.Secrets
