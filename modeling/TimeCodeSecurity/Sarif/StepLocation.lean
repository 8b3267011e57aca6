import TimeCodeSecurity.Foundations.Separators
import TimeCodeSecurity.Sarif.Export

/-! # The place of a flow step

The scanners write a step as a text and ` (file:line)`. The exporter searches for an opening bracket from the left,
so that a bracket of the text with no colon behind it takes the rest of the text into the file name.
-/
namespace TimeCodeSecurity.Sarif
open Pep440 (isSpace strip strip_strip)
set_option autoImplicit false

/-- A step as the scanners write it. -/
def writtenStep (text file : String) (line : ℕ) : String := text ++ " (" ++ file ++ ":" ++ toString line ++ ")"

/-- There is an opening bracket with no colon behind it. -/
def OpensBehind (text : List Char) : Prop := ∃ before behind, text = before ++ '(' :: behind ∧ ':' ∉ behind

/-- The file name can be read back, whatever stands in front of it. -/
structure FileName (file : String) : Prop where
  nonempty : file ≠ ""
  noColon : ':' ∉ file.toList
  stripped : stripText file = file

/-- The text ends with a bracket, a name without a colon, a colon, digits and a bracket. -/
def EndsInPlace (text : List Char) : Prop :=
  ∃ before file digits, text = before ++ '(' :: (file ++ ':' :: (digits ++ [')'])) ∧ file ≠ [] ∧ ':' ∉ file ∧
    digits ≠ [] ∧ ∀ c ∈ digits, isDecimal c = true

theorem isDecimal_of_isDigit {c : Char} (h : c.isDigit = true) : decimalDigit? c = some (c.toNat - '0'.toNat) := by
  have hrange : 0x30 ≤ c.toNat ∧ c.toNat < 0x30 + 10 := by
    simp only [Char.isDigit, Bool.and_eq_true, decide_eq_true_eq, ge_iff_le, UInt32.le_iff_toNat_le] at h
    exact ⟨h.1, Nat.lt_succ_of_le h.2⟩
  rw [decimalDigit?, decimalZeros, List.find?_cons_of_pos (by simpa using hrange)]
  rfl

theorem decimalValue_toDigits (n : ℕ) : decimalValue (Nat.toDigits 10 n) = n := by
  have hsame : decimalValue (Nat.toDigits 10 n) = Nat.ofDigitChars 10 (Nat.toDigits 10 n) 0 := by
    refine List.foldl_ext _ _ _ fun m c hc => ?_
    rw [isDecimal_of_isDigit (Nat.isDigit_of_mem_toDigits (by omega) (by omega) hc)]
    rfl
  rw [hsame, Nat.ofDigitChars_ten_toDigits]

theorem decimal_toDigits (n : ℕ) : ∀ c ∈ Nat.toDigits 10 n, isDecimal c = true := by
  intro c hc
  rw [isDecimal, isDecimal_of_isDigit (Nat.isDigit_of_mem_toDigits (by omega) (by omega) hc)]
  rfl

theorem colon_not_mem {digits : List Char} (h : ∀ c ∈ digits, isDecimal c = true) : ':' ∉ digits ++ [')'] := by
  intro hmem
  rcases List.mem_append.mp hmem with hmem | hmem
  · exact absurd (h ':' hmem) (by decide)
  · exact absurd (List.mem_singleton.mp hmem) (by decide)

theorem drop_takeWhile (p : Char → Bool) (cs : List Char) : cs.drop (cs.takeWhile p).length = cs.dropWhile p := by
  induction cs with
  | nil => rfl
  | cons c cs ih => by_cases hc : p c = true <;> simp [hc, ih]

theorem takeWhile_append_cons {p : Char → Bool} {xs : List Char} {c : Char} (hxs : ∀ x ∈ xs, p x = true)
    (hc : p c = false) (ys : List Char) : (xs ++ c :: ys).takeWhile p = xs := by
  rw [List.takeWhile_append_of_pos hxs, List.takeWhile_cons_of_neg (Bool.eq_false_iff.mp hc), List.append_nil]

theorem stepLocation?_iff {cs file digits : List Char} : stepLocation? cs = some (file, digits) ↔
    cs = file ++ ':' :: (digits ++ [')']) ∧ file ≠ [] ∧ ':' ∉ file ∧ digits ≠ [] ∧
      ∀ c ∈ digits, isDecimal c = true := by
  constructor
  · intro h
    rw [stepLocation?, drop_takeWhile] at h
    have hfile : ':' ∉ cs.takeWhile (· ≠ ':') := fun hmem => by
      simpa using List.mem_takeWhile_imp hmem
    have hcs := List.takeWhile_append_dropWhile (p := (· ≠ ':')) (l := cs)
    split at h
    next rest hrest =>
      simp only [drop_takeWhile] at h
      have hdigits := List.takeWhile_append_dropWhile (p := isDecimal) (l := rest)
      split at h
      next hall =>
        cases h
        refine ⟨?_, hall.1, hfile, hall.2.1, fun c hc => List.mem_takeWhile_imp hc⟩
        rw [← hall.2.2, hdigits, ← hrest, hcs]
      · cases h
    · cases h
  · rintro ⟨rfl, hfile, hcolon, hdigits, hdecimal⟩
    have hname : (file ++ ':' :: (digits ++ [')'])).takeWhile (· ≠ ':') = file :=
      takeWhile_append_cons (fun c hc => by
        have hne : c ≠ ':' := fun heq => hcolon (heq ▸ hc)
        simpa using hne) (by decide) _
    have hnumber : (digits ++ [')']).takeWhile isDecimal = digits := takeWhile_append_cons hdecimal (by decide) _
    rw [stepLocation?, hname, List.drop_left' rfl]
    simp only [hnumber, List.drop_left' rfl, hfile, hdigits, ne_eq, not_false_eq_true, true_and, if_true]

theorem searchStep_cons (c : Char) (cs : List Char) :
    searchStep (c :: cs) = (if c = '(' then stepLocation? cs else none).or (searchStep cs) := by
  rw [searchStep]
  cases if c = '(' then stepLocation? cs else none <;> rfl

theorem searchStep_append {u v : List Char}
    (h : ∀ before behind, u = before ++ '(' :: behind → stepLocation? (behind ++ v) = none) :
    searchStep (u ++ v) = searchStep v := by
  induction u with
  | nil => rfl
  | cons c u ih =>
    have hhead : (if c = '(' then stepLocation? (u ++ v) else none) = none := by
      split
      next hc => exact h [] u (by rw [hc]; rfl)
      · rfl
    rw [List.cons_append, searchStep_cons, hhead, Option.none_or]
    exact ih fun before behind heq => h (c :: before) behind (by rw [heq]; rfl)

theorem searchStep_eq_none {cs : List Char} :
    searchStep cs = none ↔ ∀ before behind, cs = before ++ '(' :: behind → stepLocation? behind = none := by
  constructor
  · intro h
    induction cs with
    | nil => exact fun before behind heq => by simp at heq
    | cons c cs ih =>
      rw [searchStep_cons, Option.or_eq_none_iff] at h
      rintro (_ | ⟨d, before⟩) behind heq
      · obtain ⟨rfl, rfl⟩ := List.cons.inj heq
        simpa using h.1
      · exact ih h.2 before behind (List.cons.inj heq).2
  · intro h
    have hnone := searchStep_append (u := cs) (v := []) fun before behind heq => by
      rw [List.append_nil]
      exact h before behind heq
    rw [List.append_nil] at hnone
    exact hnone

theorem searchStep_eq_some {cs : List Char} {found : List Char × List Char} (h : searchStep cs = some found) :
    ∃ u v, cs = u ++ '(' :: v ∧ stepLocation? v = some found ∧
      ∀ before behind, u = before ++ '(' :: behind → stepLocation? (behind ++ '(' :: v) = none := by
  induction cs with
  | nil => cases h
  | cons c cs ih =>
    rw [searchStep_cons] at h
    by_cases hhere : ((if c = '(' then stepLocation? cs else none) = none)
    · rw [hhere, Option.none_or] at h
      obtain ⟨u, v, rfl, hfound, hfirst⟩ := ih h
      refine ⟨c :: u, v, rfl, hfound, ?_⟩
      rintro (_ | ⟨d, before⟩) behind heq
      · obtain ⟨rfl, rfl⟩ := List.cons.inj heq
        simpa using hhere
      · exact hfirst before behind (List.cons.inj heq).2
    · have hc : c = '(' := by
        by_contra hne
        exact hhere (if_neg hne)
      rw [if_pos hc] at h hhere
      obtain ⟨place, hplace⟩ := Option.ne_none_iff_exists'.mp hhere
      rw [hplace, Option.some_or] at h
      exact ⟨[], cs, by rw [hc]; rfl, hplace.trans h, fun before behind heq => by simp at heq⟩

/-! ## Written steps -/

section

variable {text file : String} {line : ℕ}

def placeText (file : String) (line : ℕ) : List Char := file.toList ++ ':' :: (Nat.toDigits 10 line ++ [')'])

theorem toList_writtenStep :
    (writtenStep text file line).toList = text.toList ++ ' ' :: '(' :: placeText file line := by
  simp [writtenStep, placeText, toString, Nat.repr]

theorem dropWhile_append_bracket (u v : List Char) :
    (u ++ '(' :: v).dropWhile isSpace = u.dropWhile isSpace ++ '(' :: v := by
  rw [List.dropWhile_append]
  split
  next h =>
    rw [List.isEmpty_iff.mp h]
    rfl
  · rfl

theorem strip_writtenStep : strip (writtenStep text file line).toList =
    (text.toList ++ [' ']).dropWhile isSpace ++ '(' :: placeText file line := by
  have hsplit : (writtenStep text file line).toList = (text.toList ++ [' ']) ++ '(' :: placeText file line := by
    rw [toList_writtenStep, List.append_assoc]
    rfl
  have hlast : (text.toList ++ [' ']).dropWhile isSpace ++ '(' :: placeText file line =
      ((text.toList ++ [' ']).dropWhile isSpace ++ '(' :: (file.toList ++ ':' :: Nat.toDigits 10 line)) ++ [')'] := by
    simp [placeText]
  rw [strip, hsplit, dropWhile_append_bracket, hlast]
  exact List.rdropWhile_concat_neg _ _ _ (by decide)

theorem opensBehind_dropWhile :
    OpensBehind ((text.toList ++ [' ']).dropWhile isSpace) ↔ OpensBehind text.toList := by
  constructor
  · rintro ⟨before, behind, heq, hcolon⟩
    have hwhole := List.takeWhile_append_dropWhile (p := isSpace) (l := text.toList ++ [' '])
    rw [heq, ← List.append_assoc] at hwhole
    rcases List.eq_nil_or_concat behind with rfl | ⟨behind, c, rfl⟩
    · exact absurd (List.append_singleton_inj.mp hwhole).2 (by decide)
    · rw [List.concat_eq_append, ← List.cons_append, ← List.append_assoc] at hwhole
      refine ⟨_, behind, (List.append_singleton_inj.mp hwhole).1.symm, fun hmem => hcolon ?_⟩
      rw [List.concat_eq_append]
      exact List.mem_append_left _ hmem
  · rintro ⟨before, behind, heq, hcolon⟩
    refine ⟨before.dropWhile isSpace, behind ++ [' '], ?_, fun hmem => ?_⟩
    · rw [heq, List.append_assoc, List.cons_append, dropWhile_append_bracket]
    · rcases List.mem_append.mp hmem with hmem | hmem
      · exact hcolon hmem
      · exact absurd (List.mem_singleton.mp hmem) (by decide)

theorem stepLocation?_behind (hfile : ':' ∉ file.toList) (behind : List Char) :
    stepLocation? (behind ++ '(' :: placeText file line) = none ↔ ':' ∈ behind := by
  have hform : behind ++ '(' :: placeText file line =
      (behind ++ '(' :: file.toList) ++ ':' :: (Nat.toDigits 10 line ++ [')']) := by
    simp [placeText]
  rw [hform]
  constructor
  · intro hnone
    by_contra hbehind
    have hcolon : ':' ∉ behind ++ '(' :: file.toList := by
      simp [hbehind, hfile]
    rw [(@stepLocation?_iff _ (behind ++ '(' :: file.toList) (Nat.toDigits 10 line)).mpr
      ⟨rfl, by simp, hcolon, Nat.toDigits_ne_nil, decimal_toDigits line⟩] at hnone
    cases hnone
  · intro hbehind
    cases hfound : stepLocation? (behind ++ '(' :: file.toList ++ ':' :: (Nat.toDigits 10 line ++ [')'])) with
    | none => rfl
    | some place =>
      obtain ⟨heq, -, hcolon, -, hdecimal⟩ := stepLocation?_iff.mp hfound
      have hname := (Separators.suffix_inj (colon_not_mem (decimal_toDigits line)) (colon_not_mem hdecimal) heq).1
      rw [← hname] at hcolon
      exact absurd (List.mem_append_left _ hbehind) hcolon

theorem parseStepLocation_writtenStep (hfile : FileName file) (htext : ¬ OpensBehind text.toList)
    (defaultFile : String) (defaultLine : ℤ) :
    parseStepLocation (writtenStep text file line) defaultFile defaultLine = (file, (line : ℤ)) := by
  have hplace : stepLocation? (placeText file line) = some (file.toList, Nat.toDigits 10 line) :=
    stepLocation?_iff.mpr ⟨rfl, fun h => hfile.nonempty (String.toList_inj.mp h), hfile.noColon, Nat.toDigits_ne_nil,
      decimal_toDigits line⟩
  have hsearch : searchStep (strip (writtenStep text file line).toList) =
      some (file.toList, Nat.toDigits 10 line) := by
    rw [strip_writtenStep, searchStep_append, searchStep_cons, if_pos rfl, hplace, Option.some_or]
    intro before behind heq
    rw [stepLocation?_behind hfile.noColon]
    by_contra hcolon
    exact htext (opensBehind_dropWhile.mp ⟨before, behind, heq, hcolon⟩)
  rw [parseStepLocation, hsearch]
  simp only [decimalValue_toDigits, String.ofList_toList, hfile.stripped]
  rfl

theorem found_of_parse {step : String} {place : String × ℤ}
    (h : ∀ defaultFile defaultLine, parseStepLocation step defaultFile defaultLine = place) :
    ∃ name digits, searchStep (strip step.toList) = some (name, digits) ∧
      place.1 = stripText (String.ofList name) := by
  cases hfound : searchStep (strip step.toList) with
  | some found =>
    have hplace := h "" 0
    rw [parseStepLocation, hfound] at hplace
    exact ⟨found.1, found.2, rfl, congrArg Prod.fst hplace.symm⟩
  | none =>
    have hother := h "" (place.2 + 1)
    rw [parseStepLocation, hfound] at hother
    have hline : place.2 + 1 = place.2 := congrArg Prod.snd hother
    omega

def visible (t : List Char) : ℕ := t.countP (!isSpace ·)

theorem visible_append (u v : List Char) : visible (u ++ v) = visible u + visible v := List.countP_append

theorem visible_bracket (v : List Char) : visible ('(' :: v) = visible v + 1 := List.countP_cons_of_pos (by decide)

theorem eq_of_visible {u u' v v' : List Char} (h : u ++ '(' :: v = u' ++ '(' :: v')
    (hvisible : visible u = visible u') : u = u' ∧ v = v' := by
  rcases List.append_eq_append_iff.mp h with ⟨mid, hu, hv⟩ | ⟨mid, hu, hv⟩
  · cases mid with
    | nil => exact ⟨by rw [hu, List.append_nil], (List.cons.inj hv).2⟩
    | cons c mid =>
      rw [hu, visible_append, ← (List.cons.inj hv).1, visible_bracket] at hvisible
      omega
  · cases mid with
    | nil => exact ⟨by rw [hu, List.append_nil], (List.cons.inj hv).2.symm⟩
    | cons c mid =>
      rw [hu, visible_append, ← (List.cons.inj hv).1, visible_bracket] at hvisible
      omega

theorem fileName_of_parse
    (h : ∀ defaultFile defaultLine,
      parseStepLocation (writtenStep text file line) defaultFile defaultLine = (file, (line : ℤ))) :
    FileName file ∧ ¬ OpensBehind text.toList := by
  obtain ⟨name, digits, hsearch, hplace⟩ := found_of_parse h
  have hname : file.toList = strip name := by
    have hfile : file = stripText (String.ofList name) := hplace
    rw [hfile, stripText, String.toList_ofList, String.toList_ofList]
  obtain ⟨u, v, heq, hfound, hfirst⟩ := searchStep_eq_some hsearch
  obtain ⟨rfl, hne, hcolon, -, hdecimal⟩ := stepLocation?_iff.mp hfound
  have hsub : ':' ∉ file.toList := by
    rw [hname]
    intro hmem
    obtain ⟨a, b, hab, -⟩ := Trimming.exists_trim (p := isSpace) name
    apply hcolon
    rw [hab]
    exact List.mem_append_left _ (List.mem_append_right _ hmem)
  have hcut : (text.toList ++ [' ']).dropWhile isSpace ++ '(' :: file.toList = u ++ '(' :: name := by
    rw [strip_writtenStep, placeText] at heq
    have hcolons : ((text.toList ++ [' ']).dropWhile isSpace ++ '(' :: file.toList) ++
        ':' :: (Nat.toDigits 10 line ++ [')']) = (u ++ '(' :: name) ++ ':' :: (digits ++ [')']) := by
      simpa only [List.append_assoc, List.cons_append] using heq
    exact (Separators.suffix_inj (colon_not_mem (decimal_toDigits line)) (colon_not_mem hdecimal) hcolons).1
  have hvisible : visible file.toList = visible name := by
    rw [hname]
    exact Trimming.countP_trim name
  obtain ⟨rfl, hfile⟩ := eq_of_visible hcut (by
    have hcount := congrArg visible hcut
    rw [visible_append, visible_append, visible_bracket, visible_bracket] at hcount
    omega)
  refine ⟨⟨?_, hsub, ?_⟩, fun hopens => ?_⟩
  · rintro rfl
    exact hne hfile.symm
  · rw [stripText, hfile, ← hname, String.ofList_toList]
  · obtain ⟨before, behind, hbefore, hbehind⟩ := opensBehind_dropWhile.mpr hopens
    have hplaceText : name ++ ':' :: (digits ++ [')']) = placeText file line := by
      rw [strip_writtenStep] at heq
      exact (List.cons.inj (List.append_cancel_left heq)).2.symm
    have hnone := hfirst before behind hbefore
    rw [hplaceText, stepLocation?_behind hsub] at hnone
    exact hbehind hnone

end

theorem parseStepLocation_default_iff (step : String) :
    (∀ defaultFile defaultLine, parseStepLocation step defaultFile defaultLine = (defaultFile, defaultLine)) ↔
      ¬ EndsInPlace (strip step.toList) := by
  have hnone : searchStep (strip step.toList) = none ↔ ¬ EndsInPlace (strip step.toList) := by
    rw [searchStep_eq_none]
    constructor
    · rintro h ⟨before, file, digits, heq, hplace⟩
      have hsome := stepLocation?_iff.mpr ⟨rfl, hplace⟩
      rw [h before _ heq] at hsome
      cases hsome
    · intro h before behind heq
      cases hfound : stepLocation? behind with
      | none => rfl
      | some place =>
        obtain ⟨hform, hplace⟩ := stepLocation?_iff.mp hfound
        exact absurd ⟨before, place.1, place.2, by rw [heq, hform], hplace⟩ h
  rw [← hnone]
  constructor
  · intro h
    cases hfound : searchStep (strip step.toList) with
    | none => rfl
    | some found =>
      have hone := h "" 0
      have hother := h "" 1
      rw [parseStepLocation, hfound] at hone hother
      exact absurd (congrArg Prod.snd (hone.symm.trans hother)) (by decide)
  · intro h defaultFile defaultLine
    rw [parseStepLocation, h]

/-- A finding with the one step `Sink: eval (a.py:3)`. -/
def oneStepFinding : Finding :=
  { cwe := some "CWE-95", severity := "HIGH", confidenceLabel := none, file := "a.py", lineNumber := some 3,
    codeSnippet := "", sinkSymbol := "eval", category := "CODE_INJECTION", remediation := "", proofNodes := [],
    flowTrace := [writtenStep "Sink: eval" "a.py" 3], flowTraceSummary := "", discoveryMode := "",
    suppressed := false, suppressionKind := "", suppressionJustification := none, confidence := .null }

end TimeCodeSecurity.Sarif
