import TimeCodeSecurity.Remediation.CommandSplit

/-! # When the arguments are the shell's

An accepted command has the shell's arguments just where its names are recovered from every word and its text has
nothing for a shell that the checks do not look at.
-/
namespace TimeCodeSecurity.Remediation
open Py NamedPlaces ShellWords
set_option autoImplicit false

section
variable {isText : Expr → Bool} {parts : List CommandPart}

theorem recovered_iff {w : List CommandSymbol}
    (hw : ∀ d, .inr d ∈ w → entryOf parts (valueName d) = some d.2.entry) :
    Recovered isText parts w ↔
      NamedPlaces.read varNameAt (entryOf parts) 0 (spelled valueName w) = placed (fun d => d.2.shown) w ∧
        ∀ e, entryOf parts (spelled valueName w) = some e → isText e = true := by
  have hnaming := naming parts
  have hgiven : ∀ d, .inr d ∈ w → (entryOf parts (valueName d)).isSome := by
    intro d hd
    rw [hw d hd]
    rfl
  have hread := read_iff hnaming (fun d => d.2.shown) hgiven (Nat.zero_le (spelled valueName w).length)
  rw [List.take_zero, List.map_nil, List.nil_append] at hread
  have hkept : (∀ d, .inr d ∈ w → entryOf parts (valueName d) = some d.2.shown) ↔
      ∀ d, .inr d ∈ w → d.2.entry = d.2.shown :=
    forall₂_congr fun d hd => by rw [hw d hd, Option.some_inj]
  rw [hkept] at hread
  constructor
  · rintro ⟨hlegible, hentries, halone⟩
    have hplaced := hread.mpr ⟨hlegible, hentries⟩
    refine ⟨hplaced, fun e he => ?_⟩
    -- a name alone is read as its value, so the word is a value alone
    rw [hnaming.read_of_meaning he] at hplaced
    cases w with
    | nil => cases hplaced
    | cons symbol w =>
      obtain ⟨hsymbol, htail⟩ := List.cons.inj hplaced
      obtain rfl := List.map_eq_nil_iff.mp htail.symm
      cases symbol with
      | inl c => cases hsymbol
      | inr d =>
        have hd : e = d.2.shown := Sum.inr.inj hsymbol
        rw [hd, ← hentries d List.mem_cons_self]
        exact halone d rfl
  · rintro ⟨hplaced, halone⟩
    obtain ⟨hlegible, hentries⟩ := hread.mp hplaced
    refine ⟨hlegible, hentries, fun d hd => halone _ ?_⟩
    subst hd
    have hspelled : spelled valueName [(.inr d : CommandSymbol)] = valueName d := List.append_nil _
    rw [hspelled]
    exact hw d List.mem_cons_self

theorem exists_val (isText : Expr → Bool) (shown : Expr → List Char) :
    ∃ val : Expr → CommandValue, (∀ e, (val e).isText = isText e) ∧ (fun e => (val e).shown) = shown := by
  refine ⟨fun e => if isText e = true then .text (shown e) else .other (shown e), fun e => ?_, ?_⟩
  · cases h : isText e <;> simp [h, CommandValue.isText]
  · funext e
    cases h : isText e <;> simp [h, CommandValue.shown]

theorem run_eq_iff {w : ShellWord}
    (hw : ∀ d, .inr d ∈ wordSymbols w → entryOf parts (valueName d) = some d.2.entry) :
    (∀ val : Expr → CommandValue, (∀ e, (val e).isText = isText e) →
      (argOf (assemble 0 parts).2 (spelled valueName (wordSymbols w))).run val = shellArg val w) ↔
      Recovered isText parts (wordSymbols w) := by
  rw [recovered_iff hw]
  have hrun : ∀ val : Expr → CommandValue,
      (argOf (assemble 0 parts).2 (spelled valueName (wordSymbols w))).run val = shellArg val w ↔
        (∀ e, entryOf parts (spelled valueName (wordSymbols w)) = some e → (val e).isText = true) ∧
          filled (fun e => (val e).shown)
              (NamedPlaces.read varNameAt (entryOf parts) 0 (spelled valueName (wordSymbols w))) =
            filled (fun e => (val e).shown) (placed (fun d => d.2.shown) (wordSymbols w)) := by
    intro val
    rw [shellArg, CommandValue.eq_text_iff, isText_run, shown_run, filled_placed]
  constructor
  · intro h
    constructor
    · have : Nontrivial Char := ⟨'a', 'b', by decide⟩
      apply eq_of_filled
      intro shown
      obtain ⟨val, htyped, rfl⟩ := exists_val isText shown
      exact ((hrun val).mp (h val htyped)).2
    · intro e he
      obtain ⟨val, htyped, -⟩ := exists_val isText fun _ => []
      rw [← htyped e]
      exact ((hrun val).mp (h val htyped)).1 e he
  · rintro ⟨hplaced, halone⟩ val htyped
    refine (hrun val).mpr ⟨fun e he => ?_, by rw [hplaced]⟩
    rw [htyped e]
    exact halone e he

end

/-! ## The checks -/

theorem checkToken_eq_none {tok : List Char} (h : checkToken tok = none) :
    (∀ c ∈ "|;&<>$`*".toList, c ∉ tok) ∧ ('?' ∈ tok → tok.head? = some '-') := by
  unfold checkToken at h
  split at h
  · cases h
  next hseparator =>
    split at h
    · cases h
    next hsubstitution =>
      split at h
      · cases h
      next hexpansion =>
        split at h
        · cases h
        next hglob =>
          simp only [List.any_eq_true, List.contains_iff_mem, not_exists, not_and] at hseparator
          simp only [Bool.or_eq_true, List.contains_iff_mem, not_or] at hsubstitution
          have hdollar : '$' ∉ tok := by
            intro hmem
            refine hexpansion (Bool.and_eq_true_iff.mpr ⟨List.any_eq_true.mpr ⟨"", by decide, ?_⟩, ?_⟩)
            · have hinfix := (List.singleton_infix_iff '$' tok).mpr hmem
              exact Bool.or_eq_true_iff.mpr (.inr ((Separators.any_tails_iff ['$'] tok).mpr hinfix))
            · exact List.contains_iff_mem.mpr hmem
          simp only [Bool.or_eq_true, Bool.and_eq_true, List.contains_iff_mem, decide_eq_true_eq, not_or, not_and]
            at hglob
          have hcases : ("|;&<>$`*".toList.all fun c =>
              c ∈ "|><;&".toList ∨ c = '`' ∨ c = '$' ∨ c = '*') = true := by decide
          constructor
          · intro c hc
            obtain hc | rfl | rfl | rfl := of_decide_eq_true (List.all_eq_true.mp hcases c hc)
            · exact hseparator c hc
            · exact hsubstitution.2
            · exact hdollar
            · exact hglob.1
          · intro hmem
            by_contra hhead
            cases tok with
            | nil => exact absurd hmem List.not_mem_nil
            | cons c tok =>
              obtain rfl | htail := List.mem_cons.mp hmem
              · exact hglob.2.1 rfl
              · have hlong : 1 < (c :: tok).length := Nat.succ_lt_succ (List.length_pos_of_mem htail)
                exact hglob.2.2 ⟨hlong, hhead⟩ hmem

def tokenOf (w : ShellWord) : List Char := spelled valueName (wordSymbols w)

theorem symbol_of_unquoted {w : ShellWord} {c : Char} (h : c ∈ unquoted w) : .inl c ∈ wordSymbols w := by
  obtain ⟨place, hplace, hc⟩ := List.mem_filterMap.mp h
  split at hc
  next c' =>
    obtain rfl := Option.some.inj hc
    have hbare : ((.inl c', false) : CommandSymbol × Bool) ∈ Word.bare w := List.mem_filterMap.mpr ⟨_, hplace, rfl⟩
    exact List.mem_map_of_mem (f := Prod.fst) hbare
  next => cases hc

theorem mem_token_of_unquoted {w : ShellWord} {c : Char} (h : c ∈ unquoted w) : c ∈ tokenOf w :=
  List.mem_flatMap.mpr ⟨.inl c, symbol_of_unquoted h, List.mem_singleton_self c⟩

theorem head_of_token {w : List CommandSymbol} (h : (spelled valueName w).head? = some '-') :
    w.head? = some (.inl '-') := by
  cases w with
  | nil => cases h
  | cons symbol w =>
    cases symbol with
    | inl c =>
      obtain rfl : c = '-' := Option.some.inj h
      rfl
    | inr d =>
      have hname : (valueName d ++ spelled valueName w).head? = some '_' := rfl
      have hline : spelled valueName (.inr d :: w) = valueName d ++ spelled valueName w := rfl
      rw [hline, hname] at h
      exact absurd (Option.some.inj h) (by decide)

structure AcceptedCommand (expr : Expr) (parts : List CommandPart) (items : List ShellItem)
    (args : List CommandArg) : Prop where
  reading : shellReading expr = .ok (parts, items)
  lexed : lex symbolKind .plain (symbolsFrom 0 parts) = .ok items
  arguments : args = (wordsOf items).map fun w => argOf (assemble 0 parts).2 (tokenOf w)
  checked : ∀ w ∈ wordsOf items, checkToken (tokenOf w) = none
  program : ∀ w, (wordsOf items).head? = some w → String.ofList (lowerName (tokenOf w)) ∉ shellBuiltins

theorem accepted_of_tokenize {expr : Expr} {args : List CommandArg} (h : tokenizeCommandExpr expr = .ok args) :
    ∃ parts items, AcceptedCommand expr parts items args := by
  unfold tokenizeCommandExpr at h
  split at h
  · cases h
  next parts hparts =>
    rw [split_assemble] at h
    cases hlex : lex symbolKind .plain (symbolsFrom 0 parts) with
    | error exc => simp [hlex, Except.map] at h
    | ok items =>
      have hreading : shellReading expr = .ok (parts, items) := by
        simp [shellReading, hparts, hlex, Except.bind, Except.map]
      rw [hlex] at h
      cases hwords : wordsOf items with
      | nil => simp [Except.map, hwords] at h
      | cons first rest =>
        simp only [Except.map, hwords, List.map_cons] at h
        split at h
        · cases h
        next hprogram =>
          split at h
          · cases h
          next hchecks =>
            refine ⟨parts, items, hreading, hlex, ?_, ?_, ?_⟩
            · rw [← Except.ok.inj h, hwords, List.map_cons, List.map_map]
              rfl
            · intro w hw
              rw [hwords] at hw
              exact List.findSome?_eq_none_iff.mp hchecks _ (List.mem_map_of_mem (f := tokenOf) hw)
            · intro w hw
              rw [hwords] at hw
              obtain rfl := Option.some.inj hw
              exact hprogram

/-! ## The claim -/

section
variable {builtin : List Char → Bool} {isText : Expr → Bool} {expr : Expr} {parts : List CommandPart}
  {items : List ShellItem} {args : List CommandArg}

theorem argv_iff (h : AcceptedCommand expr parts items args) :
    (∀ val : Expr → CommandValue, (∀ e, (val e).isText = isText e) →
      args.map (CommandArg.run val) = (wordsOf items).map (shellArg val)) ↔
      ∀ w ∈ wordsOf items, Recovered isText parts (wordSymbols w) := by
  have hentries : ∀ w ∈ wordsOf items, ∀ d, .inr d ∈ wordSymbols w →
      entryOf parts (valueName d) = some d.2.entry := fun w hw d hd =>
    (lookup_assemble (mem_symbols h.lexed hw hd)).2
  have hargs : ∀ val : Expr → CommandValue, args.map (CommandArg.run val) = (wordsOf items).map (shellArg val) ↔
      ∀ w ∈ wordsOf items, (argOf (assemble 0 parts).2 (tokenOf w)).run val = shellArg val w := by
    intro val
    rw [h.arguments, List.map_map]
    exact List.map_inj_left
  constructor
  · intro hrun w hw
    exact (run_eq_iff (hentries w hw)).mp fun val htyped => (hargs val).mp (hrun val htyped) w hw
  · intro hrecovered val htyped
    exact (hargs val).mpr fun w hw => (run_eq_iff (hentries w hw)).mpr (hrecovered w hw) val htyped

theorem operators_iff (h : AcceptedCommand expr parts items args) :
    (∀ w ∈ wordsOf items, ∀ c ∈ unquoted w, c ∉ "|;&<>$`*?[]".toList) ↔
      (∀ w ∈ wordsOf items, '[' ∉ unquoted w ∧ ']' ∉ unquoted w) ∧
        ∀ w ∈ wordsOf items, (wordSymbols w).head? = some (.inl '-') → '?' ∉ unquoted w := by
  constructor
  · intro hnone
    refine ⟨fun w hw => ⟨fun hc => ?_, fun hc => ?_⟩, fun w hw _ hc => ?_⟩
    · exact hnone w hw '[' hc (by decide)
    · exact hnone w hw ']' hc (by decide)
    · exact hnone w hw '?' hc (by decide)
  · rintro ⟨hbrackets, hoptions⟩ w hw c hc hoperator
    obtain ⟨hfound, hquestion⟩ := checkToken_eq_none (h.checked w hw)
    have hcases : ("|;&<>$`*?[]".toList.all fun c =>
        c ∈ "|;&<>$`*".toList ∨ c = '?' ∨ c = '[' ∨ c = ']') = true := by decide
    obtain hc' | rfl | rfl | rfl := of_decide_eq_true (List.all_eq_true.mp hcases c hoperator)
    · exact hfound c hc' (mem_token_of_unquoted hc)
    · exact hoptions w hw (head_of_token (hquestion (mem_token_of_unquoted hc))) hc
    · exact (hbrackets w hw).1 hc
    · exact (hbrackets w hw).2 hc

theorem program_iff (h : AcceptedCommand expr parts items args) :
    (∀ w name, (wordsOf items).head? = some w → wordSymbols w = name.map .inl → builtin name = false) ↔
      ∀ w name, (wordsOf items).head? = some w → wordSymbols w = name.map .inl → builtin name = true →
        String.ofList (lowerName name) ∈ shellBuiltins := by
  have htoken : ∀ (w : ShellWord) (name : List Char), wordSymbols w = name.map .inl → tokenOf w = name := by
    intro w name hname
    rw [tokenOf, hname]
    simp [spelled, spotText, List.flatMap_map]
  constructor
  · intro hnone w name hw hname hbuiltin
    rw [hnone w name hw hname] at hbuiltin
    cases hbuiltin
  · intro hlisted w name hw hname
    cases hbuiltin : builtin name with
    | false => rfl
    | true =>
      refine absurd (hlisted w name hw hname hbuiltin) ?_
      rw [← htoken w name hname]
      exact h.program w hw

end

/-- An accepted command has a reading, and its arguments are the shell's, with nothing else for the shell to do, just
if it is splittable. -/
theorem faithful_iff (builtin : List Char → Bool) (isText : Expr → Bool) {expr : Expr} {args : List CommandArg}
    (h : tokenizeCommandExpr expr = .ok args) :
    ∃ parts items, shellReading expr = .ok (parts, items) ∧
      (Faithful builtin isText parts items args ↔ Splittable builtin isText parts items) := by
  obtain ⟨parts, items, haccepted⟩ := accepted_of_tokenize h
  refine ⟨parts, items, haccepted.reading, ?_⟩
  constructor
  · rintro ⟨hargv, honeLine, hoperators, hleading, hassignment, hprogram⟩
    obtain ⟨hbrackets, hoptions⟩ := (operators_iff haccepted).mp hoperators
    exact {
      recovered := fun hconcatenates => (argv_iff haccepted).mp (hargv hconcatenates)
      oneLine := honeLine
      brackets := hbrackets
      options := hoptions
      leading := hleading
      assignment := hassignment
      program := (program_iff haccepted).mp hprogram }
  · rintro ⟨hrecovered, honeLine, hbrackets, hoptions, hleading, hassignment, hprogram⟩
    exact {
      argv := fun hconcatenates => (argv_iff haccepted).mpr (hrecovered hconcatenates)
      noShell := {
        oneLine := honeLine
        operators := (operators_iff haccepted).mpr ⟨hbrackets, hoptions⟩
        leading := hleading
        assignment := hassignment
        program := (program_iff haccepted).mpr hprogram } }

namespace HomeListing

/-- `"ls ~"`. -/
def command : Expr := .constant {} (.str "ls ~")

def items : List ShellItem :=
  [.sym (.inl 'l', false), .sym (.inl 's', false), .blank ' ', .sym (.inl '~', false)]

theorem tokenize_command : tokenizeCommandExpr command = .ok [.literal "ls".toList, .literal "~".toList] := by
  rfl

theorem reading_command : shellReading command = .ok ([.text "ls ~".toList], items) := by
  rfl

theorem faithful_iff_listing : ∃ parts items, shellReading command = .ok (parts, items) ∧
    (Faithful (fun _ => false) (fun _ => false) parts items [.literal "ls".toList, .literal "~".toList] ↔
      Splittable (fun _ => false) (fun _ => false) parts items) :=
  faithful_iff (fun _ => false) (fun _ => false) tokenize_command

end HomeListing

/-- A tilde that the shell expands is passed on as it is. -/
theorem tilde_is_passed_on : ¬∀ (builtin : List Char → Bool) (isText : Expr → Bool) (expr : Expr)
    (args : List CommandArg), tokenizeCommandExpr expr = .ok args →
      ∃ parts items, shellReading expr = .ok (parts, items) ∧ Faithful builtin isText parts items args := by
  intro h
  obtain ⟨parts, items, hreading, hfaithful⟩ :=
    h (fun _ => false) (fun _ => false) HomeListing.command _ HomeListing.tokenize_command
  rw [HomeListing.reading_command] at hreading
  obtain ⟨rfl, rfl⟩ := Prod.mk.inj (Except.ok.inj hreading)
  exact (hfaithful.noShell.leading [some (.inl '~', false)] (by simp [HomeListing.items, wordsOf, group])).1 rfl

end TimeCodeSecurity.Remediation
