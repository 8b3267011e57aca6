import TimeCodeSecurity.Py.StringLiteral

/-! # String literals in patches

`format_sql_literal` and `_format_token_list` put quotation marks around a text and leave its backslashes and line ends
as they are.
-/
namespace TimeCodeSecurity.Remediation
open Py.Literal
set_option autoImplicit false

variable {names : Points → Option ℕ}

def formatSqlLiteral (sql : Points) : Points :=
  if quotationMark ∉ sql then quotationMark :: (sql ++ [quotationMark])
  else if apostrophe ∉ sql then apostrophe :: (sql ++ [apostrophe])
  else
    let escaped := sql.flatMap fun c => if c = quotationMark then [backslash, quotationMark] else [c]
    quotationMark :: (escaped ++ [quotationMark])

/-- `_format_token_list`: strings between quotation marks, other tokens unparsed. -/
def formatTokenList {ε : Type} (unparse : ε → Points) (tokens : List (Points ⊕ ε)) : Points :=
  91 :: ([comma, space].intercalate (tokens.map fun t =>
    match t with
    | .inl text => quotationMark :: (text ++ [quotationMark])
    | .inr e => unparse e) ++ [93])

theorem formatSqlLiteral_eq (sql : Points) :
    ∃ q, isQuote q = true ∧ formatSqlLiteral sql = q :: (hideQuotes q sql ++ [q]) := by
  rw [formatSqlLiteral]
  split
  next h => exact ⟨quotationMark, rfl, by rw [hideQuotes_of_notMem h]⟩
  next =>
    split
    next h => exact ⟨apostrophe, rfl, by rw [hideQuotes_of_notMem h]⟩
    next => exact ⟨quotationMark, rfl, rfl⟩

theorem quote_facts {q : ℕ} (hq : isQuote q = true) :
    unsupported q = false ∧ q ≠ lineFeed ∧ q ≠ carriageReturn := by
  simp only [isQuote, Bool.or_eq_true, decide_eq_true_eq] at hq
  rcases hq with rfl | rfl <;> decide

theorem newlines_quote {q : ℕ} (hq : isQuote q = true) (text : Points) :
    newlines false (q :: text) = q :: newlines false text := by
  obtain ⟨-, hline, hreturn⟩ := quote_facts hq
  rw [newlines, if_neg hreturn, if_neg fun h => hline h.1]

theorem newlines_before_quote {q : ℕ} (hq : isQuote q = true) (text rest : Points) :
    newlines false (text ++ q :: rest) = newlines false text ++ q :: newlines false rest := by
  have hhead : (q :: rest).head? ≠ some lineFeed := fun h => (quote_facts hq).2.1 (Option.some.inj h)
  rw [newlines_append text hhead, newlines_quote hq]

theorem mem_hideQuotes {q c : ℕ} {text : Points} (h : c ∈ hideQuotes q text) : c = backslash ∨ c ∈ text := by
  obtain ⟨d, hd, hmem⟩ := List.mem_flatMap.mp h
  split at hmem
  next heq =>
    rcases List.mem_cons.mp hmem with rfl | hmem
    · exact .inl rfl
    · rw [List.mem_singleton.mp hmem]
      exact .inr (heq ▸ hd)
  next => exact .inr (List.mem_singleton.mp hmem ▸ hd)

theorem mem_hideQuotes_of_mem {q c : ℕ} {text : Points} (h : c ∈ text) : c ∈ hideQuotes q text := by
  refine List.mem_flatMap.mpr ⟨c, h, ?_⟩
  split
  next heq => simp [heq]
  next => exact List.mem_singleton_self c

theorem evalLiteral_iff {q : ℕ} (hq : isQuote q = true) (sql : Points) :
    evalLiteral names (q :: (hideQuotes q sql ++ [q])) = some sql ↔ PlainPoints sql := by
  have hsupported : (q :: (hideQuotes q sql ++ [q])).any unsupported = false ↔ ∀ c ∈ sql, unsupported c = false := by
    rw [List.any_eq_false]
    constructor
    · intro h c hc
      have hmem := h c (List.mem_cons_of_mem _ (List.mem_append_left _ (mem_hideQuotes_of_mem hc)))
      simpa using hmem
    · intro h c hc
      rw [List.mem_cons, List.mem_append, List.mem_singleton] at hc
      rcases hc with rfl | hc | rfl
      · simp [(quote_facts hq).1]
      · rcases mem_hideQuotes hc with rfl | hc
        · decide
        · simp [h c hc]
      · simp [(quote_facts hq).1]
  have htext : newlines false (q :: (hideQuotes q sql ++ [q])) = q :: (newlines false (hideQuotes q sql) ++ [q]) := by
    rw [newlines_quote hq, newlines_before_quote hq]
    rfl
  rw [evalLiteral, htext]
  constructor
  · intro h
    split at h
    · cases h
    next hany =>
      dsimp only at h
      rw [if_pos hq] at h
      split at h
      next body hlex =>
        rcases lexBody_cases hlex with ⟨rfl, -, hclosed⟩ | ⟨outer, -, hafter⟩ | ⟨more, -, hmore, -⟩
        · obtain ⟨hreturn, -, hquiet, hline⟩ := plain_of_decode hq (width_hideQuotes hq sql).le
            mem_hideQuotes_of_mem hclosed h
          have hmade : carriageReturn ∉ hideQuotes q sql := fun hmem =>
            (mem_hideQuotes hmem).elim (fun heq => absurd heq (by decide)) hreturn
          rw [newlines_of_plain hmade] at hquiet hline
          exact ⟨hsupported.mp (by simpa using hany), ⟨fun hmem => hline (mem_hideQuotes_of_mem hmem), hreturn⟩,
            quiet_of_hideQuotes hq hquiet⟩
        · simp at hafter
        · cases hmore
      next => cases h
  · intro h
    have hmade : carriageReturn ∉ hideQuotes q sql := fun hmem =>
      (mem_hideQuotes hmem).elim (fun heq => absurd heq (by decide)) h.oneLine.2
    have hlex : lexBody q false (hideQuotes q sql ++ [q]) = some (hideQuotes q sql, []) :=
      lexBody_of_closed (closed_hideQuotes hq h.oneLine.1 h.quiet) []
    rw [if_neg (by simpa using hsupported.mpr h.source), newlines_of_plain hmade]
    dsimp only
    rw [if_pos hq, hlex]
    exact decode_hideQuotes hq h.quiet le_rfl

/-! ## A list of literals -/

/-- What `_format_token_list` writes for strings, behind the opening bracket. -/
def itemsText : List Points → Points
  | [] => [93]
  | [t] => quotationMark :: (t ++ quotationMark :: [93])
  | t :: u :: more => quotationMark :: (t ++ quotationMark :: comma :: space :: itemsText (u :: more))

theorem formatTokenList_inl {ε : Type} (unparse : ε → Points) (tokens : List Points) :
    formatTokenList unparse (tokens.map Sum.inl) = 91 :: itemsText tokens := by
  rw [formatTokenList, List.map_map]
  congr 1
  induction tokens with
  | nil => rfl
  | cons t tokens ih =>
    cases tokens with
    | nil => simp [itemsText]
    | cons u tokens =>
      rw [itemsText, ← ih]
      simp [List.intercalate_cons_cons]

theorem newlines_itemsText (tokens : List Points) :
    newlines false (itemsText tokens) = itemsText (tokens.map (newlines false)) := by
  have hq : isQuote quotationMark = true := rfl
  induction tokens with
  | nil => rfl
  | cons t tokens ih =>
    cases tokens with
    | nil =>
      rw [itemsText, newlines_quote hq, newlines_before_quote hq]
      rfl
    | cons u tokens =>
      have hseparator : newlines false (comma :: space :: itemsText (u :: tokens)) =
          comma :: space :: newlines false (itemsText (u :: tokens)) := rfl
      rw [itemsText, newlines_quote hq, newlines_before_quote hq, hseparator, ih]
      rfl

/-- The token is plain and holds no quotation mark. -/
structure Unquoted (token : Points) : Prop where
  plain : PlainPoints token
  noQuote : quotationMark ∉ token

inductive ItemEnd : Points → Prop
  | bracket : ItemEnd [93]
  | next (rest : Points) : ItemEnd (comma :: space :: quotationMark :: rest)

theorem getLast?_newlines {token : Points} (h : token.getLast? = some space) :
    (newlines false token).getLast? = some space := by
  obtain ⟨front, rfl⟩ := List.getLast?_eq_some_iff.mp h
  have hhead : [space].head? ≠ some lineFeed := by decide
  rw [newlines_append front hhead, List.getLast?_append]
  rfl

theorem item_of_read {token rest body after : Points} (hrest : ItemEnd rest)
    (hlex : lexBody quotationMark false (newlines false token ++ quotationMark :: rest) = some (body, after))
    (hdecode : decode names body.length body = some token) :
    body = newlines false token ∧ after = rest ∧ lineFeed ∉ token ∧ carriageReturn ∉ token ∧
      Quiet (fun e => !startsEscape e) token ∧ quotationMark ∉ token := by
  have hq : isQuote quotationMark = true := rfl
  rcases lexBody_cases hlex with ⟨rfl, rfl, hclosed⟩ | ⟨outer, hsplit, -⟩ | ⟨more, rfl, hmore, hlast⟩
  · obtain ⟨hreturn, hwidth, hquiet, hline⟩ := plain_of_decode hq (width_le_length _ _) id hclosed hdecode
    rw [newlines_of_plain hreturn] at hwidth hquiet hline
    have hnone : quotationMark ∉ token := by
      intro hmem
      rw [width, List.countP_eq_length] at hwidth
      exact absurd (hwidth _ hmem) (by simp)
    refine ⟨rfl, rfl, hline, hreturn, ?_, hnone⟩
    rw [← hideQuotes_of_notMem hnone] at hquiet
    exact quiet_of_hideQuotes hq hquiet
  · -- the literal ends early: its value is too short
    have hle := (decode_length hq (closed_of_lexBody hlex) hdecode).1
    have hwidth := width_le_length quotationMark body
    have hshort := length_newlines_le false token
    rw [hsplit, List.length_append, List.length_cons] at hshort
    omega
  · -- the token hides the quotation mark: the value ends with what separates the items
    cases hrest with
    | bracket => cases hmore
    | next rest =>
      obtain ⟨rfl, rfl⟩ := Prod.mk.inj (Option.some.inj hmore)
      have hspace := decode_getLast?_space hdecode (by rw [List.getLast?_append]; rfl)
      rcases hlast with ⟨-, hfalse⟩ | hlast
      · exact absurd hfalse Bool.false_ne_true
      · rw [getLast?_newlines hspace] at hlast
        exact absurd hlast (by decide)

theorem item_of_unquoted {token : Points} (hline : lineFeed ∉ token) (hquiet : Quiet (fun e => !startsEscape e) token)
    (hquote : quotationMark ∉ token) (rest : Points) :
    lexBody quotationMark false (token ++ quotationMark :: rest) = some (token, rest) ∧
      decode names token.length token = some token := by
  have hq : isQuote quotationMark = true := rfl
  have hclosed := closed_hideQuotes hq hline hquiet
  have hdecode := @decode_hideQuotes names _ hq _ hquiet _ le_rfl
  rw [hideQuotes_of_notMem hquote] at hclosed hdecode
  exact ⟨lexBody_of_closed hclosed rest, hdecode⟩

theorem itemEnd_itemsText (token : Points) (more : List Points) :
    ∃ rest, itemsText (token :: more) = quotationMark :: (token ++ quotationMark :: rest) ∧ ItemEnd rest ∧
      (more = [] ∧ rest = [93] ∨ more ≠ [] ∧ rest = comma :: space :: itemsText more) := by
  cases more with
  | nil => exact ⟨_, rfl, .bracket, .inl ⟨rfl, rfl⟩⟩
  | cons u more =>
    obtain ⟨rest, hrest⟩ : ∃ rest, itemsText (u :: more) = quotationMark :: rest := by
      cases more with
      | nil => exact ⟨_, rfl⟩
      | cons v more => exact ⟨_, rfl⟩
    exact ⟨_, rfl, hrest ▸ .next rest, .inr ⟨List.cons_ne_nil _ _, rfl⟩⟩

theorem readItems_step {fuel : ℕ} {text : Points} :
    readItems names (fuel + 1) (quotationMark :: text) = (lexBody quotationMark false text).bind fun r =>
      (decode names r.1.length r.1).bind fun value =>
        match r.2.dropWhile (· = space) with
        | [] => none
        | c :: more =>
          if c = comma then (readItems names fuel (more.dropWhile (· = space))).map (value :: ·)
          else if c = 93 ∧ more = [] then some [value]
          else none := by
  rw [readItems]
  exact if_pos rfl

theorem readItems_iff {tokens : List Points} (hne : tokens ≠ []) {fuel : ℕ} (hfuel : tokens.length ≤ fuel) :
    readItems names fuel (itemsText (tokens.map (newlines false))) = some tokens ↔
      ∀ t ∈ tokens, lineFeed ∉ t ∧ carriageReturn ∉ t ∧ Quiet (fun e => !startsEscape e) t ∧ quotationMark ∉ t := by
  induction tokens generalizing fuel with
  | nil => exact absurd rfl hne
  | cons t tokens ih =>
    obtain ⟨fuel, rfl⟩ : ∃ k, fuel = k + 1 := ⟨fuel - 1, by simp only [List.length_cons] at hfuel; omega⟩
    obtain ⟨rest, htext, hend, hmore⟩ := itemEnd_itemsText (newlines false t) (tokens.map (newlines false))
    rw [List.map_cons, htext, readItems_step, List.forall_mem_cons]
    -- what follows the item, once it is read
    have htail : ∀ {value : Points}, (match rest.dropWhile (· = space) with
        | [] => none
        | c :: more =>
          if c = comma then (readItems names fuel (more.dropWhile (· = space))).map (value :: ·)
          else if c = 93 ∧ more = [] then some [value]
          else none) = some (t :: tokens) ↔
        value = t ∧ ∀ u ∈ tokens, lineFeed ∉ u ∧ carriageReturn ∉ u ∧ Quiet (fun e => !startsEscape e) u ∧
          quotationMark ∉ u := by
      intro value
      rcases hmore with ⟨hnil, rfl⟩ | ⟨hcons, rfl⟩
      · obtain rfl : tokens = [] := List.map_eq_nil_iff.mp hnil
        have hstep : ([93] : Points).dropWhile (· = space) = [93] := by decide
        rw [hstep]
        simp
      · have htokens : tokens ≠ [] := fun h => hcons (by rw [h, List.map_nil])
        obtain ⟨u, more, rfl⟩ := List.exists_cons_of_ne_nil htokens
        obtain ⟨inner, hinner, -, -⟩ := itemEnd_itemsText (newlines false u) (more.map (newlines false))
        have hlen : (u :: more).length ≤ fuel := by
          simp only [List.length_cons] at hfuel ⊢
          omega
        have hread := ih htokens hlen
        rw [List.map_cons, hinner] at hread ⊢
        have hstep : (comma :: space :: quotationMark :: (newlines false u ++ quotationMark :: inner)).dropWhile
            (· = space) = comma :: space :: quotationMark :: (newlines false u ++ quotationMark :: inner) := rfl
        have hskip : (space :: quotationMark :: (newlines false u ++ quotationMark :: inner)).dropWhile
            (· = space) = quotationMark :: (newlines false u ++ quotationMark :: inner) := rfl
        rw [hstep]
        dsimp only
        rw [if_pos rfl, hskip, Option.map_eq_some_iff, ← hread]
        constructor
        · rintro ⟨values, hvalues, heq⟩
          obtain ⟨rfl, rfl⟩ := List.cons.inj heq
          exact ⟨rfl, hvalues⟩
        · rintro ⟨rfl, hvalues⟩
          exact ⟨_, hvalues, rfl⟩
    constructor
    · intro h
      obtain ⟨⟨body, after⟩, hlex, hrest⟩ := Option.bind_eq_some_iff.mp h
      obtain ⟨value, hdecode, hvalues⟩ := Option.bind_eq_some_iff.mp hrest
      have hvalue : value = t := by
        dsimp only at hvalues
        split at hvalues
        · cases hvalues
        · split_ifs at hvalues
          · obtain ⟨values, -, heq⟩ := Option.map_eq_some_iff.mp hvalues
            exact (List.cons.inj heq).1
          · exact (List.cons.inj (Option.some.inj hvalues)).1
      rw [hvalue] at hdecode
      obtain ⟨-, hafter, hline, hreturn, hquiet, hquote⟩ := item_of_read hend hlex hdecode
      rw [hafter] at hvalues
      exact ⟨⟨hline, hreturn, hquiet, hquote⟩, (htail.mp hvalues).2⟩
    · rintro ⟨⟨hline, hreturn, hquiet, hquote⟩, hall⟩
      obtain ⟨hlex, hdecode⟩ := @item_of_unquoted names _ hline hquiet hquote rest
      rw [newlines_of_plain hreturn, hlex, Option.bind_some, hdecode, Option.bind_some]
      exact htail.mpr ⟨rfl, hall⟩

theorem length_le_itemsText (tokens : List Points) : tokens.length ≤ (itemsText tokens).length := by
  induction tokens with
  | nil => exact Nat.zero_le _
  | cons t tokens ih =>
    obtain ⟨rest, htext, -, ⟨rfl, rfl⟩ | ⟨-, rfl⟩⟩ := itemEnd_itemsText t tokens
    · rw [htext]
      simp
    · rw [htext]
      simp only [List.length_cons, List.length_append]
      omega

theorem evalList_iff {ε : Type} (unparse : ε → Points) (tokens : List Points) :
    evalList names (formatTokenList unparse (tokens.map Sum.inl)) = some tokens ↔ ∀ t ∈ tokens, Unquoted t := by
  have hsupported : (91 :: itemsText tokens).any unsupported = false ↔
      ∀ t ∈ tokens, ∀ c ∈ t, unsupported c = false := by
    have hitems : (itemsText tokens).any unsupported = tokens.any fun t => t.any unsupported := by
      induction tokens with
      | nil => decide
      | cons t tokens ih =>
        have hpoints : unsupported quotationMark = false ∧ unsupported comma = false ∧ unsupported space = false ∧
            unsupported 93 = false := by decide
        obtain ⟨hmark, hcomma, hspace, hbracket⟩ := hpoints
        obtain ⟨rest, htext, -, ⟨rfl, rfl⟩ | ⟨-, rfl⟩⟩ := itemEnd_itemsText t tokens
        · simp [htext, hmark, hbracket]
        · simp [htext, hmark, hcomma, hspace, ih]
    have hopen : unsupported 91 = false := by decide
    rw [List.any_cons, hopen, Bool.false_or, hitems]
    simp
  have htext : newlines false (91 :: itemsText tokens) = 91 :: itemsText (tokens.map (newlines false)) := by
    rw [← newlines_itemsText]
    rfl
  have hunquoted : (∀ t ∈ tokens, Unquoted t) ↔ (∀ t ∈ tokens, ∀ c ∈ t, unsupported c = false) ∧
      ∀ t ∈ tokens, lineFeed ∉ t ∧ carriageReturn ∉ t ∧ Quiet (fun e => !startsEscape e) t ∧ quotationMark ∉ t := by
    constructor
    · intro h
      exact ⟨fun t ht => (h t ht).plain.source, fun t ht =>
        ⟨(h t ht).plain.oneLine.1, (h t ht).plain.oneLine.2, (h t ht).plain.quiet, (h t ht).noQuote⟩⟩
    · rintro ⟨hsource, hrest⟩ t ht
      obtain ⟨hline, hreturn, hquiet, hquote⟩ := hrest t ht
      exact ⟨⟨hsource t ht, ⟨hline, hreturn⟩, hquiet⟩, hquote⟩
  rw [formatTokenList_inl, hunquoted, ← hsupported, evalList, htext]
  by_cases hany : (91 :: itemsText tokens).any unsupported = true
  · rw [if_pos hany, hany]
    simp
  · rw [if_neg hany]
    simp only [Bool.not_eq_true] at hany
    dsimp only
    rw [if_neg (by simp), hany]
    simp only [true_and]
    cases tokens with
    | nil => simp [itemsText]
    | cons t tokens =>
      obtain ⟨rest, hitems, -, -⟩ := itemEnd_itemsText (newlines false t) (tokens.map (newlines false))
      have hlength := length_le_itemsText ((t :: tokens).map (newlines false))
      rw [List.length_map] at hlength
      rw [← readItems_iff (List.cons_ne_nil _ _) hlength, if_neg]
      rw [List.map_cons, hitems]
      simp

/-- **The literals in patches denote their strings** exactly for texts without line ends, NUL and surrogates in which
every backslash stands before a character that begins no escape; in a token list without quotation marks too. -/
theorem literals_denote_iff {ε : Type} (names : Points → Option ℕ) (unparse : ε → Points) (sql : Points)
    (tokens : List Points) :
    (evalLiteral names (formatSqlLiteral sql) = some sql ↔ PlainPoints sql) ∧
      (evalList names (formatTokenList unparse (tokens.map Sum.inl)) = some tokens ↔ ∀ t ∈ tokens, Unquoted t) := by
  refine ⟨?_, evalList_iff unparse tokens⟩
  obtain ⟨q, hq, htext⟩ := formatSqlLiteral_eq sql
  rw [htext, evalLiteral_iff hq]

/-- A backslash before an `n` comes back as a line feed. -/
theorem backslash_changes_literal :
    ¬∀ sql, evalLiteral (fun _ => none) (formatSqlLiteral sql) = some sql := by
  intro h
  have hvalue : evalLiteral (fun _ => none) (formatSqlLiteral (points "a\\nb")) = some (points "a\nb") := by decide
  rw [h] at hvalue
  exact absurd hvalue (by decide)

end TimeCodeSecurity.Remediation
