import Mathlib.Data.List.Basic
import Mathlib.Data.List.TakeWhile
import Mathlib.Data.Nat.Digits.Defs

/-! # String literals of Python

A short string literal and a list of them, read as Python reads them: line ends are translated, the literal ends at the
first quotation mark that no backslash hides, then the escapes are replaced. Texts are lists of code points. A text that
is read in another way (literals side by side, literals between three quotation marks, other expressions) has no value
here.
-/
namespace TimeCodeSecurity.Py.Literal
set_option autoImplicit false

abbrev Points := List ℕ

abbrev backslash : ℕ := 92
abbrev lineFeed : ℕ := 10
abbrev carriageReturn : ℕ := 13
abbrev quotationMark : ℕ := 34
abbrev apostrophe : ℕ := 39
abbrev space : ℕ := 32
abbrev comma : ℕ := 44

def points (s : String) : Points := s.toList.map Char.toNat

def unsupported (c : ℕ) : Bool := c = 0 || 0xD800 ≤ c && c < 0xE000

def newlines : Bool → Points → Points
  | _, [] => []
  | afterReturn, c :: rest =>
    if c = carriageReturn then lineFeed :: newlines true rest
    else if c = lineFeed ∧ afterReturn then newlines false rest
    else c :: newlines false rest

def lexBody (q : ℕ) : Bool → Points → Option (Points × Points)
  | _, [] => none
  | true, c :: rest => (lexBody q false rest).map fun r => (c :: r.1, r.2)
  | false, c :: rest =>
    if c = q then some ([], rest)
    else if c = lineFeed then none
    else (lexBody q (c = backslash) rest).map fun r => (c :: r.1, r.2)

def simpleEscape (e : ℕ) : Option ℕ :=
  [(92, 92), (39, 39), (34, 34), (97, 7), (98, 8), (102, 12), (110, 10), (114, 13), (116, 9), (118, 11)].lookup e

def isOctal (c : ℕ) : Bool := 48 ≤ c && c ≤ 55

def hexValue (c : ℕ) : Option ℕ :=
  if 48 ≤ c ∧ c ≤ 57 then some (c - 48)
  else if 65 ≤ c ∧ c ≤ 70 then some (c - 55)
  else if 97 ≤ c ∧ c ≤ 102 then some (c - 87)
  else none

def isNamePoint (c : ℕ) : Bool :=
  65 ≤ c && c ≤ 90 || 97 ≤ c && c ≤ 122 || 48 ≤ c && c ≤ 57 || c = 32 || c = 45

def octalEscape (e : ℕ) (rest : Points) : Points × Points :=
  let more := (rest.take 2).takeWhile isOctal
  ([Nat.ofDigits 8 ((e :: more).map (· - 48)).reverse], rest.drop more.length)

def hexEscape (width : ℕ) (rest : Points) : Option (Points × Points) :=
  let digits := (rest.take width).filterMap hexValue
  let value := Nat.ofDigits 16 digits.reverse
  if digits.length = width ∧ value < 0x110000 then some ([value], rest.drop width) else none

def nameEscape (names : Points → Option ℕ) : Points → Option (Points × Points)
  | 123 :: rest =>
    match rest.dropWhile isNamePoint with
    | 125 :: after => (names (rest.takeWhile isNamePoint)).map fun value => ([value], after)
    | _ => none
  | _ => none

def escape (names : Points → Option ℕ) : Points → Option (Points × Points)
  | [] => none
  | e :: rest =>
    if e = lineFeed then some ([], rest)
    else
      match simpleEscape e with
      | some value => some ([value], rest)
      | none =>
        if isOctal e then some (octalEscape e rest)
        else if e = 120 then hexEscape 2 rest
        else if e = 117 then hexEscape 4 rest
        else if e = 85 then hexEscape 8 rest
        else if e = 78 then nameEscape names rest
        else some ([backslash, e], rest)

def startsEscape (e : ℕ) : Bool :=
  e = lineFeed || (simpleEscape e).isSome || isOctal e || e = 120 || e = 117 || e = 85 || e = 78

/-- The escapes of a body replaced; `fuel` bounds what is read. -/
def decode (names : Points → Option ℕ) : ℕ → Points → Option Points
  | _, [] => some []
  | 0, _ => none
  | fuel + 1, c :: rest =>
    if c = backslash then
      (escape names rest).bind fun r => (decode names fuel r.2).map (r.1 ++ ·)
    else (decode names fuel rest).map (c :: ·)

def isQuote (q : ℕ) : Bool := q = quotationMark || q = apostrophe

def evalLiteral (names : Points → Option ℕ) (text : Points) : Option Points :=
  if text.any unsupported then none
  else
    match newlines false text with
    | [] => none
    | q :: rest =>
      if isQuote q then
        match lexBody q false rest with
        | some (body, []) => decode names body.length body
        | _ => none
      else none

def readItems (names : Points → Option ℕ) : ℕ → Points → Option (List Points)
  | 0, _ => none
  | _, [] => none
  | fuel + 1, q :: rest =>
    if isQuote q then
      (lexBody q false rest).bind fun r =>
        (decode names r.1.length r.1).bind fun value =>
          match r.2.dropWhile (· = space) with
          | [] => none
          | c :: more =>
            if c = comma then (readItems names fuel (more.dropWhile (· = space))).map (value :: ·)
            else if c = 93 ∧ more = [] then some [value]
            else none
    else none

def evalList (names : Points → Option ℕ) (text : Points) : Option (List Points) :=
  if text.any unsupported then none
  else
    match newlines false text with
    | [] => none
    | c :: rest =>
      if c ≠ 91 then none
      else if rest = [93] then some []
      else readItems names rest.length rest

/-! ## What an escape takes -/

def Inert (c : ℕ) : Prop := c ≠ backslash ∧ c ≠ quotationMark ∧ c ≠ apostrophe ∧ c ≠ lineFeed

variable {names : Points → Option ℕ}

theorem inert_of_isOctal {c : ℕ} (h : isOctal c = true) : Inert c ∧ c ≠ space := by
  refine ⟨⟨?_, ?_, ?_, ?_⟩, ?_⟩ <;>
  · rintro rfl
    exact absurd h (by decide)

theorem inert_of_hexValue {c : ℕ} (h : (hexValue c).isSome = true) : Inert c ∧ c ≠ space := by
  refine ⟨⟨?_, ?_, ?_, ?_⟩, ?_⟩ <;>
  · rintro rfl
    exact absurd h (by decide)

theorem inert_of_isNamePoint {c : ℕ} (h : isNamePoint c = true) : Inert c := by
  refine ⟨?_, ?_, ?_, ?_⟩ <;>
  · rintro rfl
    exact absurd h (by decide)

structure Consumes (rest : Points) (r : Points × Points) : Prop where
  used : ∃ used, rest = used ++ r.2 ∧ (∀ c ∈ used, Inert c) ∧ used.getLast? ≠ some space
  short : r.1.length ≤ 1

theorem consumes_none {rest value : Points} (h : value.length ≤ 1) : Consumes rest (value, rest) :=
  ⟨⟨[], rfl, by simp, by simp⟩, h⟩

theorem consumes_octal (e : ℕ) (rest : Points) : Consumes rest (octalEscape e rest) := by
  have hoctal : ∀ c ∈ (rest.take 2).takeWhile isOctal, Inert c ∧ c ≠ space :=
    fun c hc => inert_of_isOctal (List.mem_takeWhile_imp hc)
  have hstart : (rest.take 2).takeWhile isOctal <+: rest :=
    (List.takeWhile_prefix _).trans (List.take_prefix 2 rest)
  refine ⟨⟨(rest.take 2).takeWhile isOctal, ?_, fun c hc => (hoctal c hc).1, fun hlast => ?_⟩, le_rfl⟩
  · exact (List.prefix_iff_eq_append.mp hstart).symm
  · exact (hoctal space (List.mem_of_getLast? hlast)).2 rfl

theorem consumes_hex {width : ℕ} {rest : Points} {r : Points × Points} (h : hexEscape width rest = some r) :
    Consumes rest r := by
  rw [hexEscape] at h
  split at h
  next hdigits =>
    cases h
    have hlen : ((rest.take width).filterMap hexValue).length = (rest.take width).length :=
      le_antisymm (List.length_filterMap_le _ _) (hdigits.1.symm ▸ List.length_take_le _ _)
    have hall : ∀ c ∈ rest.take width, Inert c ∧ c ≠ space :=
      fun c hc => inert_of_hexValue (List.filterMap_length_eq_length.mp hlen c hc)
    refine ⟨⟨rest.take width, (List.take_append_drop _ _).symm, fun c hc => (hall c hc).1, fun hlast => ?_⟩, le_rfl⟩
    exact (hall space (List.mem_of_getLast? hlast)).2 rfl
  next => cases h

theorem consumes_name {rest : Points} {r : Points × Points} (h : nameEscape names rest = some r) :
    Consumes rest r := by
  unfold nameEscape at h
  split at h
  next rest =>
    split at h
    next after hafter =>
      obtain ⟨value, -, rfl⟩ := Option.map_eq_some_iff.mp h
      have hlast : (123 :: (rest.takeWhile isNamePoint ++ [125])).getLast? = some 125 := by
        rw [← List.cons_append, List.getLast?_concat]
      refine ⟨⟨123 :: (rest.takeWhile isNamePoint ++ [125]), ?_, fun c hc => ?_, by rw [hlast]; decide⟩, le_rfl⟩
      · conv_lhs => rw [← List.takeWhile_append_dropWhile (p := isNamePoint) (l := rest), hafter]
        simp
      · rcases List.mem_cons.mp hc with rfl | hc
        · exact ⟨by decide, by decide, by decide, by decide⟩
        · rcases List.mem_append.mp hc with hc | hc
          · exact inert_of_isNamePoint (List.mem_takeWhile_imp hc)
          · rw [List.mem_singleton.mp hc]
            exact ⟨by decide, by decide, by decide, by decide⟩
    next => cases h
  next => cases h

theorem escape_of_not_starts {e : ℕ} (rest : Points) (h : startsEscape e = false) :
    escape names (e :: rest) = some ([backslash, e], rest) := by
  simp only [startsEscape, Bool.or_eq_false_iff, decide_eq_false_iff_not] at h
  obtain ⟨⟨⟨⟨⟨⟨hline, hsimple⟩, hoctal⟩, hx⟩, hu⟩, hU⟩, hN⟩ := h
  rw [Option.isSome_eq_false_iff, Option.isNone_iff_eq_none] at hsimple
  rw [escape, if_neg hline, hsimple]
  simp only [hoctal, hx, hu, hU, hN, if_false, Bool.false_eq_true]

theorem escape_of_starts {e : ℕ} {rest : Points} {r : Points × Points} (hstarts : startsEscape e = true)
    (h : escape names (e :: rest) = some r) : Consumes rest r := by
  rw [escape] at h
  split at h
  next =>
    cases h
    exact consumes_none (by simp)
  next hline =>
    split at h
    next value _ =>
      cases h
      exact consumes_none (by simp)
    next hsimple =>
      split_ifs at h with hoctal hx hu hU hN
      · cases h
        exact consumes_octal e rest
      · exact consumes_hex h
      · exact consumes_hex h
      · exact consumes_hex h
      · exact consumes_name h
      · simp [startsEscape, hline, hsimple, hoctal, hx, hu, hU, hN] at hstarts

theorem escape_quote {q : ℕ} (hq : isQuote q = true) (rest : Points) :
    escape names (q :: rest) = some ([q], rest) := by
  simp only [isQuote, Bool.or_eq_true, decide_eq_true_eq] at hq
  rcases hq with rfl | rfl <;> rfl

/-! ## Where a literal ends -/

def Closed (q : ℕ) : Bool → Points → Prop
  | false, [] => True
  | true, [] => False
  | true, _ :: text => Closed q false text
  | false, c :: text => c ≠ q ∧ c ≠ lineFeed ∧ Closed q (c = backslash) text

theorem lexBody_of_closed {q : ℕ} {hidden : Bool} {text : Points} (h : Closed q hidden text) (rest : Points) :
    lexBody q hidden (text ++ q :: rest) = some (text, rest) := by
  induction text generalizing hidden with
  | nil =>
    cases hidden with
    | false => rw [List.nil_append, lexBody, if_pos rfl]
    | true => exact h.elim
  | cons c text ih =>
    cases hidden with
    | true => rw [List.cons_append, lexBody, ih h, Option.map_some]
    | false =>
      obtain ⟨hq, hline, hrest⟩ := h
      rw [List.cons_append, lexBody, if_neg hq, if_neg hline, ih hrest, Option.map_some]

theorem lexBody_cases {q : ℕ} {hidden : Bool} {text rest body after : Points}
    (h : lexBody q hidden (text ++ q :: rest) = some (body, after)) :
    (body = text ∧ after = rest ∧ Closed q hidden text) ∨
      (∃ outer, text = body ++ q :: outer ∧ after = outer ++ q :: rest) ∨
      ∃ more, body = text ++ q :: more ∧ lexBody q false rest = some (more, after) ∧
        (text = [] ∧ hidden = true ∨ text.getLast? = some backslash) := by
  induction text generalizing hidden body with
  | nil =>
    cases hidden with
    | false =>
      rw [List.nil_append, lexBody, if_pos rfl] at h
      obtain ⟨rfl, rfl⟩ := Prod.mk.inj (Option.some.inj h)
      exact .inl ⟨rfl, rfl, trivial⟩
    | true =>
      rw [List.nil_append, lexBody] at h
      obtain ⟨⟨more, after'⟩, hmore, heq⟩ := Option.map_eq_some_iff.mp h
      obtain ⟨rfl, rfl⟩ := Prod.mk.inj heq
      exact .inr (.inr ⟨more, rfl, hmore, .inl ⟨rfl, rfl⟩⟩)
  | cons c text ih =>
    have hstep : ∀ {hidden'}, (lexBody q hidden' (text ++ q :: rest)).map (fun r => (c :: r.1, r.2)) =
        some (body, after) → (hidden' = true → c = backslash) → (Closed q hidden' text → Closed q hidden (c :: text)) →
        (body = c :: text ∧ after = rest ∧ Closed q hidden (c :: text)) ∨
          (∃ outer, c :: text = body ++ q :: outer ∧ after = outer ++ q :: rest) ∨
          ∃ more, body = c :: text ++ q :: more ∧ lexBody q false rest = some (more, after) ∧
            (c :: text = [] ∧ hidden = true ∨ (c :: text).getLast? = some backslash) := by
      intro hidden' hmap hslash hclosed
      obtain ⟨⟨body', after'⟩, hbody, heq⟩ := Option.map_eq_some_iff.mp hmap
      obtain ⟨rfl, rfl⟩ := Prod.mk.inj heq
      rcases ih hbody with ⟨rfl, rfl, hc⟩ | ⟨outer, rfl, rfl⟩ | ⟨more, rfl, hmore, hlast⟩
      · exact .inl ⟨rfl, rfl, hclosed hc⟩
      · exact .inr (.inl ⟨outer, rfl, rfl⟩)
      · refine .inr (.inr ⟨more, rfl, hmore, .inr ?_⟩)
        rcases hlast with ⟨rfl, hhidden⟩ | hlast
        · rw [hslash hhidden]
          rfl
        · rw [List.getLast?_cons, hlast]
          rfl
    rw [List.cons_append] at h
    cases hidden with
    | true =>
      rw [lexBody] at h
      exact hstep h (fun hfalse => absurd hfalse Bool.false_ne_true) fun hc => hc
    | false =>
      rw [lexBody] at h
      split at h
      next hq =>
        obtain ⟨rfl, rfl⟩ := Prod.mk.inj (Option.some.inj h)
        exact .inr (.inl ⟨text, by rw [hq]; rfl, rfl⟩)
      next hq =>
        split at h
        · cases h
        next hline => exact hstep h of_decide_eq_true fun hc => ⟨hq, hline, hc⟩

theorem closed_of_lexBody {q : ℕ} {hidden : Bool} {text body after : Points}
    (h : lexBody q hidden text = some (body, after)) : Closed q hidden body := by
  induction text generalizing hidden body with
  | nil => cases hidden <;> cases h
  | cons c text ih =>
    cases hidden with
    | true =>
      rw [lexBody] at h
      obtain ⟨⟨body', after'⟩, hbody, heq⟩ := Option.map_eq_some_iff.mp h
      obtain ⟨rfl, rfl⟩ := Prod.mk.inj heq
      have hclosed : Closed q false body' := ih hbody
      exact hclosed
    | false =>
      rw [lexBody] at h
      split_ifs at h with hq hline
      · obtain ⟨rfl, rfl⟩ := Prod.mk.inj (Option.some.inj h)
        trivial
      · obtain ⟨⟨body', after'⟩, hbody, heq⟩ := Option.map_eq_some_iff.mp h
        obtain ⟨rfl, rfl⟩ := Prod.mk.inj heq
        exact ⟨hq, hline, ih hbody⟩

theorem closed_of_inert {q : ℕ} {used text : Points} (hused : ∀ c ∈ used, Inert c)
    (h : Closed q false (used ++ text)) : Closed q false text := by
  induction used with
  | nil => exact h
  | cons c used ih =>
    have hslash : decide (c = backslash) = false := decide_eq_false (hused c List.mem_cons_self).1
    rw [List.cons_append, Closed, hslash] at h
    exact ih (fun x hx => hused x (List.mem_cons_of_mem _ hx)) h.2.2

/-! ## How long the value is -/

def Quiet (kind : ℕ → Bool) : Points → Prop
  | [] => True
  | c :: text => (c = backslash → ∃ e, text.head? = some e ∧ kind e = true) ∧ Quiet kind text

def width (q : ℕ) (text : Points) : ℕ := text.countP (· ≠ q)

theorem width_cons_of_ne {q c : ℕ} (h : c ≠ q) (text : Points) : width q (c :: text) = width q text + 1 := by
  rw [width, List.countP_cons_of_pos (by simpa using h), width]

theorem width_cons_self (q : ℕ) (text : Points) : width q (q :: text) = width q text := by
  rw [width, List.countP_cons_of_neg (by simp), width]

theorem width_le_length (q : ℕ) (text : Points) : width q text ≤ text.length := List.countP_le_length

theorem startsEscape_quote {q : ℕ} (hq : isQuote q = true) : startsEscape q = true := by
  simp only [isQuote, Bool.or_eq_true, decide_eq_true_eq] at hq
  rcases hq with rfl | rfl <;> decide

theorem quote_ne_backslash {q : ℕ} (hq : isQuote q = true) : q ≠ backslash := by
  rintro rfl
  exact absurd hq (by decide)

theorem decode_length {q : ℕ} (hq : isQuote q = true) {fuel : ℕ} {body value : Points} (hclosed : Closed q false body)
    (h : decode names fuel body = some value) :
    value.length ≤ width q body ∧
      (width q body ≤ value.length → Quiet (fun e => !startsEscape e || e = q) body) := by
  induction fuel generalizing body value with
  | zero =>
    cases body with
    | nil => cases h; exact ⟨Nat.zero_le _, fun _ => trivial⟩
    | cons c body => cases h
  | succ fuel ih =>
    cases body with
    | nil => cases h; exact ⟨Nat.zero_le _, fun _ => trivial⟩
    | cons c body =>
      rw [decode] at h
      by_cases hc : c = backslash
      · subst hc
        rw [if_pos rfl] at h
        obtain ⟨⟨out, rest⟩, hescape, h⟩ := Option.bind_eq_some_iff.mp h
        obtain ⟨tail, htail, rfl⟩ := Option.map_eq_some_iff.mp h
        cases body with
        | nil => cases hescape
        | cons e body =>
          have hbody : Closed q false body := hclosed.2.2
          have hslash := width_cons_of_ne (quote_ne_backslash hq).symm (e :: body)
          rw [List.length_append]
          by_cases heq : e = q
          · subst heq
            rw [escape_quote hq] at hescape
            cases hescape
            obtain ⟨hle, hquiet⟩ := ih hbody htail
            rw [hslash, width_cons_self, List.length_singleton]
            refine ⟨by omega, fun hge => ⟨fun _ => ⟨e, rfl, by simp⟩, ?_, hquiet (by omega)⟩⟩
            exact fun hcontra => absurd hcontra (quote_ne_backslash hq)
          · rw [hslash, width_cons_of_ne heq]
            cases hstarts : startsEscape e with
            | false =>
              rw [escape_of_not_starts body hstarts] at hescape
              cases hescape
              obtain ⟨hle, hquiet⟩ := ih hbody htail
              have hne : e ≠ backslash := by
                rintro rfl
                exact absurd hstarts (by decide)
              refine ⟨by simp only [List.length_cons, List.length_nil]; omega, fun hge => ?_⟩
              simp only [List.length_cons, List.length_nil] at hge
              exact ⟨fun _ => ⟨e, rfl, by simp [hstarts]⟩, fun hcontra => absurd hcontra hne, hquiet (by omega)⟩
            | true =>
              obtain ⟨⟨used, hused, hinert, -⟩, hshort⟩ := escape_of_starts hstarts hescape
              dsimp only at hused hshort ⊢
              subst hused
              obtain ⟨hle, -⟩ := ih (closed_of_inert hinert hbody) htail
              have hwidth : width q rest ≤ width q (used ++ rest) := by
                rw [width, width, List.countP_append]
                exact Nat.le_add_left _ _
              exact ⟨by omega, fun hge => by omega⟩
      · rw [if_neg hc] at h
        obtain ⟨tail, htail, rfl⟩ := Option.map_eq_some_iff.mp h
        obtain ⟨hne, -, hrest⟩ := hclosed
        rw [decide_eq_false hc] at hrest
        obtain ⟨hle, hquiet⟩ := ih hrest htail
        rw [width_cons_of_ne hne, List.length_cons]
        exact ⟨by omega, fun hge => ⟨fun hcontra => absurd hcontra hc, hquiet (by omega)⟩⟩

theorem decode_getLast?_space {fuel : ℕ} {body value : Points} (h : decode names fuel body = some value)
    (hlast : body.getLast? = some space) : value.getLast? = some space := by
  induction fuel generalizing body value with
  | zero =>
    cases body with
    | nil => cases hlast
    | cons c body => cases h
  | succ fuel ih =>
    cases body with
    | nil => cases hlast
    | cons c body =>
      rw [decode] at h
      have hend : ∀ {front tail rest : Points}, decode names fuel rest = some tail → rest.getLast? = some space →
          (front ++ tail).getLast? = some space := by
        intro front tail rest htail hrest
        rw [List.getLast?_append, ih htail hrest]
        rfl
      split at h
      next hc =>
        obtain ⟨⟨out, rest⟩, hescape, h⟩ := Option.bind_eq_some_iff.mp h
        obtain ⟨tail, htail, rfl⟩ := Option.map_eq_some_iff.mp h
        cases body with
        | nil => cases hescape
        | cons e body =>
          rw [List.getLast?_cons_cons] at hlast
          cases hstarts : startsEscape e with
          | false =>
            rw [escape_of_not_starts body hstarts] at hescape
            cases hescape
            cases rest with
            | nil =>
              cases fuel <;> cases htail <;> simpa using hlast
            | cons d rest => exact hend htail (by rwa [List.getLast?_cons_cons] at hlast)
          | true =>
            obtain ⟨⟨used, hused, -, hspace⟩, -⟩ := escape_of_starts hstarts hescape
            dsimp only at hused
            subst hused
            cases rest with
            | nil =>
              rw [List.append_nil] at hlast
              cases used with
              | nil =>
                obtain rfl : e = space := by simpa using hlast
                exact absurd hstarts (by decide)
              | cons u used =>
                rw [List.getLast?_cons_cons] at hlast
                exact absurd hlast hspace
            | cons d rest =>
              refine hend htail ?_
              rw [← List.cons_append, List.getLast?_append] at hlast
              rw [List.getLast?_cons] at hlast ⊢
              simpa using hlast
      next hc =>
        obtain ⟨tail, htail, rfl⟩ := Option.map_eq_some_iff.mp h
        cases body with
        | nil => cases fuel <;> cases htail <;> simpa using hlast
        | cons d body =>
          have hrest : ([c] ++ tail).getLast? = some space :=
            hend htail (by rwa [List.getLast?_cons_cons] at hlast)
          exact hrest

/-! ## Line ends -/

theorem newlines_append {after : Bool} (front : Points) {rest : Points} (h : rest.head? ≠ some lineFeed) :
    newlines after (front ++ rest) = newlines after front ++ newlines false rest := by
  induction front generalizing after with
  | nil =>
    rw [List.nil_append, newlines, List.nil_append]
    cases rest with
    | nil => cases after <;> rfl
    | cons c rest =>
      have hc : c ≠ lineFeed := fun heq => h (by rw [heq]; rfl)
      simp only [newlines, hc, false_and, if_false]
  | cons c front ih =>
    rw [List.cons_append, newlines, newlines]
    split
    · rw [ih, List.cons_append]
    · split
      · exact ih
      · rw [ih, List.cons_append]

theorem newlines_of_plain {text : Points} (h : carriageReturn ∉ text) : newlines false text = text := by
  induction text with
  | nil => rfl
  | cons c text ih =>
    have hc : c ≠ carriageReturn := fun heq => h (heq ▸ List.mem_cons_self)
    rw [newlines, if_neg hc, if_neg (by simp), ih fun hmem => h (List.mem_cons_of_mem _ hmem)]

theorem length_newlines_le (after : Bool) (text : Points) : (newlines after text).length ≤ text.length := by
  induction text generalizing after with
  | nil => exact le_rfl
  | cons c text ih =>
    have hle := ih true
    have hle' := ih false
    rw [newlines]
    split_ifs <;> simp only [List.length_cons] <;> omega

theorem width_newlines_le {q : ℕ} (hq : isQuote q = true) (after : Bool) (text : Points) :
    width q (newlines after text) ≤ width q text := by
  have hline : lineFeed ≠ q := by
    rintro rfl
    exact absurd hq (by decide)
  have hreturn : carriageReturn ≠ q := by
    rintro rfl
    exact absurd hq (by decide)
  induction text generalizing after with
  | nil => exact le_rfl
  | cons c text ih =>
    rw [newlines]
    split
    next hc =>
      have hle := ih true
      rw [hc, width_cons_of_ne hline, width_cons_of_ne hreturn]
      omega
    next =>
      split
      next hboth =>
        have hle := ih false
        rw [hboth.1, width_cons_of_ne hline]
        omega
      next =>
        have hle := ih false
        by_cases hcq : c = q
        · rw [hcq, width_cons_self, width_cons_self]
          exact hle
        · rw [width_cons_of_ne hcq, width_cons_of_ne hcq]
          omega

theorem lineFeed_mem_newlines {after : Bool} {text : Points} (h : carriageReturn ∈ text) :
    lineFeed ∈ newlines after text := by
  induction text generalizing after with
  | nil => cases h
  | cons c text ih =>
    rw [newlines]
    split
    · exact List.mem_cons_self
    next hc =>
      have hrest := (List.mem_cons.mp h).resolve_left (Ne.symm hc)
      split
      · exact ih hrest
      · exact List.mem_cons_of_mem _ (ih hrest)

theorem lineFeed_notMem {q : ℕ} (hq : isQuote q = true) {hidden : Bool} {body : Points} (hclosed : Closed q hidden body)
    (hquiet : Quiet (fun e => !startsEscape e || e = q) body)
    (hhead : hidden = true → ∀ e, body.head? = some e → e ≠ lineFeed) : lineFeed ∉ body := by
  induction body generalizing hidden with
  | nil => exact List.not_mem_nil
  | cons c body ih =>
    have hc : c ≠ lineFeed := by
      cases hidden with
      | true => exact hhead rfl c rfl
      | false => exact hclosed.2.1
    have hline : lineFeed ≠ q := by
      rintro rfl
      exact absurd hq (by decide)
    have hrest : lineFeed ∉ body := by
      cases hidden with
      | true => exact ih hclosed hquiet.2 fun h => absurd h Bool.false_ne_true
      | false =>
        refine ih hclosed.2.2 hquiet.2 fun hslash e he heq => ?_
        obtain ⟨e', he', hkind⟩ := hquiet.1 (of_decide_eq_true hslash)
        obtain rfl : e = e' := Option.some.inj (he.symm.trans he')
        rw [heq, Bool.or_eq_true, decide_eq_true_eq] at hkind
        rcases hkind with hkind | hkind
        · exact absurd hkind (by decide)
        · exact hline hkind
    exact fun hmem => (List.mem_cons.mp hmem).elim (fun h => hc h.symm) hrest

/-! ## Texts that stand for themselves -/

def hideQuotes (q : ℕ) (text : Points) : Points := text.flatMap fun c => if c = q then [backslash, q] else [c]

theorem hideQuotes_cons_self (q : ℕ) (text : Points) :
    hideQuotes q (q :: text) = backslash :: q :: hideQuotes q text := by
  rw [hideQuotes, List.flatMap_cons, if_pos rfl]
  rfl

theorem hideQuotes_cons_of_ne {q c : ℕ} (h : c ≠ q) (text : Points) :
    hideQuotes q (c :: text) = c :: hideQuotes q text := by
  rw [hideQuotes, List.flatMap_cons, if_neg h]
  rfl

theorem hideQuotes_of_notMem {q : ℕ} {text : Points} (h : q ∉ text) : hideQuotes q text = text := by
  induction text with
  | nil => rfl
  | cons c text ih =>
    have hc : c ≠ q := fun heq => h (heq.symm ▸ List.mem_cons_self)
    rw [hideQuotes_cons_of_ne hc, ih fun hmem => h (List.mem_cons_of_mem _ hmem)]

theorem width_hideQuotes {q : ℕ} (hq : isQuote q = true) (text : Points) :
    width q (hideQuotes q text) = text.length := by
  induction text with
  | nil => rfl
  | cons c text ih =>
    by_cases hc : c = q
    · rw [hc, hideQuotes_cons_self, width_cons_of_ne (quote_ne_backslash hq).symm, width_cons_self, ih,
        List.length_cons]
    · rw [hideQuotes_cons_of_ne hc, width_cons_of_ne hc, ih, List.length_cons]

/-- The text has no line ends, and behind each of its backslashes a character that begins no escape. -/
structure PlainPoints (text : Points) : Prop where
  source : ∀ c ∈ text, unsupported c = false
  oneLine : lineFeed ∉ text ∧ carriageReturn ∉ text
  quiet : Quiet (fun e => !startsEscape e) text

theorem quiet_of_hideQuotes {q : ℕ} (hq : isQuote q = true) {text : Points}
    (h : Quiet (fun e => !startsEscape e || e = q) (hideQuotes q text)) :
    Quiet (fun e => !startsEscape e) text := by
  induction text with
  | nil => trivial
  | cons c text ih =>
    by_cases hc : c = q
    · subst hc
      rw [hideQuotes_cons_self] at h
      exact ⟨fun hslash => absurd hslash (quote_ne_backslash hq), ih h.2.2⟩
    · rw [hideQuotes_cons_of_ne hc] at h
      refine ⟨fun hslash => ?_, ih h.2⟩
      obtain ⟨e, he, hkind⟩ := h.1 hslash
      cases text with
      | nil => cases he
      | cons d text =>
        by_cases hd : d = q
        · rw [hd, hideQuotes_cons_self] at he
          obtain rfl : backslash = e := Option.some.inj he
          rw [Bool.or_eq_true, decide_eq_true_eq] at hkind
          rcases hkind with hkind | hkind
          · exact absurd hkind (by decide)
          · exact absurd hkind.symm (quote_ne_backslash hq)
        · rw [hideQuotes_cons_of_ne hd] at he
          obtain rfl : d = e := Option.some.inj he
          refine ⟨d, rfl, ?_⟩
          simpa [hd] using hkind

theorem closed_hideQuotes {q : ℕ} (hq : isQuote q = true) {text : Points} (hline : lineFeed ∉ text)
    (hquiet : Quiet (fun e => !startsEscape e) text) : Closed q false (hideQuotes q text) := by
  match text with
  | [] => trivial
  | c :: text =>
    by_cases hc : c = q
    · rw [hc, hideQuotes_cons_self]
      refine ⟨(quote_ne_backslash hq).symm, by decide, ?_⟩
      exact closed_hideQuotes hq (fun h => hline (List.mem_cons_of_mem _ h)) hquiet.2
    · rw [hideQuotes_cons_of_ne hc]
      refine ⟨hc, fun h => hline (h ▸ List.mem_cons_self), ?_⟩
      by_cases hslash : c = backslash
      · obtain ⟨e, he, hkind⟩ := hquiet.1 hslash
        match text with
        | [] => cases he
        | d :: text =>
          obtain rfl : d = e := Option.some.inj he
          have hd : d ≠ q := by
            rintro rfl
            simp [startsEscape_quote hq] at hkind
          rw [decide_eq_true hslash, hideQuotes_cons_of_ne hd]
          exact closed_hideQuotes hq
            (fun h => hline (List.mem_cons_of_mem _ (List.mem_cons_of_mem _ h))) hquiet.2.2
      · rw [decide_eq_false hslash]
        exact closed_hideQuotes hq (fun h => hline (List.mem_cons_of_mem _ h)) hquiet.2

theorem decode_hideQuotes {q : ℕ} (hq : isQuote q = true) {text : Points}
    (hquiet : Quiet (fun e => !startsEscape e) text) {fuel : ℕ} (hfuel : (hideQuotes q text).length ≤ fuel) :
    decode names fuel (hideQuotes q text) = some text := by
  match text with
  | [] => cases fuel <;> rfl
  | c :: text =>
    by_cases hc : c = q
    · rw [hc, hideQuotes_cons_self] at hfuel ⊢
      obtain ⟨fuel, rfl⟩ : ∃ k, fuel = k + 1 := ⟨fuel - 1, by simp only [List.length_cons] at hfuel; omega⟩
      rw [decode, if_pos rfl, escape_quote hq, Option.bind_some,
        decode_hideQuotes hq hquiet.2 (by simp only [List.length_cons] at hfuel; omega)]
      rfl
    · rw [hideQuotes_cons_of_ne hc] at hfuel ⊢
      obtain ⟨fuel, rfl⟩ : ∃ k, fuel = k + 1 := ⟨fuel - 1, by simp only [List.length_cons] at hfuel; omega⟩
      rw [decode]
      by_cases hslash : c = backslash
      · obtain ⟨e, he, hkind⟩ := hquiet.1 hslash
        match text with
        | [] => cases he
        | d :: text =>
          obtain rfl : d = e := Option.some.inj he
          have hstarts : startsEscape d = false := by simpa using hkind
          have hd : d ≠ q := by
            rintro rfl
            rw [startsEscape_quote hq] at hstarts
            exact absurd hstarts (by decide)
          rw [hideQuotes_cons_of_ne hd] at hfuel ⊢
          rw [if_pos hslash, escape_of_not_starts _ hstarts, Option.bind_some,
            decode_hideQuotes hq hquiet.2.2 (by simp only [List.length_cons] at hfuel; omega), hslash]
          rfl
      · rw [if_neg hslash, decode_hideQuotes hq hquiet.2 (by simp only [List.length_cons] at hfuel; omega)]
        rfl

theorem plain_of_decode {q : ℕ} (hq : isQuote q = true) {made text : Points} {fuel : ℕ}
    (hmade : width q made ≤ text.length) (hreturn : carriageReturn ∈ text → carriageReturn ∈ made)
    (hclosed : Closed q false (newlines false made)) (h : decode names fuel (newlines false made) = some text) :
    carriageReturn ∉ text ∧ width q (newlines false made) = text.length ∧
      Quiet (fun e => !startsEscape e || e = q) (newlines false made) ∧ lineFeed ∉ newlines false made := by
  obtain ⟨hle, hquiet⟩ := decode_length hq hclosed h
  have hwidth := width_newlines_le hq false made
  have hquiet := hquiet (by omega)
  have hline := lineFeed_notMem hq hclosed hquiet fun h => absurd h Bool.false_ne_true
  exact ⟨fun hmem => hline (lineFeed_mem_newlines (hreturn hmem)), by omega, hquiet, hline⟩

end TimeCodeSecurity.Py.Literal
