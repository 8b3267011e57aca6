import Mathlib.Data.List.Forall2
import TimeCodeSecurity.Remediation.Parameterize

/-! # What the placeholders keep of a query

The emitted statement against the query it was taken from: where the placeholders stand, which values they get,
and whether the driver's statement is the original one.
-/
namespace TimeCodeSecurity.Remediation
open Py Quoting
set_option autoImplicit false

section
variable (V : Variant)

def interpolated (elements : List Expr) : List Expr :=
  elements.filter fun e =>
    match V.part e with
    | .text _ => false
    | _ => true

def originalText (val : Expr → SqlValue) : List Expr → Option Quoting.Text
  | [] => some []
  | e :: rest =>
    (match V.part e with
      | .text s => some s
      | _ => V.shown val e).bind fun t => (originalText val rest).map (t ++ ·)

/-- The characters and the places of a query, each place with its element and its entry. What is left of the text
right before is `before`; a text next to a place has lost its quote. -/
def spotsFrom : Quoting.Text → Bool → List Expr → List (Spot (Expr × Expr))
  | before, _, [] => plainText before
  | before, skip, e :: rest =>
    match V.part e with
    | .text s => plainText before ++ spotsFrom (if skip then s.drop 1 else s) false rest
    | .hole (.ok p) =>
      match quoteAround before (nextText V rest) with
      | some q => plainText before.dropLast ++ .hole (e, p) (some q) :: spotsFrom [] true rest
      | none => plainText before ++ .hole (e, p) none :: spotsFrom [] false rest
    | _ => []

def spotsOf (elements : List Expr) : List (Spot (Expr × Expr)) := spotsFrom V [] false elements

end

def Fragment.symbols : Fragment → List (Option Char)
  | .text s => s.map some
  | .placeholder => [none]

def emitted (fragments : List Fragment) : List (Option Char) := fragments.flatMap Fragment.symbols

/-- The statement keeps its meaning. -/
structure Parameterized (V : Variant) (elements : List Expr) (val : Expr → SqlValue) (fragments : List Fragment)
    (params : List Expr) : Prop where
  outside : Outside none (emitted fragments)
  counted : seen none (joinedText fragments) = params.length
  listed : List.Forall₂ V.AsFormatted (interpolated V elements) params
  restored : ∀ t, originalText V val elements = some t → (∀ p ∈ params, (val p).QuoteFree) →
    ∃ ws, List.Forall₂ Literal (params.map val) ws ∧ fill none (joinedText fragments) ws = some t

/-- Every value stands as it is, outside the literals or as a whole literal, no question mark stands outside the
literals, and the whole literals are the texts. -/
structure Bindable (V : Variant) (elements : List Expr) (val : Expr → SqlValue) : Prop where
  formatted : ∀ place ∈ holes (spotsOf V elements), V.AsFormatted place.1 place.2
  placed : Placed none (spotsOf V elements)
  typed : ∀ t, originalText V val elements = some t →
    (∀ place ∈ holes (spotsOf V elements), (val place.2).QuoteFree) →
      Typed (fun place => val place.2) (spotsOf V elements)

/-! ## What the loop makes of the places -/

@[simp] theorem emitted_concat (fs : List Fragment) (f : Fragment) :
    emitted (fs ++ [f]) = emitted fs ++ f.symbols := by
  simp [emitted]

theorem joinedText_eq (fragments : List Fragment) : joinedText fragments = written (emitted fragments) := by
  induction fragments with
  | nil => rfl
  | cons f fragments ih =>
    have hf : f.string = written f.symbols := by
      cases f with
      | text s => exact (written_some s).symm
      | placeholder => rfl
    have hcons : emitted (f :: fragments) = f.symbols ++ emitted fragments := rfl
    rw [joinedText, List.flatMap_cons, ← joinedText, ih, hcons, written_append, hf]

/-- The fragments end with a text `before`, or with a placeholder. -/
inductive Ends : List Fragment → List (Option Char) → Quoting.Text → Prop
  | nil : Ends [] [] []
  | text (fs : List Fragment) (s : Quoting.Text) : Ends (fs ++ [.text s]) (emitted fs) s
  | mark (fs : List Fragment) : Ends (fs ++ [.placeholder]) (emitted fs ++ [none]) []

theorem Ends.emitted_eq {fs : List Fragment} {front : List (Option Char)} {before : Quoting.Text}
    (h : Ends fs front before) : emitted fs = front ++ before.map some := by
  cases h with
  | nil => rfl
  | text fs s => simp [Fragment.symbols]
  | mark fs => simp [Fragment.symbols]

theorem Ends.quoteAround_eq {fs : List Fragment} {front : List (Option Char)} {before : Quoting.Text}
    (h : Ends fs front before) (succ : Quoting.Text) :
    quoteAround (lastText fs) succ = quoteAround before succ := by
  cases h with
  | nil => rfl
  | text fs s => simp [lastText, Fragment.string]
  | mark fs => simp [lastText, Fragment.string, quoteAround]

theorem Ends.dropQuote_eq {fs : List Fragment} {front : List (Option Char)} {before succ : Quoting.Text} {q : Quote}
    (h : Ends fs front before) (hq : quoteAround before succ = some q) :
    emitted (dropQuote fs) = front ++ before.dropLast.map some := by
  cases h with
  | nil => exact absurd hq (by simp [quoteAround])
  | text fs s => simp [dropQuote, lastText, Fragment.string, Fragment.symbols]
  | mark fs => exact absurd hq (by simp [quoteAround])

theorem decomposeLoop_eq {V : Variant} {elements : List Expr} {fs gs : List Fragment} {ps qs : List Expr}
    {skip : Bool} {front : List (Option Char)} {before : Quoting.Text} (hends : Ends fs front before)
    (h : decomposeLoop V fs ps skip elements = .ok (gs, qs)) :
    emitted gs = front ++ sent (spotsFrom V before skip elements) ∧
      qs = ps ++ (holes (spotsFrom V before skip elements)).map Prod.snd ∧
      (holes (spotsFrom V before skip elements)).map Prod.fst = interpolated V elements := by
  induction elements generalizing fs ps skip front before with
  | nil =>
    obtain ⟨rfl, rfl⟩ := Prod.mk.inj (Except.ok.inj h)
    simp [spotsFrom, hends.emitted_eq, interpolated]
  | cons e rest ih =>
    rw [decomposeLoop] at h
    rw [spotsFrom, interpolated, List.filter_cons]
    cases hpart : V.part e with
    | text s =>
      rw [hpart] at h
      obtain ⟨hsent, hparams, hplaces⟩ := ih (.text fs _) h
      simp only [Bool.false_eq_true, if_false]
      rw [hsent, hends.emitted_eq, sent_append, holes_append, sent_plainText, holes_plainText, List.append_assoc]
      exact ⟨rfl, hparams, hplaces⟩
    | unsupported message =>
      rw [hpart] at h
      cases h
    | hole entry =>
      rw [hpart] at h
      simp only at h
      split at h
      · cases h
      cases entry with
      | error message => cases h
      | ok p =>
        simp only [if_true] at h ⊢
        rw [hends.quoteAround_eq] at h
        cases hquote : quoteAround before (nextText V rest) with
        | some q =>
          rw [hquote] at h
          obtain ⟨hsent, hparams, hplaces⟩ := ih (.mark (dropQuote fs)) h
          simp only
          rw [hsent, hends.dropQuote_eq hquote, sent_append, holes_append, sent_plainText, holes_plainText, hparams]
          refine ⟨?_, ?_, ?_⟩
          · simp [sent]
          · simp [holes]
          · rw [List.nil_append, holes, List.map_cons, hplaces]
            rfl
        | none =>
          rw [hquote] at h
          obtain ⟨hsent, hparams, hplaces⟩ := ih (.mark fs) h
          simp only
          rw [hsent, hends.emitted_eq, sent_append, holes_append, sent_plainText, holes_plainText, hparams]
          refine ⟨?_, ?_, ?_⟩
          · simp [sent]
          · simp [holes]
          · rw [List.nil_append, holes, List.map_cons, hplaces]
            rfl

/-! ## The original statement -/

def Accepted (V : Variant) (elements : List Expr) : Prop :=
  ∀ e ∈ elements, (∃ s, V.part e = .text s) ∨ ∃ p, V.part e = .hole (.ok p)

theorem accepted_of_loop {V : Variant} {elements : List Expr} {fs gs : List Fragment} {ps qs : List Expr}
    {skip : Bool} (h : decomposeLoop V fs ps skip elements = .ok (gs, qs)) : Accepted V elements := by
  induction elements generalizing fs ps skip with
  | nil => exact fun e he => nomatch he
  | cons e rest ih =>
    rw [decomposeLoop] at h
    intro e' he'
    cases hpart : V.part e with
    | text s =>
      rw [hpart] at h
      rcases List.mem_cons.mp he' with rfl | he'
      · exact .inl ⟨s, hpart⟩
      · exact ih h e' he'
    | unsupported message =>
      rw [hpart] at h
      cases h
    | hole entry =>
      rw [hpart] at h
      simp only at h
      split at h
      · cases h
      cases entry with
      | error message => cases h
      | ok p =>
        rcases List.mem_cons.mp he' with rfl | he'
        · exact .inr ⟨p, hpart⟩
        · simp only at h
          split at h <;> exact ih h e' he'

theorem quoteAround_spec {prec succ : Quoting.Text} {q : Quote} (h : quoteAround prec succ = some q) :
    prec.dropLast ++ [q.char] = prec ∧ succ.head? = some q.char := by
  have hsplit : ∀ c, prec.getLast? = some c → prec.dropLast ++ [c] = prec := fun c hc =>
    List.dropLast_append_getLast? c (Option.mem_def.mpr hc)
  unfold quoteAround at h
  split_ifs at h with hsingle hdouble
  · obtain rfl := Option.some.inj h
    exact ⟨hsplit _ hsingle.1, hsingle.2⟩
  · obtain rfl := Option.some.inj h
    exact ⟨hsplit _ hdouble.1, hdouble.2⟩

theorem originalText_head {V : Variant} {val : Expr → SqlValue} {elements : List Expr} {t : Quoting.Text} {c : Char}
    (h : originalText V val elements = some t) (hnext : (nextText V elements).head? = some c) :
    c :: t.drop 1 = t := by
  cases elements with
  | nil => cases hnext
  | cons e rest =>
    rw [nextText] at hnext
    rw [originalText] at h
    cases hpart : V.part e with
    | text s =>
      rw [hpart] at h hnext
      obtain ⟨u, hu, h⟩ := Option.bind_eq_some_iff.mp h
      obtain ⟨r, -, rfl⟩ := Option.map_eq_some_iff.mp h
      obtain rfl := Option.some.inj hu
      obtain ⟨s', rfl⟩ := List.head?_eq_some_iff.mp hnext
      rfl
    | hole entry =>
      rw [hpart] at hnext
      cases hnext
    | unsupported message =>
      rw [hpart] at hnext
      cases hnext

theorem original_spotsFrom {V : Variant} {val : Expr → SqlValue} {elements : List Expr} {t before : Quoting.Text}
    {skip : Bool} (haccepted : Accepted V elements)
    (hformatted : ∀ place ∈ holes (spotsFrom V before skip elements), V.AsFormatted place.1 place.2)
    (hskip : skip = true → nextText V elements ≠ []) (h : originalText V val elements = some t) :
    original (fun place : Expr × Expr => val place.2) (spotsFrom V before skip elements) =
      before ++ if skip then t.drop 1 else t := by
  induction elements generalizing t before skip with
  | nil =>
    obtain rfl := Option.some.inj h
    rw [spotsFrom, original_plainText]
    cases skip <;> simp
  | cons e rest ih =>
    have haccepted' : Accepted V rest := fun e' he' => haccepted e' (List.mem_cons_of_mem _ he')
    rw [originalText] at h
    rw [spotsFrom] at hformatted ⊢
    rcases haccepted e List.mem_cons_self with ⟨s, hpart⟩ | ⟨p, hpart⟩
    · rw [hpart] at h
      obtain ⟨u, hu, h⟩ := Option.bind_eq_some_iff.mp h
      obtain ⟨r, hr, rfl⟩ := Option.map_eq_some_iff.mp h
      obtain rfl := Option.some.inj hu
      simp only [hpart, holes_append, holes_plainText, List.nil_append] at hformatted ⊢
      rw [original_append, original_plainText, ih haccepted' hformatted (fun hno => by cases hno) hr]
      cases skip with
      | false => simp
      | true =>
        have hne : s ≠ [] := by
          have := hskip rfl
          rwa [nextText, hpart] at this
        obtain ⟨c, s', rfl⟩ := List.exists_cons_of_ne_nil hne
        simp
    · rw [hpart] at h
      obtain ⟨u, hu, h⟩ := Option.bind_eq_some_iff.mp h
      obtain ⟨r, hr, rfl⟩ := Option.map_eq_some_iff.mp h
      have hnoskip : skip = false := by
        cases skip with
        | false => rfl
        | true => exact absurd (by rw [nextText, hpart]) (hskip rfl)
      subst hnoskip
      simp only [hpart] at hformatted ⊢
      cases hquote : quoteAround before (nextText V rest) with
      | some q =>
        obtain ⟨hbefore, hsucc⟩ := quoteAround_spec hquote
        simp only [hquote, holes_append, holes_plainText, List.nil_append, holes] at hformatted ⊢
        have hshown := V.shown_of_formatted (hformatted (e, p) List.mem_cons_self) hu
        have hne : nextText V rest ≠ [] := by
          intro hnil
          rw [hnil] at hsucc
          cases hsucc
        rw [original_append, original_plainText, original, ih haccepted'
          (fun place hplace => hformatted place (List.mem_cons_of_mem _ hplace)) (fun _ => hne) hr, ← hshown]
        have htext := originalText_head hr hsucc
        calc before.dropLast ++
              (quoteText (some q) ++ u ++ quoteText (some q) ++ ([] ++ if true then r.drop 1 else r))
            = (before.dropLast ++ [q.char]) ++ (u ++ (q.char :: r.drop 1)) := by simp [quoteText]
          _ = before ++ (u ++ r) := by rw [hbefore, htext]
      | none =>
        simp only [hquote, holes_append, holes_plainText, List.nil_append, holes] at hformatted ⊢
        have hshown := V.shown_of_formatted (hformatted (e, p) List.mem_cons_self) hu
        rw [original_append, original_plainText, original, ih haccepted'
          (fun place hplace => hformatted place (List.mem_cons_of_mem _ hplace)) (fun hno => by cases hno) hr,
          ← hshown]
        simp [quoteText]

/-! ## The meaning of the statement -/

theorem length_literals {vs : List SqlValue} {ws : List Quoting.Text} (h : List.Forall₂ Literal vs ws) :
    ws.length = vs.length := h.length_eq.symm

structure Assembled (V : Variant) (elements : List Expr) (fragments : List Fragment) (params : List Expr) :
    Prop where
  accepted : Accepted V elements
  sent : emitted fragments = sent (spotsOf V elements)
  params : params = (holes (spotsOf V elements)).map Prod.snd
  interpolated : (holes (spotsOf V elements)).map Prod.fst = interpolated V elements

theorem assembled_of_decompose {query : Query} {fragments : List Fragment} {params : List Expr}
    (h : query.decompose = .ok (fragments, params)) :
    Assembled query.variant query.elements fragments params := by
  unfold Query.decompose at h
  split at h
  · cases h
  next fs ps hloop =>
    split at h
    · cases h
    obtain ⟨rfl, rfl⟩ := Prod.mk.inj (Except.ok.inj h)
    obtain ⟨hsent, hparams, hplaces⟩ := decomposeLoop_eq .nil hloop
    exact ⟨accepted_of_loop hloop, hsent, hparams, hplaces⟩

section
variable {V : Variant} {elements : List Expr} {fragments : List Fragment} {params : List Expr} {val : Expr → SqlValue}

theorem listed_iff (h : Assembled V elements fragments params) :
    List.Forall₂ V.AsFormatted (interpolated V elements) params ↔
      ∀ place ∈ holes (spotsOf V elements), V.AsFormatted place.1 place.2 := by
  rw [h.params, ← h.interpolated, List.forall₂_map_left_iff, List.forall₂_map_right_iff, List.forall₂_same]

theorem outside_counted_iff (h : Assembled V elements fragments params) :
    Outside none (emitted fragments) ∧ seen none (joinedText fragments) = params.length ↔
      Placed none (spotsOf V elements) := by
  rw [joinedText_eq, h.sent, h.params, List.length_map]
  exact placed_iff

theorem literals_iff (h : Assembled V elements fragments params) (ws : List Quoting.Text) :
    List.Forall₂ Literal (params.map val) ws ↔
      List.Forall₂ Literal ((holes (spotsOf V elements)).map fun place => val place.2) ws := by
  rw [h.params, List.map_map]
  rfl

theorem quoteFree_iff (h : Assembled V elements fragments params) :
    (∀ p ∈ params, (val p).QuoteFree) ↔ ∀ place ∈ holes (spotsOf V elements), (val place.2).QuoteFree := by
  rw [h.params, List.forall_mem_map]

theorem fill_assembled (h : Assembled V elements fragments params) (hplaced : Placed none (spotsOf V elements))
    {ws : List Quoting.Text} (hws : List.Forall₂ Literal (params.map val) ws) :
    fill none (joinedText fragments) ws = some (filled (spotsOf V elements) ws) := by
  rw [joinedText_eq, h.sent]
  refine fill_sent hplaced ?_
  rw [length_literals hws, h.params, List.map_map, List.length_map]

theorem original_assembled (h : Assembled V elements fragments params)
    (hformatted : ∀ place ∈ holes (spotsOf V elements), V.AsFormatted place.1 place.2) {t : Quoting.Text}
    (ht : originalText V val elements = some t) :
    original (fun place : Expr × Expr => val place.2) (spotsOf V elements) = t :=
  original_spotsFrom h.accepted hformatted (fun hno => by cases hno) ht

end

/-- An accepted query keeps its meaning just where its values can be bound. -/
theorem parameterized_iff {query : Query} (val : Expr → SqlValue) {fragments : List Fragment} {params : List Expr}
    (h : query.decompose = .ok (fragments, params)) :
    Parameterized query.variant query.elements val fragments params ↔
      Bindable query.variant query.elements val := by
  have hassembled := assembled_of_decompose h
  constructor
  · rintro ⟨houtside, hcounted, hlisted, hrestored⟩
    have hformatted := (listed_iff hassembled).mp hlisted
    have hplaced := (outside_counted_iff hassembled).mp ⟨houtside, hcounted⟩
    refine ⟨hformatted, hplaced, fun t ht hfree => ?_⟩
    obtain ⟨ws, hws, hfill⟩ := hrestored t ht ((quoteFree_iff hassembled).mpr hfree)
    rw [fill_assembled hassembled hplaced hws] at hfill
    have hfilled := Option.some.inj hfill
    rw [← original_assembled hassembled hformatted ht] at hfilled
    exact typed_of_filled ((literals_iff hassembled ws).mp hws) hfree hfilled.symm
  · rintro ⟨hformatted, hplaced, htyped⟩
    obtain ⟨houtside, hcounted⟩ := (outside_counted_iff hassembled).mpr hplaced
    refine ⟨houtside, hcounted, (listed_iff hassembled).mpr hformatted, fun t ht hfree => ?_⟩
    obtain ⟨ws, hws, hfilled⟩ := exists_filled (htyped t ht ((quoteFree_iff hassembled).mp hfree))
    have hws' := (literals_iff hassembled ws).mpr hws
    refine ⟨ws, hws', ?_⟩
    rw [fill_assembled hassembled hplaced hws', hfilled, original_assembled hassembled hformatted ht]

namespace LikePattern

def nameValue : Expr := .name {} "name" .load

def text (s : String) : Expr := .constant {} (.str s)

/-- `f"SELECT id FROM users WHERE name LIKE '%{name}%'"`. -/
def query : Query :=
  .joinedStr [text "SELECT id FROM users WHERE name LIKE '%", .formattedValue {} nameValue none none, text "%'"]

/-- `f"SELECT id FROM users WHERE name = '{name}'"`. -/
def plainQuery : Query :=
  .joinedStr [text "SELECT id FROM users WHERE name = '", .formattedValue {} nameValue none none, text "'"]

def fragments : List Fragment :=
  [.text "SELECT id FROM users WHERE name LIKE '%".toList, .placeholder, .text "%'".toList]

theorem decompose_query : query.decompose = .ok (fragments, [nameValue]) := by
  rfl

def plainFragments : List Fragment :=
  [.text "SELECT id FROM users WHERE name = ".toList, .placeholder, .text []]

theorem parameterized_iff_plain :
    Parameterized plainQuery.variant plainQuery.elements (fun _ => .text "bob".toList) plainFragments [nameValue] ↔
      Bindable plainQuery.variant plainQuery.elements fun _ => .text "bob".toList :=
  parameterized_iff (fun _ => .text "bob".toList) rfl

end LikePattern

/-- A value in a pattern becomes a question mark in a literal. -/
theorem placeholder_in_literal : ¬∀ (query : Query) (val : Expr → SqlValue) (fragments : List Fragment)
    (params : List Expr), query.decompose = .ok (fragments, params) →
      Parameterized query.variant query.elements val fragments params := by
  intro h
  have houtside := (h LikePattern.query (fun _ => .text []) _ _ LikePattern.decompose_query).outside
  have hrun := houtside ("SELECT id FROM users WHERE name LIKE '%".toList.map some) ("%'".toList.map some) rfl
  cases hrun

end TimeCodeSecurity.Remediation
