import Mathlib.Data.Finset.Card

/-! # Following a map

From a key to the key its entry names, and on from there, until a key has no entry, its entry names no
further key, or a key comes a second time.
-/
namespace TimeCodeSecurity.Chase
set_option autoImplicit false

variable {α β : Type} (entry : α → Option (β × Option α))

def chase [DecidableEq α] : ℕ → List α → α → List (α × β) × α
  | 0, _, a => ([], a)
  | fuel + 1, visited, a =>
    if a ∈ visited then ([], a)
    else
      match entry a with
      | none => ([], a)
      | some (b, none) => ([(a, b)], a)
      | some (b, some next) =>
        let r := chase fuel (a :: visited) next
        ((a, b) :: r.1, r.2)

inductive Leads : α → List (α × β) → α → Prop
  | done {a} (h : entry a = none) : Leads a [] a
  | step {a b next L last} (h : entry a = some (b, some next)) (hrest : Leads next L last) :
      Leads a ((a, b) :: L) last

variable {entry}

theorem Leads.last_free {a last : α} {L : List (α × β)} (h : Leads entry a L last) : entry last = none := by
  induction h with
  | done h => exact h
  | step _ _ ih => exact ih

theorem Leads.unique {a last last' : α} {L L' : List (α × β)} (h : Leads entry a L last)
    (h' : Leads entry a L' last') : L = L' ∧ last = last' := by
  induction h generalizing L' with
  | done hnone =>
    cases h' with
    | done => exact ⟨rfl, rfl⟩
    | step hsome =>
      rw [hnone] at hsome
      cases hsome
  | step hsome hrest ih =>
    cases h' with
    | done hnone =>
      rw [hnone] at hsome
      cases hsome
    | step hsome' hrest' =>
      rw [hsome] at hsome'
      cases hsome'
      obtain ⟨rfl, rfl⟩ := ih hrest'
      exact ⟨rfl, rfl⟩

theorem Leads.tail {a last x : α} {L : List (α × β)} (h : Leads entry a L last)
    (hx : x ∈ L.map Prod.fst) : ∃ L', Leads entry x L' last ∧ L'.length ≤ L.length := by
  induction h with
  | done => cases hx
  | @step a b next L last hsome hrest ih =>
    rcases List.mem_cons.mp hx with rfl | hx
    · exact ⟨_, .step hsome hrest, le_rfl⟩
    · obtain ⟨L', hL', hle⟩ := ih hx
      exact ⟨L', hL', hle.trans (Nat.le_succ _)⟩

theorem Leads.nodup {a last : α} {L : List (α × β)} (h : Leads entry a L last) :
    (L.map Prod.fst).Nodup := by
  induction h with
  | done => exact List.nodup_nil
  | @step a b next L last hsome hrest ih =>
    refine List.nodup_cons.mpr ⟨fun hmem => ?_, ih⟩
    obtain ⟨L', hL', hle⟩ := hrest.tail hmem
    obtain ⟨rfl, -⟩ := hL'.unique (.step hsome hrest)
    rw [List.length_cons] at hle
    omega

theorem Leads.has_entry {a last x : α} {L : List (α × β)} (h : Leads entry a L last)
    (hx : x ∈ L.map Prod.fst) : entry x ≠ none := by
  induction h with
  | done => cases hx
  | step hsome _ ih =>
    rcases List.mem_cons.mp hx with rfl | hx
    · simp [hsome]
    · exact ih hx

variable [DecidableEq α]

theorem chase_of_leads {a last : α} {L : List (α × β)} (h : Leads entry a L last) {visited : List α}
    (hvisited : ∀ x ∈ L.map Prod.fst, x ∉ visited) {fuel : ℕ} (hfuel : L.length ≤ fuel) :
    chase entry fuel visited a = (L, last) := by
  induction h generalizing visited fuel with
  | done hnone =>
    cases fuel with
    | zero => rfl
    | succ fuel => simp [chase, hnone]
  | @step a b next L last hsome hrest ih =>
    obtain _ | fuel := fuel
    · simp at hfuel
    have hnodup := (Leads.step hsome hrest).nodup
    rw [List.map_cons, List.nodup_cons] at hnodup
    have hfresh : ∀ x ∈ L.map Prod.fst, x ∉ a :: visited := by
      intro x hx hmem
      rcases List.mem_cons.mp hmem with rfl | hmem
      · exact hnodup.1 hx
      · exact hvisited x (List.mem_cons_of_mem _ hx) hmem
    have ha : a ∉ visited := hvisited a List.mem_cons_self
    have hlen : L.length ≤ fuel := by simpa using hfuel
    simp [chase, ha, hsome, ih hfresh hlen]

theorem leads_of_chase {fuel : ℕ} {visited : List α} {a : α}
    (h : entry (chase entry fuel visited a).2 = none) :
    Leads entry a (chase entry fuel visited a).1 (chase entry fuel visited a).2 := by
  induction fuel generalizing visited a with
  | zero => exact .done h
  | succ fuel ih =>
    by_cases ha : a ∈ visited
    · simp only [chase, ha, if_true] at h ⊢
      exact .done h
    · cases hentry : entry a with
      | none =>
        simp only [chase, ha, hentry, if_false]
        exact .done hentry
      | some p =>
        obtain ⟨b, next⟩ := p
        cases next with
        | none =>
          simp only [chase, ha, hentry, if_false] at h
          cases h
        | some next =>
          simp only [chase, ha, hentry, if_false] at h ⊢
          exact .step hentry (ih h)

theorem entry_of_mem_chase {fuel : ℕ} {visited : List α} {a x : α} {b : β}
    (h : (x, b) ∈ (chase entry fuel visited a).1) : ∃ next, entry x = some (b, next) := by
  induction fuel generalizing visited a with
  | zero => cases h
  | succ fuel ih =>
    rw [chase] at h
    split_ifs at h
    · cases h
    · split at h
      · cases h
      next b' hentry =>
        obtain ⟨rfl, rfl⟩ := Prod.mk.inj (List.mem_singleton.mp h)
        exact ⟨none, hentry⟩
      next b' next hentry =>
        rcases List.mem_cons.mp h with heq | h
        · obtain ⟨rfl, rfl⟩ := Prod.mk.inj heq
          exact ⟨some next, hentry⟩
        · exact ih h

end TimeCodeSecurity.Chase

/-! ## Trails through lists of edges

A list of edges over identifiers, and what can be reached along them. `consecutive` joins every item
of a list to the next one.
-/
namespace Trails

variable {α : Type}

def Joined (edges : List (α × α)) (a b : α) : Prop := (a, b) ∈ edges

def Reaches (edges : List (α × α)) : α → α → Prop := Relation.ReflTransGen (Joined edges)

theorem Reaches.mono {edges edges' : List (α × α)} (h : ∀ e ∈ edges, e ∈ edges') {a b : α}
    (hab : Reaches edges a b) : Reaches edges' a b :=
  Relation.ReflTransGen.mono (fun x y hxy => h (x, y) hxy) a b hab

theorem reaches_congr {edges edges' : List (α × α)} (h : ∀ e, e ∈ edges ↔ e ∈ edges') {a b : α} :
    Reaches edges a b ↔ Reaches edges' a b :=
  ⟨Reaches.mono fun e he => (h e).mp he, Reaches.mono fun e he => (h e).mpr he⟩

theorem mem_of_reaches {edges : List (α × α)} {p : α → Prop} (hclosed : ∀ e ∈ edges, p e.1 → p e.2)
    {a b : α} (hab : Reaches edges a b) (ha : p a) : p b := by
  induction hab with
  | refl => exact ha
  | tail _ hstep ih => exact hclosed _ hstep ih

def consecutive (l : List α) : List (α × α) := l.zip l.tail

theorem consecutive_cons (a b : α) (l : List α) :
    consecutive (a :: b :: l) = (a, b) :: consecutive (b :: l) := rfl

theorem mem_of_mem_consecutive {l : List α} {e : α × α} (h : e ∈ consecutive l) :
    e.1 ∈ l ∧ e.2 ∈ l := by
  obtain ⟨h1, h2⟩ := List.of_mem_zip h
  exact ⟨h1, List.mem_of_mem_tail h2⟩

theorem consecutive_map {β : Type} (f : α → β) (l : List α) :
    consecutive (l.map f) = (consecutive l).map (Prod.map f f) := by
  rw [consecutive, ← List.map_tail, List.zip_map, consecutive]

theorem consecutive_concat {l : List α} {a b : α} (h : l.getLast? = some a) :
    consecutive (l ++ [b]) = consecutive l ++ [(a, b)] := by
  induction l with
  | nil => cases h
  | cons c l ih =>
    cases l with
    | nil =>
      obtain rfl : c = a := by simpa using h
      rfl
    | cons d l =>
      have hlast : (d :: l).getLast? = some a := by simpa using h
      calc consecutive (c :: d :: l ++ [b]) = (c, d) :: consecutive (d :: l ++ [b]) := rfl
        _ = (c, d) :: (consecutive (d :: l) ++ [(a, b)]) := by rw [ih hlast]
        _ = consecutive (c :: d :: l) ++ [(a, b)] := rfl

theorem reaches_consecutive (l : List α) (a : α) {b : α} (h : (a :: l).getLast? = some b) :
    Reaches (consecutive (a :: l)) a b := by
  induction l generalizing a with
  | nil =>
    obtain rfl : a = b := by simpa using h
    exact .refl
  | cons c l ih =>
    have hrest : Reaches (consecutive (c :: l)) c b := ih c (by simpa using h)
    have hstep : Joined (consecutive (a :: c :: l)) a c := List.mem_cons_self
    refine .head hstep (hrest.mono fun e he => ?_)
    rw [consecutive_cons]
    exact List.mem_cons_of_mem _ he

theorem reaches_of_reaches_cons {edges : List (α × α)} {a b goal : α}
    (hout : ∀ y, (a, y) ∉ edges) (hgoal : a ≠ goal) :
    Reaches ((a, b) :: edges) a goal ↔ Reaches edges b goal := by
  constructor
  · intro h
    -- from anywhere, the goal is reached without the new edge or it is reached from `b`
    have hall : ∀ x, Reaches ((a, b) :: edges) x goal → Reaches edges x goal ∨ Reaches edges b goal := by
      intro x hx
      induction hx using Relation.ReflTransGen.head_induction_on with
      | refl => exact .inl .refl
      | head hxy _ ih =>
        rcases List.mem_cons.mp hxy with heq | hmem
        · obtain ⟨rfl, rfl⟩ := Prod.mk.inj heq
          rcases ih with ih | ih
          · exact .inr ih
          · exact .inr ih
        · rcases ih with ih | ih
          · exact .inl (.head hmem ih)
          · exact .inr ih
    rcases hall a h with hfrom | hfrom
    · rcases Relation.ReflTransGen.cases_head hfrom with heq | ⟨y, hy, -⟩
      · exact absurd heq hgoal
      · exact absurd hy (hout y)
    · exact hfrom
  · intro h
    exact .head List.mem_cons_self (h.mono fun e he => List.mem_cons_of_mem _ he)

end Trails
