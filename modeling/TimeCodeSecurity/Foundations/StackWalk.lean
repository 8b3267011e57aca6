import Mathlib.Data.List.Nodup
import Mathlib.Data.List.Perm.Subperm

/-! # A walk guarded by its own stack

Nodes have bodies of leaves and links; a link is followed unless it leads back into the stack, and a node
without a body is reported. Fuel above the number of nodes with a body is enough, a leaf is met once for
each way that leads to it, and the two kinds of report are there exactly when a cycle or a node without a
body can be reached.
-/
namespace StackWalk
set_option autoImplicit false

variable {α ι : Type}

/-- What the walk meets, in order. -/
inductive Event (α ι : Type)
  | leaf (x : ι)
  | circular (stack : List α) (a : α)
  | missing (a : α)
deriving DecidableEq, Repr

def walkItems (follow : α → Option (List (Event α ι))) : List (ι ⊕ α) → Option (List (Event α ι))
  | [] => some []
  | .inl x :: items => (walkItems follow items).map (.leaf x :: ·)
  | .inr b :: items => (follow b).bind fun events => (walkItems follow items).map (events ++ ·)

section
variable [DecidableEq α] (body : α → Option (List (ι ⊕ α)))

def walk : ℕ → List α → α → Option (List (Event α ι))
  | 0, _, _ => none
  | fuel + 1, stack, a =>
    if a ∈ stack then some [.circular stack a]
    else
      match body a with
      | none => some [.missing a]
      | some items => walkItems (walk fuel (stack ++ [a])) items

end

section
variable (body : α → Option (List (ι ⊕ α)))

def Links (a b : α) : Prop := ∃ items, body a = some items ∧ .inr b ∈ items

def LoopsFrom (a : α) : Prop :=
  ∃ v, Relation.ReflTransGen (Links body) a v ∧ Relation.TransGen (Links body) v v

def MissesFrom (a : α) : Prop := ∃ m, Relation.ReflTransGen (Links body) a m ∧ body m = none

inductive Expands : List (ι ⊕ α) → List ι → Prop
  | nil : Expands [] []
  | leaf {items : List (ι ⊕ α)} {xs : List ι} (x : ι) :
      Expands items xs → Expands (.inl x :: items) (x :: xs)
  | link {items inner : List (ι ⊕ α)} {xs ys : List ι} {b : α} : body b = some inner →
      Expands inner ys → Expands items xs → Expands (.inr b :: items) (ys ++ xs)

variable {body}

theorem Expands.unique {items : List (ι ⊕ α)} {xs : List ι} (h : Expands body items xs) :
    ∀ {ys : List ι}, Expands body items ys → xs = ys := by
  induction h with
  | nil =>
    intro ys hys
    cases hys
    rfl
  | leaf x _ ih =>
    intro ys hys
    cases hys with
    | leaf _ hrest => rw [ih hrest]
  | link hbody _ _ ihinner ih =>
    intro ys hys
    cases hys with
    | link hbody' hinner hrest =>
      obtain rfl := Option.some.inj (hbody.symm.trans hbody')
      rw [ihinner hinner, ih hrest]

theorem LoopsFrom.of_link {a b : α} (hab : Links body a b) (h : LoopsFrom body b) : LoopsFrom body a := by
  obtain ⟨v, hv, hcycle⟩ := h
  exact ⟨v, .head hab hv, hcycle⟩

theorem MissesFrom.of_link {a b : α} (hab : Links body a b) (h : MissesFrom body b) :
    MissesFrom body a := by
  obtain ⟨m, hm, hnone⟩ := h
  exact ⟨m, .head hab hm, hnone⟩

end

/-! ## One body -/

theorem mem_walkItems {follow : α → Option (List (Event α ι))} {e : Event α ι} :
    ∀ {items : List (ι ⊕ α)} {events : List (Event α ι)}, walkItems follow items = some events →
      (e ∈ events ↔ (∃ x, .inl x ∈ items ∧ e = .leaf x) ∨
        ∃ b inner, .inr b ∈ items ∧ follow b = some inner ∧ e ∈ inner)
  | [], events, h => by
    cases h
    simp
  | .inl x :: items, events, h => by
    obtain ⟨rest, hrest, rfl⟩ := Option.map_eq_some_iff.mp h
    rw [List.mem_cons, mem_walkItems hrest]
    simp only [List.mem_cons, Sum.inl.injEq, reduceCtorEq, false_or]
    constructor
    · rintro (rfl | ⟨y, hy, rfl⟩ | hlink)
      · exact .inl ⟨x, .inl rfl, rfl⟩
      · exact .inl ⟨y, .inr hy, rfl⟩
      · exact .inr hlink
    · rintro (⟨y, rfl | hy, rfl⟩ | hlink)
      · exact .inl rfl
      · exact .inr (.inl ⟨y, hy, rfl⟩)
      · exact .inr (.inr hlink)
  | .inr b :: items, events, h => by
    obtain ⟨inner, hinner, h⟩ := Option.bind_eq_some_iff.mp h
    obtain ⟨rest, hrest, rfl⟩ := Option.map_eq_some_iff.mp h
    rw [List.mem_append, mem_walkItems hrest]
    simp only [List.mem_cons, Sum.inr.injEq, reduceCtorEq, false_or]
    constructor
    · rintro (he | hleaf | ⟨c, cs, hc, hcs, he⟩)
      · exact .inr ⟨b, inner, .inl rfl, hinner, he⟩
      · exact .inl hleaf
      · exact .inr ⟨c, cs, .inr hc, hcs, he⟩
    · rintro (hleaf | ⟨c, cs, rfl | hc, hcs, he⟩)
      · exact .inr (.inl hleaf)
      · obtain rfl := Option.some.inj (hinner.symm.trans hcs)
        exact .inl he
      · exact .inr (.inr ⟨c, cs, hc, hcs, he⟩)

theorem walkItems_isSome {follow : α → Option (List (Event α ι))} :
    ∀ {items : List (ι ⊕ α)}, (∀ b, .inr b ∈ items → (follow b).isSome) →
      (walkItems follow items).isSome
  | [], _ => rfl
  | .inl x :: items, h => by
    have ih := walkItems_isSome fun b hb => h b (List.mem_cons_of_mem _ hb)
    simpa [walkItems] using ih
  | .inr b :: items, h => by
    have ih := walkItems_isSome fun c hc => h c (List.mem_cons_of_mem _ hc)
    obtain ⟨events, hevents⟩ := Option.isSome_iff_exists.mp (h b List.mem_cons_self)
    simpa [walkItems, hevents] using ih

theorem walkItems_mono {follow follow' : α → Option (List (Event α ι))}
    (h : ∀ b events, follow b = some events → follow' b = some events) :
    ∀ {items : List (ι ⊕ α)} {events : List (Event α ι)}, walkItems follow items = some events →
      walkItems follow' items = some events
  | [], _, hwalk => hwalk
  | .inl x :: items, _, hwalk => by
    obtain ⟨rest, hrest, rfl⟩ := Option.map_eq_some_iff.mp hwalk
    rw [walkItems, walkItems_mono h hrest, Option.map_some]
  | .inr b :: items, _, hwalk => by
    obtain ⟨inner, hinner, hwalk⟩ := Option.bind_eq_some_iff.mp hwalk
    obtain ⟨rest, hrest, rfl⟩ := Option.map_eq_some_iff.mp hwalk
    rw [walkItems, h b inner hinner, walkItems_mono h hrest, Option.bind_some, Option.map_some]

theorem exists_followed {follow : α → Option (List (Event α ι))} {b : α} :
    ∀ {items : List (ι ⊕ α)} {events : List (Event α ι)}, walkItems follow items = some events →
      .inr b ∈ items → ∃ inner, follow b = some inner ∧ ∀ e ∈ inner, e ∈ events
  | .inl x :: items, _, h, hb => by
    obtain ⟨rest, hrest, rfl⟩ := Option.map_eq_some_iff.mp h
    obtain ⟨inner, hinner, hsub⟩ := exists_followed hrest (by simpa using hb)
    exact ⟨inner, hinner, fun e he => List.mem_cons_of_mem _ (hsub e he)⟩
  | .inr c :: items, _, h, hb => by
    obtain ⟨first, hfirst, h⟩ := Option.bind_eq_some_iff.mp h
    obtain ⟨rest, hrest, rfl⟩ := Option.map_eq_some_iff.mp h
    rcases List.mem_cons.mp hb with heq | hb
    · obtain rfl := Sum.inr.inj heq
      exact ⟨first, hfirst, fun e he => List.mem_append_left _ he⟩
    · obtain ⟨inner, hinner, hsub⟩ := exists_followed hrest hb
      exact ⟨inner, hinner, fun e he => List.mem_append_right _ (hsub e he)⟩

section
variable [DecidableEq α] {body : α → Option (List (ι ⊕ α))}

inductive Answer (body : α → Option (List (ι ⊕ α))) (fuel : ℕ) (stack : List α) (a : α)
    (events : List (Event α ι)) : Prop
  | circular (hmem : a ∈ stack) (hevents : events = [.circular stack a])
  | missing (hnew : a ∉ stack) (hbody : body a = none) (hevents : events = [.missing a])
  | entered (items : List (ι ⊕ α)) (hnew : a ∉ stack) (hbody : body a = some items)
      (hitems : walkItems (walk body fuel (stack ++ [a])) items = some events)

theorem answer_of_walk {fuel : ℕ} {stack : List α} {a : α} {events : List (Event α ι)}
    (h : walk body (fuel + 1) stack a = some events) : Answer body fuel stack a events := by
  unfold walk at h
  by_cases hmem : a ∈ stack
  · rw [if_pos hmem] at h
    exact .circular hmem (Option.some.inj h).symm
  · rw [if_neg hmem] at h
    cases hbody : body a with
    | none =>
      rw [hbody] at h
      exact .missing hmem hbody (Option.some.inj h).symm
    | some items =>
      rw [hbody] at h
      exact .entered items hmem hbody h

theorem walk_isSome {nodes : List α} (hnodes : ∀ a, body a ≠ none → a ∈ nodes) :
    ∀ {fuel : ℕ} {stack : List α} (a : α), stack.Nodup → (∀ b ∈ stack, b ∈ nodes) →
      nodes.length < stack.length + fuel → (walk body fuel stack a).isSome
  | 0, stack, _, hnodup, hsub, hfuel => by
    have hlength := (hnodup.subperm hsub).length_le
    omega
  | fuel + 1, stack, a, hnodup, hsub, hfuel => by
    unfold walk
    by_cases hmem : a ∈ stack
    · rw [if_pos hmem]
      rfl
    rw [if_neg hmem]
    cases hbody : body a with
    | none => rfl
    | some items =>
      apply walkItems_isSome
      intro b _
      apply walk_isSome hnodes b
      · rw [← List.concat_eq_append]
        exact hnodup.concat hmem
      · intro c hc
        rcases List.mem_append.mp hc with hc | hc
        · exact hsub c hc
        · rw [List.mem_singleton.mp hc]
          exact hnodes a (by rw [hbody]; exact Option.some_ne_none items)
      · rw [List.length_append, List.length_singleton]
        omega

theorem walk_succ_of_eq_some : ∀ {fuel : ℕ} {stack : List α} {a : α} {events : List (Event α ι)},
    walk body fuel stack a = some events → walk body (fuel + 1) stack a = some events
  | fuel + 1, stack, a, events, h => by
    cases answer_of_walk h with
    | circular hmem hevents => rw [walk, if_pos hmem, hevents]
    | missing hnew hbody hevents =>
      rw [walk, if_neg hnew, hbody, hevents]
    | entered items hnew hbody hitems =>
      rw [walk, if_neg hnew, hbody]
      exact walkItems_mono (fun b inner hb => walk_succ_of_eq_some hb) hitems

theorem walk_of_le {fuel fuel' : ℕ} {stack : List α} {a : α} {events : List (Event α ι)}
    (h : walk body fuel stack a = some events) (hle : fuel ≤ fuel') :
    walk body fuel' stack a = some events := by
  induction hle with
  | refl => exact h
  | step _ ih => exact walk_succ_of_eq_some ih

theorem loopsFrom_of_circular : ∀ {fuel : ℕ} {stack : List α} {a : α} {events : List (Event α ι)},
    walk body fuel stack a = some events → (∀ x ∈ stack, Relation.TransGen (Links body) x a) →
      (∃ s b, .circular s b ∈ events) → LoopsFrom body a
  | fuel + 1, stack, a, events, h, hstack, ⟨s, b, hevent⟩ => by
    cases answer_of_walk h with
    | circular hmem _ => exact ⟨a, .refl, hstack a hmem⟩
    | missing _ _ hevents =>
      rw [hevents] at hevent
      simp at hevent
    | entered items hnew hbody hitems =>
      rcases (mem_walkItems hitems).mp hevent with ⟨x, _, hx⟩ | ⟨c, inner, hc, hinner, hevent⟩
      · cases hx
      have hlink : Links body a c := ⟨items, hbody, hc⟩
      apply LoopsFrom.of_link hlink
      apply loopsFrom_of_circular hinner _ ⟨s, b, hevent⟩
      intro x hx
      rcases List.mem_append.mp hx with hx | hx
      · exact (hstack x hx).tail hlink
      · rw [List.mem_singleton.mp hx]
        exact .single hlink

theorem missesFrom_of_missing : ∀ {fuel : ℕ} {stack : List α} {a : α} {events : List (Event α ι)},
    walk body fuel stack a = some events → (∃ m, .missing m ∈ events) → MissesFrom body a
  | fuel + 1, stack, a, events, h, ⟨m, hevent⟩ => by
    cases answer_of_walk h with
    | circular _ hevents =>
      rw [hevents] at hevent
      simp at hevent
    | missing _ hbody _ => exact ⟨a, .refl, hbody⟩
    | entered items _ hbody hitems =>
      rcases (mem_walkItems hitems).mp hevent with ⟨x, _, hx⟩ | ⟨c, inner, hc, hinner, hevent⟩
      · cases hx
      exact .of_link ⟨items, hbody, hc⟩ (missesFrom_of_missing hinner ⟨m, hevent⟩)

/-! ## Reports are complete -/

theorem free_of_not_circular : ∀ {fuel : ℕ} {stack : List α} {a : α} {events : List (Event α ι)},
    walk body fuel stack a = some events → (∀ s b, .circular s b ∉ events) →
      ∀ v, Relation.ReflTransGen (Links body) a v → v ∉ stack ∧ ¬Relation.TransGen (Links body) v v
  | fuel + 1, stack, a, events, h, hnone, v, hv => by
    cases answer_of_walk h with
    | circular _ hevents => exact absurd (hevents ▸ List.mem_singleton_self _) (hnone stack a)
    | missing hnew hbody _ =>
      have hend : ∀ c, ¬Links body a c := by
        rintro c ⟨items, hitems, -⟩
        rw [hbody] at hitems
        cases hitems
      rcases Relation.ReflTransGen.cases_head hv with rfl | ⟨c, hc, -⟩
      · refine ⟨hnew, fun hcycle => ?_⟩
        obtain ⟨c, hc, -⟩ := Relation.TransGen.head'_iff.mp hcycle
        exact hend c hc
      · exact absurd hc (hend c)
    | entered items hnew hbody hitems =>
      have hbelow : ∀ c, Links body a c → ∀ w, Relation.ReflTransGen (Links body) c w →
          w ∉ stack ++ [a] ∧ ¬Relation.TransGen (Links body) w w := by
        intro c hlink
        obtain ⟨items', hbody', hc⟩ := hlink
        obtain rfl := Option.some.inj (hbody.symm.trans hbody')
        obtain ⟨inner, hinner, hsub⟩ := exists_followed hitems hc
        exact free_of_not_circular hinner fun s b hb => hnone s b (hsub _ hb)
      rcases Relation.ReflTransGen.cases_head hv with rfl | ⟨c, hc, hcv⟩
      · refine ⟨hnew, fun hcycle => ?_⟩
        obtain ⟨c, hc, hback⟩ := Relation.TransGen.head'_iff.mp hcycle
        exact (hbelow c hc a hback).1 (by simp)
      · obtain ⟨hstack, hcycle⟩ := hbelow c hc v hcv
        exact ⟨fun hmem => hstack (List.mem_append_left _ hmem), hcycle⟩

omit [DecidableEq α] in
theorem exists_last_visit {links : α → α → Prop} {avoid : List α} {a m : α} (ham : a ≠ m) {x : α}
    (h : Relation.ReflTransGen (fun y z => links y z ∧ z ∉ avoid) x m) :
    Relation.ReflTransGen (fun y z => links y z ∧ z ∉ avoid ++ [a]) x m ∨
      ∃ b, links a b ∧ b ∉ avoid ++ [a] ∧
        Relation.ReflTransGen (fun y z => links y z ∧ z ∉ avoid ++ [a]) b m := by
  induction h using Relation.ReflTransGen.head_induction_on with
  | refl => exact .inl .refl
  | @head x y hxy _ ih =>
    rcases ih with hfree | hlater
    · by_cases hya : y = a
      · subst hya
        rcases Relation.ReflTransGen.cases_head hfree with heq | ⟨b, ⟨hlink, hb⟩, hrest⟩
        · exact absurd heq ham
        · exact .inr ⟨b, hlink, hb, hrest⟩
      · exact .inl (.head ⟨hxy.1, by simp [hxy.2, hya]⟩ hfree)
    · exact .inr hlater

theorem missing_mem_of_free {m : α} (hm : body m = none) : ∀ {fuel : ℕ} {stack : List α} {a : α}
    {events : List (Event α ι)}, walk body fuel stack a = some events → a ∉ stack →
      Relation.ReflTransGen (fun y z => Links body y z ∧ z ∉ stack) a m → .missing m ∈ events
  | fuel + 1, stack, a, events, h, hnew, hpath => by
    cases answer_of_walk h with
    | circular hmem _ => exact absurd hmem hnew
    | missing _ hbody hevents =>
      rcases Relation.ReflTransGen.cases_head hpath with rfl | ⟨b, ⟨⟨items, hitems, -⟩, -⟩, -⟩
      · rw [hevents]
        exact List.mem_singleton_self _
      · rw [hbody] at hitems
        cases hitems
    | entered items _ hbody hitems =>
      have ham : a ≠ m := by
        rintro rfl
        rw [hm] at hbody
        cases hbody
      have hstart : ∃ b, Links body a b ∧ b ∉ stack ++ [a] ∧
          Relation.ReflTransGen (fun y z => Links body y z ∧ z ∉ stack ++ [a]) b m := by
        rcases exists_last_visit ham hpath with hfree | hlater
        · rcases Relation.ReflTransGen.cases_head hfree with heq | ⟨b, ⟨hlink, hb⟩, hrest⟩
          · exact absurd heq ham
          · exact ⟨b, hlink, hb, hrest⟩
        · exact hlater
      obtain ⟨b, ⟨items', hbody', hb⟩, hfresh, hrest⟩ := hstart
      obtain rfl := Option.some.inj (hbody.symm.trans hbody')
      obtain ⟨inner, hinner, hsub⟩ := exists_followed hitems hb
      exact hsub _ (missing_mem_of_free hm hinner hfresh hrest)

variable {fuel : ℕ} {a : α} {events : List (Event α ι)}

theorem circular_iff_loopsFrom (h : walk body fuel [] a = some events) :
    (∃ s b, .circular s b ∈ events) ↔ LoopsFrom body a := by
  constructor
  · exact loopsFrom_of_circular h fun x hx => absurd hx List.not_mem_nil
  · rintro ⟨v, hv, hcycle⟩
    by_contra hnone
    have hfree := free_of_not_circular h (fun s b hb => hnone ⟨s, b, hb⟩) v hv
    exact hfree.2 hcycle

theorem missing_iff_missesFrom (h : walk body fuel [] a = some events) :
    (∃ m, .missing m ∈ events) ↔ MissesFrom body a := by
  constructor
  · exact missesFrom_of_missing h
  · rintro ⟨m, hm, hnone⟩
    have hfree : Relation.ReflTransGen (fun y z => Links body y z ∧ z ∉ ([] : List α)) a m := by
      simpa using hm
    exact ⟨m, missing_mem_of_free hnone h List.not_mem_nil hfree⟩

omit [DecidableEq α] in
theorem expands_walkItems {follow : α → Option (List (Event α ι))} :
    ∀ {items : List (ι ⊕ α)} {events : List (Event α ι)}, walkItems follow items = some events →
      (∀ b inner, .inr b ∈ items → follow b = some inner →
        ∃ its ys, body b = some its ∧ Expands body its ys ∧ inner = ys.map .leaf) →
      ∃ xs, Expands body items xs ∧ events = xs.map .leaf
  | [], _, h, _ => by
    cases h
    exact ⟨[], .nil, rfl⟩
  | .inl x :: items, _, h, hlinks => by
    obtain ⟨rest, hrest, rfl⟩ := Option.map_eq_some_iff.mp h
    obtain ⟨xs, hxs, rfl⟩ := expands_walkItems hrest fun b inner hb =>
      hlinks b inner (List.mem_cons_of_mem _ hb)
    exact ⟨x :: xs, .leaf x hxs, rfl⟩
  | .inr c :: items, _, h, hlinks => by
    obtain ⟨first, hfirst, h⟩ := Option.bind_eq_some_iff.mp h
    obtain ⟨rest, hrest, rfl⟩ := Option.map_eq_some_iff.mp h
    obtain ⟨its, ys, hbody, hys, rfl⟩ := hlinks c first List.mem_cons_self hfirst
    obtain ⟨xs, hxs, rfl⟩ := expands_walkItems hrest fun b inner hb =>
      hlinks b inner (List.mem_cons_of_mem _ hb)
    exact ⟨ys ++ xs, .link hbody hys hxs, List.map_append.symm⟩

theorem expands_of_quiet : ∀ {fuel : ℕ} {stack : List α} {a : α} {events : List (Event α ι)},
    walk body fuel stack a = some events → (∀ s b, .circular s b ∉ events) →
      (∀ m, .missing m ∉ events) → ∃ items xs, body a = some items ∧ Expands body items xs ∧ events = xs.map .leaf
  | fuel + 1, stack, a, events, h, hcirc, hmiss => by
    cases answer_of_walk h with
    | circular _ hevents => exact absurd (hevents ▸ List.mem_singleton_self _) (hcirc stack a)
    | missing _ _ hevents => exact absurd (hevents ▸ List.mem_singleton_self _) (hmiss a)
    | entered items _ hbody hitems =>
      obtain ⟨xs, hxs, rfl⟩ := expands_walkItems hitems fun b inner hb hinner => by
        obtain ⟨inner', hinner', hsub⟩ := exists_followed hitems hb
        obtain rfl := Option.some.inj (hinner.symm.trans hinner')
        exact expands_of_quiet hinner (fun s c hc => hcirc s c (hsub _ hc)) fun m hm => hmiss m (hsub _ hm)
      exact ⟨items, xs, hbody, hxs, rfl⟩

end

end StackWalk
