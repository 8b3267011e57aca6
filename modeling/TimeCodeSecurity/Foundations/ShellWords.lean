import Mathlib.Data.List.Basic

/-! # Words of a command line

A command line falls into words at its unquoted blanks. A backslash, single quotes and double quotes take their
meaning from the symbols behind and are no part of a word; between double quotes a backslash does so only in front
of a double quote or a backslash. A line may hold symbols that stand for longer texts.
-/
namespace TimeCodeSecurity.ShellWords
set_option autoImplicit false

inductive Kind
  | single | double | backslash | blank (c : Char) | ordinary
deriving DecidableEq, Repr

def kindOf (c : Char) : Kind :=
  if c = '\'' then .single
  else if c = '"' then .double
  else if c = '\\' then .backslash
  else if c = ' ' ∨ c = '\t' ∨ c = '\r' ∨ c = '\n' then .blank c
  else .ordinary

inductive Mode
  | plain | single | double | escape | escapeIn
deriving DecidableEq

inductive Item (β : Type)
  | blank (c : Char)
  | mark
  | sym (b : β)
deriving DecidableEq, Repr

variable {α β γ : Type}

def lex (kind : α → Kind) : Mode → List α → Except String (List (Item (α × Bool)))
  | .plain, [] => .ok []
  | .single, [] | .double, [] => .error "No closing quotation"
  | .escape, [] | .escapeIn, [] => .error "No escaped character"
  | .plain, a :: t =>
    match kind a with
    | .single => (lex kind .single t).map (.mark :: ·)
    | .double => (lex kind .double t).map (.mark :: ·)
    | .backslash => lex kind .escape t
    | .blank c => (lex kind .plain t).map (.blank c :: ·)
    | .ordinary => (lex kind .plain t).map (.sym (a, false) :: ·)
  | .single, a :: t =>
    if kind a = .single then lex kind .plain t else (lex kind .single t).map (.sym (a, true) :: ·)
  | .double, a :: t =>
    if kind a = .double then lex kind .plain t
    else if kind a = .backslash then
      -- any other symbol keeps the backslash in front of it
      if (t.head?.map kind).any fun k => k = .double || k = .backslash then lex kind .escapeIn t
      else (lex kind .escapeIn t).map (.sym (a, true) :: ·)
    else (lex kind .double t).map (.sym (a, true) :: ·)
  | .escape, a :: t => (lex kind .plain t).map (.sym (a, true) :: ·)
  | .escapeIn, a :: t => (lex kind .double t).map (.sym (a, true) :: ·)

abbrev Word (β : Type) : Type := List (Option β)

def Word.bare (w : Word β) : List β := w.filterMap id

def group : List (Item β) → Option (Word β) × List (Word β)
  | [] => (none, [])
  | .blank _ :: items => (none, (group items).1.toList ++ (group items).2)
  | .mark :: items => (some (none :: (group items).1.getD []), (group items).2)
  | .sym b :: items => (some (some b :: (group items).1.getD []), (group items).2)

def wordsOf (items : List (Item β)) : List (Word β) := (group items).1.toList ++ (group items).2

def split (kind : α → Kind) (t : List α) : Except String (List (List α)) :=
  (lex kind .plain t).map fun items => (wordsOf items).map fun w => w.bare.map Prod.fst

theorem sym_mem_of_word {items : List (Item β)} {w : Word β} {b : β} (hw : w ∈ wordsOf items) (hb : b ∈ w.bare) :
    .sym b ∈ items := by
  have hb : some b ∈ w := by simpa [Word.bare] using hb
  clear * - hw hb
  induction items generalizing w with
  | nil => exact absurd hw List.not_mem_nil
  | cons item items ih =>
    unfold wordsOf at hw ih
    -- a symbol of the open word stands in front of everything, or in the word that was open behind it
    have hopen : some b ∈ (group items).1.getD [] → .sym b ∈ items := by
      intro hmem
      cases hfirst : (group items).1 with
      | none => simp [hfirst] at hmem
      | some first => exact ih (w := first) (by simp [hfirst]) (by simpa [hfirst] using hmem)
    cases item with
    | blank c => exact List.mem_cons_of_mem _ (ih (by simpa [group] using hw) hb)
    | mark =>
      obtain rfl | hw := List.mem_cons.mp hw
      · exact List.mem_cons_of_mem _ (hopen (by simpa using hb))
      · exact List.mem_cons_of_mem _ (ih (List.mem_append_right _ hw) hb)
    | sym b' =>
      obtain rfl | hw := List.mem_cons.mp hw
      · obtain heq | hmem := List.mem_cons.mp hb
        · exact List.mem_cons.mpr (.inl (congrArg Item.sym (Option.some.inj heq)))
        · exact List.mem_cons_of_mem _ (hopen hmem)
      · exact List.mem_cons_of_mem _ (ih (List.mem_append_right _ hw) hb)

theorem mem_of_lex {kind : α → Kind} {m : Mode} {t : List α} {items : List (Item (α × Bool))} {b : α × Bool}
    (h : lex kind m t = .ok items) (hb : .sym b ∈ items) : b.1 ∈ t := by
  induction t generalizing m items with
  | nil =>
    cases m with
    | plain =>
      obtain rfl := Except.ok.inj h
      exact absurd hb List.not_mem_nil
    | single | double | escape | escapeIn => cases h
  | cons a t ih =>
    have hnext : ∀ {m' : Mode} {item : Item (α × Bool)}, (∀ b', item = .sym b' → b'.1 = a) →
        (lex kind m' t).map (item :: ·) = .ok items → b.1 ∈ a :: t := by
      intro m' item hitem hmap
      cases hrest : lex kind m' t with
      | error message => simp [hrest, Except.map] at hmap
      | ok rest =>
        obtain rfl : item :: rest = items := by simpa [hrest, Except.map] using hmap
        obtain heq | hmem := List.mem_cons.mp hb
        · exact List.mem_cons.mpr (.inl (hitem b heq.symm))
        · exact List.mem_cons_of_mem _ (ih hrest hmem)
    have hsym : ∀ (q : Bool) (b' : α × Bool), Item.sym (a, q) = .sym b' → b'.1 = a := by
      intro q b' heq
      rw [← Item.sym.inj heq]
    cases m with
    | plain =>
      unfold lex at h
      split at h
      · exact hnext (by simp) h
      · exact hnext (by simp) h
      · exact List.mem_cons_of_mem _ (ih h hb)
      · exact hnext (by simp) h
      · exact hnext (hsym false) h
    | single =>
      unfold lex at h
      split at h
      · exact List.mem_cons_of_mem _ (ih h hb)
      · exact hnext (hsym true) h
    | double =>
      unfold lex at h
      split at h
      · exact List.mem_cons_of_mem _ (ih h hb)
      split at h
      · split at h
        · exact List.mem_cons_of_mem _ (ih h hb)
        · exact hnext (hsym true) h
      · exact hnext (hsym true) h
    | escape => exact hnext (hsym true) h
    | escapeIn => exact hnext (hsym true) h

/-! ## Symbols that stand for texts -/

def Item.spell (f : β → List γ) : Item β → List (Item γ)
  | .blank c => [.blank c]
  | .mark => [.mark]
  | .sym b => (f b).map .sym

def Word.spell (f : β → List γ) (w : Word β) : Word γ :=
  w.flatMap fun
    | none => [none]
    | some b => (f b).map some

theorem Word.bare_spell (f : β → List γ) (w : Word β) : (w.spell f).bare = w.bare.flatMap f := by
  induction w with
  | nil => rfl
  | cons o w ih =>
    have hcons : Word.spell f (o :: w) = Word.spell f [o] ++ Word.spell f w := by simp [Word.spell]
    unfold Word.bare at ih ⊢
    rw [hcons, List.filterMap_append, ih]
    cases o with
    | none => simp [Word.spell]
    | some b => simp [Word.spell, List.filterMap_map]

theorem group_symbols {gs : List γ} (hgs : gs ≠ []) (items : List (Item γ)) :
    group (gs.map .sym ++ items) = (some (gs.map some ++ (group items).1.getD []), (group items).2) := by
  induction gs with
  | nil => exact absurd rfl hgs
  | cons g gs ih =>
    cases gs with
    | nil => rfl
    | cons g' gs =>
      simp only [List.map_cons, List.cons_append] at ih ⊢
      rw [group, ih (List.cons_ne_nil g' gs), Option.getD_some]

theorem group_spell {f : β → List γ} (hf : ∀ b, f b ≠ []) (items : List (Item β)) :
    group (items.flatMap (Item.spell f)) =
      ((group items).1.map (Word.spell f), (group items).2.map (Word.spell f)) := by
  induction items with
  | nil => rfl
  | cons item items ih =>
    have hopen : ((group items).1.map (Word.spell f)).getD [] = ((group items).1.getD []).flatMap fun
        | none => [none]
        | some b => (f b).map some := by
      cases (group items).1 <;> rfl
    rw [List.flatMap_cons]
    cases item with
    | blank c =>
      show group (.blank c :: items.flatMap (Item.spell f)) = _
      rw [group, ih, group, List.map_append]
      cases (group items).1 <;> rfl
    | mark =>
      show group (.mark :: items.flatMap (Item.spell f)) = _
      rw [group, ih, group, hopen]
      rfl
    | sym b =>
      show group ((f b).map .sym ++ items.flatMap (Item.spell f)) = _
      rw [group_symbols (hf b), ih, group, hopen]
      rfl

theorem wordsOf_spell {f : β → List γ} (hf : ∀ b, f b ≠ []) (items : List (Item β)) :
    wordsOf (items.flatMap (Item.spell f)) = (wordsOf items).map (Word.spell f) := by
  unfold wordsOf
  rw [group_spell hf, List.map_append]
  cases (group items).1 <;> rfl

def bareItems (r : Except String (List (Item (γ × Bool)))) : Except String (List (Item γ)) :=
  r.map fun items => items.flatMap (Item.spell fun b => [b.1])

@[simp] theorem bareItems_map (r : Except String (List (Item (γ × Bool)))) (item : Item (γ × Bool)) :
    bareItems (r.map (item :: ·)) = (bareItems r).map (Item.spell (fun b => [b.1]) item ++ ·) := by
  cases r <;> rfl

theorem split_eq (kind : α → Kind) (t : List α) :
    split kind t = (bareItems (lex kind .plain t)).map fun items => (wordsOf items).map Word.bare := by
  unfold split bareItems
  cases lex kind .plain t with
  | error message => rfl
  | ok items =>
    have hwords := wordsOf_spell (f := fun b : α × Bool => [b.1]) (fun b => List.cons_ne_nil b.1 []) items
    simp only [Except.map, hwords, List.map_map]
    congr 1
    apply List.map_congr_left
    intro w _
    rw [Function.comp_apply, Word.bare_spell]
    exact (List.flatMap_pure_eq_map Prod.fst w.bare).symm

structure Spelling (kind : α → Kind) (kind' : γ → Kind) where
  text : α → List γ
  spells : ∀ a, ∃ g gs, text a = g :: gs ∧ kind' g = kind a ∧ (∀ x ∈ gs, kind' x = .ordinary) ∧
    (kind a ≠ .ordinary → gs = [])

variable {kind : α → Kind} {kind' : γ → Kind}

def Spelling.line (S : Spelling kind kind') (t : List α) : List γ := t.flatMap S.text

theorem Spelling.text_ne_nil (S : Spelling kind kind') (a : α) : S.text a ≠ [] := by
  obtain ⟨g, gs, htext, -⟩ := S.spells a
  rw [htext]
  exact List.cons_ne_nil g gs

theorem Spelling.head_line (S : Spelling kind kind') (t : List α) :
    (S.line t).head?.map kind' = t.head?.map kind := by
  cases t with
  | nil => rfl
  | cons a t =>
    obtain ⟨g, gs, htext, hg, -⟩ := S.spells a
    simp [Spelling.line, htext, hg]

theorem lex_ordinary {m : Mode} (hescape : m ≠ .escape) (hescapeIn : m ≠ .escapeIn) {gs : List γ}
    (hgs : ∀ g ∈ gs, kind' g = .ordinary) (t : List γ) :
    bareItems (lex kind' m (gs ++ t)) = (bareItems (lex kind' m t)).map (gs.map .sym ++ ·) := by
  induction gs with
  | nil =>
    rw [List.nil_append]
    cases bareItems (lex kind' m t) <;> rfl
  | cons g gs ih =>
    have hg := hgs g List.mem_cons_self
    have hstep : bareItems (lex kind' m (g :: (gs ++ t))) =
        (bareItems (lex kind' m (gs ++ t))).map (.sym g :: ·) := by
      cases m with
      | plain => simp [lex, hg, Item.spell]
      | single => simp [lex, hg, Item.spell]
      | double => simp [lex, hg, Item.spell]
      | escape => exact absurd rfl hescape
      | escapeIn => exact absurd rfl hescapeIn
    rw [List.cons_append, hstep, ih fun x hx => hgs x (List.mem_cons_of_mem _ hx)]
    cases bareItems (lex kind' m t) <;> rfl

theorem lex_spell (S : Spelling kind kind') (m : Mode) (t : List α) :
    bareItems (lex kind' m (S.line t)) =
      (lex kind m t).map fun items => items.flatMap (Item.spell fun b => S.text b.1) := by
  induction t generalizing m with
  | nil => cases m <;> rfl
  | cons a t ih =>
    obtain ⟨g, gs, htext, hg, hgs, hspecial⟩ := S.spells a
    have hline : S.line (a :: t) = g :: (gs ++ S.line t) := by simp [Spelling.line, htext]
    -- the symbol as it is, in front of what follows it in a mode
    have hsym : ∀ {m' : Mode}, m' ≠ .escape → m' ≠ .escapeIn → ∀ q q' : Bool,
        bareItems ((lex kind' m' (gs ++ S.line t)).map (.sym (g, q) :: ·)) =
          ((lex kind m' t).map (.sym (a, q') :: ·)).map fun items =>
            items.flatMap (Item.spell fun b => S.text b.1) := by
      intro m' hescape hescapeIn q q'
      rw [bareItems_map, lex_ordinary hescape hescapeIn hgs, ih]
      cases lex kind m' t with
      | error message => rfl
      | ok items => simp [Except.map, Item.spell, htext]
    rw [hline]
    cases m with
    | plain =>
      cases hkind : kind a with
      | ordinary => simpa only [lex, hg, hkind] using hsym (by decide) (by decide) false false
      | single | double | blank c =>
        obtain rfl := hspecial (by simp [hkind])
        simp only [lex, hg, hkind, List.nil_append, bareItems_map, ih]
        cases lex kind _ t <;> rfl
      | backslash =>
        obtain rfl := hspecial (by simp [hkind])
        simpa only [lex, hg, hkind, List.nil_append] using ih .escape
    | single =>
      by_cases hkind : kind a = .single
      · obtain rfl := hspecial (by simp [hkind])
        simpa only [lex, hg, if_pos hkind, List.nil_append] using ih .plain
      · simpa only [lex, hg, if_neg hkind] using hsym (by decide) (by decide) true true
    | double =>
      by_cases hclose : kind a = .double
      · obtain rfl := hspecial (by simp [hclose])
        simpa only [lex, hg, if_pos hclose, List.nil_append] using ih .plain
      by_cases hkind : kind a = .backslash
      · obtain rfl := hspecial (by simp [hkind])
        simp only [lex, hg, if_neg hclose, if_pos hkind, List.nil_append, S.head_line]
        split
        · exact ih .escapeIn
        · rw [bareItems_map, ih]
          cases lex kind .escapeIn t with
          | error message => rfl
          | ok items => simp [Except.map, Item.spell, htext]
      · simpa only [lex, hg, if_neg hclose, if_neg hkind] using hsym (by decide) (by decide) true true
    | escape => simpa only [lex] using hsym (by decide) (by decide) true true
    | escapeIn => simpa only [lex] using hsym (by decide) (by decide) true true

theorem split_spell (S : Spelling kind kind') (t : List α) :
    split kind' (S.line t) =
      (lex kind .plain t).map fun items => (wordsOf items).map fun w => w.bare.flatMap fun b => S.text b.1 := by
  rw [split_eq, lex_spell]
  cases lex kind .plain t with
  | error message => rfl
  | ok items =>
    have hwords := wordsOf_spell (f := fun b : α × Bool => S.text b.1) (fun b => S.text_ne_nil b.1) items
    simp only [Except.map, hwords, List.map_map]
    congr 1
    apply List.map_congr_left
    intro w _
    exact Word.bare_spell _ w

end TimeCodeSecurity.ShellWords
