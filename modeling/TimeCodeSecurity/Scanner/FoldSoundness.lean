import TimeCodeSecurity.Scanner.StaticFold

/-! # What a folded expression evaluates to

Folding follows the operators of an expression the way evaluation does, except in two places: at a name,
where it reads a record, and at a look-up with a default, where it takes the default for every key it does
not know. An expression in which both are in order evaluates to what it folds to.
-/
namespace TimeCodeSecurity.Scanner
open Py
set_option autoImplicit false

section
variable (known : String → Prop) (keyFolds : Expr → Prop)

mutual

def Grounded : Expr → Prop
  | .name _ id _ => known id
  | .unaryOp _ _ operand => Grounded operand
  | .binOp _ left _ right => Grounded left ∧ Grounded right
  | .joinedStr _ values => GroundedAll values
  | .subscript _ base index _ => GroundedDisplay base ∧ Grounded index
  | .call _ (.attr _ receiver _ _) (arg :: rest) _ =>
    GroundedDisplay receiver ∧ Grounded arg ∧ GroundedDefault rest ∧ (rest ≠ [] → keyFolds arg)
  | _ => True

def GroundedAll : List Expr → Prop
  | [] => True
  | e :: es => Grounded e ∧ GroundedAll es

def GroundedDefault : List Expr → Prop
  | [] => True
  | d :: _ => Grounded d

def GroundedKeys : List (Option Expr) → Prop
  | [] => True
  | none :: es => GroundedKeys es
  | some e :: es => Grounded e ∧ GroundedKeys es

def GroundedDisplay : Expr → Prop
  | .list _ elts _ => GroundedAll elts
  | .tuple _ elts _ => GroundedAll elts
  | .dict _ keys values => keys.length = values.length ∧ GroundedKeys keys ∧ GroundedAll values
  | _ => True

end

end

theorem run_bind_eq_some {α β : Type} {m : FoldM α} {f : α → FoldM β} {visited : List String}
    {r : β × List String} (h : (m >>= f).run visited = some r) :
    ∃ a visited', m.run visited = some (a, visited') ∧ (f a).run visited' = some r := by
  rw [StateT.run_bind] at h
  obtain ⟨⟨a, visited'⟩, hm, hf⟩ := Option.bind_eq_some_iff.mp h
  exact ⟨a, visited', hm, hf⟩

theorem run_pure_eq_some {α : Type} {a b : α} {visited visited' : List String}
    (h : (pure a : FoldM α).run visited = some (b, visited')) : a = b :=
  (Prod.mk.inj (Option.some.inj h)).1

theorem isLiteral_foldConstant {c : Constant} {v : Value} (h : foldConstant c = some v) :
    v.isLiteral = true ∧ v = .ofConstant c := by
  cases c <;> simp only [foldConstant, reduceCtorEq, Option.some.injEq] at h <;> subst h <;>
    exact ⟨rfl, rfl⟩

theorem foldUnary_eq {op : UnaryOp} {a v : Value} (h : foldUnary op (some a) = some v) :
    v.isLiteral = true ∧ a.unary op = some v := by
  unfold foldUnary at h
  split at h
  · rename_i b heq
    obtain rfl := Option.some.inj heq
    obtain ⟨n, hn, rfl⟩ := Option.map_eq_some_iff.mp h
    exact ⟨rfl, by rw [Value.unary, hn]; rfl⟩
  · rename_i b heq
    obtain rfl := Option.some.inj heq
    obtain rfl := Option.some.inj h
    exact ⟨rfl, rfl⟩
  · cases h

theorem isLiteral_of_ints {f : ℤ → ℤ → ℤ} {a b v : Value}
    (h : (a.asInt.bind fun m => b.asInt.map fun n => Value.int (f m n)) = some v) :
    v.isLiteral = true := by
  obtain ⟨m, -, hm⟩ := Option.bind_eq_some_iff.mp h
  obtain ⟨n, -, rfl⟩ := Option.map_eq_some_iff.mp hm
  rfl

theorem isLiteral_of_some {u v : Value} (hu : u.isLiteral = true) (h : some u = some v) : v.isLiteral = true := by
  rw [← Option.some.inj h, hu]

theorem isLiteral_binary {addFloat : ℚ → ℚ → ℚ} {op : BinOp} {a b v : Value}
    (h : Value.binary addFloat op a b = some v) : v.isLiteral = true := by
  unfold Value.binary at h
  split at h
  · split at h
    · exact isLiteral_of_some rfl h
    · exact isLiteral_of_ints h
  · split at h
    · exact isLiteral_of_some rfl h
    · exact isLiteral_of_ints h
  · split at h
    · exact isLiteral_of_some rfl h
    · exact isLiteral_of_some rfl h
    · exact isLiteral_of_some rfl h
    · exact isLiteral_of_ints h
  · exact isLiteral_of_ints h
  · exact isLiteral_of_ints h
  · cases h

theorem foldBinary_eq {addFloat : ℚ → ℚ → ℚ} {op : BinOp} {left right : Option Value} {v : Value}
    (h : foldBinary addFloat op left right = some v) :
    ∃ a b, left = some a ∧ right = some b ∧ Value.binary addFloat op a b = some v := by
  unfold foldBinary at h
  split at h
  · rename_i a b
    refine ⟨a, b, rfl, rfl, ?_⟩
    split at h
    · split at h
      · cases h
      · exact h
    · exact h
    · exact h
    · exact h
    · exact h
    · cases h
  · cases h

theorem foldUnary_operand {op : UnaryOp} {inner : Option Value} {v : Value}
    (h : foldUnary op inner = some v) : ∃ a, inner = some a := by
  cases inner with
  | none => cases op <;> cases h
  | some a => exact ⟨a, rfl⟩

theorem isLiteral_entry {items : List (Value × Value)} {key v : Value}
    (hitems : ∀ kv ∈ items, kv.2.isLiteral = true) (h : Container.entry items key = some v) :
    v.isLiteral = true := by
  obtain ⟨kv, hkv, rfl⟩ := Option.map_eq_some_iff.mp h
  exact hitems kv (List.mem_reverse.mp (List.mem_of_find?_eq_some hkv))

theorem isLiteral_element {elements : List Value} {i : ℤ} {v : Value}
    (helements : ∀ w ∈ elements, w.isLiteral = true) (h : Container.element elements i = some v) :
    v.isLiteral = true := by
  unfold Container.element at h
  split at h
  · exact helements v (List.mem_of_getElem? h)
  · split at h
    · exact helements v (List.mem_of_getElem? h)
    · cases h

/-! ## Actions and the expressions they fold -/

section
variable (addFloat : ℚ → ℚ → ℚ) (vars : String → Option Value) (host : Expr → Option Value)

/-- No other value is possible for `e`. -/
structure Gives (e : Expr) (v : Value) : Prop where
  quiet : quiet e = true
  literal : v.isLiteral = true
  unique : ∀ w, evalExpr addFloat vars host e = some w → w = v

def Sound (m : FoldM (Option Value)) (e : Expr) : Prop :=
  ∀ visited v visited', m.run visited = some (some v, visited') → Gives addFloat vars host e v

def SoundMember (m : Option (FoldM (Option Value))) (e : Expr) : Prop :=
  ∀ a, m = some a → isStarred e = false ∧ Sound addFloat vars host a e

def SoundKey (m : Option (FoldM (Option Value))) (key : Option Expr) : Prop :=
  ∀ a, m = some a → ∃ e, key = some e ∧ Sound addFloat vars host a e

def LiteralContainer : Container → Prop
  | .dict items => ∀ kv ∈ items, kv.1.isLiteral = true ∧ kv.2.isLiteral = true
  | .seq elements => ∀ v ∈ elements, v.isLiteral = true

structure GivesDisplay (e : Expr) (c : Container) : Prop where
  quiet : quietDisplay e = true
  literal : LiteralContainer c
  unique : ∀ d, evalDisplay addFloat vars host e = some d → d = some c

end

section
variable {addFloat : ℚ → ℚ → ℚ} {vars : String → Option Value} {host : Expr → Option Value}

theorem joinFolded_sound {parts : List (FoldM (Option Value))} {es : List Expr}
    (h : List.Forall₂ (Sound addFloat vars host) parts es) {visited visited' : List String}
    {text : String} (hrun : (joinFolded parts).run visited = some (some text, visited')) :
    quietAll es = true ∧ ∀ ws, evalExprs addFloat vars host es = some ws →
      Value.joinParts ws = some text := by
  induction h generalizing visited visited' text with
  | nil =>
    obtain rfl := Option.some.inj (run_pure_eq_some hrun)
    refine ⟨rfl, fun ws hws => ?_⟩
    rw [evalExprs] at hws
    rw [← Option.some.inj hws]
    rfl
  | @cons part e parts es hpart _ ih =>
    rw [joinFolded] at hrun
    obtain ⟨v, visited₁, hv, hrest⟩ := run_bind_eq_some hrun
    split at hrest
    · rename_i s
      obtain ⟨rest, visited₂, hmore, hlast⟩ := run_bind_eq_some hrest
      obtain ⟨t, rfl, rfl⟩ := Option.map_eq_some_iff.mp (run_pure_eq_some hlast)
      have he := hpart _ _ _ hv
      obtain ⟨hquiet, hes⟩ := ih hmore
      refine ⟨by rw [quietAll, he.quiet, hquiet]; rfl, fun ws hws => ?_⟩
      rw [evalExprs] at hws
      obtain ⟨w, hw, hws⟩ := Option.bind_eq_some_iff.mp hws
      obtain ⟨rest, hrest, rfl⟩ := Option.map_eq_some_iff.mp hws
      obtain rfl := he.unique w hw
      have htail := hes rest hrest
      rw [Value.joinParts] at htail ⊢
      rw [List.foldr_cons, htail]
      rfl
    · cases run_pure_eq_some hrest

theorem membersFolded_sound {members : List (Option (FoldM (Option Value)))} {es : List Expr}
    (h : List.Forall₂ (SoundMember addFloat vars host) members es) {visited visited' : List String}
    {vs : List Value} (hrun : (membersFolded members).run visited = some (some vs, visited')) :
    quietAll es = true ∧ es.any isStarred = false ∧ LiteralContainer (.seq vs) ∧
      ∀ ws, evalExprs addFloat vars host es = some ws → ws = vs := by
  induction h generalizing visited visited' vs with
  | nil =>
    obtain rfl := Option.some.inj (run_pure_eq_some hrun)
    refine ⟨rfl, rfl, fun v hv => absurd hv List.not_mem_nil, fun ws hws => ?_⟩
    rw [evalExprs] at hws
    exact (Option.some.inj hws).symm
  | @cons member e members es hmember _ ih =>
    cases member with
    | none => cases run_pure_eq_some hrun
    | some m =>
      rw [membersFolded] at hrun
      obtain ⟨v, visited₁, hv, hrest⟩ := run_bind_eq_some hrun
      cases v with
      | none => cases run_pure_eq_some hrest
      | some v =>
        obtain ⟨rest, visited₂, hmore, hlast⟩ := run_bind_eq_some hrest
        obtain ⟨vs, rfl, rfl⟩ := Option.map_eq_some_iff.mp (run_pure_eq_some hlast)
        obtain ⟨hstarred, hsound⟩ := hmember m rfl
        have he := hsound _ _ _ hv
        obtain ⟨hquiet, hstars, hliteral, hes⟩ := ih hmore
        refine ⟨by rw [quietAll, he.quiet, hquiet]; rfl, by rw [List.any_cons, hstarred, hstars]; rfl,
          ?_, fun ws hws => ?_⟩
        · intro w hw
          rcases List.mem_cons.mp hw with rfl | hw
          · exact he.literal
          · exact hliteral w hw
        · rw [evalExprs] at hws
          obtain ⟨w, hw, hws⟩ := Option.bind_eq_some_iff.mp hws
          obtain ⟨rest, hrest, rfl⟩ := Option.map_eq_some_iff.mp hws
          rw [he.unique w hw, hes rest hrest]

theorem givesDisplay_seq {e : Expr} {elts : List Expr} {members : List (Option (FoldM (Option Value)))}
    (hquietDisplay : quietDisplay e = quietAll elts)
    (hevalDisplay : evalDisplay addFloat vars host e = if elts.any isStarred then some none else
      (evalExprs addFloat vars host elts).map fun vs => some (.seq vs))
    (hmembers : List.Forall₂ (SoundMember addFloat vars host) members elts) {visited visited' : List String}
    {c : Container} (hrun : (do
      let vs ← membersFolded members
      pure (vs.map .seq) : FoldM (Option Container)).run visited = some (some c, visited')) :
    GivesDisplay addFloat vars host e c := by
  obtain ⟨vs, visited₁, hvs, hrest⟩ := run_bind_eq_some hrun
  obtain ⟨vs, rfl, rfl⟩ := Option.map_eq_some_iff.mp (run_pure_eq_some hrest)
  obtain ⟨hquiet, hstarred, hliteral, heval⟩ := membersFolded_sound hmembers hvs
  refine ⟨hquietDisplay.trans hquiet, hliteral, fun d hd => ?_⟩
  rw [hevalDisplay, hstarred, if_neg Bool.false_ne_true] at hd
  obtain ⟨ws, hws, rfl⟩ := Option.map_eq_some_iff.mp hd
  rw [heval ws hws]

theorem itemsFolded_sound {keys : List (Option (FoldM (Option Value)))}
    {values : List (FoldM (Option Value))} {ks : List (Option Expr)} {es : List Expr}
    (hk : List.Forall₂ (SoundKey addFloat vars host) keys ks)
    (hv : List.Forall₂ (Sound addFloat vars host) values es) (hlength : ks.length = es.length)
    {visited visited' : List String} {items : List (Value × Value)}
    (hrun : (itemsFolded keys values).run visited = some (some items, visited')) :
    (quietKeys ks = true ∧ quietAll es = true) ∧ ks.any Option.isNone = false ∧
      LiteralContainer (.dict items) ∧ ∀ us ws, evalKeys addFloat vars host ks = some us →
        evalExprs addFloat vars host es = some ws → us.zip ws = items := by
  induction hk generalizing values es visited visited' items with
  | nil =>
    obtain rfl := List.length_eq_zero_iff.mp hlength.symm
    obtain rfl := Option.some.inj (run_pure_eq_some hrun)
    refine ⟨⟨rfl, rfl⟩, rfl, fun v hv => absurd hv List.not_mem_nil, fun us ws hus hws => ?_⟩
    rw [evalKeys] at hus
    rw [← Option.some.inj hus]
    rfl
  | @cons key k keys ks hkey _ ih =>
    cases hv with
    | nil => exact absurd hlength (by simp)
    | @cons value e values es hvalue hvalues =>
      cases key with
      | none => cases run_pure_eq_some hrun
      | some m =>
        rw [itemsFolded] at hrun
        obtain ⟨u, visited₁, hu, hrun⟩ := run_bind_eq_some hrun
        obtain ⟨v, visited₂, hv, hrun⟩ := run_bind_eq_some hrun
        cases u with
        | none => cases run_pure_eq_some hrun
        | some u =>
          cases v with
          | none => cases run_pure_eq_some hrun
          | some v =>
            obtain ⟨rest, visited₃, hrest, hlast⟩ := run_bind_eq_some hrun
            obtain ⟨items, rfl, rfl⟩ := Option.map_eq_some_iff.mp (run_pure_eq_some hlast)
            obtain ⟨k, rfl, hsound⟩ := hkey m rfl
            have hk := hsound _ _ _ hu
            have he := hvalue _ _ _ hv
            obtain ⟨hquiet, hnone, hliteral, heval⟩ :=
              ih hvalues (by simpa using hlength) hrest
            refine ⟨⟨by rw [quietKeys, hk.quiet, hquiet.1]; rfl,
              by rw [quietAll, he.quiet, hquiet.2]; rfl⟩, by rw [List.any_cons, hnone]; rfl, ?_, ?_⟩
            · intro kv hkv
              rcases List.mem_cons.mp hkv with rfl | hkv
              · exact ⟨hk.literal, he.literal⟩
              · exact hliteral kv hkv
            · intro us ws hus hws
              rw [evalKeys] at hus
              rw [evalExprs] at hws
              obtain ⟨u', hu', hus⟩ := Option.bind_eq_some_iff.mp hus
              obtain ⟨us', hus', rfl⟩ := Option.map_eq_some_iff.mp hus
              obtain ⟨w, hw, hws⟩ := Option.bind_eq_some_iff.mp hws
              obtain ⟨ws', hws', rfl⟩ := Option.map_eq_some_iff.mp hws
              rw [List.zip_cons_cons, hk.unique u' hu', he.unique w hw, heval us' ws' hus' hws']

theorem comparesLiterals_of {items : List (Value × Value)} {key : Value}
    (hitems : LiteralContainer (.dict items)) (hkey : key.isLiteral = true) :
    Container.comparesLiterals items key = true := by
  rw [Container.comparesLiterals, hkey, Bool.true_and, List.all_eq_true]
  exact fun kv hkv => (hitems kv hkv).1

theorem gives_subscript {pos : Pos} {base index : Expr} {ctx : Ctx} {c : Container}
    {key v : Value} (hbase : GivesDisplay addFloat vars host base c)
    (hindex : Gives addFloat vars host index key) (h : readLiteralMember c (some key) = some v) :
    Gives addFloat vars host (.subscript pos base index ctx) v := by
  refine ⟨by rw [quiet, hbase.quiet, hindex.quiet]; rfl, ?_, fun w hw => ?_⟩
  · cases c with
    | dict items => exact isLiteral_entry (fun kv hkv => (hbase.literal kv hkv).2) h
    | seq elements =>
      cases key <;> simp only [readLiteralMember, reduceCtorEq] at h
      exact isLiteral_element hbase.literal h
  · rw [evalExpr] at hw
    obtain ⟨d, hd, hw⟩ := Option.bind_eq_some_iff.mp hw
    obtain ⟨k, hk, hw⟩ := Option.bind_eq_some_iff.mp hw
    obtain rfl := hbase.unique d hd
    obtain rfl := hindex.unique k hk
    cases c with
    | dict items =>
      have hcompares := comparesLiterals_of hbase.literal hindex.literal
      simp only [Container.item, hcompares, if_true] at hw
      exact Option.some.inj (hw.symm.trans h)
    | seq elements =>
      cases k <;> simp only [readLiteralMember, reduceCtorEq] at h
      simp only [Container.item, Value.asInt] at hw
      exact Option.some.inj (hw.symm.trans h)

theorem isStarred_of_quiet {e : Expr} (h : quiet e = true) : isStarred e = false := by
  cases e <;> first | rfl | simp [quiet] at h

theorem gives_method {pos p : Pos} {receiver arg : Expr} {name : String} {ctx : Ctx}
    {rest : List Expr} {keywords : List (Keyword Expr)} {items : List (Value × Value)}
    {key v : Value} (hname : name ∈ dictMethods)
    (hreceiver : GivesDisplay addFloat vars host receiver (.dict items))
    (harg : Gives addFloat vars host arg key)
    (h : Container.entry items key = some v ∨ Container.entry items key = none ∧
      ∃ d ds, rest = d :: ds ∧ Gives addFloat vars host d v) :
    Gives addFloat vars host (.call pos (.attr p receiver name ctx) (arg :: rest) keywords) v := by
  refine ⟨by simp [quiet, hname, hreceiver.quiet, harg.quiet], ?_, fun w hw => ?_⟩
  · rcases h with h | ⟨-, d, ds, -, hd⟩
    · exact isLiteral_entry (fun kv hkv => (hreceiver.literal kv hkv).2) h
    · exact hd.literal
  · rw [evalExpr] at hw
    obtain ⟨d, hd, hw⟩ := Option.bind_eq_some_iff.mp hw
    obtain ⟨k, hk, hw⟩ := Option.bind_eq_some_iff.mp hw
    obtain ⟨defaults, hdefaults, hw⟩ := Option.bind_eq_some_iff.mp hw
    obtain rfl := hreceiver.unique d hd
    obtain rfl := harg.unique k hk
    have hcompares := comparesLiterals_of hreceiver.literal harg.literal
    simp only [hname, isStarred_of_quiet harg.quiet, Bool.false_eq_true, not_false_eq_true, and_self,
      if_true, Container.method, hcompares, not_true_eq_false, if_false] at hw
    split at hw
    · cases hw
    split at hw
    · cases hw
    rcases h with h | ⟨h, d, ds, rfl, hd⟩
    · rw [h] at hw
      exact (Option.some.inj hw).symm
    · rw [evalDefaults, if_pos hd.quiet] at hdefaults
      obtain ⟨u, hu, hdefaults⟩ := Option.bind_eq_some_iff.mp hdefaults
      obtain ⟨us, -, rfl⟩ := Option.map_eq_some_iff.mp hdefaults
      rw [h] at hw
      simp only [List.head?_cons, Option.any_some, isStarred_of_quiet hd.quiet, Bool.false_eq_true,
        if_false, Option.some.injEq] at hw
      rw [← hw, hd.unique u hu]

/-! ## Expressions -/

structure Folder.Sound (known : String → Prop) (keyFolds : Expr → Prop) (addFloat : ℚ → ℚ → ℚ)
    (vars : String → Option Value) (F : Folder FoldM) : Prop where
  constant : F.constant = foldConstant
  other : F.other = pure none
  name : ∀ {id visited v visited'}, known id → (F.name id).run visited = some (some v, visited') →
    v.isLiteral = true ∧ vars id = some v
  key : ∀ {e}, keyFolds e → ∀ visited, ∃ v visited',
    (foldExpr addFloat F e).run visited = some (some v, visited')

variable {known : String → Prop} {keyFolds : Expr → Prop} {F : Folder FoldM}

theorem sound_other (hF : F.Sound known keyFolds addFloat vars) (e : Expr) :
    Sound addFloat vars host F.other e := by
  intro visited v visited' h
  rw [hF.other] at h
  cases run_pure_eq_some h

theorem sound_none (e : Expr) : Sound addFloat vars host (pure none) e :=
  fun _ _ _ h => nomatch run_pure_eq_some h

mutual

theorem foldExpr_sound (hF : F.Sound known keyFolds addFloat vars) :
    ∀ e, Grounded known keyFolds e → Sound addFloat vars host (foldExpr addFloat F e) e
  | .constant _ c, _ => by
    intro visited v visited' h
    have hv := run_pure_eq_some h
    rw [hF.constant] at hv
    obtain ⟨hliteral, rfl⟩ := isLiteral_foldConstant hv
    exact ⟨rfl, hliteral, fun w hw => by rw [evalExpr] at hw; exact (Option.some.inj hw).symm⟩
  | .name _ id _, hg => by
    intro visited v visited' h
    obtain ⟨hliteral, hvars⟩ := hF.name hg h
    exact ⟨rfl, hliteral, fun w hw => by
      rw [evalExpr, hvars] at hw
      exact (Option.some.inj hw).symm⟩
  | .unaryOp _ op operand, hg => by
    intro visited v visited' h
    rw [foldExpr] at h
    obtain ⟨a, visited₁, ha, h⟩ := run_bind_eq_some h
    have hv := run_pure_eq_some h
    obtain ⟨a, rfl⟩ := foldUnary_operand hv
    have hoperand := foldExpr_sound hF operand hg _ _ _ ha
    obtain ⟨hliteral, hunary⟩ := foldUnary_eq hv
    refine ⟨by rw [quiet, hoperand.quiet], hliteral, fun w hw => ?_⟩
    rw [evalExpr] at hw
    obtain ⟨b, hb, hw⟩ := Option.bind_eq_some_iff.mp hw
    rw [hoperand.unique b hb, hunary, Option.some_or] at hw
    exact (Option.some.inj hw).symm
  | .binOp _ left op right, hg => by
    intro visited v visited' h
    rw [foldExpr] at h
    obtain ⟨a, visited₁, ha, h⟩ := run_bind_eq_some h
    obtain ⟨b, visited₂, hb, h⟩ := run_bind_eq_some h
    obtain ⟨a, b, rfl, rfl, hbinary⟩ := foldBinary_eq (run_pure_eq_some h)
    have hleft := foldExpr_sound hF left hg.1 _ _ _ ha
    have hright := foldExpr_sound hF right hg.2 _ _ _ hb
    refine ⟨by rw [quiet, hleft.quiet, hright.quiet]; rfl, isLiteral_binary hbinary, fun w hw => ?_⟩
    rw [evalExpr] at hw
    obtain ⟨a', ha', hw⟩ := Option.bind_eq_some_iff.mp hw
    obtain ⟨b', hb', hw⟩ := Option.bind_eq_some_iff.mp hw
    rw [hleft.unique a' ha', hright.unique b' hb', hbinary, Option.some_or] at hw
    exact (Option.some.inj hw).symm
  | .joinedStr _ values, hg => by
    intro visited v visited' h
    rw [foldExpr] at h
    obtain ⟨text, visited₁, htext, h⟩ := run_bind_eq_some h
    obtain ⟨text, rfl, rfl⟩ := Option.map_eq_some_iff.mp (run_pure_eq_some h)
    obtain ⟨hquiet, hparts⟩ := joinFolded_sound (foldEach_sound hF values hg) htext
    refine ⟨by rw [quiet, hquiet], rfl, fun w hw => ?_⟩
    rw [evalExpr] at hw
    obtain ⟨parts, hparts', hw⟩ := Option.bind_eq_some_iff.mp hw
    rw [hparts parts hparts', Option.map_some, Option.some_or] at hw
    exact (Option.some.inj hw).symm
  | .subscript _ base index _, hg => by
    intro visited v visited' h
    rw [foldExpr] at h
    obtain ⟨c, visited₁, hc, h⟩ := run_bind_eq_some h
    cases c with
    | none => cases run_pure_eq_some h
    | some c =>
      obtain ⟨key, visited₂, hkey, h⟩ := run_bind_eq_some h
      have hv := run_pure_eq_some h
      cases key with
      | none => cases hv
      | some key =>
        exact gives_subscript (foldContainer_sound hF base hg.1 hc)
          (foldExpr_sound hF index hg.2 _ _ _ hkey) hv
  | .call _ (.attr _ receiver name _) (arg :: rest) _, hg => by
    intro visited v visited' h
    rw [foldExpr] at h
    split at h
    · rename_i hname
      obtain ⟨c, visited₁, hc, h⟩ := run_bind_eq_some h
      match c with
      | none | some (.seq _) => cases run_pure_eq_some h
      | some (.dict items) =>
        have hreceiver := foldContainer_sound hF receiver hg.1 hc
        obtain ⟨key, visited₂, hkey, h⟩ := run_bind_eq_some h
        cases hread : readLiteralMember (.dict items) key with
        | some u =>
          rw [hread] at h
          obtain rfl := Option.some.inj (run_pure_eq_some h)
          cases key with
          | none => cases hread
          | some key =>
            exact gives_method hname hreceiver (foldExpr_sound hF arg hg.2.1 _ _ _ hkey) (.inl hread)
        | none =>
          rw [hread] at h
          cases rest with
          | nil => cases run_pure_eq_some h
          | cons d ds =>
            -- the key folds, so it is not among the items
            obtain ⟨k, visited₃, hk⟩ := hF.key (hg.2.2.2 (List.cons_ne_nil d ds)) visited₁
            rw [hk] at hkey
            obtain ⟨rfl, rfl⟩ := Prod.mk.inj (Option.some.inj hkey)
            have hd := foldExpr_sound hF d hg.2.2.1 _ _ _ h
            exact gives_method hname hreceiver (foldExpr_sound hF arg hg.2.1 _ _ _ hk)
              (.inr ⟨hread, d, ds, rfl, hd⟩)
    · exact sound_other hF _ _ _ _ h
  | .formattedValue .., _ => sound_none _
  | .call _ (.attr ..) [] _, _ => sound_other hF _
  | .call _ (.boolOp ..) _ _, _ | .call _ (.namedExpr ..) _ _, _ | .call _ (.lambda ..) _ _, _
  | .call _ (.ifExp ..) _ _, _ | .call _ (.dict ..) _ _, _ | .call _ (.set ..) _ _, _
  | .call _ (.listComp ..) _ _, _ | .call _ (.setComp ..) _ _, _ | .call _ (.dictComp ..) _ _, _
  | .call _ (.generatorExp ..) _ _, _ | .call _ (.await ..) _ _, _ | .call _ (.yield ..) _ _, _
  | .call _ (.yieldFrom ..) _ _, _ | .call _ (.compare ..) _ _, _ | .call _ (.call ..) _ _, _
  | .call _ (.starred ..) _ _, _ | .call _ (.list ..) _ _, _ | .call _ (.tuple ..) _ _, _
  | .call _ (.slice ..) _ _, _ | .call _ (.constant ..) _ _, _ | .call _ (.formattedValue ..) _ _, _
  | .call _ (.unaryOp ..) _ _, _ | .call _ (.joinedStr ..) _ _, _ | .call _ (.binOp ..) _ _, _
  | .call _ (.name ..) _ _, _ | .call _ (.subscript ..) _ _, _ => sound_other hF _
  | .boolOp .., _ | .namedExpr .., _ | .lambda .., _ | .ifExp .., _ | .dict .., _ | .set .., _
  | .listComp .., _ | .setComp .., _ | .dictComp .., _ | .generatorExp .., _ | .await .., _
  | .yield .., _ | .yieldFrom .., _ | .compare .., _ | .attr .., _ | .starred .., _ | .list .., _
  | .tuple .., _ | .slice .., _ => sound_other hF _

theorem foldEach_sound (hF : F.Sound known keyFolds addFloat vars) :
    ∀ es, GroundedAll known keyFolds es →
      List.Forall₂ (Sound addFloat vars host) (foldEach addFloat F es) es
  | [], _ => .nil
  | e :: es, hg => .cons (foldExpr_sound hF e hg.1) (foldEach_sound hF es hg.2)

theorem foldEachMember_sound (hF : F.Sound known keyFolds addFloat vars) :
    ∀ es, GroundedAll known keyFolds es →
      List.Forall₂ (SoundMember addFloat vars host) (foldEachMember addFloat F es) es
  | [], _ => .nil
  | e :: es, hg => by
    refine .cons (fun a ha => ?_) (foldEachMember_sound hF es hg.2)
    split at ha
    · cases ha
    · rename_i hstarred
      obtain rfl := Option.some.inj ha
      exact ⟨by simpa using hstarred, foldExpr_sound hF e hg.1⟩

theorem foldEachKey_sound (hF : F.Sound known keyFolds addFloat vars) :
    ∀ es, GroundedKeys known keyFolds es →
      List.Forall₂ (SoundKey addFloat vars host) (foldEachKey addFloat F es) es
  | [], _ => .nil
  | none :: es, hg => .cons (fun _ ha => nomatch ha) (foldEachKey_sound hF es hg)
  | some e :: es, hg => by
    refine .cons (fun a ha => ⟨e, rfl, ?_⟩) (foldEachKey_sound hF es hg.2)
    obtain rfl := Option.some.inj ha
    exact foldExpr_sound hF e hg.1

theorem foldContainer_sound (hF : F.Sound known keyFolds addFloat vars) :
    ∀ e, GroundedDisplay known keyFolds e → ∀ {visited visited' : List String} {c : Container},
      (foldContainer addFloat F e).run visited = some (some c, visited') →
      GivesDisplay addFloat vars host e c
  | .dict _ keys values, hg, visited, visited', c, h => by
    rw [foldContainer] at h
    obtain ⟨items, visited₁, hitems, h⟩ := run_bind_eq_some h
    obtain ⟨items, rfl, rfl⟩ := Option.map_eq_some_iff.mp (run_pure_eq_some h)
    obtain ⟨hquiet, hnone, hliteral, heval⟩ := itemsFolded_sound (foldEachKey_sound hF keys hg.2.1)
      (foldEach_sound hF values hg.2.2) hg.1 hitems
    refine ⟨by rw [quietDisplay, hquiet.1, hquiet.2]; rfl, hliteral, fun d hd => ?_⟩
    rw [evalDisplay, hnone, if_neg Bool.false_ne_true] at hd
    obtain ⟨us, hus, hd⟩ := Option.bind_eq_some_iff.mp hd
    obtain ⟨ws, hws, rfl⟩ := Option.map_eq_some_iff.mp hd
    rw [heval us ws hus hws]
  | .list _ elts _, hg, visited, visited', c, h => by
    rw [foldContainer] at h
    exact givesDisplay_seq (by rw [quietDisplay]) (by rw [evalDisplay]) (foldEachMember_sound hF elts hg) h
  | .tuple _ elts _, hg, visited, visited', c, h => by
    rw [foldContainer] at h
    exact givesDisplay_seq (by rw [quietDisplay]) (by rw [evalDisplay]) (foldEachMember_sound hF elts hg) h
  | .boolOp .., _, _, _, _, h | .namedExpr .., _, _, _, _, h | .lambda .., _, _, _, _, h
  | .ifExp .., _, _, _, _, h | .set .., _, _, _, _, h | .listComp .., _, _, _, _, h
  | .setComp .., _, _, _, _, h | .dictComp .., _, _, _, _, h | .generatorExp .., _, _, _, _, h
  | .await .., _, _, _, _, h | .yield .., _, _, _, _, h | .yieldFrom .., _, _, _, _, h
  | .compare .., _, _, _, _, h | .call .., _, _, _, _, h | .starred .., _, _, _, _, h
  | .slice .., _, _, _, _, h | .constant .., _, _, _, _, h | .formattedValue .., _, _, _, _, h
  | .unaryOp .., _, _, _, _, h | .joinedStr .., _, _, _, _, h | .binOp .., _, _, _, _, h
  | .name .., _, _, _, _, h | .subscript .., _, _, _, _, h | .attr .., _, _, _, _, h =>
    nomatch run_pure_eq_some h

end

end

end TimeCodeSecurity.Scanner
