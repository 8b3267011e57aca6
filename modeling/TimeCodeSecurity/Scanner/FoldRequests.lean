import TimeCodeSecurity.Scanner.FoldSoundness
import TimeCodeSecurity.Scanner.StaticFoldTotal

/-! # What a fold asks for

Every name that is followed is marked, for the rest of the request, in one set that all parts of an
expression share. A fold looks at the marks of the names it can come to and at no others; and where no value
is left out, it marks each of these names itself, so that none of them was marked before.
-/
namespace TimeCodeSecurity.Scanner
open Py
set_option autoImplicit false

inductive Follows (addFloat : ℚ → ℚ → ℚ) (T : Tracker) (certain : Bool) : String → ℕ → Expr → String → Prop
  | name {scope line e id} : id ∈ asked certain e → Follows addFloat T certain scope line e (scope ++ ":" ++ id)
  | record {scope line e id r k} : id ∈ asked certain e → T.chainRecord scope id line = some r →
      Follows addFloat T certain r.scopeId r.lineno r.valueNode k → Follows addFloat T certain scope line e k
  | fallback {scope line e id r k} : certain = false → id ∈ asked certain e →
      T.chainRecord scope id line = none → r ∈ T.liveAliases addFloat id line →
      Follows addFloat T certain r.scopeId r.lineno r.valueNode k → Follows addFloat T certain scope line e k

/-- The action looks at the marks of `R` only, and puts marks of `R` in front of the others. -/
def Uniform {α : Type} (R : String → Prop) (m : FoldM α) : Prop :=
  ∀ visited a visited', m.run visited = some (a, visited') → ∃ marks, (∀ k ∈ marks, R k) ∧
    visited' = marks ++ visited ∧ ∀ visited₂, (∀ k, R k → (k ∈ visited₂ ↔ k ∈ visited)) →
      m.run visited₂ = some (a, marks ++ visited₂)

namespace Uniform

variable {α β : Type} {R : String → Prop}

theorem pure (a : α) : Uniform R (Pure.pure a : FoldM α) := by
  intro visited b visited' h
  obtain ⟨rfl, rfl⟩ := Prod.mk.inj (Option.some.inj h)
  exact ⟨[], fun k hk => absurd hk List.not_mem_nil, rfl, fun visited₂ _ => rfl⟩

theorem bind {m : FoldM α} {f : α → FoldM β} (hm : Uniform R m) (hf : ∀ a, Uniform R (f a)) :
    Uniform R (m >>= f) := by
  intro visited b visited' h
  obtain ⟨a, visited₁, ha, hb⟩ := run_bind_eq_some h
  obtain ⟨marks, hmarks, rfl, hagree⟩ := hm visited a visited₁ ha
  obtain ⟨more, hmore, rfl, hagree'⟩ := hf a _ b visited' hb
  refine ⟨more ++ marks, fun k hk => ?_, (List.append_assoc ..).symm, fun visited₂ h₂ => ?_⟩
  · rcases List.mem_append.mp hk with hk | hk
    · exact hmore k hk
    · exact hmarks k hk
  · have hboth : ∀ k, R k → (k ∈ marks ++ visited₂ ↔ k ∈ marks ++ visited) := by
      intro k hk
      rw [List.mem_append, List.mem_append, h₂ k hk]
    rw [StateT.run_bind, hagree visited₂ h₂, List.append_assoc]
    exact hagree' _ hboth

theorem mono {R' : String → Prop} {m : FoldM α} (hm : Uniform R m) (h : ∀ k, R k → R' k) : Uniform R' m := by
  intro visited a visited' hrun
  obtain ⟨marks, hmarks, heq, hagree⟩ := hm visited a visited' hrun
  exact ⟨marks, fun k hk => h k (hmarks k hk), heq, fun visited₂ h₂ => hagree visited₂ fun k hk => h₂ k (h k hk)⟩

end Uniform

theorem compositional_uniform (R : String → Prop) : Compositional (Uniform R) := ⟨Uniform.pure, Uniform.bind⟩

section
variable {R : String → Prop} {addFloat : ℚ → ℚ → ℚ} {F : Folder FoldM}

theorem uniform_foldExpr (hF : F.other = pure none) (e : Expr)
    (h : ∀ id ∈ asked false e, Uniform R (F.name id)) : Uniform R (foldExpr addFloat F e) :=
  (compositional_uniform R).expr (hF ▸ .pure _) e h

end

/-! ## Names -/

section
variable {R : String → Prop} {addFloat : ℚ → ℚ → ℚ} {T : Tracker}
  {fold : Expr → String → ℕ → FoldM (Option Value)}

theorem uniform_foldAliases {rs : List AssignmentRecord}
    (h : ∀ r ∈ rs, Uniform R (fold r.valueNode r.scopeId r.lineno)) (first : Option Value) :
    Uniform R (foldAliases fold first rs) := by
  induction rs generalizing first with
  | nil => exact .pure _
  | cons r rs ih =>
    intro visited a visited' hrun
    obtain ⟨saved, visited₀, hget, hrun⟩ := run_bind_eq_some hrun
    obtain ⟨rfl, rfl⟩ := Prod.mk.inj (Option.some.inj hget)
    obtain ⟨val, visited₁, hval, hrun⟩ := run_bind_eq_some hrun
    obtain ⟨u, visited₂, hset, hrun⟩ := run_bind_eq_some hrun
    obtain ⟨rfl, rfl⟩ := Prod.mk.inj (Option.some.inj hset)
    have hrest := fun f => ih (fun r hr => h r (List.mem_cons_of_mem _ hr)) f
    obtain ⟨_, -, -, hagree⟩ := h r List.mem_cons_self _ _ _ hval
    have hall := fun hnext : Uniform R _ => hnext _ _ _ hrun
    obtain ⟨marks, hmarks, heq, hagree'⟩ := hall (by
      cases val with
      | none => exact hrest _
      | some v =>
        cases first with
        | none => exact hrest _
        | some w =>
          simp only
          split
          · exact hrest _
          · exact .pure _)
    refine ⟨marks, hmarks, heq, fun visited₂ h₂ => ?_⟩
    have hfold := hagree visited₂ h₂
    simp only [foldAliases, StateT.run_bind, StateT.run_get, StateT.run_set, Option.pure_def,
      Option.bind_eq_bind, Option.bind_some, hfold]
    exact hagree' visited₂ h₂

def followName (addFloat : ℚ → ℚ → ℚ) (T : Tracker) (fold : Expr → String → ℕ → FoldM (Option Value))
    (scope : String) (line : ℕ) (id : String) : FoldM (Option Value) :=
  match T.chainRecord scope id line with
  | some r => fold r.valueNode r.scopeId r.lineno
  | none => foldCrossScope addFloat T fold line id

theorem run_foldName (scope : String) (line : ℕ) (id : String) (visited : List String) :
    (foldName addFloat T fold scope line id).run visited =
      if scope ++ ":" ++ id ∈ visited then some (none, visited)
      else (followName addFloat T fold scope line id).run ((scope ++ ":" ++ id) :: visited) := by
  by_cases hkey : scope ++ ":" ++ id ∈ visited
  · simp [foldName, hkey]
  · simp only [foldName, StateT.run_bind, StateT.run_get, Option.pure_def, Option.bind_eq_bind, Option.bind_some,
      if_neg hkey, StateT.run_modify]
    rfl

section
variable {scope : String} {line : ℕ} {id : String}

theorem uniform_followName
    (hrecord : ∀ r, T.chainRecord scope id line = some r → Uniform R (fold r.valueNode r.scopeId r.lineno))
    (halias : T.chainRecord scope id line = none → ∀ r ∈ T.liveAliases addFloat id line,
      Uniform R (fold r.valueNode r.scopeId r.lineno)) :
    Uniform R (followName addFloat T fold scope line id) := by
  unfold followName
  split
  · rename_i r hr
    exact hrecord r hr
  · rename_i hnone
    simp only [foldCrossScope]
    split
    · exact .pure _
    · unfold Triage.snapshot
      split
      · exact .pure _
      · rename_i rs hrs
        split at hrs
        · obtain rfl := Option.some.inj hrs
          refine uniform_foldAliases (fun r hr => halias hnone r ?_) _
          exact (T.crossScopeTriage_aliases addFloat id line).mem_iff.mp hr
        · cases hrs

theorem uniform_foldName (hkey : R (scope ++ ":" ++ id))
    (hfollow : Uniform R (followName addFloat T fold scope line id)) :
    Uniform R (foldName addFloat T fold scope line id) := by
  intro visited a visited' hrun
  rw [run_foldName] at hrun
  split at hrun
  · rename_i hmem
    obtain ⟨rfl, rfl⟩ := Prod.mk.inj (Option.some.inj hrun)
    refine ⟨[], fun k hk => absurd hk List.not_mem_nil, rfl, fun visited₂ h₂ => ?_⟩
    rw [run_foldName, if_pos ((h₂ _ hkey).mpr hmem)]
    rfl
  · rename_i hmem
    obtain ⟨marks, hmarks, rfl, hagree⟩ := hfollow _ _ _ hrun
    refine ⟨marks ++ [scope ++ ":" ++ id], fun k hk => ?_, by simp, fun visited₂ h₂ => ?_⟩
    · rcases List.mem_append.mp hk with hk | hk
      · exact hmarks k hk
      · rwa [List.mem_singleton.mp hk]
    · rw [run_foldName, if_neg (mt (h₂ _ hkey).mp hmem), hagree _ fun k hk => ?_]
      · simp
      · rw [List.mem_cons, List.mem_cons, h₂ k hk]

end

end

theorem uniform_evalStaticConstant (addFloat : ℚ → ℚ → ℚ) (T : Tracker) (fuel : ℕ) (e : Expr) (scope : String)
    (line : ℕ) : Uniform (Follows addFloat T false scope line e) (evalStaticConstant addFloat T fuel e scope line) := by
  induction fuel generalizing e scope line with
  | zero => exact fun _ _ _ h => nomatch h
  | succ fuel ih =>
    rw [evalStaticConstant]
    refine uniform_foldExpr rfl e fun id hid => ?_
    refine uniform_foldName (.name hid) (uniform_followName (fun r hr => ?_) fun hnone r hr => ?_)
    · exact (ih r.valueNode r.scopeId r.lineno).mono fun k hk => .record hid hr hk
    · exact (ih r.valueNode r.scopeId r.lineno).mono fun k hk => .fallback rfl hid hnone hr hk

/-! ## Actions that mark for certain -/

/-- The action forgets no mark, and where it has a value it has set the marks of `K`, none of them set before. -/
def Demands {α : Type} (K : String → Prop) (m : FoldM (Option α)) : Prop :=
  ∀ visited a visited', m.run visited = some (a, visited') → visited ⊆ visited' ∧
    (a.isSome → ∀ k, K k → k ∈ visited' ∧ k ∉ visited)

namespace Demands

variable {α β : Type} {K L : String → Prop}

theorem none : Demands K (Pure.pure Option.none : FoldM (Option α)) := by
  intro visited a visited' h
  obtain ⟨rfl, rfl⟩ := Prod.mk.inj (Option.some.inj h)
  exact ⟨List.Subset.refl _, fun ha => nomatch ha⟩

theorem pure (a : Option α) (hK : ∀ k, ¬K k) : Demands K (Pure.pure a : FoldM (Option α)) := by
  intro visited b visited' h
  obtain ⟨rfl, rfl⟩ := Prod.mk.inj (Option.some.inj h)
  exact ⟨List.Subset.refl _, fun _ k hk => absurd hk (hK k)⟩

theorem mono {m : FoldM (Option α)} (hm : Demands K m) (h : ∀ k, L k → K k) : Demands L m :=
  fun visited a visited' hrun =>
    ⟨(hm visited a visited' hrun).1, fun ha k hk => (hm visited a visited' hrun).2 ha k (h k hk)⟩

theorem bind {m : FoldM (Option α)} {f : Option α → FoldM (Option β)} (hm : Demands K m)
    (hsome : ∀ a, Demands L (f (some a)))
    (hnone : ∀ visited b visited', (f Option.none).run visited = some (b, visited') →
      visited ⊆ visited' ∧ b = Option.none) :
    Demands (fun k => K k ∨ L k) (m >>= f) := by
  intro visited b visited' h
  obtain ⟨a, visited₁, ha, hb⟩ := run_bind_eq_some h
  obtain ⟨hgrows, hmarks⟩ := hm _ _ _ ha
  cases a with
  | none =>
    obtain ⟨hgrows', rfl⟩ := hnone _ _ _ hb
    exact ⟨List.Subset.trans hgrows hgrows', fun hsome => nomatch hsome⟩
  | some a =>
    obtain ⟨hgrows', hmarks'⟩ := hsome a _ _ _ hb
    refine ⟨List.Subset.trans hgrows hgrows', fun hb k hk => ?_⟩
    rcases hk with hk | hk
    · exact ⟨hgrows' (hmarks rfl k hk).1, (hmarks rfl k hk).2⟩
    · exact ⟨(hmarks' hb k hk).1, fun hmem => (hmarks' hb k hk).2 (hgrows hmem)⟩

theorem map {m : FoldM (Option α)} {f : Option α → Option β} (hm : Demands K m) (hf : f Option.none = Option.none) :
    Demands K (m >>= fun a => Pure.pure (f a)) := by
  have hlast (a : α) : Demands (fun _ => False) (Pure.pure (f (some a)) : FoldM (Option β)) :=
    pure _ fun _ => not_false
  refine (hm.bind (f := fun a => Pure.pure (f a)) hlast fun visited b visited' h => ?_).mono fun k hk => .inl hk
  obtain ⟨rfl, rfl⟩ := Prod.mk.inj (Option.some.inj h)
  exact ⟨List.Subset.refl _, hf⟩

end Demands

section
variable {K : String → String → Prop}

def MarksOf (K : String → String → Prop) (ids : List String) (k : String) : Prop := ∃ id ∈ ids, K id k

theorem marksOf_append {ids ids' : List String} {k : String} (h : MarksOf K (ids ++ ids') k) :
    MarksOf K ids k ∨ MarksOf K ids' k := by
  obtain ⟨id, hid, hk⟩ := h
  rcases List.mem_append.mp hid with hid | hid
  · exact .inl ⟨id, hid, hk⟩
  · exact .inr ⟨id, hid, hk⟩

theorem demands_joinFolded {parts : List (FoldM (Option Value))} {idss : List (List String)}
    (h : List.Forall₂ (fun m ids => Demands (MarksOf K ids) m) parts idss) :
    Demands (MarksOf K idss.flatten) (joinFolded parts) := by
  induction h with
  | nil => exact .pure _ fun k hk => absurd hk.choose_spec.1 List.not_mem_nil
  | @cons part ids parts idss hpart _ ih =>
    rw [joinFolded]
    refine (hpart.bind (L := MarksOf K idss.flatten) (fun v => ?_) fun visited b visited' hrun => ?_).mono
      fun k hk => marksOf_append hk
    · cases v with
      | str s => exact ih.map rfl
      | _ => exact .none
    · obtain ⟨rfl, rfl⟩ := Prod.mk.inj (Option.some.inj hrun)
      exact ⟨List.Subset.refl _, rfl⟩

theorem demands_membersFolded {members : List (Option (FoldM (Option Value)))} {idss : List (List String)}
    (h : List.Forall₂ (fun m ids => ∀ a, m = some a → Demands (MarksOf K ids) a) members idss) :
    Demands (MarksOf K idss.flatten) (membersFolded members) := by
  induction h with
  | nil => exact .pure _ fun k hk => absurd hk.choose_spec.1 List.not_mem_nil
  | @cons member ids members idss hmember _ ih =>
    cases member with
    | none => exact .none
    | some m =>
      rw [membersFolded]
      refine ((hmember m rfl).bind (L := MarksOf K idss.flatten) (fun v => ih.map rfl)
        fun visited b visited' hrun => ?_).mono fun k hk => marksOf_append hk
      obtain ⟨rfl, rfl⟩ := Prod.mk.inj (Option.some.inj hrun)
      exact ⟨List.Subset.refl _, rfl⟩

theorem demands_itemsFolded {keys : List (Option (FoldM (Option Value)))} {values : List (FoldM (Option Value))}
    {ks vs : List (List String)}
    (hk : List.Forall₂ (fun m ids => ∀ a, m = some a → Demands (MarksOf K ids) a) keys ks)
    (hv : List.Forall₂ (fun m ids => Demands (MarksOf K ids) m) values vs) :
    Demands (fun k => keys.length = values.length ∧ (MarksOf K ks.flatten k ∨ MarksOf K vs.flatten k))
      (itemsFolded keys values) := by
  induction hk generalizing values vs with
  | nil =>
    refine .pure _ fun k hk => ?_
    obtain rfl := List.length_eq_zero_iff.mp hk.1.symm
    cases hv
    exact hk.2.elim (fun h => List.not_mem_nil h.choose_spec.1) fun h => List.not_mem_nil h.choose_spec.1
  | @cons key kids keys ks hkey _ ih =>
    cases hv with
    | nil =>
      have hnil : itemsFolded (key :: keys) [] = pure (some []) := by cases key <;> rfl
      rw [hnil]
      exact .pure _ fun k hk => absurd hk.1 (by simp)
    | @cons value vids values vs hvalue hvalues =>
      cases key with
      | none => exact .none
      | some m =>
        have hrest := ih hvalues
        rw [itemsFolded]
        refine ((hkey m rfl).bind (L := fun k => MarksOf K vids k ∨
          keys.length = values.length ∧ (MarksOf K ks.flatten k ∨ MarksOf K vs.flatten k))
          (fun a => ?_) fun visited b visited' hrun => ?_).mono fun k hk => ?_
        · refine hvalue.bind (fun b => ?_) fun visited c visited' hrun => ?_
          · exact hrest.map rfl
          · obtain ⟨rfl, rfl⟩ := Prod.mk.inj (Option.some.inj hrun)
            exact ⟨List.Subset.refl _, rfl⟩
        · obtain ⟨c, visited₁, hc, hrun⟩ := run_bind_eq_some hrun
          obtain ⟨rfl, rfl⟩ := Prod.mk.inj (Option.some.inj hrun)
          exact ⟨(hvalue _ _ _ hc).1, rfl⟩
        · obtain ⟨hlength, hk | hk⟩ := hk
          · exact (marksOf_append hk).imp id fun h => .inr ⟨by simpa using hlength, .inl h⟩
          · rcases marksOf_append hk with hk | hk
            · exact .inr (.inl hk)
            · exact .inr (.inr ⟨by simpa using hlength, .inr hk⟩)

variable {addFloat : ℚ → ℚ → ℚ} {F : Folder FoldM}

theorem demands_other {L : String → Prop} (hF : F.other = pure none) : Demands L F.other := by
  rw [hF]
  exact .none

theorem length_foldEach (es : List Expr) : (foldEach addFloat F es).length = es.length := by
  induction es with
  | nil => rfl
  | cons e es ih => rw [foldEach, List.length_cons, ih, List.length_cons]

theorem length_foldEachKey (es : List (Option Expr)) : (foldEachKey addFloat F es).length = es.length := by
  induction es with
  | nil => rfl
  | cons e es ih => cases e <;> rw [foldEachKey, List.length_cons, ih, List.length_cons]

mutual

theorem demands_foldExpr (hF : F.other = pure none) (hname : ∀ id, Demands (K id) (F.name id)) :
    ∀ e, Demands (MarksOf K (asked true e)) (foldExpr addFloat F e)
  | .constant .. => .pure _ fun k hk => absurd hk.choose_spec.1 List.not_mem_nil
  | .formattedValue .. => .none
  | .unaryOp _ op operand => (demands_foldExpr hF hname operand).map (by cases op <;> rfl)
  | .joinedStr _ values => (demands_joinFolded (demands_foldEach hF hname values)).map rfl
  | .binOp _ left op right => by
    have hright := demands_foldExpr hF hname right
    refine ((demands_foldExpr hF hname left).bind (L := MarksOf K (asked true right)) (fun a => ?_)
      fun visited b visited' hrun => ?_).mono fun k hk => marksOf_append hk
    · exact hright.map rfl
    · obtain ⟨c, visited₁, hc, hrun⟩ := run_bind_eq_some hrun
      obtain ⟨rfl, rfl⟩ := Prod.mk.inj (Option.some.inj hrun)
      exact ⟨(hright _ _ _ hc).1, rfl⟩
  | .name _ id _ => (hname id).mono fun k hk => by
    obtain ⟨id', hid', hk⟩ := hk
    rwa [List.mem_singleton.mp hid'] at hk
  | .subscript _ base index _ => by
    refine ((demands_foldContainer hF hname base).bind (L := MarksOf K (asked true index)) (fun c => ?_)
      fun visited b visited' hrun => ?_).mono fun k hk => marksOf_append hk
    · exact (demands_foldExpr hF hname index).map rfl
    · obtain ⟨rfl, rfl⟩ := Prod.mk.inj (Option.some.inj hrun)
      exact ⟨List.Subset.refl _, rfl⟩
  | .call _ (.attr _ receiver name _) (arg :: rest) _ => by
    rw [foldExpr]
    split
    · rename_i hmethod
      have harg := demands_foldExpr hF hname arg
      have hrest := demands_foldEach hF hname rest
      refine ((demands_foldContainer hF hname receiver).bind
        (L := fun k => rest = [] ∧ MarksOf K (asked true arg) k) (fun c => ?_)
        fun visited b visited' hrun => ?_).mono fun k hk => ?_
      · cases c with
        | seq elements => exact .none
        | dict items =>
          intro visited a visited' hrun
          obtain ⟨key, visited₁, hkey, hrun⟩ := run_bind_eq_some hrun
          obtain ⟨hgrows, hmarks⟩ := harg _ _ _ hkey
          cases hread : readLiteralMember (.dict items) key with
          | some v =>
            rw [hread] at hrun
            obtain ⟨rfl, rfl⟩ := Prod.mk.inj (Option.some.inj hrun)
            cases key with
            | none => cases hread
            | some key => exact ⟨hgrows, fun _ k hk => hmarks rfl k hk.2⟩
          | none =>
            rw [hread] at hrun
            cases rest with
            | nil =>
              obtain ⟨rfl, rfl⟩ := Prod.mk.inj (Option.some.inj hrun)
              exact ⟨hgrows, fun ha => nomatch ha⟩
            | cons d ds =>
              obtain ⟨hgrows', -⟩ := demands_foldExpr hF hname d _ _ _ hrun
              exact ⟨List.Subset.trans hgrows hgrows', fun _ k hk => nomatch hk.1⟩
      · obtain ⟨rfl, rfl⟩ := Prod.mk.inj (Option.some.inj hrun)
        exact ⟨List.Subset.refl _, rfl⟩
      · simp only [asked, hmethod, if_true, List.append_nil] at hk
        refine (marksOf_append hk).imp id fun h => ?_
        cases rest with
        | nil => exact ⟨rfl, h⟩
        | cons d ds => exact absurd h.choose_spec.1 List.not_mem_nil
    · exact demands_other hF
  | .call _ (.attr ..) [] _ => demands_other hF
  | .call _ (.boolOp ..) _ _ | .call _ (.namedExpr ..) _ _ | .call _ (.lambda ..) _ _
  | .call _ (.ifExp ..) _ _ | .call _ (.dict ..) _ _ | .call _ (.set ..) _ _
  | .call _ (.listComp ..) _ _ | .call _ (.setComp ..) _ _ | .call _ (.dictComp ..) _ _
  | .call _ (.generatorExp ..) _ _ | .call _ (.await ..) _ _ | .call _ (.yield ..) _ _
  | .call _ (.yieldFrom ..) _ _ | .call _ (.compare ..) _ _ | .call _ (.call ..) _ _
  | .call _ (.starred ..) _ _ | .call _ (.list ..) _ _ | .call _ (.tuple ..) _ _
  | .call _ (.slice ..) _ _ | .call _ (.constant ..) _ _ | .call _ (.formattedValue ..) _ _
  | .call _ (.unaryOp ..) _ _ | .call _ (.joinedStr ..) _ _ | .call _ (.binOp ..) _ _
  | .call _ (.name ..) _ _ | .call _ (.subscript ..) _ _ => demands_other hF
  | .boolOp .. | .namedExpr .. | .lambda .. | .ifExp .. | .dict .. | .set .. | .listComp ..
  | .setComp .. | .dictComp .. | .generatorExp .. | .await .. | .yield .. | .yieldFrom ..
  | .compare .. | .attr .. | .starred .. | .list .. | .tuple .. | .slice .. => demands_other hF

theorem demands_foldEach (hF : F.other = pure none) (hname : ∀ id, Demands (K id) (F.name id)) :
    ∀ es, List.Forall₂ (fun m ids => Demands (MarksOf K ids) m) (foldEach addFloat F es) (askedEach true es)
  | [] => .nil
  | e :: es => .cons (demands_foldExpr hF hname e) (demands_foldEach hF hname es)

theorem demands_foldEachMember (hF : F.other = pure none) (hname : ∀ id, Demands (K id) (F.name id)) :
    ∀ es, List.Forall₂ (fun m ids => ∀ a, m = some a → Demands (MarksOf K ids) a)
      (foldEachMember addFloat F es) (askedEach true es)
  | [] => .nil
  | e :: es => by
    refine .cons (fun a ha => ?_) (demands_foldEachMember hF hname es)
    split at ha
    · cases ha
    · rw [← Option.some.inj ha]
      exact demands_foldExpr hF hname e

theorem demands_foldEachKey (hF : F.other = pure none) (hname : ∀ id, Demands (K id) (F.name id)) :
    ∀ es, List.Forall₂ (fun m ids => ∀ a, m = some a → Demands (MarksOf K ids) a)
      (foldEachKey addFloat F es) (askedKeys true es)
  | [] => .nil
  | none :: es => .cons (fun a ha => nomatch ha) (demands_foldEachKey hF hname es)
  | some e :: es => by
    refine .cons (fun a ha => ?_) (demands_foldEachKey hF hname es)
    rw [← Option.some.inj ha]
    exact demands_foldExpr hF hname e

theorem demands_foldContainer (hF : F.other = pure none) (hname : ∀ id, Demands (K id) (F.name id)) :
    ∀ e, Demands (MarksOf K (askedDisplay true e)) (foldContainer addFloat F e)
  | .dict _ keys values => by
    have hitems := demands_itemsFolded (demands_foldEachKey hF hname keys) (demands_foldEach hF hname values)
    refine (hitems.mono fun k hk => ?_).map rfl
    rw [askedDisplay] at hk
    split at hk
    · exact absurd hk.choose_spec.1 List.not_mem_nil
    · rename_i hlength
      rw [length_foldEachKey, length_foldEach]
      exact ⟨by simpa using hlength, marksOf_append hk⟩
  | .list _ elts _ | .tuple _ elts _ =>
    (demands_membersFolded (demands_foldEachMember hF hname elts)).map rfl
  | .boolOp .. | .namedExpr .. | .lambda .. | .ifExp .. | .set .. | .listComp ..
  | .setComp .. | .dictComp .. | .generatorExp .. | .await .. | .yield .. | .yieldFrom ..
  | .compare .. | .attr .. | .starred .. | .slice .. | .constant .. | .formattedValue ..
  | .unaryOp .. | .joinedStr .. | .binOp .. | .name .. | .subscript .. | .call .. => .none

end

end

theorem demands_evalStaticConstant (addFloat : ℚ → ℚ → ℚ) (T : Tracker) (fuel : ℕ) (e : Expr) (scope : String)
    (line : ℕ) : Demands (Follows addFloat T true scope line e) (evalStaticConstant addFloat T fuel e scope line) := by
  induction fuel generalizing e scope line with
  | zero => exact fun _ _ _ h => nomatch h
  | succ fuel ih =>
    rw [evalStaticConstant]
    refine (demands_foldExpr (K := fun id k => k = scope ++ ":" ++ id ∨ ∃ r, T.chainRecord scope id line = some r ∧
      Follows addFloat T true r.scopeId r.lineno r.valueNode k) rfl (fun id => ?_) e).mono fun k hk => ?_
    · intro visited a visited' hrun
      simp only [run_foldName] at hrun
      split at hrun
      · obtain ⟨rfl, rfl⟩ := Prod.mk.inj (Option.some.inj hrun)
        exact ⟨List.Subset.refl _, fun ha => nomatch ha⟩
      · rename_i hkey
        have hfold (e : Expr) (scope : String) (line : ℕ) :
            Uniform (fun _ => True) (evalStaticConstant addFloat T fuel e scope line) :=
          (uniform_evalStaticConstant addFloat T fuel e scope line).mono fun _ _ => trivial
        have huniform : Uniform (fun _ => True)
            (followName addFloat T (evalStaticConstant addFloat T fuel) scope line id) :=
          uniform_followName (fun r _ => hfold _ _ _) fun _ r _ => hfold _ _ _
        obtain ⟨marks, -, heq, -⟩ := huniform _ _ _ hrun
        have hgrows : (scope ++ ":" ++ id) :: visited ⊆ visited' := heq ▸ List.subset_append_right _ _
        refine ⟨List.Subset.trans (List.subset_cons_self _ _) hgrows, fun ha k hk => ?_⟩
        rcases hk with rfl | ⟨r, hr, hk⟩
        · exact ⟨hgrows List.mem_cons_self, hkey⟩
        · simp only [followName, hr] at hrun
          obtain ⟨hmem, hnot⟩ := (ih r.valueNode r.scopeId r.lineno _ _ _ hrun).2 ha k hk
          exact ⟨hmem, fun h => hnot (List.mem_cons_of_mem _ h)⟩
    · cases hk with
      | name hid => exact ⟨_, hid, .inl rfl⟩
      | record hid hr hk => exact ⟨_, hid, .inr ⟨_, hr, hk⟩⟩
      | fallback hfalse => cases hfalse

end TimeCodeSecurity.Scanner
