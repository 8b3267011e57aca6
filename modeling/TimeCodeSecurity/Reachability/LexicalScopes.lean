import TimeCodeSecurity.Foundations.FirstBinding
import TimeCodeSecurity.Reachability.Visitor
import TimeCodeSecurity.Scanner.ScopeIds

/-! # Names asked from a function

`lookup_import` and `lookup_binding` walk from a function outwards by its dotted path. What Python does with a
name: the functions around are asked, then the module; the body of a class is not, nor is the file that a dotted
module name starts with.
-/
namespace TimeCodeSecurity.Reachability
open FirstBinding Scanner
set_option autoImplicit false

inductive FrameKind
  | package | module | class_ | function
deriving DecidableEq, Repr

structure Frame where
  kind : FrameKind
  name : String
deriving DecidableEq, Repr

abbrev Scope := List Frame

def ScopeType.frameKind : ScopeType → FrameKind
  | .module => .module
  | .class_ => .class_
  | .function => .function

def homeFrames (module : String) : Scope :=
  match (module.toList.splitOn '.').reverse with
  | [] => []
  | last :: front => ⟨.module, String.ofList last⟩ :: front.map fun part => ⟨.package, String.ofList part⟩

/-- A function and the classes and functions it stands in, outermost first. -/
structure FunctionScope where
  around : ScopeStack
  name : String
  definitions : ∀ d ∈ around, d.1 ≠ .module
  plain : ∀ d ∈ around ++ [(ScopeType.function, name)], '.' ∉ d.2.toList

namespace FunctionScope

variable (s : FunctionScope) (module : String)

/-- The visitor's stack in the body of the function. -/
def stack : ScopeStack := (.module, module) :: (s.around ++ [(.function, s.name)])

def frames : Scope :=
  ((s.around ++ [(ScopeType.function, s.name)]).reverse.map fun d => ⟨d.1.frameKind, d.2⟩) ++ homeFrames module

end FunctionScope

def path (scope : Scope) : String := ".".intercalate (scope.reverse.map (·.name))

def scopesOf : Scope → List Scope
  | [] => []
  | f :: scope => (f :: scope) :: scopesOf scope

def visible : Scope → Bool
  | [] => false
  | f :: _ => f.kind = .function || f.kind = .module

def isClass : Scope → Bool
  | [] => false
  | f :: _ => f.kind = .class_

def FunctionScope.visibleScopes (s : FunctionScope) (module : String) : List Scope :=
  (scopesOf (s.frames module)).filter visible

namespace Visitor

variable (V : Visitor)

/-- The record of the innermost scope that imports the name; a star only where none does. -/
def expectedImport (s : FunctionScope) (name : String) : Option ImportRecord :=
  ((s.visibleScopes V.moduleName).findSome? fun t => V.importOf (path t) name).or
    ((s.visibleScopes V.moduleName).findSome? fun t => V.importOf (path t) "*")

def expectedBinding (s : FunctionScope) (name : String) : Option LocalAssignmentBinding :=
  (s.visibleScopes V.moduleName).findSome? fun t => V.localBindingsByScope.lookup (path t, name)

end Visitor

/-- A lookup from a function: nothing of the body of a class around it, and the innermost binding. -/
structure ObeysPep227 {ρ : Type} (scopePathOf : ρ → String) (frames : Scope) (found expected : Option ρ) :
    Prop where
  noClassBody : ∀ r, found = some r → ∀ c ∈ scopesOf frames, isClass c → scopePathOf r ≠ path c
  innermost : found = expected

/-! ## Paths -/

theorem path_singleton (f : Frame) : path [f] = f.name := by simp [path]

theorem path_cons_cons (f g : Frame) (scope : Scope) :
    path (f :: g :: scope) = path (g :: scope) ++ "." ++ f.name := by
  rw [path, List.reverse_cons, List.map_append, String.intercalate_append_of_ne_nil (by simp) (by simp)]
  rw [List.map_singleton, String.intercalate_singleton, path]

theorem contains_path_cons_cons (f g : Frame) (scope : Scope) :
    contains "." (path (f :: g :: scope)) = true := by
  rw [contains_dot_iff, path_cons_cons]
  simp

theorem path_cons_cons_ne_empty (f g : Frame) (scope : Scope) : path (f :: g :: scope) ≠ "" := by
  intro heq
  have hdot := contains_path_cons_cons f g scope
  rw [heq] at hdot
  exact absurd hdot (by decide)

theorem length_path_lt (f : Frame) {t scope : Scope} (ht : t ∈ scopesOf scope) :
    (path t).length < (path (f :: scope)).length := by
  induction scope generalizing f with
  | nil => cases ht
  | cons g scope ih =>
    have hone : ".".length = 1 := rfl
    have hstep : (path (g :: scope)).length < (path (f :: g :: scope)).length := by
      rw [path_cons_cons, String.length_append, String.length_append]
      omega
    rcases List.mem_cons.mp ht with rfl | ht
    · exact hstep
    · exact (ih g ht).trans hstep

theorem path_inj {scope t u : Scope} (ht : t ∈ scopesOf scope) (hu : u ∈ scopesOf scope) (h : path t = path u) :
    t = u := by
  induction scope with
  | nil => cases ht
  | cons f scope ih =>
    rcases List.mem_cons.mp ht with rfl | ht
    · rcases List.mem_cons.mp hu with rfl | hu
      · rfl
      · exact absurd (congrArg String.length h).symm (length_path_lt f hu).ne
    · rcases List.mem_cons.mp hu with rfl | hu
      · exact absurd (congrArg String.length h) (length_path_lt f ht).ne
      · exact ih ht hu

theorem length_le_path (scope : Scope) : scope.length ≤ (path scope).length + 1 := by
  induction scope with
  | nil => exact Nat.zero_le _
  | cons f scope ih =>
    cases scope with
    | nil => simp
    | cons g scope =>
      have hlt : (path (g :: scope)).length < (path (f :: g :: scope)).length :=
        length_path_lt f List.mem_cons_self
      rw [List.length_cons]
      omega

theorem length_le_of_mem_scopesOf {scope t : Scope} (ht : t ∈ scopesOf scope) : t.length ≤ scope.length := by
  induction scope with
  | nil => cases ht
  | cons f scope ih =>
    rcases List.mem_cons.mp ht with rfl | ht
    · exact le_rfl
    · exact (ih ht).trans (Nat.le_succ _)

theorem length_inj {scope t u : Scope} (ht : t ∈ scopesOf scope) (hu : u ∈ scopesOf scope)
    (h : t.length = u.length) : t = u := by
  induction scope with
  | nil => cases ht
  | cons f scope ih =>
    rcases List.mem_cons.mp ht with rfl | ht
    · rcases List.mem_cons.mp hu with rfl | hu
      · rfl
      · exact absurd (length_le_of_mem_scopesOf hu) (by rw [← h]; simp)
    · rcases List.mem_cons.mp hu with rfl | hu
      · exact absurd (length_le_of_mem_scopesOf ht) (by rw [h]; simp)
      · exact ih ht hu

theorem falling_scopesOf (scope : Scope) : Falling List.length (scopesOf scope) := by
  induction scope with
  | nil => exact List.Pairwise.nil
  | cons f scope ih =>
    exact List.pairwise_cons.mpr ⟨fun t ht => (length_le_of_mem_scopesOf ht).trans (Nat.le_succ _), ih⟩

theorem homeFrames_cons (module : String) :
    ∃ last front, (module.toList.splitOn '.').reverse = last :: front ∧
      homeFrames module =
        ⟨.module, String.ofList last⟩ :: front.map fun part => ⟨.package, String.ofList part⟩ := by
  have hne : (module.toList.splitOn '.').reverse ≠ [] :=
    fun h => List.splitOn_ne_nil '.' module.toList (List.reverse_eq_nil_iff.mp h)
  obtain ⟨last, front, heq⟩ := List.exists_cons_of_ne_nil hne
  refine ⟨last, front, heq, ?_⟩
  rw [homeFrames, heq]

theorem names_homeFrames (module : String) :
    (homeFrames module).map (·.name) = ((module.toList.splitOn '.').map String.ofList).reverse := by
  obtain ⟨last, front, heq, hhome⟩ := homeFrames_cons module
  rw [hhome, ← List.map_reverse, heq]
  simp

theorem path_homeFrames (module : String) : path (homeFrames module) = module := by
  rw [path, List.map_reverse, names_homeFrames, List.reverse_reverse]
  apply String.toList_injective
  have hlist : ((module.toList.splitOn '.').map String.ofList).map String.toList = module.toList.splitOn '.' := by
    rw [List.map_map]
    exact (List.map_congr_left fun part _ => String.toList_ofList).trans (List.map_id _)
  rw [String.toList_intercalate, hlist]
  exact List.intercalate_splitOn '.'

theorem path_append {scope home : Scope} (hscope : scope ≠ []) (hhome : home ≠ []) :
    path (scope ++ home) = path home ++ "." ++ path scope := by
  rw [path, List.reverse_append, List.map_append, String.intercalate_append_of_ne_nil (by simpa) (by simpa)]
  rfl

namespace FunctionScope

variable (s : FunctionScope) (module : String)

theorem scopePath_stack : scopePath (s.stack module) = path (s.frames module) := by
  have hhome : homeFrames module ≠ [] := by
    obtain ⟨last, front, -, hhome⟩ := homeFrames_cons module
    rw [hhome]
    exact List.cons_ne_nil _ _
  have hdefs : (s.around ++ [(ScopeType.function, s.name)]).map (·.2) ≠ [] := by simp
  rw [frames, path_append (by simp) hhome, path_homeFrames, scopePath, stack, List.map_cons,
    String.intercalate_cons_of_ne_nil hdefs, path, ← List.map_reverse, List.reverse_reverse, List.map_map]
  rfl

theorem noDot_frames : ∀ f ∈ s.frames module, '.' ∉ f.name.toList := by
  intro f hf
  rcases List.mem_append.mp hf with hf | hf
  · obtain ⟨d, hd, rfl⟩ := List.mem_map.mp hf
    exact s.plain d (List.mem_reverse.mp hd)
  · have hname : f.name ∈ (homeFrames module).map (·.name) := List.mem_map_of_mem hf
    rw [names_homeFrames, List.mem_reverse] at hname
    obtain ⟨part, hpart, heq⟩ := List.mem_map.mp hname
    rw [← heq, String.toList_ofList]
    exact Separators.not_mem_of_mem_splitOn hpart

theorem home_mem_scopesOf : homeFrames module ∈ scopesOf (s.frames module) := by
  have hsub : ∀ before : Scope, homeFrames module ∈ scopesOf (before ++ homeFrames module) := by
    intro before
    induction before with
    | nil =>
      obtain ⟨last, front, -, hhome⟩ := homeFrames_cons module
      rw [hhome]
      exact List.mem_cons_self
    | cons f before ih => exact List.mem_cons_of_mem _ ih
  exact hsub _

end FunctionScope

/-! ## The walk -/

/-- The scopes the walk of `lookup_import` comes to: the parent of each, or its grandparent where the parent has the
path of a class. -/
def comeTo (classes : List String) : Scope → List Scope
  | [] => []
  | [f] => if f.name = "" then [] else [[f]]
  | [f, g] => [f, g] :: comeTo classes [g]
  | f :: g :: h :: scope =>
    (f :: g :: h :: scope) ::
      if path (g :: h :: scope) ∈ classes then comeTo classes (h :: scope) else comeTo classes (g :: h :: scope)

namespace Visitor

variable (V : Visitor)

theorem importScopes_cons_cons (fuel : ℕ) {f : Frame} (g : Frame) (scope : Scope) (hf : '.' ∉ f.name.toList) :
    V.importScopes (fuel + 1) (path (f :: g :: scope)) = path (f :: g :: scope) :: V.importScopes fuel
      (if path (g :: scope) ∈ V.classes ∧ contains "." (path (g :: scope)) then beforeLastDot (path (g :: scope))
        else path (g :: scope)) := by
  have hparent : beforeLastDot (path (f :: g :: scope)) = path (g :: scope) := by
    rw [path_cons_cons, beforeLastDot_append hf]
  rw [importScopes, if_neg (path_cons_cons_ne_empty f g scope),
    if_neg (not_not.mpr (contains_path_cons_cons f g scope)), hparent]

theorem importScopes_path {scope : Scope} (hplain : ∀ f ∈ scope, '.' ∉ f.name.toList) {fuel : ℕ}
    (hfuel : scope.length ≤ fuel) :
    V.importScopes fuel (path scope) = (comeTo V.classes scope).map path := by
  induction scope using comeTo.induct generalizing fuel with
  | case1 => cases fuel <;> simp [importScopes, comeTo, path]
  | case2 f hempty =>
    obtain ⟨fuel, rfl⟩ : ∃ k, fuel = k + 1 := ⟨fuel - 1, by simp at hfuel; omega⟩
    rw [path_singleton, importScopes, if_pos hempty, comeTo, if_pos hempty, List.map_nil]
  | case3 f hne =>
    obtain ⟨fuel, rfl⟩ : ∃ k, fuel = k + 1 := ⟨fuel - 1, by simp at hfuel; omega⟩
    have hdot : ¬contains "." f.name := by
      rw [contains_dot_iff]
      exact hplain f List.mem_cons_self
    rw [path_singleton, importScopes, if_neg hne, if_pos hdot, comeTo, if_neg hne, List.map_singleton,
      path_singleton]
  | case4 f g ih =>
    obtain ⟨fuel, rfl⟩ : ∃ k, fuel = k + 1 := ⟨fuel - 1, by simp at hfuel; omega⟩
    have hparent : ¬contains "." (path [g]) := by
      rw [contains_dot_iff, path_singleton]
      exact hplain g (by simp)
    rw [importScopes_cons_cons V fuel g [] (hplain f List.mem_cons_self), if_neg fun h => hparent h.2,
      ih (fun x hx => hplain x (List.mem_cons_of_mem _ hx)) (by simp at hfuel ⊢; omega)]
    rfl
  | case5 f g h scope ihSkip ih =>
    obtain ⟨fuel, rfl⟩ : ∃ k, fuel = k + 1 := ⟨fuel - 1, by simp at hfuel; omega⟩
    have hgrand : beforeLastDot (path (g :: h :: scope)) = path (h :: scope) := by
      rw [path_cons_cons, beforeLastDot_append (hplain g (by simp))]
    rw [importScopes_cons_cons V fuel g (h :: scope) (hplain f List.mem_cons_self), comeTo, List.map_cons]
    by_cases hclass : path (g :: h :: scope) ∈ V.classes
    · rw [if_pos (And.intro hclass (contains_path_cons_cons g h scope)), if_pos hclass, hgrand,
        ihSkip (fun x hx => hplain x (List.mem_cons_of_mem _ (List.mem_cons_of_mem _ hx)))
          (by simp at hfuel ⊢; omega)]
    · rw [if_neg fun hboth => hclass hboth.1, if_neg hclass,
        ih (fun x hx => hplain x (List.mem_cons_of_mem _ hx)) (by simp at hfuel ⊢; omega)]

end Visitor

theorem mem_scopesOf_of_comeTo {classes : List String} {scope t : Scope} (ht : t ∈ comeTo classes scope) :
    t ∈ scopesOf scope := by
  induction scope using comeTo.induct with
  | case1 => cases ht
  | case2 f hempty => rw [comeTo, if_pos hempty] at ht; cases ht
  | case3 f hne => rw [comeTo, if_neg hne] at ht; exact ht
  | case4 f g ih => exact List.mem_cons.mpr ((List.mem_cons.mp ht).imp_right ih)
  | case5 f g h scope ihSkip ih =>
    refine List.mem_cons.mpr ((List.mem_cons.mp ht).imp_right fun hrest => ?_)
    split at hrest
    · exact List.mem_cons_of_mem _ (ihSkip hrest)
    · exact ih hrest

theorem falling_comeTo (classes : List String) (scope : Scope) : Falling List.length (comeTo classes scope) := by
  have hshort : ∀ {t inner}, t ∈ comeTo classes inner → t.length ≤ inner.length :=
    fun ht => length_le_of_mem_scopesOf (mem_scopesOf_of_comeTo ht)
  induction scope using comeTo.induct with
  | case1 => exact List.Pairwise.nil
  | case2 f hempty => rw [comeTo, if_pos hempty]; exact List.Pairwise.nil
  | case3 f hne => rw [comeTo, if_neg hne]; exact List.pairwise_singleton _ _
  | case4 f g ih => exact List.pairwise_cons.mpr ⟨fun t ht => (hshort ht).trans (by simp), ih⟩
  | case5 f g h scope ihSkip ih =>
    rw [comeTo]
    split
    · exact List.pairwise_cons.mpr ⟨fun t ht => (hshort ht).trans (by simp), ihSkip⟩
    · exact List.pairwise_cons.mpr ⟨fun t ht => (hshort ht).trans (by simp), ih⟩

theorem lookupBinding_path (V : Visitor) (name : String) {scope : Scope}
    (hplain : ∀ f ∈ scope, '.' ∉ f.name.toList) {fuel : ℕ} (hfuel : scope.length ≤ fuel) :
    V.lookupBinding name fuel (path scope) =
      ((scopesOf scope).filter (path · ≠ "")).findSome? fun t => V.localBindingsByScope.lookup (path t, name) := by
  induction scope generalizing fuel with
  | nil => cases fuel <;> simp [Visitor.lookupBinding, scopesOf, path]
  | cons f scope ih =>
    obtain ⟨fuel, rfl⟩ : ∃ k, fuel = k + 1 := ⟨fuel - 1, by simp at hfuel; omega⟩
    have hf : '.' ∉ f.name.toList := hplain f List.mem_cons_self
    have hnext : path (f :: scope) ≠ "" → (if contains "." (path (f :: scope)) then
        V.lookupBinding name fuel (beforeLastDot (path (f :: scope))) else none) =
          ((scopesOf scope).filter (path · ≠ "")).findSome? fun t =>
            V.localBindingsByScope.lookup (path t, name) := by
      intro hne
      cases scope with
      | nil =>
        have hdot : ¬contains "." (path [f]) := by rwa [contains_dot_iff, path_singleton]
        rw [if_neg hdot]
        rfl
      | cons g scope =>
        rw [if_pos (contains_path_cons_cons f g scope), path_cons_cons, beforeLastDot_append hf,
          ih (fun x hx => hplain x (List.mem_cons_of_mem _ hx)) (by simp at hfuel ⊢; omega)]
    rw [Visitor.lookupBinding, scopesOf]
    by_cases hempty : path (f :: scope) = ""
    · cases scope with
      | nil => rw [if_pos hempty, List.filter_cons_of_neg (by simpa using hempty)]; rfl
      | cons g scope => exact absurd hempty (path_cons_cons_ne_empty f g scope)
    · rw [if_neg hempty, List.filter_cons_of_pos (by simpa using hempty), List.findSome?_cons, hnext hempty]
      cases V.localBindingsByScope.lookup (path (f :: scope), name) with
      | none => rfl
      | some b => rfl

def ImportRecord.boundName (r : ImportRecord) : String := r.asname.getD (r.symbol.getD r.module)

/-- Every record is kept under its own scope and name. -/
structure Visitor.FiledWell (V : Visitor) : Prop where
  imports : ∀ scope name r, V.importOf scope name = some r → r.scopePath = scope ∧ r.boundName = name
  bindings : ∀ scope name b, V.localBindingsByScope.lookup (scope, name) = some b → b.scopePath = scope

theorem importOf_addImport (V : Visitor) (scope name : String) (r : ImportRecord) (scope' name' : String) :
    (V.addImport scope name r).importOf scope' name' =
      if scope' = scope ∧ name' = name then some r else V.importOf scope' name' := by
  rw [Visitor.importOf, Visitor.addImport, Tables.lookup_setItem]
  by_cases hscope : scope' = scope
  · subst hscope
    rw [if_pos rfl, Option.bind_some, Tables.lookup_setItem]
    by_cases hname : name' = name
    · rw [if_pos hname, if_pos ⟨rfl, hname⟩]
    · rw [if_neg hname, if_neg fun h => hname h.2, Visitor.importOf]
      cases V.importsByScope.lookup scope' with
      | none => rfl
      | some names => rfl
  · rw [if_neg hscope, if_neg fun h => hscope h.1, Visitor.importOf]

namespace Visitor

theorem FiledWell.addImport {V : Visitor} (hV : V.FiledWell) {scope name : String} {r : ImportRecord}
    (hscope : r.scopePath = scope) (hname : r.boundName = name) : (V.addImport scope name r).FiledWell where
  imports scope' name' r' h := by
    rw [importOf_addImport] at h
    split at h
    next heq =>
      cases h
      exact ⟨hscope.trans heq.1.symm, hname.trans heq.2.symm⟩
    next => exact hV.imports scope' name' r' h
  bindings := hV.bindings

theorem filedWell_foldl {ν : Type} {step : Visitor → ν → Visitor}
    (hstep : ∀ V x, V.FiledWell → (step V x).FiledWell) (xs : List ν) {V : Visitor} (hV : V.FiledWell) :
    (xs.foldl step V).FiledWell := by
  induction xs generalizing V with
  | nil => exact hV
  | cons x xs ih => exact ih (hstep V x hV)

theorem FiledWell.visitNode {V : Visitor} (hV : V.FiledWell) (unparse : Py.Expr → String)
    (declared : List String) (n : ScopeStack × Py.Node) : (V.visitNode unparse declared n).FiledWell := by
  rw [Visitor.visitNode]
  split
  · exact ⟨hV.imports, hV.bindings⟩
  · exact ⟨hV.imports, hV.bindings⟩
  · refine filedWell_foldl ?_ _ hV
    intro W a hW
    exact hW.addImport rfl rfl
  · refine filedWell_foldl ?_ _ hV
    intro W a hW
    exact hW.addImport rfl rfl
  · unfold visitAssign
    split
    · dsimp only
      split
      · exact hV
      · split
        · exact hV
        · refine ⟨hV.imports, fun scope name b h => ?_⟩
          rw [Tables.lookup_setItem] at h
          split at h
          next heq =>
            cases h
            exact (Prod.mk.inj heq).1.symm
          next => exact hV.bindings scope name b h
    · exact hV
  · exact ⟨hV.imports, hV.bindings⟩
  · exact hV

theorem filedWell_analyzeFiles (unparse : Py.Expr → String) (declared : List String) (files : List SourceFile) :
    (analyzeFiles unparse declared files).FiledWell := by
  refine filedWell_foldl (fun V file hV => ?_) files ⟨?_, ?_⟩
  · exact filedWell_foldl (fun W n hW => hW.visitNode unparse declared n) _ ⟨hV.imports, hV.bindings⟩
  · intro scope name r h
    simp [importOf] at h
  · intro scope name b h
    simp at h

end Visitor

/-! ## When the lookups find what Python finds -/

def Undisturbed (visibleScopes asked : List Scope) (binds : Scope → Bool) : Prop :=
  Screened visible binds asked ∧
    ∀ t ∈ visibleScopes, binds t → t ∈ asked ∨ ∃ u ∈ asked, visible u ∧ binds u ∧ t.length < u.length

namespace Visitor

variable (V : Visitor) (s : FunctionScope) (name : String)

def askedForImport : List Scope := comeTo V.classes (s.frames V.moduleName) ++ [homeFrames V.moduleName]

def askedForBinding : List Scope := (scopesOf (s.frames V.moduleName)).filter (path · ≠ "")

def ImportUndisturbed : Prop :=
  Undisturbed (s.visibleScopes V.moduleName) (V.askedForImport s) fun t => (V.importOf (path t) name).isSome

/-- The name is found undisturbed; a star too, where no visible scope has the name. -/
def ImportsUndisturbed : Prop :=
  V.ImportUndisturbed s name ∧
    ((∀ t ∈ s.visibleScopes V.moduleName, V.importOf (path t) name = none) → V.ImportUndisturbed s "*")

def BindingsUndisturbed : Prop :=
  Undisturbed (s.visibleScopes V.moduleName) (V.askedForBinding s) fun t =>
    (V.localBindingsByScope.lookup (path t, name)).isSome

end Visitor

theorem length_home_le {s : FunctionScope} {module : String} {t : Scope} (ht : t ∈ scopesOf (s.frames module))
    (hvisible : visible t) : (homeFrames module).length ≤ t.length := by
  have hpackages : ∀ parts : List (List Char),
      t ∉ scopesOf (parts.map fun part => (⟨.package, String.ofList part⟩ : Frame)) := by
    intro parts hmem
    induction parts with
    | nil => cases hmem
    | cons part parts ih =>
      rcases List.mem_cons.mp hmem with rfl | hmem
      · exact absurd hvisible (by simp [visible])
      · exact ih hmem
  have hsplit : ∀ before : Scope, t ∈ scopesOf (before ++ homeFrames module) →
      (homeFrames module).length ≤ t.length := by
    intro before hmem
    induction before with
    | nil =>
      obtain ⟨last, front, -, hhome⟩ := homeFrames_cons module
      rw [List.nil_append, hhome] at hmem
      rcases List.mem_cons.mp hmem with rfl | hmem
      · rw [hhome]
      · exact absurd hmem (hpackages front)
    | cons f before ih =>
      rcases List.mem_cons.mp hmem with rfl | hmem
      · exact (List.suffix_append (f :: before) (homeFrames module)).length_le
      · exact ih hmem
  exact hsplit _ ht

theorem find?_eq_iff_undisturbed {s : FunctionScope} {module : String} {asked : List Scope}
    (hmem : ∀ t ∈ asked, t ∈ scopesOf (s.frames module)) (hfall : Falling List.length (asked.filter visible))
    (binds : Scope → Bool) :
    asked.find? binds = (s.visibleScopes module).find? binds ↔ Undisturbed (s.visibleScopes module) asked binds :=
  find?_eq_iff hfall ((falling_scopesOf _).filter _) (fun t ht hvisible => List.mem_filter.mpr ⟨hmem t ht, hvisible⟩)
    (fun _ ht => (List.mem_filter.mp ht).2)
    fun _ ht _ hu => length_inj (List.mem_filter.mp ht).1 (List.mem_filter.mp hu).1

namespace Visitor

variable (V : Visitor) (s : FunctionScope) (name : String)

theorem mem_scopesOf_of_askedForImport {t : Scope} (ht : t ∈ V.askedForImport s) :
    t ∈ scopesOf (s.frames V.moduleName) := by
  rcases List.mem_append.mp ht with ht | ht
  · exact mem_scopesOf_of_comeTo ht
  · rw [List.mem_singleton.mp ht]
    exact s.home_mem_scopesOf V.moduleName

theorem falling_askedForImport : Falling List.length ((V.askedForImport s).filter visible) := by
  rw [askedForImport, List.filter_append]
  refine List.pairwise_append.mpr ⟨(falling_comeTo _ _).filter _, ?_, fun t ht u hu => ?_⟩
  · exact (List.pairwise_singleton _ _).filter _
  · obtain ⟨ht, hvisible⟩ := List.mem_filter.mp ht
    rw [List.mem_singleton.mp (List.mem_of_mem_filter hu)]
    exact length_home_le (mem_scopesOf_of_comeTo ht) hvisible

theorem lookupImport_eq :
    V.lookupImport name (scopePath (s.stack V.moduleName)) =
      ((V.askedForImport s).findSome? fun t => V.importOf (path t) name).or
        ((V.askedForImport s).findSome? fun t => V.importOf (path t) "*") := by
  have hscopes : V.importScopes ((scopePath (s.stack V.moduleName)).length + 1) (scopePath (s.stack V.moduleName)) ++
      [V.moduleName] = (V.askedForImport s).map path := by
    rw [s.scopePath_stack, importScopes_path V (s.noDot_frames V.moduleName) (length_le_path _), askedForImport,
      List.map_append, List.map_singleton, path_homeFrames]
  rw [lookupImport, hscopes, List.findSome?_map, List.findSome?_map]
  rfl

theorem lookupBinding_eq :
    V.lookupBinding name ((scopePath (s.stack V.moduleName)).length + 1) (scopePath (s.stack V.moduleName)) =
      (V.askedForBinding s).findSome? fun t => V.localBindingsByScope.lookup (path t, name) := by
  rw [s.scopePath_stack, lookupBinding_path V name (s.noDot_frames V.moduleName) (length_le_path _)]
  rfl

variable {V} {s}

theorem or_eq_or_iff {ρ : Type} {a b a' b' : Option ρ} (ha : ∀ r, a = some r → b' ≠ some r)
    (ha' : ∀ r, a' = some r → b ≠ some r) : a.or b = a'.or b' ↔ a = a' ∧ (a' = none → b = b') := by
  cases a with
  | none =>
    cases a' with
    | none => simp
    | some r => simpa using ha' r rfl
  | some r =>
    cases a' with
    | none =>
      have hne := ha r rfl
      simpa using fun heq => hne heq.symm
    | some r' => simp

theorem findSome?_importOf_eq_iff (hV : V.FiledWell) (name : String) :
    ((V.askedForImport s).findSome? fun t => V.importOf (path t) name) =
        (s.visibleScopes V.moduleName).findSome? (fun t => V.importOf (path t) name) ↔
      V.ImportUndisturbed s name := by
  rw [ImportUndisturbed, ← find?_eq_iff_undisturbed (fun t => V.mem_scopesOf_of_askedForImport s)
    (V.falling_askedForImport s)]
  refine findSome?_eq_findSome?_iff fun t ht u hu r hr hr' => ?_
  have hpath : path t = path u := (hV.imports _ _ r hr).1.symm.trans (hV.imports _ _ r hr').1
  exact path_inj (V.mem_scopesOf_of_askedForImport s ht) (List.mem_of_mem_filter hu) hpath

theorem findSome?_binding_eq_iff (hV : V.FiledWell) (name : String) :
    ((V.askedForBinding s).findSome? fun t => V.localBindingsByScope.lookup (path t, name)) =
        (s.visibleScopes V.moduleName).findSome? (fun t => V.localBindingsByScope.lookup (path t, name)) ↔
      V.BindingsUndisturbed s name := by
  have hmem : ∀ t ∈ V.askedForBinding s, t ∈ scopesOf (s.frames V.moduleName) :=
    fun t ht => List.mem_of_mem_filter ht
  have hfall : Falling List.length ((V.askedForBinding s).filter visible) :=
    ((falling_scopesOf _).filter _).filter _
  rw [BindingsUndisturbed, ← find?_eq_iff_undisturbed hmem hfall]
  refine findSome?_eq_findSome?_iff fun t ht u hu b hb hb' => ?_
  have hpath : path t = path u := (hV.bindings _ _ b hb).symm.trans (hV.bindings _ _ b hb')
  exact path_inj (hmem t ht) (List.mem_of_mem_filter hu) hpath

theorem lookupImport_eq_expected_iff (hV : V.FiledWell) (s : FunctionScope) (name : String) :
    V.lookupImport name (scopePath (s.stack V.moduleName)) = V.expectedImport s name ↔
      V.ImportsUndisturbed s name := by
  have hkeys : ∀ {scopes scopes' : List Scope} {r}, scopes.findSome? (fun t => V.importOf (path t) name) = some r →
      scopes'.findSome? (fun t => V.importOf (path t) "*") = some r → name = "*" := by
    intro scopes scopes' r hr hr'
    obtain ⟨t, -, ht⟩ := List.exists_of_findSome?_eq_some hr
    obtain ⟨u, -, hu⟩ := List.exists_of_findSome?_eq_some hr'
    exact (hV.imports _ _ r ht).2.symm.trans (hV.imports _ _ r hu).2
  rw [lookupImport_eq, expectedImport, ImportsUndisturbed]
  by_cases hstar : name = "*"
  · subst hstar
    rw [Option.or_self, Option.or_self, findSome?_importOf_eq_iff hV]
    exact ⟨fun h => ⟨h, fun _ => h⟩, fun h => h.1⟩
  · rw [or_eq_or_iff (fun r hr hr' => hstar (hkeys hr hr')) (fun r hr hr' => hstar (hkeys hr hr')),
      findSome?_importOf_eq_iff hV, findSome?_importOf_eq_iff hV, List.findSome?_eq_none_iff]

end Visitor

theorem obeysPep227_iff {ρ : Type} {scopePathOf : ρ → String} {s : FunctionScope} {module : String}
    {found expected : Option ρ}
    (hexpected : ∀ r, expected = some r → ∃ t ∈ s.visibleScopes module, scopePathOf r = path t) :
    ObeysPep227 scopePathOf (s.frames module) found expected ↔ found = expected := by
  refine ⟨fun h => h.innermost, fun heq => ⟨fun r hr c hc hclass hpath => ?_, heq⟩⟩
  obtain ⟨t, ht, htr⟩ := hexpected r (heq.symm.trans hr)
  obtain ⟨htmem, hvisible⟩ := List.mem_filter.mp ht
  have htc : t = c := path_inj htmem hc (htr.symm.trans hpath)
  cases t with
  | nil => exact absurd hvisible Bool.false_ne_true
  | cons f t =>
    rw [← htc] at hclass
    simp only [isClass, decide_eq_true_eq] at hclass
    simp [visible, hclass] at hvisible

/-- **The lookups obey PEP 227** exactly when nothing disturbs them: no class body they come to, no binding of a
function they step over. -/
theorem lookups_obey_iff {V : Visitor} (hV : V.FiledWell) (s : FunctionScope) (name : String) :
    ObeysPep227 (·.scopePath) (s.frames V.moduleName)
        (V.lookupImport name (scopePath (s.stack V.moduleName))) (V.expectedImport s name) ∧
      ObeysPep227 (·.scopePath) (s.frames V.moduleName)
        (V.lookupBinding name ((scopePath (s.stack V.moduleName)).length + 1) (scopePath (s.stack V.moduleName)))
        (V.expectedBinding s name) ↔
      V.ImportsUndisturbed s name ∧ V.BindingsUndisturbed s name := by
  refine and_congr ?_ ?_
  · rw [obeysPep227_iff, Visitor.lookupImport_eq_expected_iff hV]
    intro r hr
    rcases Option.or_eq_some_iff.mp hr with hr | ⟨-, hr⟩
    · obtain ⟨t, ht, htr⟩ := List.exists_of_findSome?_eq_some hr
      exact ⟨t, ht, (hV.imports _ _ r htr).1⟩
    · obtain ⟨t, ht, htr⟩ := List.exists_of_findSome?_eq_some hr
      exact ⟨t, ht, (hV.imports _ _ r htr).1⟩
  · rw [obeysPep227_iff, Visitor.lookupBinding_eq, Visitor.expectedBinding, Visitor.findSome?_binding_eq_iff hV]
    intro b hb
    obtain ⟨t, ht, htb⟩ := List.exists_of_findSome?_eq_some hb
    exact ⟨t, ht, hV.bindings _ _ b htb⟩

namespace ClassInClass

/-- `import json`, a class `Client` with `from evil import json`, in it a class `Codec` with a method `loads`. -/
def files : List SourceFile :=
  [⟨"app.py",
    [.importStmt {} [⟨"json", none⟩],
      .classDef {} "Client" [] []
        [.importFrom {} (some "evil") [⟨"json", none⟩] 0,
          .classDef {} "Codec" [] [] [.functionDef {} false "loads" {} [.pass {}] [] none] []] []]⟩]

def visitor : Visitor := analyzeFiles (fun _ => "") [] files

def loads : FunctionScope where
  around := [(.class_, "Client"), (.class_, "Codec")]
  name := "loads"
  definitions := by simp
  plain := by simp

theorem lookups_obey_iff_loads :
    ObeysPep227 (·.scopePath) (loads.frames visitor.moduleName)
        (visitor.lookupImport "json" (scopePath (loads.stack visitor.moduleName)))
        (visitor.expectedImport loads "json") ∧
      ObeysPep227 (·.scopePath) (loads.frames visitor.moduleName)
        (visitor.lookupBinding "json" ((scopePath (loads.stack visitor.moduleName)).length + 1)
          (scopePath (loads.stack visitor.moduleName)))
        (visitor.expectedBinding loads "json") ↔
      visitor.ImportsUndisturbed loads "json" ∧ visitor.BindingsUndisturbed loads "json" :=
  lookups_obey_iff (Visitor.filedWell_analyzeFiles _ _ _) loads "json"

end ClassInClass

open ClassInClass in
/-- The method of a class in a class gets the import of the outer class. -/
theorem classBody_leaks :
    ¬ObeysPep227 (·.scopePath) (loads.frames visitor.moduleName)
      (visitor.lookupImport "json" (scopePath (loads.stack visitor.moduleName)))
      (visitor.expectedImport loads "json") := by
  intro h
  have hfound : (visitor.lookupImport "json" (scopePath (loads.stack visitor.moduleName))).map (·.module) =
      some "evil" := by decide +kernel
  have hexpected : (visitor.expectedImport loads "json").map (·.module) = some "json" := by decide +kernel
  rw [h.innermost, hexpected] at hfound
  exact absurd hfound (by decide)

end TimeCodeSecurity.Reachability
