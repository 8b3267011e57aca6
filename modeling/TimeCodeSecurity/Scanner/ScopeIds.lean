import TimeCodeSecurity.Foundations.Separators
import TimeCodeSecurity.Foundations.Chase
import TimeCodeSecurity.Scanner.Names

/-! # Scope ids as texts of names

The scope id of a body is the module's text and the names of definitions around it. `scopeText` is
that text for a list of names, innermost first. `childScope` mostly adds a name; a scope whose
outermost name starts with `global` looks like the module's scope to it, and the names are lost.
-/
namespace TimeCodeSecurity.Scanner
open Separators Trails
set_option autoImplicit false

structure Identifier (name : String) : Prop where
  nonempty : name ≠ ""
  noDot : '.' ∉ name.toList
  noColon : ':' ∉ name.toList
  noKeyword : name ≠ "global"

instance (name : String) : Decidable (Identifier name) :=
  decidable_of_iff (name ≠ "" ∧ '.' ∉ name.toList ∧ ':' ∉ name.toList ∧ name ≠ "global")
    ⟨fun h => ⟨h.1, h.2.1, h.2.2.1, h.2.2.2⟩, fun h => ⟨h.1, h.2, h.3, h.4⟩⟩

/-- What `scope_module` gives: no colon, or that of a drive letter. -/
def ModuleText (mod : String) : Prop :=
  ':' ∉ mod.toList ∨
    ∃ c rest, c.isAlpha = true ∧ mod.toList = [c] ++ ':' :: '.' :: rest ∧ ':' ∉ rest

def scopeText (mod : String) : List String → String
  | [] => mod ++ ":global"
  | name :: names => mod ++ ":function:" ++
      String.ofList (joined '.' ((name :: names).map String.toList))

theorem toList_scopeText (mod name : String) (names : List String) :
    (scopeText mod (name :: names)).toList =
      (mod.toList ++ ':' :: "function".toList) ++ ':' :: joined '.' ((name :: names).map String.toList) := by
  simp [scopeText]

theorem toList_globalScope (mod : String) :
    (scopeText mod []).toList = mod.toList ++ ':' :: "global".toList := by
  simp [scopeText]

section

variable {names : List String}

theorem noColon_joined (h : ∀ n ∈ names, Identifier n) :
    ':' ∉ joined '.' (names.map String.toList) := by
  refine not_mem_joined (by decide) ?_
  intro x hx
  obtain ⟨n, hn, rfl⟩ := List.mem_map.mp hx
  exact (h n hn).noColon

theorem noDot_items (h : ∀ n ∈ names, Identifier n) : ∀ x ∈ names.map String.toList, '.' ∉ x := by
  intro x hx
  obtain ⟨n, hn, rfl⟩ := List.mem_map.mp hx
  exact (h n hn).noDot

end

theorem scopeText_inj {mod : String} {names names' : List String} (hne : names ≠ [])
    (hne' : names' ≠ []) (h : ∀ n ∈ names, Identifier n) (h' : ∀ n ∈ names', Identifier n)
    (heq : scopeText mod names = scopeText mod names') : names = names' := by
  obtain ⟨n, ns, rfl⟩ := List.exists_cons_of_ne_nil hne
  obtain ⟨m, ms, rfl⟩ := List.exists_cons_of_ne_nil hne'
  have hlist := congrArg String.toList heq
  rw [toList_scopeText, toList_scopeText] at hlist
  have hjoined := (suffix_inj (noColon_joined h) (noColon_joined h') hlist).2
  have hitems := joined_inj (by simp) (by simp) (noDot_items h) (noDot_items h') hjoined
  exact (List.map_injective_iff.mpr fun a b hab => String.toList_injective hab) hitems

theorem scopeModule_of_noColon {s : String} (h : ':' ∉ s.toList) : scopeModule s = s := by
  have hone : ∀ part : List Char, [part] = s.toList.splitOn ':' → scopeModule s = String.ofList part := by
    intro part hpart
    rw [scopeModule, ← hpart]
    rcases part with _ | ⟨a, _ | ⟨b, part⟩⟩ <;> rfl
  rw [hone _ (List.splitOn_eq_singleton h).symm, String.ofList_toList]

theorem scopeModule_of_part {s : String} {x y : List Char} (hx : ':' ∉ x)
    (hs : s.toList = x ++ ':' :: y) (hdrive : ∀ c rest, x = [c] → y ≠ '.' :: rest) :
    scopeModule s = String.ofList x := by
  unfold scopeModule
  rw [hs, List.splitOn_append_cons_self_of_not_mem hx]
  split
  next c rest tail heq =>
    obtain ⟨rfl, hy⟩ := List.cons.inj heq
    have hhead : ∃ rest', y = '.' :: rest' := by
      have hjoin : [':'].intercalate (y.splitOn ':') = y := List.intercalate_splitOn ':'
      rw [hy] at hjoin
      cases tail with
      | nil => exact ⟨rest, by simpa [List.intercalate] using hjoin.symm⟩
      | cons z tail => exact ⟨_, by rw [← hjoin]; simp [List.intercalate]; rfl⟩
    obtain ⟨rest', hrest'⟩ := hhead
    exact absurd hrest' (hdrive c rest' rfl)
  next part tail hnot heq =>
    obtain ⟨rfl, -⟩ := List.cons.inj heq
    rfl
  next heq => cases heq

theorem scopeModule_of_drive {s : String} {c : Char} {rest y : List Char} (hc : c.isAlpha = true)
    (hcolon : c ≠ ':') (hrest : ':' ∉ rest)
    (hs : s.toList = [c] ++ ':' :: ('.' :: rest ++ ':' :: y)) :
    scopeModule s = String.ofList (c :: ':' :: '.' :: rest) := by
  have hdot : ':' ∉ '.' :: rest := by simp [hrest]
  unfold scopeModule
  rw [hs, List.splitOn_append_cons_self_of_not_mem (by simpa using hcolon.symm),
    List.splitOn_append_cons_self_of_not_mem hdot]
  simp [hc]

theorem scopeModule_scopeText {mod : String} (hmod : ModuleText mod) (names : List String) :
    scopeModule (scopeText mod names) = mod := by
  have hsplit : ∃ tail, (scopeText mod names).toList = mod.toList ++ ':' :: tail ∧
      ∀ rest, tail ≠ '.' :: rest := by
    cases names with
    | nil => exact ⟨_, toList_globalScope mod, by simp⟩
    | cons n ns =>
      refine ⟨"function".toList ++ ':' :: joined '.' ((n :: ns).map String.toList), ?_, by simp⟩
      rw [toList_scopeText, List.append_assoc]
      rfl
  obtain ⟨tail, htext, htail⟩ := hsplit
  rcases hmod with hcolon | ⟨c, rest, hc, hmod, hrest⟩
  · rw [scopeModule_of_part hcolon htext fun _ rest _ => htail rest]
    simp
  · have hne : c ≠ ':' := by
      rintro rfl
      cases hc
    rw [scopeModule_of_drive hc hne hrest (y := tail) (by rw [htext, hmod]; simp)]
    rw [← String.ofList_toList (s := mod), hmod]
    simp

theorem scopeModule_spec (s : String) :
    ModuleText (scopeModule s) ∧ (scopeModule s).toList <+: s.toList := by
  by_cases hcolon : ':' ∈ s.toList
  · obtain ⟨x, y, hs, hx⟩ := List.eq_append_cons_of_mem hcolon
    by_cases hdrive : ∃ c rest, x = [c] ∧ y = '.' :: rest
    · obtain ⟨c, rest, rfl, rfl⟩ := hdrive
      have hne : c ≠ ':' := fun heq => hx (by simp [heq])
      have hsplit : ∃ part tail, ('.' :: rest).splitOn ':' = ('.' :: part) :: tail ∧ ':' ∉ part ∧
          part <+: rest := by
        by_cases hrest : ':' ∈ '.' :: rest
        · obtain ⟨z, w, hz, hfree⟩ := List.eq_append_cons_of_mem hrest
          cases z with
          | nil => simp at hz
          | cons d z =>
            obtain ⟨rfl, htail⟩ := List.cons.inj hz
            refine ⟨z, w.splitOn ':', ?_, fun hmem => hfree (List.mem_cons_of_mem _ hmem),
              ⟨':' :: w, htail.symm⟩⟩
            rw [hz, List.splitOn_append_cons_self_of_not_mem hfree]
        · exact ⟨rest, [], List.splitOn_eq_singleton hrest,
            fun hmem => hrest (List.mem_cons_of_mem _ hmem), List.prefix_refl _⟩
      obtain ⟨part, tail, hparts, hpart, hprefix⟩ := hsplit
      unfold scopeModule
      rw [hs, List.splitOn_append_cons_self_of_not_mem hx, hparts]
      by_cases hc : c.isAlpha = true
      · simp only [hc, if_true]
        exact ⟨.inr ⟨c, part, hc, by simp, hpart⟩, by simpa using hprefix⟩
      · simp only [hc]
        exact ⟨.inl (by simpa using hne.symm), by simp⟩
    · rw [scopeModule_of_part hx hs fun c rest hxc hyr => hdrive ⟨c, rest, hxc, hyr⟩]
      exact ⟨.inl (by simpa using hx), by rw [hs]; simp⟩
  · rw [scopeModule_of_noColon hcolon]
    exact ⟨.inl hcolon, List.prefix_refl _⟩

theorem moduleText_scopeModule (s : String) : ModuleText (scopeModule s) := (scopeModule_spec s).1

theorem contains_iff (needle text : String) :
    contains needle text = true ↔ needle.toList <:+: text.toList :=
  Separators.any_tails_iff needle.toList text.toList

/-- The outermost name starts with `global`; then the id reads like that of the module. -/
def readsGlobal (names : List String) : Bool :=
  names.getLast?.all fun n => "global".toList.isPrefixOf n.toList

/-- The names of a definition `name` below the names of a scope. -/
def childNames (names : List String) (name : String) : List String :=
  if readsGlobal names then [name] else name :: names

theorem contains_global_iff {mod : String} (hmod : ModuleText mod) {names : List String}
    (h : ∀ n ∈ names, Identifier n) :
    contains ":global" (scopeText mod names) = readsGlobal names := by
  rw [Bool.eq_iff_iff, contains_iff]
  have hneedle : ":global".toList = ':' :: "global".toList := rfl
  rw [hneedle]
  cases names with
  | nil =>
    rw [toList_globalScope]
    exact iff_of_true (List.suffix_append _ _).isInfix rfl
  | cons n ns =>
    obtain ⟨top, htop⟩ : ∃ top, (n :: ns).getLast? = some top :=
      Option.ne_none_iff_exists'.mp fun hnone => by simp at hnone
    have hlast : ((n :: ns).map String.toList).getLast? = some top.toList := by
      rw [List.getLast?_map, htop]
      rfl
    have hfree := noColon_joined h
    have hprefix : "global".toList <+: joined '.' ((n :: ns).map String.toList) ↔
        readsGlobal (n :: ns) = true := by
      rw [prefix_joined (by decide) hlast, readsGlobal, htop, Option.all_some,
        List.isPrefixOf_iff_prefix]
    rw [← hprefix, toList_scopeText]
    constructor
    · rintro ⟨a, b, hab⟩
      have hcut : a ++ ':' :: ("global".toList ++ b) =
          (mod.toList ++ ':' :: "function".toList) ++ ':' :: joined '.' ((n :: ns).map String.toList) := by
        rw [← hab]
        simp
      rcases cut_cases hfree hcut with ⟨-, heq⟩ | ⟨t, hbefore, hbehind⟩
      · exact ⟨b, heq⟩
      -- a colon further ahead is followed by `function` or by the dot of a drive
      rcases cut_cases (by decide) hbefore.symm with ⟨-, rfl⟩ | ⟨t', hdrive, rfl⟩
      · simp at hbehind
      · rcases hmod with hcolon | ⟨c, rest, halpha, hmod, hrest⟩
        · exact absurd (by rw [hdrive]; simp) hcolon
        · rw [hmod] at hdrive
          have hdot : ':' ∉ '.' :: rest := by simp [hrest]
          rcases cut_cases hdot hdrive.symm with ⟨-, rfl⟩ | ⟨t'', hc, -⟩
          · simp at hbehind
          · have hmem : ':' ∈ [c] := by
              rw [hc]
              simp
            rw [← List.mem_singleton.mp hmem] at halpha
            cases halpha
    · intro hstart
      have hcons : ':' :: "global".toList <+: ':' :: joined '.' ((n :: ns).map String.toList) := by
        simpa using hstart
      exact hcons.isInfix.trans (List.suffix_append _ _).isInfix

theorem scopeText_cons_cons (mod x y : String) (names : List String) :
    scopeText mod (x :: y :: names) = scopeText mod (y :: names) ++ "." ++ x := by
  apply String.toList_injective
  rw [toList_scopeText, String.toList_append, String.toList_append, toList_scopeText]
  simp [joined]

theorem scopeText_singleton (mod name : String) :
    scopeText mod [name] = mod ++ ":function:" ++ name := by
  simp [scopeText, joined]

theorem childScope_scopeText {mod : String} (hmod : ModuleText mod) {names : List String}
    (h : ∀ n ∈ names, Identifier n) (name : String) :
    childScope (scopeText mod names) name = scopeText mod (childNames names name) := by
  rw [childScope, contains_global_iff hmod h, scopeModule_scopeText hmod, childNames]
  by_cases hglobal : readsGlobal names = true
  · rw [if_pos hglobal, if_pos hglobal, scopeText_singleton]
  · rw [if_neg hglobal, if_neg hglobal]
    cases names with
    | nil => exact absurd rfl hglobal
    | cons y names => exact (scopeText_cons_cons mod name y names).symm

theorem childScope_module (mod name : String) :
    childScope (mod ++ ":global") name = scopeText (scopeModule (mod ++ ":global")) [name] := by
  have hglobal : contains ":global" (mod ++ ":global") = true := by
    rw [contains_iff, String.toList_append]
    exact (List.suffix_append _ _).isInfix
  rw [childScope, if_pos hglobal, scopeText_singleton]

theorem methodScope_eq (mod cls name : String) :
    methodScope mod cls name = scopeText mod [name, cls] := by
  rw [scopeText_cons_cons, scopeText_singleton, methodScope]

/-! ## The walk to the enclosing scopes -/

theorem beforeLastDot_append {text x : String} (hx : '.' ∉ x.toList) :
    beforeLastDot (text ++ "." ++ x) = text := by
  have hlist : (text ++ "." ++ x).toList = text.toList ++ '.' :: x.toList := by simp
  rw [beforeLastDot, hlist, dropWhile_reverse hx]
  simp

theorem contains_dot_iff (text : String) : contains "." text = true ↔ '.' ∈ text.toList := by
  rw [contains_iff]
  constructor
  · rintro ⟨a, b, hab⟩
    rw [← hab]
    simp
  · intro h
    obtain ⟨a, b, hab⟩ := List.append_of_mem h
    exact ⟨a, b, by rw [hab]; simp⟩

theorem contains_function (mod : String) {names : List String} (hne : names ≠ []) :
    contains "function" (scopeText mod names) = true := by
  obtain ⟨n, ns, rfl⟩ := List.exists_cons_of_ne_nil hne
  rw [contains_iff, toList_scopeText]
  exact ⟨mod.toList ++ [':'], ':' :: joined '.' ((n :: ns).map String.toList), by simp⟩

theorem enclosingScope_nested {mod x y : String} {names : List String} (hx : '.' ∉ x.toList) :
    enclosingScope mod (scopeText mod (x :: y :: names)) = some (scopeText mod (y :: names)) := by
  have hdot : contains "." (scopeText mod (x :: y :: names)) = true := by
    rw [contains_dot_iff, scopeText_cons_cons]
    simp
  rw [enclosingScope, hdot, contains_function mod (List.cons_ne_nil _ _), Bool.and_self, if_pos rfl,
    scopeText_cons_cons, beforeLastDot_append hx]

def suffixes : List String → List (List String)
  | [] => []
  | name :: names => (name :: names) :: suffixes names

theorem scopeText_ne_global {mod mod' : String} {names : List String} (hne : names ≠ [])
    (h : ∀ n ∈ names, Identifier n) : scopeText mod names ≠ mod' ++ ":global" := by
  obtain ⟨n, ns, rfl⟩ := List.exists_cons_of_ne_nil hne
  intro heq
  have hlist := congrArg String.toList heq
  have hglobal : (mod' ++ ":global").toList = mod'.toList ++ ':' :: "global".toList := by simp
  rw [toList_scopeText, hglobal] at hlist
  have hjoined := (suffix_inj (noColon_joined h) (by decide) hlist).2
  cases ns with
  | nil => exact (h n List.mem_cons_self).noKeyword (String.toList_injective hjoined)
  | cons m ns =>
    have hdot : '.' ∈ "global".toList := by
      rw [← hjoined]
      simp [joined]
    exact absurd hdot (by decide)

theorem scopeText_ne_empty (mod : String) (names : List String) : scopeText mod names ≠ "" := by
  intro heq
  have hlist := congrArg String.toList heq
  cases names with
  | nil => rw [toList_globalScope] at hlist; simp at hlist
  | cons n ns => rw [toList_scopeText] at hlist; simp at hlist

theorem noDot_global {mod : String} (hdot : '.' ∉ mod.toList) :
    contains "." (mod ++ ":global") = false := by
  rw [← Bool.not_eq_true, contains_dot_iff]
  simp [hdot]

theorem scopeWalk_global {mod : String} (hdot : '.' ∉ mod.toList) {seen : List String} (fuel : ℕ)
    (hseen : mod ++ ":global" ∉ seen) :
    scopeWalk mod (fuel + 1) seen (mod ++ ":global") = [mod ++ ":global"] := by
  have hne : mod ++ ":global" ≠ "" := scopeText_ne_empty mod []
  have hstop : enclosingScope mod (mod ++ ":global") = none := by
    simp [enclosingScope, noDot_global hdot]
  rw [scopeWalk, if_neg (by simp only [hne, hseen, or_self, not_false_eq_true]), hstop]

theorem scopeWalk_scopeText {mod : String} (hdot : '.' ∉ mod.toList) {names : List String}
    (hne : names ≠ []) (h : ∀ n ∈ names, Identifier n) {fuel : ℕ} {seen : List String}
    (hfuel : names.length + 1 ≤ fuel)
    (hseen : ∀ t ∈ seen, ∃ ms, t = scopeText mod ms ∧ names.length < ms.length ∧
      ∀ n ∈ ms, Identifier n) :
    scopeWalk mod fuel seen (scopeText mod names) =
      (suffixes names).map (scopeText mod) ++ [mod ++ ":global"] := by
  induction names generalizing fuel seen with
  | nil => exact absurd rfl hne
  | cons x names ih =>
    obtain ⟨fuel, rfl⟩ : ∃ k, fuel = k + 1 := ⟨fuel - 1, by simp only [List.length_cons] at hfuel; omega⟩
    have hfresh : scopeText mod (x :: names) ∉ seen := by
      intro hmem
      obtain ⟨ms, heq, hlen, hms⟩ := hseen _ hmem
      have hmsne : ms ≠ [] := by
        rintro rfl
        simp at hlen
      rw [scopeText_inj hne hmsne h hms heq] at hlen
      exact absurd hlen (lt_irrefl _)
    rw [scopeWalk, if_neg (by simp only [scopeText_ne_empty, hfresh, or_self, not_false_eq_true])]
    cases names with
    | nil =>
      have hplain : contains "." (scopeText mod [x]) = false := by
        rw [← Bool.not_eq_true, contains_dot_iff, toList_scopeText]
        simp [joined, hdot, (h x List.mem_cons_self).noDot]
      have hnext : enclosingScope mod (scopeText mod [x]) = some (mod ++ ":global") := by
        rw [enclosingScope, hplain]
        simp [scopeText_ne_global hne h]
      obtain ⟨fuel, rfl⟩ : ∃ k, fuel = k + 1 := ⟨fuel - 1, by simp at hfuel; omega⟩
      rw [hnext]
      show scopeText mod [x] :: scopeWalk mod (fuel + 1) _ _ = _
      rw [scopeWalk_global hdot]
      · rfl
      · intro hmem
        rcases List.mem_cons.mp hmem with heq | hmem
        · exact scopeText_ne_global hne h heq.symm
        · obtain ⟨ms, heq, hlen, hms⟩ := hseen _ hmem
          have hmsne : ms ≠ [] := by
            rintro rfl
            simp at hlen
          exact scopeText_ne_global hmsne hms heq.symm
    | cons y names =>
      rw [enclosingScope_nested (h x List.mem_cons_self).noDot]
      show scopeText mod (x :: y :: names) :: scopeWalk mod fuel _ _ = _
      rw [ih (List.cons_ne_nil _ _) (fun n hn => h n (List.mem_cons_of_mem _ hn))
        (by simp only [List.length_cons] at hfuel ⊢; omega)]
      · rfl
      · intro t ht
        rcases List.mem_cons.mp ht with rfl | ht
        · exact ⟨x :: y :: names, rfl, by simp, h⟩
        · obtain ⟨ms, heq, hlen, hms⟩ := hseen t ht
          exact ⟨ms, heq, by simp only [List.length_cons] at hlen ⊢; omega, hms⟩

theorem length_le_joined : ∀ xs : List (List Char), xs.length ≤ (joined '.' xs).length + 1
  | [] => by simp
  | [x] => by simp
  | x :: y :: rest => by
    have ih := length_le_joined (y :: rest)
    simp only [joined, List.length_append, List.length_cons] at ih ⊢
    omega

theorem scopeChain_scopeText {mod : String} (hmod : ModuleText mod) (hdot : '.' ∉ mod.toList)
    {names : List String} (hne : names ≠ []) (h : ∀ n ∈ names, Identifier n) :
    scopeChain (scopeText mod names) =
      (suffixes names).map (scopeText mod) ++ [mod ++ ":global"] := by
  have hlen : names.length ≤ (scopeText mod names).length + 1 := by
    obtain ⟨n, ns, rfl⟩ := List.exists_cons_of_ne_nil hne
    have hjoined := length_le_joined ((n :: ns).map String.toList)
    rw [List.length_map] at hjoined
    rw [← String.length_toList, toList_scopeText]
    simp only [List.length_append, List.length_cons] at hjoined ⊢
    omega
  rw [scopeChain, scopeModule_scopeText hmod]
  exact scopeWalk_scopeText hdot hne h (by omega) (by simp)

theorem enclosing_of_scopeWalk {mod : String} {fuel : ℕ} {seen : List String} {scope x y : String}
    (h : (x, y) ∈ consecutive (scopeWalk mod fuel seen scope)) : enclosingScope mod x = some y := by
  induction fuel generalizing seen scope with
  | zero => simp [scopeWalk, consecutive] at h
  | succ fuel ih =>
    rw [scopeWalk] at h
    split at h
    · simp [consecutive] at h
    · cases hnext : enclosingScope mod scope with
      | none => simp [hnext, consecutive] at h
      | some next =>
        rw [hnext] at h
        dsimp only at h
        cases hrest : scopeWalk mod fuel (scope :: seen) next with
        | nil => rw [hrest] at h; simp [consecutive] at h
        | cons z rest =>
          rw [hrest, consecutive_cons] at h
          rcases List.mem_cons.mp h with heq | hmem
          · obtain ⟨rfl, rfl⟩ := Prod.mk.inj heq
            -- the walk continues with the scope it was sent to
            have hhead : y = next := by
              cases fuel with
              | zero => simp [scopeWalk] at hrest
              | succ fuel =>
                rw [scopeWalk] at hrest
                split at hrest
                · cases hrest
                · exact (List.cons.inj hrest).1.symm
            rw [hhead, hnext]
          · exact ih (hrest ▸ hmem)

/-! ## The walk and the definitions around a function -/

def PlainModule (mod : String) : Prop := '.' ∉ mod.toList ∧ ':' ∉ mod.toList

instance (mod : String) : Decidable (PlainModule mod) :=
  inferInstanceAs (Decidable ('.' ∉ mod.toList ∧ ':' ∉ mod.toList))

theorem plainModule_iff (mod : String) :
    PlainModule mod ↔
      '.' ∉ (scopeModule (mod ++ ":global")).toList ∧ scopeModule (mod ++ ":global") = mod := by
  constructor
  · rintro ⟨hdot, hcolon⟩
    have heq : scopeModule (mod ++ ":global") = mod :=
      scopeModule_scopeText (.inl hcolon) []
    exact ⟨heq.symm ▸ hdot, heq⟩
  · rintro ⟨hdot, heq⟩
    rw [heq] at hdot
    refine ⟨hdot, ?_⟩
    rcases heq ▸ moduleText_scopeModule (mod ++ ":global") with hcolon | ⟨c, rest, -, hdrive, -⟩
    · exact hcolon
    · exact absurd (by rw [hdrive]; simp) hdot

theorem length_beforeLastDot {text : String} {before tail : List Char}
    (htext : text.toList = before ++ tail) (hbefore : '.' ∈ before) (htail : '.' ∉ tail) :
    (beforeLastDot text).length < before.length := by
  obtain ⟨a, b, hab, hb⟩ : ∃ a b, before = a ++ '.' :: b ∧ '.' ∉ b := by
    obtain ⟨x, y, hxy, hx⟩ := List.eq_append_cons_of_mem (List.mem_reverse.mpr hbefore)
    refine ⟨y.reverse, x.reverse, ?_, by simpa using hx⟩
    rw [← List.reverse_reverse before, hxy]
    simp
  have hcut : text = String.ofList a ++ "." ++ String.ofList (b ++ tail) := by
    apply String.toList_injective
    rw [htext, hab]
    simp
  have hfree : '.' ∉ (String.ofList (b ++ tail)).toList := by simp [hb, htail]
  rw [hcut, beforeLastDot_append hfree, hab]
  simp

theorem enclosingScope_ne_global {mod mod' : String} (hdot : '.' ∈ mod.toList)
    (hlen : mod.length ≤ mod'.length + 7) {names : List String} (hne : names ≠ [])
    (h : ∀ n ∈ names, Identifier n) :
    enclosingScope mod (scopeText mod names) ≠ some (mod' ++ ":global") := by
  intro heq
  match names, hne with
  | [x], hne =>
    have htext : (scopeText mod [x]).toList = mod.toList ++ (":function:".toList ++ x.toList) := by
      rw [toList_scopeText]
      simp [joined]
    have hin : contains "." (scopeText mod [x]) = true := by
      rw [contains_dot_iff, htext]
      exact List.mem_append_left _ hdot
    rw [enclosingScope, hin, contains_function mod hne, Bool.and_self, if_pos rfl] at heq
    have hshort := length_beforeLastDot htext hdot
      (by simpa using (h x List.mem_cons_self).noDot)
    rw [Option.some.inj heq] at hshort
    simp only [String.length_append, String.length_toList] at hshort
    have hseven : ":global".length = 7 := rfl
    omega
  | x :: y :: names, hne =>
    rw [enclosingScope_nested (h x List.mem_cons_self).noDot] at heq
    exact scopeText_ne_global (List.cons_ne_nil _ _) (fun n hn => h n (List.mem_cons_of_mem _ hn))
      (Option.some.inj heq)

theorem map_inj_on {α β : Type} {f : α → β} {l l' : List α}
    (h : ∀ a ∈ l, ∀ b ∈ l', f a = f b → a = b) (heq : l.map f = l'.map f) : l = l' := by
  induction l generalizing l' with
  | nil => simpa using heq.symm
  | cons a l ih =>
    cases l' with
    | nil => cases heq
    | cons b l' =>
      obtain ⟨hab, hrest⟩ := List.cons.inj heq
      rw [h a List.mem_cons_self b List.mem_cons_self hab,
        ih (fun x hx y hy => h x (List.mem_cons_of_mem _ hx) y (List.mem_cons_of_mem _ hy)) hrest]

theorem scopeChain_eq_iff {mod : String} {names : List String} {around : List (List String)}
    (hne : names ≠ []) (h : ∀ n ∈ names, Identifier n)
    (haround : ∀ ns ∈ around, ns ≠ [] ∧ ∀ n ∈ ns, Identifier n) :
    scopeChain (scopeText (scopeModule (mod ++ ":global")) names) =
        (names :: around).map (scopeText (scopeModule (mod ++ ":global"))) ++ [mod ++ ":global"] ↔
      PlainModule mod ∧ suffixes names = names :: around := by
  have hmod := moduleText_scopeModule (mod ++ ":global")
  have hlen : (scopeModule (mod ++ ":global")).length ≤ mod.length + 7 := by
    have hprefix := (scopeModule_spec (mod ++ ":global")).2.length_le
    have hseven : ":global".length = 7 := rfl
    simp only [String.length_toList, String.length_append] at hprefix
    omega
  rw [plainModule_iff]
  set M := scopeModule (mod ++ ":global") with hM
  have hall : ∀ ns ∈ names :: around, ns ≠ [] ∧ ∀ n ∈ ns, Identifier n :=
    List.forall_mem_cons.mpr ⟨⟨hne, h⟩, haround⟩
  by_cases hdot : '.' ∈ M.toList
  · refine iff_of_false ?_ fun hplain => hplain.1.1 hdot
    intro heq
    -- the last function is followed by the module
    obtain ⟨last, hlast⟩ : ∃ last, (names :: around).getLast? = some last :=
      Option.ne_none_iff_exists'.mp fun hnone => by simp at hnone
    have hpair : (scopeText M last, mod ++ ":global") ∈ consecutive (scopeChain (scopeText M names)) := by
      have hmapped : ((names :: around).map (scopeText M)).getLast? = some (scopeText M last) := by
        rw [List.getLast?_map, hlast]
        rfl
      rw [heq, consecutive_concat hmapped]
      simp
    rw [scopeChain, scopeModule_scopeText hmod] at hpair
    obtain ⟨hlastNe, hlastIds⟩ := hall last (List.mem_of_mem_getLast? hlast)
    exact enclosingScope_ne_global hdot hlen hlastNe hlastIds (enclosing_of_scopeWalk hpair)
  · rw [scopeChain_scopeText hmod hdot hne h]
    have hsuffix : ∀ ns ∈ suffixes names, ns ≠ [] ∧ ∀ n ∈ ns, Identifier n := by
      intro ns hns
      clear hall haround hne
      induction names with
      | nil => cases hns
      | cons x names ih =>
        rcases List.mem_cons.mp hns with rfl | hns
        · exact ⟨List.cons_ne_nil _ _, h⟩
        · exact ih (fun n hn => h n (List.mem_cons_of_mem _ hn)) hns
    constructor
    · intro heq
      obtain ⟨hfuns, hglobal⟩ := List.append_inj' heq rfl
      have hmodeq : M = mod := by
        have hone := List.cons.inj hglobal
        exact (String.append_left_inj _).mp hone.1
      refine ⟨⟨hdot, hmodeq⟩, ?_⟩
      refine map_inj_on (fun ns hns ms hms => ?_) hfuns
      obtain ⟨hnsNe, hnsIds⟩ := hsuffix ns hns
      obtain ⟨hmsNe, hmsIds⟩ := hall ms hms
      exact scopeText_inj hnsNe hmsNe hnsIds hmsIds
    · rintro ⟨⟨-, hmodeq⟩, hnames⟩
      rw [hnames, hmodeq]

end TimeCodeSecurity.Scanner
