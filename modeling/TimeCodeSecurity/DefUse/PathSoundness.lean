import TimeCodeSecurity.DefUse.BodyPaths
import TimeCodeSecurity.Scanner.Run

/-! # Taint along a path

What a variable holds at the end of a path is followed through the copies that brought it there. The
tracker goes over the text once, and the last assignment it records for a name decides; so it finds the
value where its walk records the copies in their order and nothing comes in between.
-/
namespace TimeCodeSecurity.DefUse
open Py Paths
open Execution (parameterNames)
set_option autoImplicit false

/-- The parameter whose value it is, and the copies it went through, the latest first, each with its
entry in the walk. -/
structure Trail where
  param : String
  links : List (String × Option ℕ)

def Binding.copied (b : Binding) : Option String :=
  match b.value with
  | some (.name _ id _) => some id
  | _ => none

abbrev Env := String → Option Trail

def Env.bind (σ : Env) (event : List Binding) : Env := fun x =>
  match event.reverse.find? (·.name = x) with
  | none => σ x
  | some b => b.copied.bind fun y => (σ y).map fun t => ⟨t.param, (x, b.site) :: t.links⟩

def startEnv (params : List String) : Env := fun x => if x ∈ params then some ⟨x, []⟩ else none

def envAfter (params : List String) (tr : List (List Binding)) : Env :=
  tr.foldl Env.bind (startEnv params)

/-- On every path, what ends up with the value of a parameter is reported. -/
def PathSound (args : Arguments Expr) (body : List Stmt) : Prop :=
  ∀ tr r, blockPath (some 0) body tr r → ∀ x t, envAfter (parameterNames args) tr x = some t →
    (analyzeFunction args body).isVariableTainted x = true

/-- No assignment to `x` is recorded from `lo` on and before `hi`. -/
def Undisturbed (W : List Entry) (lo hi : ℕ) (x : String) : Prop :=
  ∀ i, lo ≤ i → i < hi → ∀ v, W[i]? ≠ some (.track x v)

/-- Before entry `hi` the walk has recorded the copies in their order, each undisturbed until the
next one reads it. -/
def InWalkOrder (W : List Entry) (param : String) : ℕ → List (String × Option ℕ) → Prop
  | hi, [] => Undisturbed W 0 hi param
  | hi, (x, site) :: rest =>
    ∃ k, site = some k ∧ k < hi ∧ Undisturbed W (k + 1) hi x ∧ InWalkOrder W param k rest

/-- The state of the walk before entry `k`. -/
def stateAt (T : LocalDefUseTracker) (W : List Entry) (k : ℕ) : LocalDefUseTracker :=
  (W.take k).foldl Entry.apply T

theorem stateAt_succ (T : LocalDefUseTracker) {W : List Entry} {k : ℕ} {e : Entry}
    (h : W[k]? = some e) : stateAt T W (k + 1) = Entry.apply (stateAt T W k) e := by
  rw [stateAt, List.take_add_one, h, List.foldl_append]
  rfl

theorem tainted_of_undisturbed {T : LocalDefUseTracker} {W : List Entry} {lo hi : ℕ} {x : String}
    (hle : lo ≤ hi) (h : Undisturbed W lo hi x)
    (hlo : (stateAt T W lo).isVariableTainted x = true) :
    (stateAt T W hi).isVariableTainted x = true := by
  induction hi, hle using Nat.le_induction with
  | base => exact hlo
  | succ hi hle ih =>
    have hbefore := ih fun i hi hlt => h i hi (Nat.lt_succ_of_lt hlt)
    cases he : W[hi]? with
    | none =>
      have hend : stateAt T W (hi + 1) = stateAt T W hi := by
        rw [stateAt, List.take_add_one, he]
        simp [stateAt]
      rwa [hend]
    | some e =>
      rw [stateAt_succ T he]
      cases e with
      | track name value =>
        have hne : x ≠ name := by
          rintro rfl
          exact h hi hle (Nat.lt_succ_self hi) value he
        rwa [isVariableTainted_apply_track hne]
      | augment name value => exact isVariableTainted_apply_augment name value hbefore

def Sited (W : List Entry) (event : List Binding) : Prop :=
  ∀ b ∈ event, ∀ k, b.site = some k → ∃ v, b.value = some v ∧ W[k]? = some (.track b.name v)

/-- The trail of `x` starts at a parameter, and each of its recorded copies is a copy in the walk. -/
inductive Grounded (W : List Entry) (params : List String) : String → Trail → Prop
  | param {p} (hp : p ∈ params) : Grounded W params p ⟨p, []⟩
  | copy {x y site p rest} (hy : Grounded W params y ⟨p, rest⟩)
      (hsite : ∀ k, site = some k → ∃ pos ctx, W[k]? = some (.track x (.name pos y ctx))) :
      Grounded W params x ⟨p, (x, site) :: rest⟩

def Env.Grounded (W : List Entry) (params : List String) (σ : Env) : Prop :=
  ∀ x t, σ x = some t → DefUse.Grounded W params x t

variable {W : List Entry} {params : List String}

theorem grounded_startEnv : (startEnv params).Grounded W params := by
  intro x t h
  rw [startEnv] at h
  split_ifs at h with hx
  · cases h
    exact .param hx

theorem Env.Grounded.bind {σ : Env} (h : σ.Grounded W params) {event : List Binding}
    (hevent : Sited W event) : (σ.bind event).Grounded W params := by
  intro x t hx
  rw [Env.bind] at hx
  cases hfind : event.reverse.find? (·.name = x) with
  | none =>
    rw [hfind] at hx
    exact h x t hx
  | some b =>
    rw [hfind] at hx
    have hname : b.name = x := by simpa using List.find?_some hfind
    have hmem : b ∈ event := List.mem_reverse.mp (List.mem_of_find?_eq_some hfind)
    obtain ⟨y, hy, ht⟩ := Option.bind_eq_some_iff.mp hx
    obtain ⟨u, hu, rfl⟩ := Option.map_eq_some_iff.mp ht
    refine .copy (h y u hu) fun k hk => ?_
    obtain ⟨v, hv, hentry⟩ := hevent b hmem k hk
    rw [Binding.copied, hv] at hy
    rw [hname] at hentry
    cases v with
    | name pos id ctx =>
      cases hy
      exact ⟨pos, ctx, hentry⟩
    | _ => cases hy

theorem grounded_envAfter {tr : List (List Binding)} (h : ∀ event ∈ tr, Sited W event) :
    (envAfter params tr).Grounded W params := by
  rw [envAfter]
  induction tr using List.reverseRecOn with
  | nil => exact grounded_startEnv
  | append_singleton tr event ih =>
    rw [List.foldl_append]
    exact (ih fun e he => h e (List.mem_append_left _ he)).bind
      (h event (List.mem_append_right _ (List.mem_singleton_self event)))

theorem tainted_of_grounded {T : LocalDefUseTracker} {x : String} {t : Trail} {hi : ℕ}
    (h : Grounded W params x t) (hparam : T.isVariableTainted t.param = true)
    (horder : InWalkOrder W t.param hi t.links) : (stateAt T W hi).isVariableTainted x = true := by
  generalize hp : t.param = p at hparam horder
  generalize hlinks : t.links = links at horder
  induction h generalizing hi links with
  | param =>
    subst hlinks hp
    exact tainted_of_undisturbed (Nat.zero_le hi) horder hparam
  | copy hy hsite ih =>
    subst hlinks
    obtain ⟨k, hk, hlt, hfree, hrest⟩ := horder
    obtain ⟨pos, ctx, hentry⟩ := hsite k hk
    have hsource := ih hp _ rfl hrest
    refine tainted_of_undisturbed hlt hfree ?_
    rw [stateAt_succ T hentry]
    exact isVariableTainted_apply_copy _ pos ctx hsource

/-! ## The events of a body are recorded where their numbers say -/

/-- The entries stand in the walk from number `n` on, if there is a number. -/
def FoundAt (W : List Entry) (n : Option ℕ) (entries : List Entry) : Prop :=
  ∀ m, n = some m → ∀ i e, entries[i]? = some e → W[m + i]? = some e

theorem foundAt_none (entries : List Entry) : FoundAt W none entries := nofun

theorem FoundAt.left {n : Option ℕ} {l₁ l₂ : List Entry} (h : FoundAt W n (l₁ ++ l₂)) :
    FoundAt W n l₁ := by
  intro m hm i e he
  have hlt := (List.getElem?_eq_some_iff.mp he).1
  apply h m hm i e
  rwa [List.getElem?_append_left hlt]

theorem FoundAt.right {n : Option ℕ} {l₁ l₂ : List Entry} (h : FoundAt W n (l₁ ++ l₂)) :
    FoundAt W (afterSites n l₁) l₂ := by
  intro m hm i e he
  obtain ⟨m', hm', rfl⟩ := Option.map_eq_some_iff.mp hm
  rw [Nat.add_assoc]
  apply h m' hm' (l₁.length + i) e
  rwa [List.getElem?_append_right (Nat.le_add_right ..), Nat.add_sub_cancel_left]

theorem sited_append {u v : List Binding} (hu : Sited W u) (hv : Sited W v) : Sited W (u ++ v) := by
  intro b hb
  obtain hb | hb := List.mem_append.mp hb
  · exact hu b hb
  · exact hv b hb

def Unsited (bindings : List Binding) : Prop := ∀ b ∈ bindings, b.site = none

theorem Unsited.sited {bindings : List Binding} (h : Unsited bindings) : Sited W bindings := by
  intro b hb k hk
  rw [h b hb] at hk
  cases hk

theorem unsited_append {u v : List Binding} (hu : Unsited u) (hv : Unsited v) : Unsited (u ++ v) := by
  intro b hb
  obtain hb | hb := List.mem_append.mp hb
  · exact hu b hb
  · exact hv b hb

theorem unsited_namedBindings (e : Expr) : Unsited (namedBindings e) := by
  intro b hb
  obtain ⟨n, -, hn⟩ := List.mem_filterMap.mp hb
  split at hn
  · cases hn
    rfl
  · cases hn

mutual

theorem unsited_targetBindings (value : Option Expr) (target : Expr) :
    Unsited (targetBindings value target) := by
  cases target with
  | name _ id _ =>
    intro b hb
    rw [List.mem_singleton.mp hb]
  | starred _ target _ => exact unsited_targetBindings none target
  | tuple _ elts _ => exact unsited_elementBindings _ elts
  | list _ elts _ => exact unsited_elementBindings _ elts
  | _ => exact fun _ hb => absurd hb List.not_mem_nil

theorem unsited_elementBindings (values : List (Option Expr)) (targets : List Expr) :
    Unsited (elementBindings values targets) := by
  cases targets with
  | nil =>
    intro b hb
    rw [elementBindings] at hb
    exact absurd hb List.not_mem_nil
  | cons t ts =>
    cases values with
    | nil => exact unsited_append (unsited_targetBindings none t) (unsited_elementBindings [] ts)
    | cons v vs => exact unsited_append (unsited_targetBindings v t) (unsited_elementBindings vs ts)

end

theorem sited_flatMap {α : Type} {f : α → List Binding} (as : List α) (h : ∀ a, Unsited (f a)) :
    Sited W (as.flatMap f) := by
  apply Unsited.sited
  intro b hb
  obtain ⟨a, -, hb⟩ := List.mem_flatMap.mp hb
  exact h a b hb

def Places (received : List (Option Expr)) (values : List Expr) : Prop :=
  List.Forall₂ (fun v e => ∀ w, v = some w → w = e) received values

theorem places_replicate (values : List Expr) : Places (List.replicate values.length none) values := by
  induction values with
  | nil => exact .nil
  | cons e es ih => exact .cons nofun ih

theorem places_received {targets values : List Expr} (hlen : targets.length = values.length) :
    Places (received targets values) values := by
  unfold received
  split
  · rw [hlen]
    exact places_replicate values
  · rw [Places, List.forall₂_map_left_iff, List.forall₂_same]
    exact fun e _ w hw => (Option.some.inj hw).symm

theorem sited_sitedElements {n : Option ℕ} {received : List (Option Expr)} {targets values : List Expr}
    (hvalues : Places received values) (h : FoundAt W n (elementEntries targets values)) :
    Sited W (sitedElements n received targets) := by
  induction hvalues generalizing n targets with
  | nil =>
    intro b hb
    rw [sitedElements] at hb
    · exact absurd hb List.not_mem_nil
    · nofun
    · nofun
  | @cons v e received values hv _ ih =>
    cases targets with
    | nil =>
      intro b hb
      rw [sitedElements] at hb
      · exact absurd hb List.not_mem_nil
      · nofun
      · nofun
    | cons t ts =>
      cases t with
      | name pos id ctx =>
        rw [elementEntries] at h
        rw [sitedElements]
        refine List.forall_mem_cons.mpr ⟨fun k hk => ?_, ?_⟩
        · cases v with
          | none => cases hk
          | some w =>
            refine ⟨w, rfl, ?_⟩
            rw [hv w rfl]
            exact h k hk 0 _ rfl
        · have htail : FoundAt W (afterSites n [.track id e]) (elementEntries ts values) :=
            FoundAt.right h
          exact ih htail
      | _ => exact sited_append (Unsited.sited (unsited_targetBindings v _)) (ih h)

theorem sited_assignBindings {n : Option ℕ} {targets : List Expr} {value : Expr}
    (h : FoundAt W n (assignEntries targets value)) : Sited W (assignBindings n value targets) := by
  cases targets with
  | nil => exact fun _ hb => absurd hb List.not_mem_nil
  | cons target more =>
    refine sited_append ?_ (sited_flatMap more fun t => unsited_targetBindings _ t)
    cases target with
    | name pos id ctx =>
      refine List.forall_mem_cons.mpr ⟨fun k hk => ⟨value, rfl, h k hk 0 _ rfl⟩, ?_⟩
      exact fun _ hb => absurd hb List.not_mem_nil
    | tuple pos elts ctx =>
      cases value with
      | tuple vpos values vctx =>
        rw [firstBindings]
        split_ifs with hlen
        · rw [assignEntries] at h
          simp only [List.head?_cons, if_pos hlen] at h
          exact sited_sitedElements (places_received hlen) h
        · exact Unsited.sited (unsited_targetBindings _ _)
      | _ => exact Unsited.sited (unsited_targetBindings _ _)
    | _ => exact Unsited.sited (unsited_targetBindings _ _)

theorem sited_annBindings {n : Option ℕ} {target value : Expr}
    (h : FoundAt W n (annEntries target (some value))) : Sited W (annBindings n value target) := by
  cases target with
  | name pos id ctx =>
    refine List.forall_mem_cons.mpr ⟨fun k hk => ⟨value, rfl, h k hk 0 _ rfl⟩, ?_⟩
    exact fun _ hb => absurd hb List.not_mem_nil
  | _ => exact fun _ hb => absurd hb List.not_mem_nil

/-! ### Paths -/

theorem emits_mayRaise : Emits (Sited W) mayRaise := emits_either (emits_pure ()) (emits_leave Exit.exc)

theorem emits_evaluate (e : Expr) : Emits (Sited W) (evaluate e) := by
  refine emits_bind (emits_repeated (emits_anyOf fun A hA => ?_)) fun _ => emits_mayRaise
  obtain ⟨b, hb, rfl⟩ := List.mem_map.mp hA
  apply emits_emit
  apply Unsited.sited
  intro b' hb'
  rw [List.mem_singleton.mp hb']
  exact unsited_namedBindings e b hb

theorem emits_evaluateOpt (e : Option Expr) : Emits (Sited W) (evaluateOpt e) := by
  cases e with
  | none => exact emits_pure ()
  | some e => exact emits_evaluate e

theorem emits_assignTo {bindings : List Binding} (h : Sited W bindings) :
    Emits (Sited W) (assignTo bindings) := by
  refine emits_either (emits_emit h) (emits_anyOf fun A hA => ?_)
  obtain ⟨made, hmade, rfl⟩ := List.mem_map.mp hA
  refine emits_bind (emits_emit fun b hb => ?_) fun _ => emits_leave Exit.exc
  exact h b (((List.mem_inits _ _).mp hmade).subset hb)

theorem emits_loop {more : Path Bool} {body orelse : Path Unit} (hmore : Emits (Sited W) more)
    (hbody : Emits (Sited W) body) (horelse : Emits (Sited W) orelse) :
    Emits (Sited W) (loop more body orelse) := by
  refine emits_bind (emits_attempt (emits_rounds (emits_bind hmore fun b => ?_))) fun s => ?_
  · cases b with
    | false => exact emits_pure false
    | true =>
      refine emits_bind (emits_attempt hbody) fun s => ?_
      split
      · exact emits_pure true
      · exact emits_bind (emits_resume _) fun _ => emits_pure true
  · split
    · exact emits_pure ()
    · exact horelse
    · exact emits_resume _

theorem emits_withItems {body : Path Unit} (h : Emits (Sited W) body) (items : List WithItem) :
    Emits (Sited W) (withItems body items) := by
  induction items with
  | nil => exact h
  | cons item items ih =>
    refine emits_bind (emits_evaluate _) fun _ => emits_bind (emits_attempt ?_) fun s => ?_
    · exact emits_bind (emits_assignTo (sited_flatMap _ fun t => unsited_targetBindings _ t))
        fun _ => ih
    · split
      · exact emits_either (emits_pure ()) (emits_leave Exit.exc)
      · exact emits_bind emits_mayRaise fun _ => emits_resume _

theorem sited_handlerName (name : Option String) :
    Sited W (name.toList.map fun x => ⟨x, none, none⟩) := by
  apply Unsited.sited
  intro b hb
  obtain ⟨x, -, rfl⟩ := List.mem_map.mp hb
  rfl

mutual

theorem emits_stmtPath {n : Option ℕ} (s : Stmt) (h : FoundAt W n (walk s)) :
    Emits (Sited W) (stmtPath n s) := by
  cases s with
  | assign _ targets value =>
    exact emits_bind (emits_evaluate value) fun _ => emits_assignTo (sited_assignBindings h)
  | annAssign _ target _ value =>
    cases value with
    | none => exact emits_pure ()
    | some value =>
      exact emits_bind (emits_evaluate value) fun _ => emits_assignTo (sited_annBindings h)
  | augAssign _ target _ value =>
    exact emits_bind (emits_evaluate value) fun _ =>
      emits_assignTo (Unsited.sited (unsited_targetBindings none target))
  | forLoop _ isAsync target iter body orelse =>
    cases isAsync with
    | true => exact emits_anyOf fun _ hA => absurd hA List.not_mem_nil
    | false =>
      refine emits_bind (emits_evaluate iter) fun _ => emits_loop ?_ ?_ ?_
      · exact emits_bind emits_mayRaise fun _ => emits_either (emits_pure true) (emits_pure false)
      · exact emits_bind (emits_assignTo (Unsited.sited (unsited_targetBindings none target)))
          fun _ => emits_blockPath body h
      · exact emits_blockPath orelse (foundAt_none _)
  | whileLoop _ test body orelse =>
    refine emits_loop ?_ (emits_blockPath body h) (emits_blockPath orelse (foundAt_none _))
    exact emits_bind (emits_evaluate test) fun _ =>
      emits_either (emits_pure true) (emits_pure false)
  | ifStmt _ test body orelse =>
    rw [walk] at h
    exact emits_bind (emits_evaluate test) fun _ =>
      emits_either (emits_blockPath body h.left) (emits_blockPath orelse h.right)
  | withStmt _ isAsync items body =>
    cases isAsync with
    | true => exact emits_anyOf fun _ hA => absurd hA List.not_mem_nil
    | false => exact emits_withItems (emits_blockPath body (foundAt_none _)) items
  | tryStmt _ isStar body handlers orelse finalbody =>
    cases isStar with
    | true => exact emits_anyOf fun _ hA => absurd hA List.not_mem_nil
    | false =>
      rw [walk] at h
      refine emits_bind (emits_attempt ?_) fun r =>
        emits_bind (emits_blockPath finalbody h.right.right) fun _ => emits_resume r
      refine emits_bind (emits_attempt (emits_blockPath body h.left)) fun s => ?_
      split
      · exact emits_blockPath orelse (foundAt_none _)
      · exact emits_handlersPath handlers h.right.left
      · exact emits_resume _
  | ret _ value => exact emits_bind (emits_evaluateOpt value) fun _ => emits_leave Exit.ret
  | raise _ exc cause =>
    exact emits_bind (emits_evaluateOpt exc) fun _ =>
      emits_bind (emits_evaluateOpt cause) fun _ => emits_leave Exit.exc
  | assert _ test msg =>
    exact emits_bind (emits_evaluate test) fun _ => emits_either (emits_pure ())
      (emits_bind (emits_evaluateOpt msg) fun _ => emits_leave Exit.exc)
  | expr _ value => exact emits_evaluate value
  | pass _ => exact emits_pure ()
  | breakStmt _ => exact emits_leave Exit.brk
  | continueStmt _ => exact emits_leave Exit.cont
  | _ => exact emits_anyOf fun _ hA => absurd hA List.not_mem_nil

theorem emits_blockPath {n : Option ℕ} (body : List Stmt) (h : FoundAt W n (walkAll body)) :
    Emits (Sited W) (blockPath n body) := by
  cases body with
  | nil => exact emits_pure ()
  | cons s rest =>
    rw [walkAll] at h
    exact emits_bind (emits_stmtPath s h.left) fun _ => emits_blockPath rest h.right

theorem emits_handlersPath {n : Option ℕ} (handlers : List (ExceptHandler Stmt))
    (h : FoundAt W n (walkHandlers handlers)) : Emits (Sited W) (handlersPath n handlers) := by
  match handlers with
  | [] => exact emits_leave Exit.exc
  | ⟨_, type, name, body⟩ :: rest =>
    rw [walkHandlers] at h
    refine emits_bind (emits_evaluateOpt type) fun _ =>
      emits_either ?_ (emits_handlersPath rest h.right)
    exact emits_bind (emits_assignTo (sited_handlerName name)) fun _ =>
      emits_bind (emits_attempt (emits_blockPath body h.left)) fun r =>
        emits_bind (emits_assignTo (sited_handlerName name)) fun _ => emits_resume r

end

theorem startTracker_marked {args : Arguments Expr} {p : String} (h : p ∈ markedParameters args) :
    (startTracker args).isVariableTainted p = true := by
  simp [startTracker, LocalDefUseTracker.isVariableTainted, h]

/-- On every path, a variable that ends up with the value of a marked parameter is reported if the walk
records the copies of its trail in their order, with no other assignment to the name in between. -/
theorem tainted_of_path {args : Arguments Expr} {body : List Stmt} {tr : List (List Binding)}
    {r : Except Exit Unit} (hpath : blockPath (some 0) body tr r) {x : String} {t : Trail}
    (hholds : envAfter (parameterNames args) tr x = some t) (hmarked : t.param ∈ markedParameters args)
    (horder : InWalkOrder (walkAll body) t.param (walkAll body).length t.links) :
    (analyzeFunction args body).isVariableTainted x = true := by
  have hfound : FoundAt (walkAll body) (some 0) (walkAll body) := by
    intro m hm i e he
    cases hm
    rwa [Nat.zero_add]
  have hsited := emits_blockPath body hfound tr r hpath
  have hgrounded : (envAfter (parameterNames args) tr).Grounded (walkAll body) (parameterNames args) :=
    grounded_envAfter hsited
  have htainted := tainted_of_grounded (hgrounded x t hholds) (startTracker_marked hmarked) horder
  rw [stateAt, List.take_length] at htainted
  rwa [analyzeFunction_eq]

/-- `def f(src)`. -/
def oneParameter : Arguments Expr := { args := [{ arg := "src" }] }

def copyOfSrc (name : String) : Stmt := .assign {} [.name {} name .store] (.name {} "src" .load)

def literal (name : String) : Stmt := .assign {} [.name {} name .store] (.constant {} (.str "safe"))

theorem evaluate_intro (e : Expr) : evaluate e [] (.ok ()) := by
  have hnamed : (repeated (anyOf ((namedBindings e).map fun b => emit [b])) : Path Unit) []
      (.ok ()) := Rounds.last (.inl ⟨rfl, rfl⟩)
  have hraise : mayRaise [] (.ok ()) := .inl ret_intro
  exact bind_intro hnamed hraise

theorem copyOfSrc_path (name : String) (n : ℕ) :
    stmtPath (some n) (copyOfSrc name) [[⟨name, some (.name {} "src" .load), some n⟩]] (.ok ()) :=
  bind_intro (evaluate_intro _) (.inl emit_intro)

theorem tainted_of_copied_parameter :
    (analyzeFunction oneParameter [copyOfSrc "b"]).isVariableTainted "b" = true := by
  have hpath : blockPath (some 0) [copyOfSrc "b"] ([[⟨"b", some (.name {} "src" .load), some 0⟩]] ++ [])
      (.ok ()) := bind_intro (copyOfSrc_path "b" 0) ret_intro
  refine tainted_of_path hpath (t := ⟨"src", [("b", some 0)]⟩) rfl (by decide) ?_
  refine ⟨0, rfl, by decide, fun i hlo hhi => ?_, fun i hlo hhi => ?_⟩
  · exact absurd (Nat.lt_of_lt_of_le hlo (Nat.le_of_lt_succ hhi)) (Nat.lt_irrefl _)
  · exact absurd hhi (Nat.not_lt_zero i)

/-- `b = src` in one branch, `b = "safe"` in the other: `b` is the parameter on the first path, and the
assignment recorded last decides. -/
def branches : List Stmt :=
  [.ifStmt {} (.name {} "condition" .load) [copyOfSrc "b"] [literal "b"]]

theorem pathSound_fails_on_branches :
    blockPath (some 0) branches [[⟨"b", some (.name {} "src" .load), some 0⟩]] (.ok ()) ∧
      envAfter ["src"] [[⟨"b", some (.name {} "src" .load), some 0⟩]] "b" =
        some ⟨"src", [("b", some 0)]⟩ ∧
      (analyzeFunction oneParameter branches).isVariableTainted "b" = false ∧
      ¬PathSound oneParameter branches := by
  have hpath : blockPath (some 0) branches [[⟨"b", some (.name {} "src" .load), some 0⟩]] (.ok ()) := by
    refine bind_of_eq (a := ()) ?_ ret_intro (List.append_nil _).symm
    refine bind_of_eq (a := ()) (evaluate_intro _) (.inl ?_) (List.nil_append _).symm
    exact bind_of_eq (a := ()) (copyOfSrc_path "b" 0) ret_intro (List.append_nil _).symm
  have hclean : (analyzeFunction oneParameter branches).isVariableTainted "b" = false := by decide
  refine ⟨hpath, rfl, hclean, fun hsound => ?_⟩
  have htainted := hsound _ _ hpath "b" _ rfl
  rw [hclean] at htainted
  cases htainted

end TimeCodeSecurity.DefUse
