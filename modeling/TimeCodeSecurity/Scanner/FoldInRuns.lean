import TimeCodeSecurity.Scanner.Collect
import TimeCodeSecurity.Scanner.FoldSoundness
import TimeCodeSecurity.Scanner.ProgramPaths

/-! # Folded values and the values of a run

A record stands for the value of a name as long as the name was last bound by the assignment the record was
made of. Where that is so for each name a fold reads, the folded value is the value at run time.
-/
namespace TimeCodeSecurity.Execution
open Py Scanner
set_option autoImplicit false

section
variable (addFloat : ℚ → ℚ → ℚ) (T : Tracker)

/-- The fold of `e` at a line of a scope answers `v`, with some names followed already. -/
def Answers (e : Expr) (scope : String) (line : ℕ) (v : Value) : Prop :=
  ∃ fuel visited visited', (evalStaticConstant addFloat T fuel e scope line).run visited =
    some (some v, visited')

def FoldsAlone (scope : String) (line : ℕ) (e : Expr) : Prop :=
  ∀ fuel visited, ∃ v visited', (evalStaticConstant addFloat T (fuel + 1) e scope line).run visited =
    some (some v, visited')

def HeldByRecord (σ : State) (line : ℕ) (x : String) : Prop :=
  ∃ r b o, T.chainRecord σ.scopeId x line = some r ∧ σ.lookup x = some b ∧ b.origin = some o ∧
    o.whole = true ∧ o.valueNode = r.valueNode ∧ o.lineno = r.lineno ∧ o.scopeId = r.scopeId

def Tracks (σ : State) (line : ℕ) (e : Expr) : Prop :=
  (∃ v, Answers addFloat T e σ.scopeId line v) →
    Grounded (HeldByRecord T σ line) (FoldsAlone addFloat T σ.scopeId line) e

/-- A step evaluates only expressions whose records hold. -/
def Tracked (σ : State) : Event → Prop
  | .eval e _ => Tracks addFloat T σ e.pos.lineno e
  | .compute line targets => ∀ t ∈ targets, t.whole = true → Tracks addFloat T σ line t.valueNode
  | .assign line t => t.whole = true → Tracks addFloat T σ line t.valueNode
  | _ => True

/-- What the fold answers for an evaluated expression is its value. -/
def FoldedRight (σ : State) : Event → Prop
  | .eval e v => ∀ fuel w visited, (evalStaticConstant addFloat T fuel e σ.scopeId e.pos.lineno).run [] =
      some (some w, visited) → v = w
  | _ => True

def SoundBinding (b : Binding) : Prop :=
  ∀ o v, b.origin = some o → o.whole = true → Answers addFloat T o.valueNode o.scopeId o.lineno v →
    v.isLiteral = true ∧ b.value = v

structure SoundFrame (frame : Frame) : Prop where
  vars : ∀ x b, frame.vars x = some b → SoundBinding addFloat T b
  pending : ∀ p ∈ frame.pending, SoundBinding addFloat T p.2

def SoundState (σ : State) : Prop := ∀ frame ∈ σ.frames, SoundFrame addFloat T frame

end

theorem exists_frame_of_lookup {σ : State} {x : String} {b : Binding} (h : σ.lookup x = some b) :
    ∃ frame ∈ σ.frames, frame.vars x = some b := by
  obtain ⟨f, -, h⟩ := Option.bind_eq_some_iff.mp h
  obtain ⟨k, -, h⟩ := Option.bind_eq_some_iff.mp h
  obtain ⟨frame, hframe, hx⟩ := Option.bind_eq_some_iff.mp h
  exact ⟨frame, List.mem_of_getElem? hframe, hx⟩

theorem mem_frames_of_top {σ : State} {frame : Frame} (h : σ.top = some frame) :
    frame ∈ σ.frames := by
  obtain ⟨f, -, hframe⟩ := Option.bind_eq_some_iff.mp h
  exact List.mem_of_getElem? hframe

section
variable {addFloat : ℚ → ℚ → ℚ} {T : Tracker} {σ : State}

theorem sound_folder (h : SoundState addFloat T σ) (line fuel : ℕ) (builtin : String → Option Value) :
    Folder.Sound (HeldByRecord T σ line) (FoldsAlone addFloat T σ.scopeId line) addFloat
      (σ.value builtin)
      { constant := foldConstant
        name := foldName addFloat T (evalStaticConstant addFloat T fuel) σ.scopeId line
        other := pure none } where
  constant := rfl
  other := rfl
  name := by
    intro id visited v visited' hknown hrun
    obtain ⟨r, b, o, hrecord, hlookup, horigin, hwhole, hnode, hline, hscope⟩ := hknown
    obtain ⟨frame, hframe, hb⟩ := exists_frame_of_lookup hlookup
    obtain ⟨seen, visited₁, hget, hrun⟩ := run_bind_eq_some hrun
    split at hrun
    · cases run_pure_eq_some hrun
    obtain ⟨-, visited₂, hmodify, hrun⟩ := run_bind_eq_some hrun
    simp only [hrecord] at hrun
    have hanswers : Answers addFloat T o.valueNode o.scopeId o.lineno v := by
      rw [hnode, hline, hscope]
      exact ⟨fuel, visited₂, visited', hrun⟩
    obtain ⟨hliteral, hvalue⟩ := (h frame hframe).vars id b hb o v horigin hwhole hanswers
    exact ⟨hliteral, by rw [State.value, hlookup, ← hvalue]⟩
  key := fun hfolds visited => hfolds fuel visited

theorem eq_of_answers (h : SoundState addFloat T σ) {line : ℕ} {e : Expr} {v w : Value}
    (htracks : Tracks addFloat T σ line e) (hanswers : Answers addFloat T e σ.scopeId line v)
    (heval : Evaluates addFloat σ e w) : v.isLiteral = true ∧ w = v := by
  have hgrounded := htracks ⟨v, hanswers⟩
  obtain ⟨fuel, visited, visited', hrun⟩ := hanswers
  cases fuel with
  | zero => cases hrun
  | succ fuel =>
    have hsound (builtin : String → Option Value) (host : Expr → Option Value) :
        Gives addFloat (σ.value builtin) host e v :=
      foldExpr_sound (sound_folder h line fuel builtin) e hgrounded _ _ _ hrun
    have hquiet := (hsound (fun _ => none) (fun _ => none)).quiet
    obtain ⟨builtin, host, hw⟩ := heval hquiet
    exact ⟨(hsound builtin host).literal, (hsound builtin host).unique w hw⟩

theorem soundBinding_target (h : SoundState addFloat T σ) {line : ℕ} {t : Target}
    (htracks : t.whole = true → Tracks addFloat T σ line t.valueNode)
    (heval : t.whole = true → Evaluates addFloat σ t.valueNode t.value) :
    SoundBinding addFloat T (t.binding σ line) := by
  intro o v ho hwhole hanswers
  obtain rfl := Option.some.inj ho
  exact eq_of_answers h (htracks hwhole) hanswers (heval hwhole)

theorem soundBinding_plain (v : Value) : SoundBinding addFloat T ⟨v, none⟩ :=
  fun _ _ ho => nomatch ho

/-! ## One step -/

theorem SoundState.modifyFrame (h : SoundState addFloat T σ) (f : ℕ) {g : Frame → Frame}
    (hg : ∀ frame ∈ σ.frames, SoundFrame addFloat T (g frame)) :
    SoundState addFloat T (σ.modifyFrame f g) := by
  intro frame hframe
  obtain ⟨i, hi⟩ := List.mem_iff_getElem?.mp hframe
  rw [State.modifyFrame, List.getElem?_modify] at hi
  obtain ⟨old, hold, hnew⟩ := Option.map_eq_some_iff.mp hi
  have hmem := List.mem_of_getElem? hold
  split at hnew
  · rw [← hnew]
    exact hg old hmem
  · rw [← hnew]
    exact h old hmem

theorem SoundState.setVar (h : SoundState addFloat T σ) {x : String} {b : Option Binding}
    (hb : ∀ b', b = some b' → SoundBinding addFloat T b') : SoundState addFloat T (σ.setVar x b) := by
  rw [State.setVar]
  split
  · refine h.modifyFrame _ fun frame hframe => ⟨fun y b' hb' => ?_, (h frame hframe).pending⟩
    have hupdate : Function.update frame.vars x b y = some b' := hb'
    by_cases hxy : y = x
    · rw [hxy, Function.update_self] at hupdate
      exact hb b' hupdate
    · rw [Function.update_of_ne hxy] at hupdate
      exact (h frame hframe).vars y b' hupdate
  · exact h

theorem SoundState.setPending (h : SoundState addFloat T σ) {bs : List (String × Binding)}
    (hbs : ∀ p ∈ bs, SoundBinding addFloat T p.2) : SoundState addFloat T (σ.setPending bs) := by
  rw [State.setPending]
  split
  · exact h.modifyFrame _ fun frame hframe => ⟨(h frame hframe).vars, hbs⟩
  · exact h

theorem SoundState.push (h : SoundState addFloat T σ) {frame : Frame}
    (hframe : SoundFrame addFloat T frame) : SoundState addFloat T (σ.push frame) := by
  intro f hf
  rcases List.mem_append.mp hf with hf | hf
  · exact h f hf
  · rw [List.mem_singleton.mp hf]
    exact hframe

theorem soundFrame_empty {frame : Frame} (hvars : ∀ x, frame.vars x = none)
    (hpending : frame.pending = []) : SoundFrame addFloat T frame := by
  refine ⟨fun x b hb => ?_, fun p hp => ?_⟩
  · rw [hvars x] at hb
    cases hb
  · rw [hpending] at hp
    exact absurd hp List.not_mem_nil

theorem soundFrame_call {c : Closure} {args : Arguments Expr} {body : List Stmt}
    {values : List (String × Value)} : SoundFrame addFloat T (callFrame c args body values) := by
  refine ⟨fun x b hb => ?_, fun p hp => absurd hp List.not_mem_nil⟩
  obtain ⟨v, -, rfl⟩ := Option.map_eq_some_iff.mp hb
  exact soundBinding_plain v

theorem SoundState.step (h : SoundState addFloat T σ) {ev : Event} {σ' : State}
    (hstep : Step addFloat σ ev σ') (htracked : Tracked addFloat T σ ev) :
    SoundState addFloat T σ' := by
  cases hstep with
  | eval => exact h
  | compute heval =>
    refine h.setPending fun p hp => ?_
    obtain ⟨t, ht, rfl⟩ := List.mem_map.mp hp
    exact soundBinding_target h (htracked t ht) (heval t ht)
  | store htop hpending =>
    refine h.setVar fun b' hb' => ?_
    obtain rfl := Option.some.inj hb'
    exact (h _ (mem_frames_of_top htop)).pending _ (List.mem_of_getElem? hpending)
  | assign heval =>
    refine h.setVar fun b' hb' => ?_
    obtain rfl := Option.some.inj hb'
    exact soundBinding_target h htracked heval
  | bind =>
    refine h.setVar fun b' hb' => ?_
    obtain rfl := Option.some.inj hb'
    exact soundBinding_plain _
  | unbind => exact h.setVar fun b' hb' => nomatch hb'
  | define =>
    have hclosure (stmt : Stmt) (scope : String) : SoundState addFloat T (σ.addClosure stmt scope) := h
    refine (hclosure _ _).setVar fun b' hb' => ?_
    obtain rfl := Option.some.inj hb'
    exact soundBinding_plain _
  | call => exact h.push soundFrame_call
  | enterClass => exact h.push (soundFrame_empty (fun _ => rfl) rfl)
  | enterComprehension => exact h.push (soundFrame_empty (fun _ => rfl) rfl)
  | leave => exact fun frame hframe => h frame hframe

theorem soundState_start (mod : String) : SoundState addFloat T (State.start mod) := by
  intro frame hframe
  rw [List.mem_singleton.mp hframe]
  exact soundFrame_empty (fun _ => rfl) rfl

end

/-- A run of the module stands at `σ` with `ev` as its next step, and all its steps meet a condition. -/
def Reached (addFloat : ℚ → ℚ → ℚ) (meets : State → Event → Prop) (mod : String) (body : Module)
    (σ : State) (ev : Event) : Prop :=
  ∃ tr σ', IsRun body (tr ++ [ev]) ∧
    Steps (fun σ ev σ' => Step addFloat σ ev σ' ∧ meets σ ev) (State.start mod) tr σ ∧
    Step addFloat σ ev σ' ∧ meets σ ev

/-- In a run whose steps read only records that hold, folded expressions have the folded values. -/
theorem foldedRight_of_tracked (addFloat : ℚ → ℚ → ℚ) (H : Host) (mod : String) (body : Module)
    (σ : State) (ev : Event)
    (h : Reached addFloat (Tracked addFloat (collectModule H mod body)) mod body σ ev) :
    FoldedRight addFloat (collectModule H mod body) σ ev := by
  obtain ⟨tr, σ', -, hsteps, hstep, htracked⟩ := h
  have hsound : SoundState addFloat (collectModule H mod body) σ :=
    hsteps.invariant (fun _ _ _ hinv hstep => hinv.step hstep.1 hstep.2) (soundState_start mod)
  cases hstep with
  | eval heval =>
    intro fuel w visited hrun
    exact (eq_of_answers hsound htracked ⟨fuel, [], visited, hrun⟩ heval).2
  | _ => trivial

/-! ### A branch that is not taken -/

section
variable (calls : Path Unit)

theorem mayRaise_intro : Path.mayRaise [] (.ok ()) := .inl Paths.ret_intro

theorem evaluated_intro (e : Expr) (v : Value) : Path.evaluated e v [.eval e v] (.ok v) :=
  Paths.bind_of_eq Paths.emit_intro Paths.ret_intro rfl

theorem finish_intro (e : Expr) (v : Value) : Path.finish e [.eval e v] (.ok v) := by
  have hunknown : Path.unknown Value [] (.ok v) := Paths.oneOf_intro trivial
  exact Paths.bind_of_eq mayRaise_intro (Paths.bind_of_eq hunknown (evaluated_intro e v) rfl) rfl

/-- `id = value` for a constant. -/
def assignConstant (line : ℕ) (id : String) (value : Constant) : Stmt :=
  .assign ⟨line, 0, line, 0⟩ [.name {} id .store] (.constant {} value)

theorem assignConstant_path (owner : Option String) (line : ℕ) (id : String) (value : Constant)
    (v : Value) :
    stmtPath calls owner (assignConstant line id value)
      [.eval (.constant {} value) v, .compute line [⟨id, .constant {} value, true, v⟩], .store 0]
      (.ok ()) := by
  have hvalue : exprPath calls (.constant {} value) [.eval (.constant {} value) v] (.ok v) :=
    finish_intro _ v
  have hunknown : Path.unknown (ℕ → Value) [] (.ok fun _ => v) := Paths.oneOf_intro trivial
  have hcompute : compute line [⟨id, .constant {} value, true, some v⟩]
      [.compute line [⟨id, .constant {} value, true, v⟩]] (.ok ()) :=
    Paths.bind_of_eq hunknown Paths.emit_intro rfl
  have hstore : storePaths calls 0 [.name {} id .store] [.store 0] (.ok ()) :=
    Paths.bind_of_eq Paths.emit_intro Paths.ret_intro rfl
  exact Paths.bind_of_eq hvalue (Paths.bind_of_eq hcompute hstore rfl) rfl

end

def constantTarget (id : String) (value : Constant) : Target :=
  ⟨id, .constant {} value, true, .ofConstant value⟩

def assignTrace (line : ℕ) (id : String) (value : Constant) : List Event :=
  [.eval (.constant {} value) (.ofConstant value), .compute line [constantTarget id value], .store 0]

def assigned (line : ℕ) (id : String) (value : Constant) : State :=
  let σ := State.start "m"
  let b := (constantTarget id value).binding σ line
  (σ.setPending [(id, b)]).setVar id (some b)

theorem evaluates_constant (addFloat : ℚ → ℚ → ℚ) (σ : State) (value : Constant) :
    Evaluates addFloat σ (.constant {} value) (.ofConstant value) :=
  fun _ => ⟨fun _ => none, fun _ => none, rfl⟩

theorem steps_assigned {addFloat : ℚ → ℚ → ℚ} {meets : State → Event → Prop} (line : ℕ) (id : String)
    (value : Constant) (h : ∀ σ, ∀ ev ∈ assignTrace line id value, meets σ ev) :
    Steps (fun σ ev σ' => Step addFloat σ ev σ' ∧ meets σ ev) (State.start "m")
      (assignTrace line id value) (assigned line id value) := by
  refine .cons ⟨.eval (evaluates_constant _ _ value), h _ _ (by simp [assignTrace])⟩ ?_
  refine .cons ⟨.compute fun t ht _ => ?_, h _ _ (by simp [assignTrace])⟩ ?_
  · rw [List.mem_singleton.mp ht]
    exact evaluates_constant _ _ value
  · exact .cons ⟨.store rfl rfl, h _ _ (by simp [assignTrace])⟩ .nil

/-- `mode = "r"`, then under a condition `mode = "w"`, then a use of `mode`. -/
def branchModule : Module :=
  [assignConstant 1 "mode" (.str "r"),
    .ifStmt ⟨2, 0, 3, 0⟩ (.name ⟨2, 3, 2, 7⟩ "flag" .load) [assignConstant 3 "mode" (.str "w")] [],
    .expr ⟨4, 0, 4, 4⟩ (.name ⟨4, 0, 4, 4⟩ "mode" .load)]

theorem branchModule_isRun :
    IsRun branchModule (assignTrace 1 "mode" (.str "r") ++
      [.eval (.name ⟨2, 3, 2, 7⟩ "flag" .load) (.bool false)] ++
      [.eval (.name ⟨4, 0, 4, 4⟩ "mode" .load) (.str "r")]) := by
  have hassign := assignConstant_path (callsAt 0) none 1 "mode" (.str "r") (.str "r")
  have hflag := finish_intro (.name ⟨2, 3, 2, 7⟩ "flag" .load) (.bool false)
  have hfalse : Path.branch (.bool false) [] (.ok false) := Paths.oneOf_intro rfl
  have hif : stmtPath (callsAt 0) none (.ifStmt ⟨2, 0, 3, 0⟩ (.name ⟨2, 3, 2, 7⟩ "flag" .load)
      [assignConstant 3 "mode" (.str "w")] []) [.eval (.name ⟨2, 3, 2, 7⟩ "flag" .load) (.bool false)]
      (.ok ()) :=
    Paths.bind_of_eq hflag (Paths.bind_of_eq hfalse Paths.ret_intro rfl) rfl
  have hmode := finish_intro (.name ⟨4, 0, 4, 4⟩ "mode" .load) (.str "r")
  have huse : stmtPath (callsAt 0) none (.expr ⟨4, 0, 4, 4⟩ (.name ⟨4, 0, 4, 4⟩ "mode" .load))
      [.eval (.name ⟨4, 0, 4, 4⟩ "mode" .load) (.str "r")] (.ok ()) :=
    Paths.bind_of_eq hmode Paths.ret_intro rfl
  exact ⟨0, [], .ok (), Paths.bind_of_eq hassign
    (Paths.bind_of_eq hif (Paths.bind_of_eq huse Paths.ret_intro rfl) rfl) rfl⟩

theorem evaluates_assigned (addFloat : ℚ → ℚ → ℚ) (pos : Pos) (line : ℕ) (value : Constant) :
    Evaluates addFloat (assigned line "mode" value) (.name pos "mode" .load) (.ofConstant value) :=
  fun _ => ⟨fun _ => none, fun _ => none, rfl⟩

def plainHost : Host where
  unparse _ := ""
  canonicalName _ _ := none

theorem steps_append {step : State → Event → State → Prop} {σ σ' σ'' : State} {tr tr' : List Event}
    (h : Steps step σ tr σ') (h' : Steps step σ' tr' σ'') : Steps step σ (tr ++ tr') σ'' := by
  induction h with
  | nil => exact h'
  | cons hstep _ ih => exact .cons hstep (ih h')

/-- The last record by line is taken for the value, also where its branch has not run. -/
theorem foldedRight_fails_on_branch :
    ¬∀ (addFloat : ℚ → ℚ → ℚ) (H : Host) (mod : String) (body : Module) (σ : State) (ev : Event),
      Reached addFloat (fun _ _ => True) mod body σ ev →
        FoldedRight addFloat (collectModule H mod body) σ ev := by
  intro hall
  have hflag : Evaluates (· + ·) (assigned 1 "mode" (.str "r")) (.name ⟨2, 3, 2, 7⟩ "flag" .load)
      (.bool false) := fun _ => ⟨fun _ => some (.bool false), fun _ => none, rfl⟩
  have hreached : Reached (· + ·) (fun _ _ => True) "m" branchModule (assigned 1 "mode" (.str "r"))
      (.eval (.name ⟨4, 0, 4, 4⟩ "mode" .load) (.str "r")) := by
    refine ⟨_, _, branchModule_isRun, ?_, .eval (evaluates_assigned _ _ 1 (.str "r")), trivial⟩
    exact steps_append (steps_assigned 1 "mode" (.str "r") fun _ _ _ => trivial)
      (.cons ⟨.eval hflag, trivial⟩ .nil)
  have hright := hall (· + ·) plainHost "m" branchModule _ _ hreached 2 (.str "w")
    ["m:global:mode"] rfl
  exact absurd hright (by decide)

/-- `mode = "r"`, then a use of `mode`. -/
def useModule : Module :=
  [assignConstant 1 "mode" (.str "r"), .expr ⟨2, 0, 2, 4⟩ (.name ⟨2, 0, 2, 4⟩ "mode" .load)]

theorem useModule_isRun :
    IsRun useModule (assignTrace 1 "mode" (.str "r") ++
      [.eval (.name ⟨2, 0, 2, 4⟩ "mode" .load) (.str "r")]) := by
  have hassign := assignConstant_path (callsAt 0) none 1 "mode" (.str "r") (.str "r")
  have hmode := finish_intro (.name ⟨2, 0, 2, 4⟩ "mode" .load) (.str "r")
  have huse : stmtPath (callsAt 0) none (.expr ⟨2, 0, 2, 4⟩ (.name ⟨2, 0, 2, 4⟩ "mode" .load))
      [.eval (.name ⟨2, 0, 2, 4⟩ "mode" .load) (.str "r")] (.ok ()) :=
    Paths.bind_of_eq hmode Paths.ret_intro rfl
  exact ⟨0, [], .ok (), Paths.bind_of_eq hassign (Paths.bind_of_eq huse Paths.ret_intro rfl) rfl⟩

theorem foldedRight_useModule :
    FoldedRight (· + ·) (collectModule plainHost "m" useModule) (assigned 1 "mode" (.str "r"))
      (.eval (.name ⟨2, 0, 2, 4⟩ "mode" .load) (.str "r")) := by
  refine foldedRight_of_tracked (· + ·) plainHost "m" useModule _ _
    ⟨_, _, useModule_isRun, steps_assigned 1 "mode" (.str "r") fun σ ev hev => ?_,
      .eval (evaluates_assigned _ _ 1 (.str "r")), fun _ => ?_⟩
  · simp only [assignTrace, List.mem_cons, List.not_mem_nil, or_false] at hev
    rcases hev with rfl | rfl | rfl
    · exact fun _ => trivial
    · intro t ht _ _
      rw [List.mem_singleton.mp ht]
      trivial
    · trivial
  · exact ⟨⟨"mode", .constant {} (.str "r"), 1, "m:global", false⟩, _, _, rfl, rfl, rfl, rfl, rfl, rfl,
      rfl⟩

end TimeCodeSecurity.Execution
