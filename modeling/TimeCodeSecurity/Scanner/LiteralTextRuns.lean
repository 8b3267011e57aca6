import TimeCodeSecurity.Scanner.LiteralText

/-! # Replayed texts and the values of a run

`_literal_text` at a name puts together what each record of it contributes, and takes a record for an
extension only where it is `name + …`. In a straight-line program the text is the one the name holds when every
name it is read from was written before the line and, where the constant folder has no text for it, was only
extended after its first write.
-/
namespace TimeCodeSecurity.Scanner
open Py
set_option autoImplicit false

section
variable {addFloat : ℚ → ℚ → ℚ} {T : Tracker} {scope : String} {ws : List Write}

variable (addFloat T scope)

def Settled (later : List Write) (line : ℕ) (e : Expr) : Prop :=
  (∃ v, Execution.Answers addFloat T e scope line v) →
    Grounded (Past later line) (Execution.FoldsAlone addFloat T scope line) e

/-- `id + …`. -/
def extendsName (id : String) : Expr → Bool
  | .binOp _ (.name _ x _) .add _ => x = id
  | _ => false

def readsOn : Expr → Bool
  | .name .. | .binOp _ _ .add _ => true
  | _ => false

def Replayable (line : ℕ) (pos : Pos) (x : String) (ctx : Ctx) : Prop :=
  (∃ text, T.staticConstant addFloat (.name pos x ctx) scope line = some (.str text)) ∨
    (∀ r ∈ (T.assignmentRecords x scope line).tail, extendsName x r.valueNode = true) ∨
    ∃ r ∈ T.assignmentRecords x scope line, readsOn r.valueNode = false ∧
      ∀ text, T.staticConstant addFloat r.valueNode r.scopeId r.lineno ≠ some (.str text)

/-- The names that are read as summands of a text, `own` being the names that the statement itself binds: the
only name it binds is refused, any other was last written before the line and can be replayed. -/
def ReadsInOrder (own : List String) (later : List Write) (line : ℕ) : Expr → Prop
  | .binOp pos left .add right =>
    Settled addFloat T scope later line (.binOp pos left .add right) ∧
      ReadsInOrder own later line left ∧ ReadsInOrder own later line right
  | .name pos x ctx =>
    Settled addFloat T scope later line (.name pos x ctx) ∧
      (own = [x] ∨ Past later line x ∧ Replayable addFloat T scope line pos x ctx)
  | e => Settled addFloat T scope later line e

def WritesInOrder (ws : List Write) : Prop :=
  ∀ done w later, ws = done ++ w :: later →
    ReadsInOrder addFloat T scope w.names (w :: later) w.line w.value

def TextsRight (ws : List Write) (σ₀ : Env) (fuel : ℕ) : Prop :=
  ∀ (done later : List Write) (σ : Env) (line : ℕ) (own : List String) (seen : List (String × String))
    (e : Expr) (text : String), ws = done ++ later → Runs addFloat done σ₀ σ → 0 < line →
    (∀ w ∈ done, w.line ≤ line) → (∀ x, own = [x] → (scope, x) ∈ seen) →
    ReadsInOrder addFloat T scope own later line e →
    literalText addFloat T fuel seen e scope line = some (some text) →
    ∀ host, Gives addFloat σ host e (.str text)

variable {addFloat T scope}

theorem ReadsInOrder.settled {own : List String} {later : List Write} {line : ℕ} {e : Expr}
    (h : ReadsInOrder addFloat T scope own later line e) : Settled addFloat T scope later line e := by
  unfold ReadsInOrder at h
  split at h
  · exact h.1
  · exact h.1
  · exact h

/-! ## What is folded -/

theorem contribution_of_not_readsOn {e : Expr} (h : readsOn e = false) (id : String) (text : Option String) :
    contribution id text e = e := by
  unfold contribution
  split
  · cases h
  · rfl

theorem literalText_ne_of_not_readsOn {e : Expr} (h : readsOn e = false) {line : ℕ}
    (hstatic : ∀ text, T.staticConstant addFloat e scope line ≠ some (.str text)) {fuel : ℕ}
    {seen : List (String × String)} {text : String} :
    literalText addFloat T fuel seen e scope line ≠ some (some text) := by
  cases fuel with
  | zero => exact fun hfound => by cases hfound
  | succ fuel =>
    unfold literalText
    split
    · rename_i found hfound
      exact absurd hfound (hstatic found)
    · split
      · cases h
      · cases h
      · exact fun hfound => by cases hfound

theorem exists_piece_of_replay {read : Expr → AssignmentRecord → Option (Option String)} {id result : String}
    {text : Option String} {rs : List AssignmentRecord} (h : replay read id text rs = some (some result))
    {r : AssignmentRecord} (hr : r ∈ rs) :
    ∃ before piece, read (contribution id before r.valueNode) r = some (some piece) := by
  induction rs generalizing text with
  | nil => exact absurd hr List.not_mem_nil
  | cons r' rs ih =>
    rw [replay] at h
    split at h
    · cases h
    · cases h
    · rename_i piece hpiece
      rcases List.mem_cons.mp hr with rfl | hr
      · exact ⟨text, piece, hpiece⟩
      · exact ih h hr

theorem ReadsInOrder.of_extendsName {w : Write} {later : List Write} {x : String}
    (h : ReadsInOrder addFloat T scope w.names (w :: later) w.line w.value) (hx : x ∈ w.names)
    (hextends : extendsName x w.value = true) :
    w.names = [x] ∧ ∃ pos p ctx right, w.value = .binOp pos (.name p x ctx) .add right ∧
      ReadsInOrder addFloat T scope w.names (w :: later) w.line right := by
  unfold extendsName at hextends
  split at hextends
  · rename_i pos p y ctx right heq
    obtain rfl := of_decide_eq_true hextends
    rw [heq, ReadsInOrder, ReadsInOrder] at h
    refine ⟨?_, pos, p, ctx, right, heq, h.2.2⟩
    rcases h.2.1.2 with hown | hpast
    · exact hown
    · exact absurd (hpast.1 w List.mem_cons_self hx) (lt_irrefl _)
  · cases hextends

theorem written_head {w : Write} {later : List Write} {x : String}
    (h : ReadsInOrder addFloat T scope w.names (w :: later) w.line w.value) (hx : x ∈ w.names)
    (hextends : ∀ r ∈ (written scope [w] x).tail, extendsName x r.valueNode = true) :
    written scope [w] x = [⟨x, w.value, w.line, scope, false⟩] := by
  have hmem : ∀ r ∈ written scope [w] x, r = ⟨x, w.value, w.line, scope, false⟩ := by
    intro r hr
    obtain ⟨w', hw', -, heq⟩ := mem_written.mp hr
    rw [heq, List.mem_singleton.mp hw']
  have hne : written scope [w] x ≠ [] :=
    List.ne_nil_of_mem (mem_written.mpr ⟨w, List.mem_cons_self, hx, rfl⟩)
  obtain ⟨r, more, heq⟩ := List.exists_cons_of_ne_nil hne
  cases more with
  | nil => rw [heq, hmem r (by rw [heq]; exact List.mem_cons_self)]
  | cons r' more =>
    have hr' := hextends r' (by rw [heq]; exact List.mem_cons_self)
    rw [hmem r' (by rw [heq]; simp)] at hr'
    exact written_of_single (h.of_extendsName hx hr').1

theorem gives_name {σ : Env} {x text : String} {pos : Pos} {ctx : Ctx} (h : σ x = some (.str text))
    (host : Expr → Option Value) : Gives addFloat σ host (.name pos x ctx) (.str text) := by
  refine ⟨rfl, rfl, fun w hw => ?_⟩
  rw [evalExpr, h] at hw
  exact (Option.some.inj hw).symm

theorem gives_concat {σ : Env} {host : Expr → Option Value} {pos : Pos} {left right : Expr} {a b : String}
    (ha : Gives addFloat σ host left (.str a)) (hb : Gives addFloat σ host right (.str b)) :
    Gives addFloat σ host (.binOp pos left .add right) (.str (a ++ b)) := by
  refine ⟨by rw [quiet, ha.quiet, hb.quiet]; rfl, rfl, fun w hw => ?_⟩
  rw [evalExpr] at hw
  obtain ⟨u, hu, hw⟩ := Option.bind_eq_some_iff.mp hw
  obtain ⟨v, hv, hw⟩ := Option.bind_eq_some_iff.mp hw
  rw [ha.unique u hu, hb.unique v hv] at hw
  exact (Option.some.inj hw).symm

theorem eq_of_computes {σ : Env} {e : Expr} {u v : Value} (hgives : ∀ host, Gives addFloat σ host e v)
    (h : Computes addFloat σ e u) : u = v := by
  obtain ⟨host, heval⟩ := h (hgives fun _ => none).quiet
  exact (hgives host).unique u heval

section
variable (hT : T.assignments = ws.flatMap (·.records scope)) (hscope : scope ≠ "")
  (hsorted : ws.Pairwise (·.line ≤ ·.line)) (hpositive : ∀ w ∈ ws, 0 < w.line)
  (horder : WritesInOrder addFloat T scope ws) {σ₀ : Env}
include hT hscope hsorted hpositive horder

theorem gives_of_fold (fuel : ℕ) {done later : List Write} (hws : ws = done ++ later) {σ : Env}
    (hrun : Runs addFloat done σ₀ σ) {line : ℕ} (hline : 0 < line) (hdone : ∀ w ∈ done, w.line ≤ line)
    {e : Expr} (hground : Grounded (Past later line) (Execution.FoldsAlone addFloat T scope line) e)
    {visited visited' : List String} {v : Value}
    (hfold : (evalStaticConstant addFloat T fuel e scope line).run visited = some (some v, visited'))
    (host : Expr → Option Value) : Gives addFloat σ host e v := by
  induction fuel generalizing done later σ line e visited visited' v host with
  | zero => cases hfold
  | succ fuel ih =>
    refine foldExpr_sound ?_ e hground _ _ _ hfold
    refine ⟨rfl, rfl, ?_, fun hfolds visited => hfolds fuel visited⟩
    intro x visited v visited' hpast hname
    obtain ⟨r, hlast, visited₁, hrecord⟩ := record_of_foldName hT hscope hws hline hdone hpast hname
    obtain ⟨before, w, after, rfl, hx, hafter, rfl⟩ := exists_last_write hlast
    obtain ⟨σ₁, hbefore, hrest⟩ := runs_append hrun
    have hws' : ws = before ++ w :: (after ++ later) := by rw [hws, List.append_assoc, List.cons_append]
    have hw : w ∈ ws := by rw [hws']; exact List.mem_append_right _ List.mem_cons_self
    have hlines : ∀ w' ∈ before, w'.line ≤ w.line := by
      rw [hws', List.pairwise_append] at hsorted
      exact fun w' hw' => hsorted.2.2 w' hw' w List.mem_cons_self
    have hgives := ih hws' hbefore (hpositive w hw) hlines
      ((horder before w (after ++ later) hws').settled ⟨v, fuel, _, _, hrecord⟩) hrecord
    cases hrest with
    | @cons _ _ _ u _ hcomputes hafterRun =>
      obtain rfl := eq_of_computes hgives hcomputes
      refine ⟨(hgives fun _ => none).literal, ?_⟩
      rw [hafterRun.frame hafter, Env.bindNames, if_pos hx]

omit hT hscope in
theorem eq_of_replay {fuel : ℕ} (ih : TextsRight addFloat T scope ws σ₀ fuel)
    {seen : List (String × String)} {x : String} (hseen : (scope, x) ∈ seen) {before rest later : List Write}
    (hws : ws = before ++ (rest ++ later)) {σ₁ σ : Env} (hbefore : Runs addFloat before σ₀ σ₁)
    (hrest : Runs addFloat rest σ₁ σ) {text : Option String}
    (htext : ∀ a, text = some a → σ₁ x = some (.str a))
    (hextends : ∀ r ∈ (written scope rest x).drop (if text = none then 1 else 0),
      extendsName x r.valueNode = true) {result : String}
    (hreplay : replay (fun e r => literalText addFloat T fuel seen e r.scopeId r.lineno) x text
      (written scope rest x) = some (some result)) : σ x = some (.str result) := by
  induction rest generalizing before σ₁ text with
  | nil =>
    cases hrest with
    | nil => exact htext result (Option.some.inj hreplay)
  | cons w rest hind =>
    have hws' : ws = before ++ w :: (rest ++ later) := hws
    have hw : w ∈ ws := by rw [hws']; exact List.mem_append_right _ List.mem_cons_self
    have hlines : ∀ w' ∈ before, w'.line ≤ w.line := by
      rw [hws', List.pairwise_append] at hsorted
      exact fun w' hw' => hsorted.2.2 w' hw' w List.mem_cons_self
    have hread := horder before w (rest ++ later) hws'
    have hwritten : written scope (w :: rest) x = written scope [w] x ++ written scope rest x :=
      written_append scope [w] rest x
    have hnext : ws = (before ++ [w]) ++ (rest ++ later) := by rw [hws', List.append_assoc]; rfl
    cases hrest with
    | @cons _ _ _ u _ hcomputes hrest =>
    by_cases hx : x ∈ w.names
    · have hown : ∀ y, w.names = [y] → (scope, y) ∈ seen := by
        intro y hy
        rw [hy] at hx
        rwa [← List.mem_singleton.mp hx]
      have hpiece : ∀ e piece, ReadsInOrder addFloat T scope w.names (w :: (rest ++ later)) w.line e →
          literalText addFloat T fuel seen e scope w.line = some (some piece) →
          ∀ host, Gives addFloat σ₁ host e (.str piece) :=
        fun e piece => ih before (w :: (rest ++ later)) σ₁ w.line w.names seen e piece hws' hbefore
          (hpositive w hw) hlines hown
      cases text with
      | none =>
        have hhead := written_head hread hx fun r hr => hextends r (by
          rw [if_pos rfl, hwritten, List.drop_one, List.tail_append_of_ne_nil (List.ne_nil_of_mem
            (mem_written.mpr ⟨w, List.mem_cons_self, hx, rfl⟩))]
          exact List.mem_append_left _ hr)
        rw [hwritten, hhead] at hextends hreplay
        rw [List.singleton_append, replay] at hreplay
        simp only [contribution] at hreplay
        split at hreplay
        · cases hreplay
        · cases hreplay
        · rename_i piece hfound
          obtain rfl := eq_of_computes (hpiece _ piece hread hfound) hcomputes
          refine hind hnext (hbefore.concat hcomputes) hrest (fun a ha => ?_) (fun r hr => ?_) hreplay
          · rw [Env.bindNames, if_pos hx, ← Option.some.inj ha]
            rfl
          · exact hextends r hr
      | some a =>
        have hfirst := hextends ⟨x, w.value, w.line, scope, false⟩ (by
          rw [if_neg (by simp), hwritten]
          exact List.mem_append_left _ (mem_written.mpr ⟨w, List.mem_cons_self, hx, rfl⟩))
        obtain ⟨hnames, pos, p, ctx, right, hvalue, hright⟩ := hread.of_extendsName hx hfirst
        rw [hwritten, written_of_single hnames] at hextends hreplay
        rw [List.singleton_append, replay] at hreplay
        simp only [contribution, hvalue, if_true] at hreplay
        split at hreplay
        · cases hreplay
        · cases hreplay
        · rename_i piece hfound
          have hgives (host : Expr → Option Value) : Gives addFloat σ₁ host w.value (.str (a ++ piece)) := by
            rw [hvalue]
            exact gives_concat (gives_name (htext a rfl) host) (hpiece right piece hright hfound host)
          obtain rfl := eq_of_computes hgives hcomputes
          refine hind hnext (hbefore.concat hcomputes) hrest (fun b hb => ?_) (fun r hr => ?_) hreplay
          · rw [Env.bindNames, if_pos hx, ← Option.some.inj hb]
            rfl
          · exact hextends r (List.mem_cons_of_mem _ hr)
    · have hnone : written scope [w] x = [] :=
        written_eq_nil fun w' hw' => by rwa [List.mem_singleton.mp hw']
      rw [hwritten, hnone, List.nil_append] at hextends hreplay
      refine hind hnext (hbefore.concat hcomputes) hrest (fun a ha => ?_) hextends hreplay
      rw [Env.bindNames, if_neg hx]
      exact htext a ha

theorem textsRight (fuel : ℕ) : TextsRight addFloat T scope ws σ₀ fuel := by
  induction fuel with
  | zero => exact fun _ _ _ _ _ _ _ _ _ _ _ _ _ _ h => by cases h
  | succ fuel ih =>
    intro done later σ line own seen e text hws hrun hline hdone hown hread hfound host
    unfold literalText at hfound
    split at hfound
    · rename_i found hstatic
      obtain rfl := Option.some.inj (Option.some.inj hfound)
      obtain ⟨visited, hfold⟩ := T.run_requestFuel addFloat e scope line
      rw [hstatic] at hfold
      exact gives_of_fold hT hscope hsorted hpositive horder _ hws hrun hline hdone
        (hread.settled ⟨_, _, _, _, hfold⟩) hfold host
    · rename_i hstatic
      split at hfound
      · rename_i pos x ctx
        split at hfound
        · cases hfound
        · rename_i hnew
          rcases hread.2 with hself | ⟨hpast, hreplayable⟩
          · exact absurd (hown x hself) hnew
          rcases hreplayable with ⟨text, hfolds⟩ | hextends | ⟨r, hr, hreads, hnone⟩
          · exact absurd hfolds (hstatic text)
          rotate_left
          · obtain ⟨before, piece, hpiece⟩ := exists_piece_of_replay hfound hr
            rw [contribution_of_not_readsOn hreads] at hpiece
            exact absurd hpiece (literalText_ne_of_not_readsOn hreads hnone)
          rw [assignmentRecords_written hT hscope hws hline hdone hpast] at hfound hextends
          have hstart : ∀ a, (none : Option String) = some a → σ₀ x = some (.str a) := fun a ha => by cases ha
          have hnil : ws = [] ++ (done ++ later) := hws
          have hreplayed : σ x = some (.str text) :=
            eq_of_replay hsorted hpositive horder ih List.mem_cons_self hnil .nil hrun hstart
              (by simpa using hextends) hfound
          exact gives_name hreplayed host
      · obtain ⟨a, ha, hfound⟩ := Option.bind_eq_some_iff.mp hfound
        obtain ⟨b, hb, hfound⟩ := Option.map_eq_some_iff.mp hfound
        obtain ⟨a, rfl, hfound⟩ := Option.bind_eq_some_iff.mp hfound
        obtain ⟨b, rfl, rfl⟩ := Option.map_eq_some_iff.mp hfound
        exact gives_concat (ih done later σ line own seen _ a hws hrun hline hdone hown hread.2.1 ha host)
          (ih done later σ line own seen _ b hws hrun hline hdone hown hread.2.2 hb host)
      · cases hfound

end

end

section
variable (addFloat : ℚ → ℚ → ℚ) (ws : List Write) (σ₀ : Env)

def ReachesLine (line : ℕ) (σ : Env) : Prop :=
  ∃ done later, ws = done ++ later ∧ (∀ w ∈ done, w.line < line) ∧ (∀ w ∈ later, line ≤ w.line) ∧
    Runs addFloat done σ₀ σ

/-- Each text found for the name at the line is what it holds when the line is reached. -/
def TextHeld (T : Tracker) (scope : String) (line : ℕ) (x : String) : Prop :=
  ∀ σ, ReachesLine addFloat ws σ₀ line σ → ∀ fuel pos ctx text,
    literalText addFloat T fuel [] (.name pos x ctx) scope line = some (some text) → σ x = some (.str text)

/-- The statements read in order, and so does the request: no statement on its line writes the name. -/
structure InOrder (T : Tracker) (scope : String) (line : ℕ) (x : String) : Prop where
  writes : WritesInOrder addFloat T scope ws
  elsewhere : ∀ w ∈ ws, x ∈ w.names → w.line ≠ line
  replayable : Replayable addFloat T scope line {} x .load

end

/-- In a straight-line program that reads in order, the text found for a name is the one it holds. -/
theorem textHeld_of_inOrder (addFloat : ℚ → ℚ → ℚ) (H : Host) (scope : String) (hscope : scope ≠ "")
    (body : List Stmt) (ws : List Write) (hbody : StraightLine body ws) (σ₀ : Env) (line : ℕ) (hline : 0 < line)
    (x : String)
    (h : InOrder addFloat ws (collectStatements H none scope false {} body) scope line x) :
    TextHeld addFloat ws σ₀ (collectStatements H none scope false {} body) scope line x := by
  rintro σ ⟨done, later, hws, hdone, hlater, hrun⟩ fuel pos ctx text hfound
  have hT := assignments_collectStatements hbody.writes H {} scope
  have hpast : Past later line x := by
    intro w hw hx
    have hle := hlater w hw
    have hne := h.elsewhere w (by rw [hws]; exact List.mem_append_right _ hw) hx
    omega
  have hread : ReadsInOrder addFloat (collectStatements H none scope false {} body) scope [] later line
      (.name pos x ctx) := ⟨fun _ => hpast, .inr ⟨hpast, h.replayable⟩⟩
  have hle : ∀ w ∈ done, w.line ≤ line := fun w hw => (hdone w hw).le
  have hgives := textsRight hT hscope hbody.sorted hbody.positive h.writes fuel done later σ line [] []
    (.name pos x ctx) text hws hrun hline hle (fun y hy => nomatch hy) hread hfound
  obtain ⟨v, hv⟩ := hrun.exists_value (written_of_literalText hT hscope hws hline hle hpast hfound)
  rw [hv, (hgives fun _ => none).unique v hv]

/-- `id += value` for a constant. -/
def addConstant (line : ℕ) (id : String) (value : Constant) : Stmt :=
  .augAssign ⟨line, 0, line, 0⟩ (.name {} id .store) .add (.constant {} value)

def assignWrite (line : ℕ) (id : String) (value : Constant) : Write := ⟨[id], .constant {} value, line⟩

def addWrite (line : ℕ) (id : String) (value : Constant) : Write :=
  ⟨[id], .binOp ⟨line, 0, line, 0⟩ (.name ⟨line, 0, line, 0⟩ id .load) .add (.constant {} value), line⟩

section
variable {addFloat : ℚ → ℚ → ℚ} {σ : Env}

theorem computes_constant (value : Constant) : Computes addFloat σ (.constant {} value) (.ofConstant value) :=
  fun _ => ⟨fun _ => none, rfl⟩

theorem computes_addWrite {line : ℕ} {id a b : String} (h : σ id = some (.str a)) :
    Computes addFloat σ (addWrite line id (.str b)).value (.str (a ++ b)) := by
  refine fun _ => ⟨fun _ => none, ?_⟩
  have hname : evalExpr addFloat σ (fun _ => none) (.name ⟨line, 0, line, 0⟩ id .load) = some (.str a) := by
    rw [evalExpr, h]
  rw [addWrite, evalExpr, hname]
  rfl

theorem bindNames_self (id : String) (v : Value) : σ.bindNames [id] v id = some v := by
  rw [Env.bindNames, if_pos (List.mem_singleton.mpr rfl)]

end

/-- `q = "a"`, `q = "b"`, `q += "c"`. -/
def reassigned : List Stmt :=
  [Execution.assignConstant 1 "q" (.str "a"), Execution.assignConstant 2 "q" (.str "b"),
    addConstant 3 "q" (.str "c")]

/-- What the plain assignment replaced stays in the text. -/
theorem textHeld_fails_on_reassigned :
    ¬∀ (addFloat : ℚ → ℚ → ℚ) (H : Host) (scope : String), scope ≠ "" → ∀ (body : List Stmt) (ws : List Write),
      StraightLine body ws → ∀ (σ₀ : Env) (line : ℕ), 0 < line → ∀ x : String,
        TextHeld addFloat ws σ₀ (collectStatements H none scope false {} body) scope line x := by
  intro hall
  have hstraight : StraightLine reassigned
      [assignWrite 1 "q" (.str "a"), assignWrite 2 "q" (.str "b"), addWrite 3 "q" (.str "c")] :=
    ⟨rfl, by simp [assignWrite, addWrite], by simp [assignWrite, addWrite]⟩
  have hheld := hall (· + ·) Execution.plainHost "m:global" (by decide) reassigned _ hstraight
    (fun _ => none) 4 (by decide) "q"
  have hruns : Runs (· + ·) [assignWrite 1 "q" (.str "a"), assignWrite 2 "q" (.str "b"),
      addWrite 3 "q" (.str "c")] (fun _ => none) _ :=
    .cons (computes_constant _) (.cons (computes_constant _)
      (.cons (computes_addWrite (bindNames_self "q" (.str "b"))) .nil))
  have hq := hheld _ ⟨_, [], rfl, by simp [assignWrite, addWrite], by simp, hruns⟩ 3 {} .load "abc" rfl
  exact absurd hq (by decide)

section
variable {addFloat : ℚ → ℚ → ℚ} {T : Tracker} {scope x : String} {line : ℕ}

theorem left_of_fold {fuel : ℕ} {pos p : Pos} {ctx : Ctx} {op : BinOp} {right : Expr}
    {visited visited' : List String} {v : Value}
    (h : (evalStaticConstant addFloat T fuel (.binOp pos (.name p x ctx) op right) scope line).run visited =
      some (some v, visited')) :
    ∃ n a visited₁, fuel = n + 1 ∧
      (foldName addFloat T (evalStaticConstant addFloat T n) scope line x).run visited = some (some a, visited₁) := by
  cases fuel with
  | zero => cases h
  | succ n =>
    rw [evalStaticConstant, foldExpr] at h
    obtain ⟨a, visited₁, ha, h⟩ := run_bind_eq_some h
    obtain ⟨b, visited₂, hb, h⟩ := run_bind_eq_some h
    obtain ⟨a, b, rfl, rfl, -⟩ := foldBinary_eq (run_pure_eq_some h)
    exact ⟨n, a, visited₁, rfl, ha⟩

theorem not_answers_name_of_own {r : AssignmentRecord} (hrecord : T.chainRecord scope x line = some r)
    (hscope : r.scopeId = scope) (hline : r.lineno = line) {pos p : Pos} {ctx : Ctx} {op : BinOp} {right : Expr}
    (hvalue : r.valueNode = .binOp pos (.name p x ctx) op right) (q : Pos) (c : Ctx) :
    ¬∃ v, Execution.Answers addFloat T (.name q x c) scope line v := by
  have hrefused (fold : Expr → String → ℕ → FoldM (Option Value)) {visited visited' : List String} {a : Value}
      (hkey : scope ++ ":" ++ x ∈ visited) :
      (foldName addFloat T fold scope line x).run visited ≠ some (some a, visited') := by
    simp [foldName, hkey]
  rintro ⟨v, fuel, visited, visited', hfold⟩
  cases fuel with
  | zero => cases hfold
  | succ n =>
    have hname : (foldName addFloat T (evalStaticConstant addFloat T n) scope line x).run visited =
        some (some v, visited') := hfold
    by_cases hkey : scope ++ ":" ++ x ∈ visited
    · exact hrefused _ hkey hname
    · have hrun : (foldName addFloat T (evalStaticConstant addFloat T n) scope line x).run visited =
          (evalStaticConstant addFloat T n r.valueNode r.scopeId r.lineno).run ((scope ++ ":" ++ x) :: visited) := by
        simp [foldName, hkey, hrecord]
      rw [hrun, hscope, hline, hvalue] at hname
      obtain ⟨m, b, visited₂, -, hagain⟩ := left_of_fold hname
      exact hrefused _ List.mem_cons_self hagain

end

/-- `q = "a"`, `q += "b"`. -/
def accumulated : List Stmt := [Execution.assignConstant 1 "q" (.str "a"), addConstant 2 "q" (.str "b")]

def accumulatedWrites : List Write := [assignWrite 1 "q" (.str "a"), addWrite 2 "q" (.str "b")]

theorem accumulated_writesInOrder : WritesInOrder (· + ·)
    (collectStatements Execution.plainHost none "m:global" false {} accumulated) "m:global" accumulatedWrites := by
  intro done w later hws
  match done, hws with
  | [], hws =>
    obtain ⟨rfl, rfl⟩ := List.cons.inj hws
    exact fun _ => trivial
  | [_], hws =>
    obtain ⟨-, hws⟩ := List.cons.inj hws
    obtain ⟨rfl, rfl⟩ := List.cons.inj hws
    have hrecord : (collectStatements Execution.plainHost none "m:global" false {} accumulated).chainRecord
        "m:global" "q" 2 = some ⟨"q", (addWrite 2 "q" (.str "b")).value, 2, "m:global", false⟩ := rfl
    have hname (q : Pos) (c : Ctx) : ¬∃ v, Execution.Answers (· + ·)
        (collectStatements Execution.plainHost none "m:global" false {} accumulated) (.name q "q" c) "m:global" 2 v :=
      not_answers_name_of_own hrecord rfl rfl rfl q c
    refine ⟨fun h => ?_, ⟨fun h => absurd h (hname _ _), .inl rfl⟩, fun _ => trivial⟩
    obtain ⟨v, fuel, visited, visited', hfold⟩ := h
    obtain ⟨n, a, visited₁, -, hleft⟩ := left_of_fold hfold
    exact absurd ⟨a, n + 1, visited, visited₁, hleft⟩ (hname ⟨2, 0, 2, 0⟩ .load)
  | _ :: _ :: done, hws =>
    exact absurd (congrArg List.length hws) (by simp [accumulatedWrites])

theorem textHeld_accumulated : TextHeld (· + ·) accumulatedWrites (fun _ => none)
    (collectStatements Execution.plainHost none "m:global" false {} accumulated) "m:global" 3 "q" := by
  refine textHeld_of_inOrder (· + ·) Execution.plainHost "m:global" (by decide) accumulated accumulatedWrites
    ⟨rfl, by simp [accumulatedWrites, assignWrite, addWrite], by simp [accumulatedWrites, assignWrite, addWrite]⟩
    (fun _ => none) 3 (by decide) "q"
    ⟨accumulated_writesInOrder, by simp [accumulatedWrites, assignWrite, addWrite], .inr (.inl fun r hr => ?_)⟩
  have hrecords : (collectStatements Execution.plainHost none "m:global" false {} accumulated).assignmentRecords
      "q" "m:global" 3 = [⟨"q", .constant {} (.str "a"), 1, "m:global", false⟩,
        ⟨"q", (addWrite 2 "q" (.str "b")).value, 2, "m:global", false⟩] := rfl
  rw [hrecords, List.tail_cons] at hr
  rw [List.mem_singleton.mp hr]
  rfl

end TimeCodeSecurity.Scanner
