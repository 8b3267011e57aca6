import Mathlib.Data.List.Basic

/-! # Layouts

A node is printed as its own texts with the nodes it holds in between. Cutting a print at a node leaves
the text before it, the node and the text behind it. Changing a node that no other node notices changes
the print inside the cut only.
-/
namespace TimeCodeSecurity.Layout
set_option autoImplicit false

inductive Piece (N : Type)
  | text (t : String)
  | node (n : N)

variable {N : Type}

def Piece.map (g : N → N) : Piece N → Piece N
  | .text t => .text t
  | .node n => .node (g n)

/-- The texts of the pieces, with `f` for the nodes. -/
def joinPieces (f : N → String) : List (Piece N) → String
  | [] => ""
  | .text t :: ps => t ++ joinPieces f ps
  | .node n :: ps => f n ++ joinPieces f ps

variable (pieces : N → List (Piece N))

def render : ℕ → N → String
  | 0, _ => ""
  | depth + 1, n => joinPieces (render depth) (pieces n)

def cut : ℕ → N → List ℕ → Option (String × N × String)
  | _, n, [] => some ("", n, "")
  | 0, _, _ :: _ => none
  | depth + 1, n, i :: path =>
    match (pieces n)[i]? with
    | some (.node m) => (cut depth m path).map fun c =>
      (joinPieces (render pieces depth) ((pieces n).take i) ++ c.1, c.2.1,
        c.2.2 ++ joinPieces (render pieces depth) ((pieces n).drop (i + 1)))
    | _ => none

def nodeAt : N → List ℕ → Option N
  | n, [] => some n
  | n, i :: path =>
    match (pieces n)[i]? with
    | some (.node m) => nodeAt m path
    | _ => none

theorem joinPieces_append (f : N → String) (ps qs : List (Piece N)) :
    joinPieces f (ps ++ qs) = joinPieces f ps ++ joinPieces f qs := by
  induction ps with
  | nil => simp [joinPieces]
  | cons p ps ih => cases p <;> simp [joinPieces, ih, String.append_assoc]

theorem joinPieces_congr {f f' : N → String} {ps : List (Piece N)}
    (h : ∀ m, .node m ∈ ps → f m = f' m) : joinPieces f ps = joinPieces f' ps := by
  induction ps with
  | nil => rfl
  | cons p ps ih =>
    have htail := ih fun m hm => h m (List.mem_cons_of_mem p hm)
    cases p with
    | text t => rw [joinPieces, joinPieces, htail]
    | node m => rw [joinPieces, joinPieces, htail, h m List.mem_cons_self]

variable {pieces}

theorem cut_cons_eq_some {depth i : ℕ} {n m : N} {path : List ℕ} {before behind : String}
    (h : cut pieces depth n (i :: path) = some (before, m, behind)) :
    ∃ depth' m' b a, depth = depth' + 1 ∧ (pieces n)[i]? = some (.node m') ∧
      cut pieces depth' m' path = some (b, m, a) ∧
      before = joinPieces (render pieces depth') ((pieces n).take i) ++ b ∧
      behind = a ++ joinPieces (render pieces depth') ((pieces n).drop (i + 1)) := by
  cases depth with
  | zero => cases h
  | succ depth =>
    rw [cut] at h
    split at h
    · rename_i m' hi
      obtain ⟨⟨b, x, a⟩, hc, heq⟩ := Option.map_eq_some_iff.mp h
      simp only [Prod.mk.injEq] at heq
      obtain ⟨rfl, rfl, rfl⟩ := heq
      exact ⟨depth, m', b, a, rfl, hi, hc, rfl, rfl⟩
    · cases h

theorem render_of_cut {depth : ℕ} {n m : N} {path : List ℕ} {before behind : String}
    (h : cut pieces depth n path = some (before, m, behind)) :
    render pieces depth n = before ++ render pieces (depth - path.length) m ++ behind := by
  induction path generalizing depth n before behind with
  | nil =>
    simp only [cut, Option.some.injEq, Prod.mk.injEq] at h
    obtain ⟨rfl, rfl, rfl⟩ := h
    simp
  | cons i path ih =>
    obtain ⟨depth, m', b, a, rfl, hi, hc, rfl, rfl⟩ := cut_cons_eq_some h
    have hrest := ih hc
    have hsplit : pieces n = (pieces n).take i ++ .node m' :: (pieces n).drop (i + 1) := by
      obtain ⟨hlt, hget⟩ := List.getElem?_eq_some_iff.mp hi
      rw [← hget, List.getElem_cons_drop, List.take_append_drop]
    have hdepth : depth + 1 - (i :: path).length = depth - path.length := by
      rw [List.length_cons]
      omega
    calc render pieces (depth + 1) n
        = joinPieces (render pieces depth) ((pieces n).take i) ++
            (render pieces depth m' ++
              joinPieces (render pieces depth) ((pieces n).drop (i + 1))) := by
          rw [render]
          conv_lhs => rw [hsplit, joinPieces_append, joinPieces]
      _ = _ := by
          rw [hrest, hdepth]
          simp only [String.append_assoc]

def Keeps (pieces : N → List (Piece N)) (g : N → N) (n : N) : Prop :=
  pieces (g n) = (pieces n).map (Piece.map g)

section
variable {g : N → N}

theorem joinPieces_map {f f' : N → String} {ps : List (Piece N)}
    (h : ∀ m, .node m ∈ ps → f (g m) = f' m) :
    joinPieces f (ps.map (Piece.map g)) = joinPieces f' ps := by
  induction ps with
  | nil => rfl
  | cons p ps ih =>
    have htail := ih fun m hm => h m (List.mem_cons_of_mem p hm)
    cases p with
    | text t => rw [List.map_cons, Piece.map, joinPieces, joinPieces, htail]
    | node m => rw [List.map_cons, Piece.map, joinPieces, joinPieces, htail, h m List.mem_cons_self]

theorem nodeAt_of_mem {n m : N} (h : .node m ∈ pieces n) :
    ∃ i : ℕ, ∀ path, nodeAt pieces n (i :: path) = nodeAt pieces m path := by
  obtain ⟨i, hi⟩ := List.getElem?_of_mem h
  exact ⟨i, fun path => by rw [nodeAt, hi]⟩

theorem render_change {n : N} (depth : ℕ)
    (h : ∀ path m, nodeAt pieces n path = some m → Keeps pieces g m) :
    render pieces depth (g n) = render pieces depth n := by
  induction depth generalizing n with
  | zero => rfl
  | succ depth ih =>
    have hn : pieces (g n) = (pieces n).map (Piece.map g) := h [] n rfl
    rw [render, render, hn]
    refine joinPieces_map fun m hm => ih fun path m' hm' => ?_
    obtain ⟨i, hi⟩ := nodeAt_of_mem hm
    exact h (i :: path) m' ((hi path).trans hm')

theorem cut_change {depth : ℕ} {n m : N} {path : List ℕ} {before behind : String}
    (h : cut pieces depth n path = some (before, m, behind))
    (hkeeps : ∀ path' m', nodeAt pieces n path' = some m' → path' ≠ path →
      Keeps pieces g m') :
    cut pieces depth (g n) path = some (before, g m, behind) := by
  induction path generalizing depth n before behind with
  | nil =>
    simp only [cut, Option.some.injEq, Prod.mk.injEq] at h ⊢
    exact ⟨h.1, congrArg g h.2.1, h.2.2⟩
  | cons i path ih =>
    obtain ⟨depth, m', b, a, rfl, hi, hc, rfl, rfl⟩ := cut_cons_eq_some h
    have hn : pieces (g n) = (pieces n).map (Piece.map g) :=
      hkeeps [] n rfl (List.cons_ne_nil _ _).symm
    have hrest := ih hc fun path' x' hx' hne =>
      hkeeps (i :: path') x' (by rw [nodeAt, hi]; exact hx') fun heq => hne (List.cons.inj heq).2
    -- the pieces beside the one on the path
    have hside : ∀ ps : List (Piece N), (∀ m, .node m ∈ ps → ∃ j ≠ i, (pieces n)[j]? = some (.node m)) →
        joinPieces (render pieces depth) (ps.map (Piece.map g)) =
          joinPieces (render pieces depth) ps := by
      intro ps hps
      refine joinPieces_map fun x hx => render_change depth fun path' x' hx' => ?_
      obtain ⟨j, hj, hget⟩ := hps x hx
      refine hkeeps (j :: path') x' (by rw [nodeAt, hget]; exact hx') fun heq => ?_
      exact hj (List.cons.inj heq).1
    rw [cut, hn, List.getElem?_map, hi]
    simp only [Option.map_some, Piece.map, hrest, ← List.map_take, ← List.map_drop]
    rw [hside, hside]
    · intro x hx
      obtain ⟨j, hj, hget⟩ := List.mem_iff_getElem.mp hx
      rw [List.length_drop] at hj
      refine ⟨i + 1 + j, by omega, ?_⟩
      rw [List.getElem_drop] at hget
      rw [← hget, List.getElem?_eq_getElem]
    · intro x hx
      obtain ⟨j, hj, hget⟩ := List.mem_iff_getElem.mp hx
      rw [List.length_take] at hj
      refine ⟨j, by omega, ?_⟩
      rw [List.getElem_take] at hget
      rw [← hget, List.getElem?_eq_getElem]

end

section
variable {size : N → ℕ} (hsize : ∀ n m, .node m ∈ pieces n → size m < size n)
include hsize

theorem render_stable {n : N} {depth depth' : ℕ} (h : size n < depth) (h' : size n < depth') :
    render pieces depth n = render pieces depth' n := by
  induction depth generalizing n depth' with
  | zero => omega
  | succ depth ih =>
    cases depth' with
    | zero => omega
    | succ depth' =>
      rw [render, render]
      refine joinPieces_congr fun m hm => ?_
      have hlt := hsize n m hm
      exact ih (by omega) (by omega)

theorem cut_stable {n : N} {depth depth' : ℕ} (h : size n < depth) (h' : size n < depth')
    (path : List ℕ) : cut pieces depth n path = cut pieces depth' n path := by
  induction path generalizing n depth depth' with
  | nil => cases depth <;> cases depth' <;> rfl
  | cons i path ih =>
    cases depth with
    | zero => omega
    | succ depth =>
      cases depth' with
      | zero => omega
      | succ depth' =>
        rw [cut, cut]
        split
        · rename_i m hi
          have hlt := hsize n m (List.mem_of_getElem? hi)
          have hjoin : ∀ ps : List (Piece N), ps ⊆ pieces n →
              joinPieces (render pieces depth) ps = joinPieces (render pieces depth') ps := by
            intro ps hps
            refine joinPieces_congr fun x hx => ?_
            have hx := hsize n x (hps hx)
            exact render_stable hsize (by omega) (by omega)
          have hcut : cut pieces depth m path = cut pieces depth' m path := ih (by omega) (by omega)
          rw [hcut, hjoin _ (List.take_subset _ _),
            hjoin _ (List.drop_subset _ _)]
        · rfl

theorem cut_of_nodeAt {n m : N} {depth : ℕ} (h : size n < depth) {path : List ℕ}
    (hm : nodeAt pieces n path = some m) :
    ∃ before behind, cut pieces depth n path = some (before, m, behind) := by
  induction path generalizing n depth with
  | nil =>
    obtain rfl := Option.some.inj hm
    exact ⟨"", "", by cases depth <;> rfl⟩
  | cons i path ih =>
    cases depth with
    | zero => omega
    | succ depth =>
      rw [nodeAt] at hm
      split at hm
      · rename_i m' hi
        have hlt := hsize n m' (List.mem_of_getElem? hi)
        have hdepth : size m' < depth := by omega
        obtain ⟨before, behind, hcut⟩ := ih hdepth hm
        refine ⟨joinPieces (render pieces depth) ((pieces n).take i) ++ before,
          behind ++ joinPieces (render pieces depth) ((pieces n).drop (i + 1)), ?_⟩
        simp only [cut, hi, hcut, Option.map_some]
      · cases hm

end

end TimeCodeSecurity.Layout
