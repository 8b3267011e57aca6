import Mathlib.Data.Fintype.Card

/-! # Breadth-first search up to a depth

A queue of nodes with the path that led to each. A node whose path is too long is dropped, the target is
reported each time it is met, and any other node is put into the queue once. The target is found if and
only if some walk of at most `bound` steps leads to it.
-/
namespace TimeCodeSecurity.BoundedSearch
set_option autoImplicit false

variable {α : Type} [DecidableEq α] (adj : α → List α) (target : α) (bound : ℕ)

structure State (α : Type) where
  results : List (List α) := []
  queue : List (α × List α)
  visited : List α := []

/-- One neighbour of the node that `path` ends in. -/
def meet (path : List α) (s : State α) (nxt : α) : State α :=
  if nxt = target then { s with results := s.results ++ [path ++ [nxt]] }
  else if nxt ∉ path ∧ nxt ∉ s.visited then
    { s with visited := nxt :: s.visited, queue := s.queue ++ [(nxt, path ++ [nxt])] }
  else s

def expand (s : State α) (node : α) (path : List α) : State α :=
  if bound < path.length then s else (adj node).foldl (meet target path) s

def search : ℕ → State α → State α
  | 0, s => s
  | fuel + 1, s =>
    match s.queue with
    | [] => s
    | (node, path) :: rest => search fuel (expand adj target bound { s with queue := rest } node path)

/-- All paths found from `root`; the fuel is the number of nodes and one. -/
def pathsFrom (size : ℕ) (root : α) : List (List α) :=
  (search adj target bound (size + 1) { queue := [(root, [root])] }).results

/-- A walk of `n` steps. -/
def Walk : ℕ → α → α → Prop
  | 0, a, b => a = b
  | n + 1, a, b => ∃ c, Walk n a c ∧ b ∈ adj c

def Avoiding : ℕ → α → α → Prop
  | 0, a, b => a = b
  | n + 1, a, b => ∃ c, Avoiding n a c ∧ b ∈ adj c ∧ b ≠ target

omit [DecidableEq α] in
theorem Walk.first {root : α} {n : ℕ} {a : α} (h : Walk adj n root a) :
    Avoiding adj target n root a ∨
      ∃ m < n, ∃ c, Avoiding adj target m root c ∧ target ∈ adj c := by
  induction n generalizing a with
  | zero => exact .inl h
  | succ n ih =>
    obtain ⟨c, hc, ha⟩ := h
    rcases ih hc with hav | ⟨m, hm, d, hd, ht⟩
    · by_cases hat : a = target
      · exact .inr ⟨n, by omega, c, hav, hat ▸ ha⟩
      · exact .inl ⟨c, hav, ha, hat⟩
    · exact .inr ⟨m, by omega, d, hd, ht⟩

omit [DecidableEq α] in
theorem Avoiding.ne_target {root : α} (hroot : root ≠ target) {n : ℕ} {a : α}
    (h : Avoiding adj target n root a) : a ≠ target := by
  cases n with
  | zero => exact h ▸ hroot
  | succ n =>
    obtain ⟨c, _, _, ha⟩ := h
    exact ha

/-! ## One node -/

/-- What meeting the neighbours `ns` of the end of `path` does. -/
structure Met (path : List α) (ns : List α) (s s' : State α) : Prop where
  fresh : ∃ new : List (α × List α), s'.queue = s.queue ++ new ∧
    s'.visited = (new.map Prod.fst).reverse ++ s.visited ∧
    ∀ e ∈ new, e.1 ∈ ns ∧ e.1 ≠ target ∧ e.1 ∉ path ∧ e.1 ∉ s.visited ∧ e.2 = path ++ [e.1]
  covered : ∀ y ∈ ns, y = target ∨ y ∈ path ∨ y ∈ s'.visited
  results : s'.results ≠ [] ↔ s.results ≠ [] ∨ target ∈ ns
  nodup : s.visited.Nodup → s'.visited.Nodup

omit [DecidableEq α] in
variable {target} in
theorem Met.grows {path ns : List α} {s s' : State α} (h : Met target path ns s s') {y : α}
    (hy : y ∈ s.visited) : y ∈ s'.visited := by
  obtain ⟨new, _, hv, _⟩ := h.fresh
  exact hv ▸ List.mem_append_right _ hy

omit [DecidableEq α] in
variable {target} in
theorem Met.queue_grows {path ns : List α} {s s' : State α} (h : Met target path ns s s') {e : α × List α}
    (he : e ∈ s.queue) : e ∈ s'.queue := by
  obtain ⟨new, hq, _⟩ := h.fresh
  exact hq ▸ List.mem_append_left _ he

structure Fresh (path ns : List α) (s s' : State α) (e : α × List α) : Prop where
  neighbour : e.1 ∈ ns
  off_path : e.1 ∉ path
  unvisited : e.1 ∉ s.visited
  visited : e.1 ∈ s'.visited
  path_eq : e.2 = path ++ [e.1]

omit [DecidableEq α] in
theorem Fresh.length_path {path ns : List α} {s s' : State α} {e : α × List α} (h : Fresh path ns s s' e) :
    e.2.length = path.length + 1 := by
  rw [h.path_eq, List.length_append, List.length_singleton]

omit [DecidableEq α] in
variable {target} in
theorem Met.queue_eq {path ns : List α} {s s' : State α} (h : Met target path ns s s') :
    ∃ new, s'.queue = s.queue ++ new ∧ ∀ e ∈ new, Fresh path ns s s' e := by
  obtain ⟨new, hq, hv, hnew⟩ := h.fresh
  refine ⟨new, hq, fun e he => ?_⟩
  obtain ⟨hns, -, hpath, hold, heq⟩ := hnew e he
  refine ⟨hns, hpath, hold, ?_, heq⟩
  rw [hv, List.mem_append, List.mem_reverse]
  exact .inl (List.mem_map_of_mem he)

omit [DecidableEq α] in
variable {target} in
theorem Met.queue_cases {path ns : List α} {s s' : State α} (h : Met target path ns s s') {e : α × List α}
    (he : e ∈ s'.queue) : e ∈ s.queue ∨ Fresh path ns s s' e := by
  obtain ⟨new, hq, hnew⟩ := h.queue_eq
  rw [hq, List.mem_append] at he
  exact he.imp_right (hnew e)

omit [DecidableEq α] in
variable {target} in
theorem Met.visited_cases {path ns : List α} {s s' : State α} (h : Met target path ns s s') {x : α}
    (hx : x ∈ s'.visited) : x ∈ s.visited ∨ x ∈ ns ∧ x ∈ s'.queue.map Prod.fst := by
  obtain ⟨new, hq, hv, hnew⟩ := h.fresh
  rw [hv, List.mem_append, List.mem_reverse] at hx
  rcases hx with hx | hx
  · obtain ⟨e, he, rfl⟩ := List.mem_map.mp hx
    refine .inr ⟨(hnew e he).1, List.mem_map_of_mem ?_⟩
    exact hq ▸ List.mem_append_right _ he
  · exact .inl hx

theorem met_foldl (path ns : List α) (s : State α) :
    Met target path ns s (ns.foldl (meet target path) s) := by
  induction ns generalizing s with
  | nil => exact ⟨⟨[], by simp⟩, by simp, by simp, id⟩
  | cons y ns ih =>
    have h := ih (meet target path s y)
    rw [List.foldl_cons]
    by_cases hyt : y = target
    · have hm : meet target path s y = { s with results := s.results ++ [path ++ [y]] } := by
        rw [meet, if_pos hyt]
      rw [hm] at h ⊢
      obtain ⟨new, hq, hv, hnew⟩ := h.fresh
      refine ⟨⟨new, hq, hv, fun e he => ?_⟩, ?_, ?_, ?_⟩
      · obtain ⟨h₁, h₂⟩ := hnew e he
        exact ⟨List.mem_cons_of_mem _ h₁, h₂⟩
      · intro z hz
        rcases List.mem_cons.mp hz with rfl | hz
        · exact .inl hyt
        · exact h.covered z hz
      · rw [h.results]
        simp [hyt]
      · exact h.nodup
    · by_cases hnew : y ∉ path ∧ y ∉ s.visited
      · have hm : meet target path s y =
            { s with visited := y :: s.visited, queue := s.queue ++ [(y, path ++ [y])] } := by
          rw [meet, if_neg hyt, if_pos hnew]
        rw [hm] at h ⊢
        obtain ⟨new, hq, hv, hall⟩ := h.fresh
        refine ⟨⟨(y, path ++ [y]) :: new, by rw [hq]; simp, by rw [hv]; simp, ?_⟩, ?_, ?_, ?_⟩
        · intro e he
          rcases List.mem_cons.mp he with rfl | he
          · exact ⟨List.mem_cons_self, hyt, hnew.1, hnew.2, rfl⟩
          · obtain ⟨h₁, h₂, h₃, h₄, h₅⟩ := hall e he
            exact ⟨List.mem_cons_of_mem _ h₁, h₂, h₃, fun hs => h₄ (List.mem_cons_of_mem _ hs), h₅⟩
        · intro z hz
          rcases List.mem_cons.mp hz with rfl | hz
          · exact .inr (.inr (h.grows List.mem_cons_self))
          · exact h.covered z hz
        · rw [h.results]
          simp [Ne.symm hyt]
        · exact fun hs => h.nodup (List.nodup_cons.mpr ⟨hnew.2, hs⟩)
      · have hm : meet target path s y = s := by rw [meet, if_neg hyt, if_neg hnew]
        rw [hm] at h ⊢
        obtain ⟨new, hq, hv, hall⟩ := h.fresh
        refine ⟨⟨new, hq, hv, fun e he => ?_⟩, ?_, ?_, h.nodup⟩
        · obtain ⟨h₁, h₂⟩ := hall e he
          exact ⟨List.mem_cons_of_mem _ h₁, h₂⟩
        · intro z hz
          rcases List.mem_cons.mp hz with rfl | hz
          · by_cases hp : z ∈ path
            · exact .inr (.inl hp)
            · exact .inr (.inr (h.grows (by_contra fun hs => hnew ⟨hp, hs⟩)))
          · exact h.covered z hz
        · rw [h.results]
          simp [Ne.symm hyt]

variable (root : α)

def Seen (s : State α) (x : α) : Prop := x = root ∨ x ∈ s.visited

/-- All neighbours of `x` are dealt with. -/
def Expanded (s : State α) (x : α) : Prop :=
  (∀ y ∈ adj x, y = target ∨ Seen root s y) ∧ (target ∈ adj x → s.results ≠ [])

structure Inv (s : State α) : Prop where
  walks : ∀ e ∈ s.queue, root ∈ e.2 ∧ Walk adj (e.2.length - 1) root e.1
  seen : ∀ e ∈ s.queue, Seen root s e.1 ∧ ∀ y ∈ e.2, Seen root s y
  ordered : s.queue.Pairwise fun a b => a.2.length ≤ b.2.length ∧ b.2.length ≤ a.2.length + 1
  shortest : ∀ e ∈ s.queue, ∀ n, Avoiding adj target n root e.1 → e.2.length ≤ n + 1
  settled : ∀ x, Seen root s x → x ∈ s.queue.map Prod.fst ∨ Expanded adj target root s x ∨
    ∀ n < bound, ¬ Avoiding adj target n root x
  sound : s.results ≠ [] → ∃ n ≤ bound, Walk adj n root target
  nodup : s.visited.Nodup
  images : ∀ y ∈ s.visited, ∃ x, y ∈ adj x

omit [DecidableEq α] in
theorem Inv.start : Inv adj target bound root { queue := [(root, [root])] } where
  walks e he := by
    obtain rfl := List.mem_singleton.mp he
    exact ⟨by simp, rfl⟩
  seen e he := by
    obtain rfl := List.mem_singleton.mp he
    exact ⟨.inl rfl, fun y hy => .inl (List.mem_singleton.mp hy)⟩
  ordered := List.pairwise_singleton _ _
  shortest e he n _ := by
    obtain rfl := List.mem_singleton.mp he
    simp
  settled x hx := by
    rcases hx with rfl | hx
    · exact .inl (by simp)
    · simp at hx
  sound h := (h rfl).elim
  nodup := List.nodup_nil
  images y hy := by simp at hy

variable {adj target bound root}

omit [DecidableEq α] in
theorem Inv.waiting {s : State α} (h : Inv adj target bound root s) {n : ℕ} {x : α}
    (hav : Avoiding adj target n root x) (hn : n ≤ bound) :
    Seen root s x ∨ ∃ e ∈ s.queue, e.2.length ≤ n := by
  induction n generalizing x with
  | zero => exact .inl (.inl hav.symm)
  | succ n ih =>
    obtain ⟨c, hc, hx, hxt⟩ := hav
    rcases ih hc (by omega) with hseen | ⟨e, he, hle⟩
    · rcases h.settled c hseen with hq | hexp | hfar
      · obtain ⟨e, he, rfl⟩ := List.mem_map.mp hq
        exact .inr ⟨e, he, h.shortest e he n hc⟩
      · exact .inl ((hexp.1 x hx).resolve_left hxt)
      · exact (hfar n (by omega) hc).elim
    · exact .inr ⟨e, he, by omega⟩

/-! ## One step of the search -/

section
variable {s s' : State α} {node : α} {path : List α} {rest : List (α × List α)}

omit [DecidableEq α] in
theorem Seen.grows {ns : List α} (hmet : Met target path ns { s with queue := rest } s') {x : α}
    (hx : Seen root s x) : Seen root s' x := hx.imp_right hmet.grows

omit [DecidableEq α] in
theorem Inv.drop (h : Inv adj target bound root s) (hq : s.queue = (node, path) :: rest)
    (hlong : bound < path.length) : Inv adj target bound root { s with queue := rest } := by
  have hin : (node, path) ∈ s.queue := hq ▸ List.mem_cons_self
  have hsub : ∀ e ∈ rest, e ∈ s.queue := fun e he => hq ▸ List.mem_cons_of_mem _ he
  have hord := h.ordered
  rw [hq, List.pairwise_cons] at hord
  refine ⟨fun e he => h.walks e (hsub e he), fun e he => h.seen e (hsub e he), hord.2,
    fun e he => h.shortest e (hsub e he), fun x hx => ?_, h.sound, h.nodup, h.images⟩
  rcases h.settled x hx with hx | hx
  · rw [hq, List.map_cons, List.mem_cons] at hx
    rcases hx with rfl | hx
    · refine .inr (.inr fun n hn hav => ?_)
      have := h.shortest _ hin n hav
      simp only at this
      omega
    · exact .inl hx
  · exact .inr hx

variable (h : Inv adj target bound root s) (hq : s.queue = (node, path) :: rest)
include h hq

omit [DecidableEq α] in
theorem Inv.ordered_rest : (∀ e ∈ rest, path.length ≤ e.2.length ∧ e.2.length ≤ path.length + 1) ∧
    rest.Pairwise fun a b => a.2.length ≤ b.2.length ∧ b.2.length ≤ a.2.length + 1 := by
  have hord := h.ordered
  rwa [hq, List.pairwise_cons] at hord

variable (hmet : Met target path (adj node) { s with queue := rest } s')
include hmet

omit [DecidableEq α] in
theorem Inv.walks_met : ∀ e ∈ s'.queue, root ∈ e.2 ∧ Walk adj (e.2.length - 1) root e.1 := by
  obtain ⟨hroot, hwalk⟩ := h.walks (node, path) (hq ▸ List.mem_cons_self)
  have hpos : 0 < path.length := List.length_pos_of_mem hroot
  intro e he
  rcases hmet.queue_cases he with he | hnew
  · exact h.walks e (hq ▸ List.mem_cons_of_mem _ he)
  · refine ⟨hnew.path_eq ▸ List.mem_append_left _ hroot, ?_⟩
    have hn : e.2.length - 1 = (path.length - 1) + 1 := by
      have := hnew.length_path
      omega
    exact hn ▸ ⟨node, hwalk, hnew.neighbour⟩

omit [DecidableEq α] in
theorem Inv.seen_met : ∀ e ∈ s'.queue, Seen root s' e.1 ∧ ∀ y ∈ e.2, Seen root s' y := by
  intro e he
  rcases hmet.queue_cases he with he | hnew
  · obtain ⟨hown, hpath⟩ := h.seen e (hq ▸ List.mem_cons_of_mem _ he)
    exact ⟨hown.grows hmet, fun y hy => (hpath y hy).grows hmet⟩
  · refine ⟨.inr hnew.visited, fun y hy => ?_⟩
    rw [hnew.path_eq, List.mem_append, List.mem_singleton] at hy
    rcases hy with hy | rfl
    · exact ((h.seen (node, path) (hq ▸ List.mem_cons_self)).2 y hy).grows hmet
    · exact .inr hnew.visited

omit [DecidableEq α] in
theorem Inv.ordered_met :
    s'.queue.Pairwise fun a b => a.2.length ≤ b.2.length ∧ b.2.length ≤ a.2.length + 1 := by
  obtain ⟨hfirst, hrest⟩ := h.ordered_rest hq
  obtain ⟨new, hqueue, hnew⟩ := hmet.queue_eq
  rw [hqueue, List.pairwise_append]
  refine ⟨hrest, List.pairwise_of_forall_mem_list fun a ha b hb => ?_, fun a ha b hb => ?_⟩
  · rw [(hnew a ha).length_path, (hnew b hb).length_path]
    omega
  · have := hfirst a ha
    rw [(hnew b hb).length_path]
    omega

omit [DecidableEq α] in
theorem Inv.shortest_met (hshort : path.length ≤ bound) :
    ∀ e ∈ s'.queue, ∀ n, Avoiding adj target n root e.1 → e.2.length ≤ n + 1 := by
  intro e he n hav
  rcases hmet.queue_cases he with he | hnew
  · exact h.shortest e (hq ▸ List.mem_cons_of_mem _ he) n hav
  · rw [hnew.length_path]
    -- A shorter walk would have left a node in the queue before this one.
    by_contra hlt
    rcases h.waiting hav (by omega) with hs | ⟨e', he', hle⟩
    · rcases hs with hs | hs
      · exact hnew.off_path (hs ▸ (h.walks (node, path) (hq ▸ List.mem_cons_self)).1)
      · exact hnew.unvisited hs
    · rw [hq, List.mem_cons] at he'
      rcases he' with rfl | he'
      · simp only at hle
        omega
      · have := (h.ordered_rest hq).1 e' he'
        omega

omit [DecidableEq α] in
theorem Inv.settled_met : ∀ x, Seen root s' x → x ∈ s'.queue.map Prod.fst ∨ Expanded adj target root s' x ∨
    ∀ n < bound, ¬ Avoiding adj target n root x := by
  have hin : (node, path) ∈ s.queue := hq ▸ List.mem_cons_self
  intro x hx
  have hold : Seen root s x ∨ x ∈ s'.queue.map Prod.fst := by
    rcases hx with rfl | hx
    · exact .inl (.inl rfl)
    · exact (hmet.visited_cases hx).imp .inr And.right
  rcases hold with hold | hold
  · rcases h.settled x hold with hx | hx | hx
    · rw [hq, List.map_cons, List.mem_cons] at hx
      rcases hx with rfl | hx
      · refine .inr (.inl ⟨fun y hy => ?_, fun ht => hmet.results.mpr (.inr ht)⟩)
        rcases hmet.covered y hy with hy | hy | hy
        · exact .inl hy
        · exact .inr (((h.seen _ hin).2 y hy).grows hmet)
        · exact .inr (.inr hy)
      · obtain ⟨e, he, rfl⟩ := List.mem_map.mp hx
        exact .inl (List.mem_map_of_mem (hmet.queue_grows he))
    · exact .inr (.inl ⟨fun y hy => (hx.1 y hy).imp_right fun hy => hy.grows hmet,
        fun ht => hmet.results.mpr (.inl (hx.2 ht))⟩)
    · exact .inr (.inr hx)
  · exact .inl hold

omit [DecidableEq α] in
theorem Inv.met (hshort : path.length ≤ bound) : Inv adj target bound root s' where
  walks := h.walks_met hq hmet
  seen := h.seen_met hq hmet
  ordered := h.ordered_met hq hmet
  shortest := h.shortest_met hq hmet hshort
  settled := h.settled_met hq hmet
  sound hres := by
    rcases hmet.results.mp hres with hres | ht
    · exact h.sound hres
    · obtain ⟨hroot, hwalk⟩ := h.walks (node, path) (hq ▸ List.mem_cons_self)
      have hpos : 0 < path.length := List.length_pos_of_mem hroot
      have hn : path.length = (path.length - 1) + 1 := by omega
      exact ⟨path.length, hshort, hn ▸ ⟨node, hwalk, ht⟩⟩
  nodup := hmet.nodup h.nodup
  images y hy := by
    rcases hmet.visited_cases hy with hy | ⟨hy, -⟩
    · exact h.images y hy
    · exact ⟨node, hy⟩

end

theorem Inv.expand {s : State α} {node : α} {path : List α} {rest : List (α × List α)}
    (h : Inv adj target bound root s) (hq : s.queue = (node, path) :: rest) :
    Inv adj target bound root (expand adj target bound { s with queue := rest } node path) := by
  rw [BoundedSearch.expand]
  split
  next hlong => exact h.drop hq (by omega)
  next hshort => exact h.met hq (met_foldl target path (adj node) { s with queue := rest }) (by omega)

/-- No list of different neighbours is longer than `size`. -/
def Bounded (adj : α → List α) (size : ℕ) : Prop :=
  ∀ l : List α, l.Nodup → (∀ y ∈ l, ∃ x, y ∈ adj x) → l.length ≤ size

theorem Inv.search {size : ℕ} (hsize : Bounded adj size) (fuel : ℕ) {s : State α}
    (h : Inv adj target bound root s)
    (hfuel : s.queue.length + (size - s.visited.length) ≤ fuel) :
    Inv adj target bound root (search adj target bound fuel s) ∧
      (search adj target bound fuel s).queue = [] := by
  induction fuel generalizing s with
  | zero =>
    rw [BoundedSearch.search]
    exact ⟨h, List.length_eq_zero_iff.mp (by omega)⟩
  | succ fuel ih =>
    rw [BoundedSearch.search]
    split
    next hq => exact ⟨h, hq⟩
    next node path rest hq =>
      have hinv := h.expand hq
      refine ih hinv ?_
      have hbound := hsize _ hinv.nodup hinv.images
      rw [hq, List.length_cons] at hfuel
      rw [BoundedSearch.expand] at hbound ⊢
      split at hbound
      next hlong =>
        rw [if_pos hlong]
        simp only
        omega
      next hshort =>
        rw [if_neg hshort]
        obtain ⟨new, hqueue, hvisited, -⟩ := (met_foldl target path (adj node)
          { s with queue := rest }).fresh
        rw [hvisited] at hbound
        rw [hqueue, hvisited]
        simp only [List.length_append, List.length_reverse, List.length_map] at hbound ⊢
        omega

theorem pathsFrom_ne_nil_iff {size : ℕ} (hsize : Bounded adj size) (hne : root ≠ target) :
    pathsFrom adj target bound size root ≠ [] ↔ ∃ n ≤ bound, Walk adj n root target := by
  obtain ⟨hinv, hempty⟩ := (Inv.start adj target bound root).search hsize (size + 1) (by
    simp only [List.length_singleton, List.length_nil]
    omega)
  rw [pathsFrom]
  constructor
  · exact hinv.sound
  · rintro ⟨n, hn, hwalk⟩
    rcases hwalk.first adj target with hav | ⟨m, hm, c, hc, ht⟩
    · exact (hav.ne_target adj target hne rfl).elim
    · rcases hinv.waiting hc (by omega) with hs | ⟨e, he, -⟩
      · rcases hinv.settled c hs with hq | hexp | hfar
        · simp [hempty] at hq
        · exact hexp.2 ht
        · exact (hfar m (by omega) hc).elim
      · simp [hempty] at he

end TimeCodeSecurity.BoundedSearch
