import TimeCodeSecurity.Foundations.Separators

/-! # POSIX path names

A path name is an absolute or relative sequence of components; empty components and `.` are no part of
it. Two names that agree in this name the same file in every file system.
-/
namespace TimeCodeSecurity.PosixPath
set_option autoImplicit false

abbrev Text : Type := List Char

def names (c : Text) : Bool := c ≠ [] && c ≠ ['.']

def components (t : Text) : List Text := (t.splitOn '/').filter names

def absolute (t : Text) : Bool := t.head? = some '/'

def denotes (t : Text) : Bool × List Text := (absolute t, components t)

/-- A slash can be written behind it without a change: `path.endswith("/")`, or no path at all. -/
def Closed (t : Text) : Prop := t = [] ∨ t.getLast? = some '/'

instance (t : Text) : Decidable (Closed t) := inferInstanceAs (Decidable (_ ∨ _))

/-- `posixpath.join(a, b)`. -/
def join (a b : Text) : Text :=
  if absolute b then b else if Closed a then a ++ b else a ++ '/' :: b

/-- A name without `.`, empty components and slashes at its end, as `pathlib` prints it. -/
def plain (t : Text) : Text :=
  if absolute t = false ∧ components t = [] then ['.']
  else (if absolute t then ['/'] else []) ++ ['/'].intercalate (components t)

structure Benign (t : Text) : Prop where
  relative : absolute t = false
  noDot : ['.'] ∉ t.splitOn '/'
  noDotDot : ['.', '.'] ∉ t.splitOn '/'

theorem components_slash (a b : Text) : components (a ++ '/' :: b) = components a ++ components b := by
  simp only [components]
  rw [List.splitOn_append_cons_self, List.filter_append]

@[simp] theorem components_nil : components [] = [] := rfl

theorem components_single {c : Text} (h : '/' ∉ c) : components c = if names c then [c] else [] := by
  rw [components, List.splitOn_eq_singleton h]
  by_cases hc : names c <;> simp [hc]

theorem closed_or_cut (a : Text) :
    Closed a ∨ ∃ c, c ≠ [] ∧ '/' ∉ c ∧ (a = c ∨ ∃ front, a = front ++ '/' :: c) := by
  induction a with
  | nil => exact .inl (.inl rfl)
  | cons x a ih =>
    rcases ih with (rfl | hlast) | ⟨c, hne, hc, hcut⟩
    · by_cases hx : x = '/'
      · exact .inl (.inr (by simp [hx]))
      · exact .inr ⟨[x], by simp, by simpa using Ne.symm hx, .inl rfl⟩
    · exact .inl (.inr (by rw [List.getLast?_cons, hlast]; rfl))
    · refine .inr ?_
      rcases hcut with rfl | ⟨front, rfl⟩
      · by_cases hx : x = '/'
        · exact ⟨a, hne, hc, .inr ⟨[], by simp [hx]⟩⟩
        · exact ⟨x :: a, by simp, by simp [hc, Ne.symm hx], .inl rfl⟩
      · exact ⟨c, hne, hc, .inr ⟨x :: front, rfl⟩⟩

theorem head_cut (b : Text) : ∃ d, '/' ∉ d ∧ (b = d ∨ ∃ rest, b = d ++ '/' :: rest) := by
  induction b with
  | nil => exact ⟨[], by simp, .inl rfl⟩
  | cons x b ih =>
    by_cases hx : x = '/'
    · exact ⟨[], by simp, .inr ⟨b, by simp [hx]⟩⟩
    · obtain ⟨d, hd, hcut⟩ := ih
      refine ⟨x :: d, by simp [hd, Ne.symm hx], ?_⟩
      rcases hcut with rfl | ⟨rest, rfl⟩
      · exact .inl rfl
      · exact .inr ⟨rest, rfl⟩

theorem components_closed {a : Text} (h : Closed a) (b : Text) :
    components (a ++ b) = components a ++ components b := by
  rcases h with rfl | hlast
  · rfl
  · obtain ⟨front, rfl⟩ := List.getLast?_eq_some_iff.mp hlast
    rw [List.append_assoc, List.singleton_append, components_slash, components_slash, components_nil,
      List.append_nil]

theorem absolute_append {a : Text} (ha : a ≠ []) (b : Text) : absolute (a ++ b) = absolute a := by
  cases a with
  | nil => exact absurd rfl ha
  | cons x a => rfl

theorem join_relative {a b : Text} (h : absolute b = false) :
    denotes (join a b) = (absolute a, components a ++ components b) := by
  unfold join denotes
  rw [h, if_neg Bool.false_ne_true]
  by_cases hc : Closed a
  · rw [if_pos hc, components_closed hc]
    by_cases ha : a = []
    · rw [ha, List.nil_append, h]
      rfl
    · rw [absolute_append ha]
  · have ha : a ≠ [] := fun ha => hc (.inl ha)
    rw [if_neg hc, components_slash, absolute_append ha]

theorem absolute_join {a b : Text} (h : absolute (join a b) = false) : absolute a = false ∧ absolute b = false := by
  by_cases hb : absolute b = true
  · rw [join, if_pos hb, hb] at h
    cases h
  · have hb := Bool.eq_false_iff.mpr hb
    have hjoin := congrArg Prod.fst (join_relative (a := a) hb)
    exact ⟨hjoin.symm.trans h, hb⟩

theorem slash_not_mem {t c : Text} (h : c ∈ components t) : '/' ∉ c :=
  Separators.not_mem_of_mem_splitOn (List.mem_of_mem_filter h)

theorem components_intercalate (t : Text) :
    components (['/'].intercalate (components t)) = components t := by
  by_cases hnil : components t = []
  · rw [hnil]
    rfl
  · rw [components, List.splitOn_intercalate '/' (fun c hc => slash_not_mem hc) hnil]
    exact List.filter_eq_self.mpr fun c hc => List.of_mem_filter hc

theorem absolute_intercalate (t : Text) (h : components t ≠ []) :
    absolute (['/'].intercalate (components t)) = false := by
  obtain ⟨c, rest, hcs⟩ := List.exists_cons_of_ne_nil h
  have hc : c ∈ components t := by simp [hcs]
  have hne : c ≠ [] := by
    have hnames := List.of_mem_filter hc
    simp only [names, Bool.and_eq_true, decide_eq_true_eq] at hnames
    exact hnames.1
  obtain ⟨x, c', rfl⟩ := List.exists_cons_of_ne_nil hne
  have hx : x ≠ '/' := fun hx => slash_not_mem hc (by simp [hx])
  rw [hcs]
  cases rest <;> simp [absolute, List.intercalate, hx]

theorem denotes_plain (t : Text) : denotes (plain t) = denotes t := by
  unfold plain
  split_ifs with hempty habs
  · rw [denotes, denotes, hempty.1, hempty.2]
    decide
  · rw [denotes, denotes, habs, List.singleton_append, ← List.nil_append ('/' :: _), components_slash,
      components_intercalate]
    rfl
  · have hne : components t ≠ [] := fun h => hempty ⟨Bool.eq_false_iff.mpr habs, h⟩
    rw [List.nil_append, denotes, components_intercalate, absolute_intercalate t hne, denotes,
      Bool.eq_false_iff.mpr habs]

theorem absolute_plain (t : Text) : absolute (plain t) = absolute t := congrArg Prod.fst (denotes_plain t)

theorem components_plain (t : Text) : components (plain t) = components t :=
  congrArg Prod.snd (denotes_plain t)

theorem components_merged {c d : Text} (hc : '/' ∉ c) (hd : '/' ∉ d) (hne : c ≠ []) (hd' : d ≠ [])
    (hdot : d ≠ ['.']) : components (c ++ d) = [c ++ d] ∧ components (c ++ d) ≠ components c ++ components d := by
  have hboth : '/' ∉ c ++ d := by simp [hc, hd]
  have hlength : 2 ≤ (c ++ d).length := by
    rw [List.length_append]
    have := List.length_pos_iff.mpr hne
    have := List.length_pos_iff.mpr hd'
    omega
  have hnames : names (c ++ d) = true := by
    have hlong : c ++ d ≠ ['.'] := fun h => by
      rw [h] at hlength
      exact absurd hlength (by decide)
    simp [names, hne, hlong]
  have hnd : names d = true := by simp [names, hd', hdot]
  rw [components_single hboth, if_pos hnames, components_single hc, components_single hd, if_pos hnd]
  refine ⟨rfl, fun h => ?_⟩
  split_ifs at h with hnc
  · exact absurd (congrArg List.length h) (by simp)
  · exact hne (by simpa using h)

theorem denotes_append_iff {a b : Text} (hb : Benign b) :
    denotes (a ++ b) = (absolute a, components a ++ components b) ↔ Closed a ∨ b = [] := by
  constructor
  · intro h
    by_contra hopen
    obtain ⟨hclosed, hne⟩ := not_or.mp hopen
    obtain ⟨c, hcne, hc, hcut⟩ := (closed_or_cut a).resolve_left hclosed
    obtain ⟨d, hd, hcut'⟩ := head_cut b
    have hdne : d ≠ [] := by
      rintro rfl
      rcases hcut' with rfl | ⟨rest, rfl⟩
      · exact hne rfl
      · exact absurd hb.relative (by simp [absolute])
    have hdot : d ≠ ['.'] := by
      rintro rfl
      refine hb.noDot ?_
      rcases hcut' with rfl | ⟨rest, rfl⟩
      · decide
      · rw [List.splitOn_append_cons_self]
        exact List.mem_append_left _ (by decide)
    have hmerged := (components_merged hc hd hcne hdne hdot).2
    -- What stands around the two components is the same on both sides.
    obtain ⟨front, hfront⟩ : ∃ front, ∀ t, components (a ++ t) = front ++ components (c ++ t) := by
      rcases hcut with rfl | ⟨front, rfl⟩
      · exact ⟨[], fun _ => rfl⟩
      · refine ⟨components front, fun t => ?_⟩
        rw [List.append_assoc, List.cons_append, components_slash]
    obtain ⟨back, hback⟩ : ∃ back, ∀ t, components (t ++ b) = components (t ++ d) ++ back := by
      rcases hcut' with rfl | ⟨rest, rfl⟩
      · exact ⟨[], fun t => (List.append_nil _).symm⟩
      · refine ⟨components rest, fun t => ?_⟩
        rw [← List.append_assoc, components_slash]
    have ha := hfront []
    have hb' := hback []
    rw [List.append_nil, List.append_nil] at ha
    rw [List.nil_append, List.nil_append] at hb'
    have hcomponents := congrArg Prod.snd h
    simp only [denotes] at hcomponents
    rw [hfront, hback, ha, hb', List.append_assoc, ← List.append_assoc (components c)] at hcomponents
    exact hmerged (List.append_cancel_right (List.append_cancel_left hcomponents))
  · rintro (hclosed | rfl)
    · rw [denotes, components_closed hclosed]
      by_cases ha : a = []
      · rw [ha, List.nil_append, hb.relative]
        rfl
      · rw [absolute_append ha]
    · rw [List.append_nil, components_nil, List.append_nil]
      rfl

end TimeCodeSecurity.PosixPath
