import Mathlib.Data.List.TakeWhile

/-! # The pieces of a URL

`urllib.parse.urlsplit` and the host and the port of a netloc. Lowering beyond ASCII is a parameter, and so are the
checks of a netloc that differ between the versions of the library.
-/
namespace TimeCodeSecurity.UrlSplit
set_option autoImplicit false

structure Library where
  lower : List Char → List Char
  lower_nil : lower [] = []
  /-- Lowering brings in no ASCII character but letters. -/
  lower_mem : ∀ t, ∀ c ∈ lower t, c ∈ t ∨ 128 ≤ c.toNat ∨ c.isAlpha
  /-- Why a netloc is refused, for the address in its brackets or for what normalization makes of it. -/
  refusal : List Char → Option String

structure Pieces where
  scheme : List Char
  netloc : List Char
  path : List Char
  query : List Char
deriving DecidableEq, Repr

/-- What stands in front of the first `c`, and behind it. -/
def before (c : Char) (t : List Char) : List Char := t.takeWhile (· ≠ c)

def behind (c : Char) (t : List Char) : List Char := (t.dropWhile (· ≠ c)).tail

def isSchemeChar (c : Char) : Bool := c.isAlphanum || c ∈ ['+', '-', '.']

def inNetloc (c : Char) : Bool := c ≠ '/' && c ≠ '?' && c ≠ '#'

section
variable (L : Library)

def splitScheme (url : List Char) : List Char × List Char :=
  let head := before ':' url
  if ':' ∈ url ∧ head.head?.any Char.isAlpha ∧ head.all isSchemeChar then (L.lower head, behind ':' url)
  else ([], url)

def splitNetloc (url : List Char) : List Char × List Char :=
  if url.take 2 = ['/', '/'] then ((url.drop 2).takeWhile inNetloc, (url.drop 2).dropWhile inNetloc)
  else ([], url)

def refused (netloc : List Char) : Option String :=
  if decide ('[' ∈ netloc) ≠ decide (']' ∈ netloc) then some "Invalid IPv6 URL" else L.refusal netloc

/-- `urlsplit`, without the fragment. -/
def urlsplit (url : List Char) : Except String Pieces :=
  let url := (url.dropWhile (·.toNat ≤ 32)).filter fun c => c ∉ ['\t', '\r', '\n']
  let (scheme, url) := splitScheme L url
  let (netloc, url) := splitNetloc url
  let url := before '#' url
  match refused L netloc with
  | some text => .error text
  | none => .ok { scheme, netloc, path := before '?' url, query := behind '?' url }

def userInfo (netloc : List Char) : Option (List Char) :=
  if '@' ∈ netloc then some ((netloc.reverse.dropWhile (· ≠ '@')).tail.reverse) else none

def username (netloc : List Char) : Option (List Char) := (userInfo netloc).map (before ':')

def password (netloc : List Char) : Option (List Char) :=
  (userInfo netloc).bind fun info => if ':' ∈ info then some (behind ':' info) else none

def hostInfo (netloc : List Char) : List Char × List Char :=
  let info := (netloc.reverse.takeWhile (· ≠ '@')).reverse
  if '[' ∈ info then
    let bracketed := behind '[' info
    (before ']' bracketed, behind ':' (behind ']' bracketed))
  else (before ':' info, behind ':' info)

def hostname (netloc : List Char) : Option (List Char) :=
  let host := (hostInfo netloc).1
  if host = [] then none else some (L.lower (before '%' host) ++ host.dropWhile (· ≠ '%'))

def port (netloc : List Char) : Except String (Option ℕ) :=
  let text := (hostInfo netloc).2
  if text = [] then .ok none
  else if text.all Char.isDigit then
    let n := Nat.ofDigitChars 10 text 0
    if n ≤ 65535 then .ok (some n) else .error "Port out of range 0-65535"
  else .error "Port could not be cast to integer value"

end

/-! ## What the pieces are made of -/

section
variable {L : Library} {c d : Char} {t url netloc : List Char} {p : Pieces}

theorem mem_before (h : d ∈ before c t) : d ∈ t := (List.takeWhile_subset _) h

theorem not_mem_before : c ∉ before c t := fun h => by simpa using List.mem_takeWhile_imp h

theorem mem_behind (h : d ∈ behind c t) : d ∈ t := (List.dropWhile_subset _) (List.mem_of_mem_tail h)

theorem mem_of_mem_lower (hascii : d.toNat < 128) (halpha : d.isAlpha = false) (h : d ∈ L.lower t) : d ∈ t := by
  rcases L.lower_mem t d h with h | h | h
  · exact h
  · omega
  · rw [halpha] at h
    cases h

theorem colon_not_mem_scheme (url : List Char) : ':' ∉ (splitScheme L url).1 := by
  unfold splitScheme
  dsimp only
  split
  · exact fun h => not_mem_before (mem_of_mem_lower (by decide) (by decide) h)
  · exact List.not_mem_nil

theorem inNetloc_of_mem (url : List Char) (h : c ∈ (splitNetloc url).1) : inNetloc c = true := by
  unfold splitNetloc at h
  split at h
  · exact List.mem_takeWhile_imp h
  · cases h

theorem head?_before (h : d ∈ (before c t).head?) : d ∈ t.head? ∧ d ≠ c := by
  have hmem : d ∈ before c t := List.mem_of_mem_head? h
  refine ⟨?_, fun hdc => not_mem_before (hdc ▸ hmem)⟩
  cases t with
  | nil => exact h
  | cons e t =>
    unfold before at h
    rw [List.takeWhile_cons] at h
    split at h
    · exact h
    · cases h

theorem rooted_of_splitNetloc (url : List Char) : (splitNetloc url).1 = [] ∨
    ∀ c ∈ (before '?' (before '#' (splitNetloc url).2)).head?, c = '/' := by
  unfold splitNetloc
  split
  · right
    intro c hc
    obtain ⟨hc, hquery⟩ := head?_before hc
    obtain ⟨hc, hfragment⟩ := head?_before hc
    have hend : inNetloc c = false := by
      have hnot := List.head?_dropWhile_not inNetloc (url.drop 2)
      rwa [hc] at hnot
    simpa [inNetloc, hquery, hfragment] using hend
  · exact .inl rfl

theorem urlsplit_eq_ok (h : urlsplit L url = .ok p) : ∃ rest, p.scheme = (splitScheme L rest).1 ∧
    p.netloc = (splitNetloc (splitScheme L rest).2).1 ∧
    p.path = before '?' (before '#' (splitNetloc (splitScheme L rest).2).2) := by
  unfold urlsplit at h
  dsimp only at h
  split at h
  · cases h
  · cases h
    exact ⟨_, rfl, rfl, rfl⟩

structure Pieces.Shaped (p : Pieces) : Prop where
  scheme : ':' ∉ p.scheme
  netloc : '/' ∉ p.netloc ∧ '?' ∉ p.netloc
  path : '?' ∉ p.path
  rooted : p.netloc = [] ∨ ∀ c ∈ p.path.head?, c = '/'

theorem shaped_of_urlsplit (h : urlsplit L url = .ok p) : p.Shaped := by
  obtain ⟨rest, hscheme, hnetloc, hpath⟩ := urlsplit_eq_ok h
  refine ⟨?_, ⟨fun hmem => ?_, fun hmem => ?_⟩, ?_, ?_⟩
  · rw [hscheme]
    exact colon_not_mem_scheme rest
  · rw [hnetloc] at hmem
    exact absurd (inNetloc_of_mem _ hmem) (by decide)
  · rw [hnetloc] at hmem
    exact absurd (inNetloc_of_mem _ hmem) (by decide)
  · rw [hpath]
    exact not_mem_before
  · rw [hnetloc, hpath]
    exact rooted_of_splitNetloc _

theorem mem_hostInfo (h : c ∈ (hostInfo netloc).1) : c ∈ netloc := by
  have hinfo : ∀ {d}, d ∈ (netloc.reverse.takeWhile (· ≠ '@')).reverse → d ∈ netloc := fun hd =>
    List.mem_reverse.mp (List.takeWhile_subset _ (List.mem_reverse.mp hd))
  unfold hostInfo at h
  dsimp only at h
  split at h
  · exact hinfo (mem_behind (mem_before h))
  · exact hinfo (mem_before h)

theorem mem_of_mem_hostname (hascii : c.toNat < 128) (halpha : c.isAlpha = false)
    (h : c ∈ (hostname L netloc).getD []) : c ∈ netloc := by
  unfold hostname at h
  dsimp only at h
  split at h
  · cases h
  · rcases List.mem_append.mp h with h | h
    · exact mem_hostInfo (mem_before (mem_of_mem_lower hascii halpha h))
    · exact mem_hostInfo (List.dropWhile_subset _ h)

theorem hostname_nil : hostname L [] = none := rfl

theorem port_nil : port [] = .ok none := rfl

end

end TimeCodeSecurity.UrlSplit
