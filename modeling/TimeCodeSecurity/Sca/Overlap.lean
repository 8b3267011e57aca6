import TimeCodeSecurity.Foundations.Pep440

/-! # Interval overlap of the version matcher

`version_matcher.py`, the part that compares one specifier set with one interval of an advisory:
reading OSV events into intervals, interval membership, the outer bounds of a specifier set, and the
three-valued classification built from them.
-/
namespace TimeCodeSecurity.Sca
open Pep440
set_option autoImplicit false

/-- One entry of an event list. Entries that are no mappings are skipped by the reader. -/
inductive RawEvent
  | dict (fields : List (String × String))
  | other
deriving DecidableEq, Repr

/-- The keys of an interval dictionary that the matcher reads. -/
structure Interval where
  introduced : Option String := none
  fixed : Option String := none
  lastAffected : Option String := none
  limit : Option String := none
deriving DecidableEq, Repr

def stripText (s : String) : String := String.ofList (strip s.toList)

structure IntervalScan where
  intervals : List Interval := []
  current : Interval := {}
deriving DecidableEq, Repr

def IntervalScan.close (st : IntervalScan) (i : Interval) : IntervalScan :=
  { intervals := st.intervals ++ [i], current := {} }

def IntervalScan.event (st : IntervalScan) : RawEvent → IntervalScan
  | .other => st
  | .dict fields =>
    match fields.lookup "introduced" with
    | some x =>
      let st := if st.current.introduced.isSome then st.close st.current else st
      { st with current := { st.current with introduced := some (stripText x) } }
    | none =>
      match fields.lookup "fixed" with
      | some x => st.close { st.current with fixed := some (stripText x) }
      | none =>
        match fields.lookup "last_affected" with
        | some x => st.close { st.current with lastAffected := some (stripText x) }
        | none =>
          match fields.lookup "limit" with
          | some x => st.close { st.current with limit := some (stripText x) }
          | none => st

def extractIntervalsFromEvents (events : List RawEvent) : List Interval :=
  let st := events.foldl IntervalScan.event {}
  if st.current = {} then st.intervals else st.intervals ++ [st.current]

def formatIntervalRange (i : Interval) : String :=
  let parts := (i.introduced.map (">=" ++ ·)).toList ++ (i.fixed.map ("<" ++ ·)).toList ++
    (i.lastAffected.map ("<=" ++ ·)).toList
  if parts = [] then "any" else ", ".intercalate parts

def safeParseVersion (s : String) : Option Version :=
  if s = "" then none else parse (stripText s)

def boundVersion (s : Option String) : Option Version := s.bind safeParseVersion

def isVersionInInterval (v : Version) (i : Interval) : Bool :=
  !(boundVersion i.introduced).any (fun b => decide (v.key < b.key)) &&
  !(boundVersion i.fixed).any (fun b => decide (b.key ≤ v.key)) &&
  !(boundVersion i.lastAffected).any (fun b => decide (b.key < v.key)) &&
  !(boundVersion i.limit).any (fun b => decide (b.key ≤ v.key))

abbrev Bound := Version × Bool

structure OuterBounds where
  lower : Option Bound := none
  upper : Option Bound := none
deriving DecidableEq, Repr

def updateBound (inclusive : Bool) (replaces : Version → Bound → Bool) (v : Version) :
    Option Bound → Bound
  | none => (v, inclusive)
  | some b => if replaces v b then (v, inclusive) else b

def lowerGe : Version → Option Bound → Bound :=
  updateBound true fun v b => decide (b.1.key < v.key) || (decide (v.key = b.1.key) && !b.2)

def lowerGt : Version → Option Bound → Bound :=
  updateBound false fun v b => decide (b.1.key ≤ v.key)

def lowerEq : Version → Option Bound → Bound :=
  updateBound true fun v b => decide (b.1.key < v.key)

def upperLe : Version → Option Bound → Bound :=
  updateBound true fun v b => decide (v.key < b.1.key) || (decide (v.key = b.1.key) && !b.2)

def upperLt : Version → Option Bound → Bound :=
  updateBound false fun v b => decide (v.key ≤ b.1.key)

def upperEq : Version → Option Bound → Bound :=
  updateBound true fun v b => decide (v.key < b.1.key)

def upperBump : Version → Option Bound → Bound :=
  updateBound false fun v b => decide (v.key < b.1.key) || (decide (v.key = b.1.key) && b.2)

/-- `[int(p) for p in text.split(".") if p.isdigit()]`. -/
def digitParts (text : List Char) : List ℕ :=
  ((text.splitOn '.').filter fun p => p ≠ [] && p.all Char.isDigit).map readNat

def bumpLast (ns : List ℕ) : List ℕ := ns.dropLast ++ (ns.getLast?.map (· + 1)).toList

def dottedVersion (ns : List ℕ) : Option Version :=
  safeParseVersion (String.ofList (showDotted ns))

def OuterBounds.withLower (b : OuterBounds) (f : Version → Option Bound → Bound)
    (v : Option Version) : OuterBounds :=
  match v with
  | some v => { b with lower := some (f v b.lower) }
  | none => b

def OuterBounds.withUpper (b : OuterBounds) (f : Version → Option Bound → Bound)
    (v : Option Version) : OuterBounds :=
  match v with
  | some v => { b with upper := some (f v b.upper) }
  | none => b

/-- The version above every match of `==prefix.*`, when `prefix` has a numeric component. -/
def wildcardHigh (pre : List Char) : Option Version :=
  if digitParts pre = [] then none else dottedVersion (bumpLast (digitParts pre))

/-- The version above every match of `~=text`, when `text` has two numeric components. -/
def compatibleHigh (text : String) : Option Version :=
  let parts := digitParts text.toList
  if 2 ≤ parts.length then dottedVersion (bumpLast parts.dropLast) else none

def OuterBounds.clause (b : OuterBounds) (c : Clause) : OuterBounds :=
  match c.operator with
  | .ge => b.withLower lowerGe (safeParseVersion c.version)
  | .gt => b.withLower lowerGt (safeParseVersion c.version)
  | .le => b.withUpper upperLe (safeParseVersion c.version)
  | .lt => b.withUpper upperLt (safeParseVersion c.version)
  | .eq =>
    match wildcardPrefix c.version with
    | some p =>
      let pre := stripText p
      (b.withLower lowerEq (safeParseVersion pre)).withUpper upperBump (wildcardHigh pre.toList)
    | none =>
      (b.withLower lowerEq (safeParseVersion c.version)).withUpper upperEq
        (safeParseVersion c.version)
  | .compatible =>
    match safeParseVersion c.version with
    | some v =>
      (b.withLower lowerEq (some v)).withUpper upperBump (compatibleHigh c.version)
    | none => b
  | .ne => b
  | .arbitrary => b

def getSpecifierOuterBounds (S : SpecifierSet) : OuterBounds := S.foldl OuterBounds.clause {}

/-! ## Classification -/

inductive OverlapState
  | provenOverlap | provenDisjoint | unresolved
deriving DecidableEq, Repr

structure IntervalEnds where
  introduced : Option Version
  fixed : Option Version
  lastAffected : Option Version
  limit : Option Version

def unreadableBound (s : Option String) : Bool :=
  s.any fun t => t ≠ "" && (safeParseVersion t).isNone

def Interval.unreadable (i : Interval) : Bool :=
  unreadableBound i.introduced || unreadableBound i.fixed || unreadableBound i.lastAffected ||
    unreadableBound i.limit

def Interval.ends (i : Interval) : IntervalEnds :=
  { introduced := boundVersion i.introduced, fixed := boundVersion i.fixed,
    lastAffected := boundVersion i.lastAffected, limit := boundVersion i.limit }

/-- A clause the bounds cannot be computed for: `===`, or a text that is no version. -/
def unsupportedClause (c : Clause) : Bool :=
  c.operator == .arbitrary ||
    ((wildcardPrefix c.version).isNone && (safeParseVersion c.version).isNone)

def OuterBounds.unsatisfiable (b : OuterBounds) : Bool :=
  match b.lower, b.upper with
  | some (low, lowInc), some (up, upInc) =>
    decide (up.key < low.key) || (decide (low.key = up.key) && !(lowInc && upInc))
  | _, _ => false

def belowInterval (upper : Option Bound) (introduced : Option Version) : Bool :=
  match upper, introduced with
  | some (up, inc), some intro =>
    decide (up.key < intro.key) || (decide (up.key = intro.key) && !inc)
  | _, _ => false

/-- The lower bound of the set lies at or above an exclusive end (`fixed`, `limit`). -/
def aboveExclusiveEnd (lower : Option Bound) (stop : Option Version) : Bool :=
  match lower, stop with
  | some (low, inc), some e =>
    decide (e.key < low.key) || (decide (low.key = e.key) && inc)
  | _, _ => false

/-- The lower bound of the set lies above an inclusive end (`last_affected`). -/
def aboveInclusiveEnd (lower : Option Bound) (stop : Option Version) : Bool :=
  match lower, stop with
  | some (low, inc), some e =>
    decide (e.key < low.key) || (decide (low.key = e.key) && !inc)
  | _, _ => false

def separated (b : OuterBounds) (e : IntervalEnds) : Bool :=
  belowInterval b.upper e.introduced || aboveExclusiveEnd b.lower e.fixed ||
    aboveInclusiveEnd b.lower e.lastAffected || aboveExclusiveEnd b.lower e.limit

/-- The probing grid. A non-zero epoch makes `int(parts[0])` raise, which empties the grid. -/
def probingGrid (start : Version) : List Version :=
  if start.epoch ≠ 0 then []
  else
    let grid : List (List ℕ) :=
      match start.release with
      | maj :: mnr :: patch :: _ =>
        [[maj, mnr, 0], [maj, mnr, patch + 1], [maj, mnr, patch + 2], [maj, mnr, patch + 5],
          [maj, mnr + 1, 0], [maj + 1, 0, 0]]
      | [maj, mnr] =>
        [[maj, mnr, 0], [maj, mnr, 1], [maj, mnr, 5], [maj, mnr + 1, 0], [maj + 1, 0, 0]]
      | _ => []
    grid.filterMap fun ns => parse (String.ofList (showDotted ns))

/-- `text.rstrip(".*")`. -/
def rstripWildcard (text : String) : String :=
  String.ofList ((text.toList.reverse.dropWhile fun c => c = '.' || c = '*').reverse)

def candidates (S : SpecifierSet) (b : OuterBounds) (e : IntervalEnds)
    (explicitVersions : List String) : List Version :=
  explicitVersions.filterMap safeParseVersion ++ e.introduced.toList ++ e.lastAffected.toList ++
    (b.lower.map Prod.fst).toList ++ S.filterMap (fun c => safeParseVersion (rstripWildcard c.version)) ++
    ((e.introduced.orElse fun _ => (b.lower.map Prod.fst).orElse fun _ => parse "0.0.1").elim []
      probingGrid)

def classifyIntervalOverlap (allowPre : SpecifierSet → Bool) (S : SpecifierSet) (i : Interval)
    (explicitVersions : List String) : OverlapState × Option String :=
  if i.unreadable then (.unresolved, none)
  else if S.any unsupportedClause then (.unresolved, none)
  else
    let b := getSpecifierOuterBounds S
    let e := i.ends
    if b.unsatisfiable then (.provenDisjoint, none)
    else if separated b e then (.provenDisjoint, none)
    else
      match e.introduced, e.lastAffected with
      | some intro, some last =>
        if intro.key = last.key then
          if SpecifierSet.contains allowPre S intro then
            (.provenOverlap, some ("==" ++ i.introduced.getD ""))
          else (.provenDisjoint, none)
        else probe b e
      | _, _ => probe b e
where
  /-- Overlap is reported for a concrete common version only. -/
  probe (b : OuterBounds) (e : IntervalEnds) : OverlapState × Option String :=
    if (candidates S b e explicitVersions).any fun v =>
        SpecifierSet.contains allowPre S v && isVersionInInterval v i then
      (.provenOverlap, some (formatIntervalRange i))
    else (.unresolved, some (formatIntervalRange i))

end TimeCodeSecurity.Sca
