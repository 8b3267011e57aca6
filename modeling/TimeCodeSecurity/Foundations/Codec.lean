import Mathlib.Data.Rat.Init
import Mathlib.Data.List.Nodup

/-! # Values written as plain data and read back

Plain data is what dictionaries of a dynamic language hold. A codec writes a type as plain data and reads
it back; that what it has written can be read is part of it. A record is a list of fields, each read with
a codec of its own.
-/
namespace TimeCodeSecurity
set_option autoImplicit false

inductive Plain
  | null
  | bool (b : Bool)
  | num (q : ℚ)
  | str (s : String)
  | list (items : List Plain)
  | dict (fields : List (String × Plain))

structure Codec (α : Type) where
  write : α → Plain
  read : Plain → Option α
  read_write : ∀ a, read (write a) = some a

namespace Codec

variable {α : Type}

def bool : Codec Bool where
  write := .bool
  read
    | .bool b => some b
    | _ => none
  read_write _ := rfl

def num : Codec ℚ where
  write := .num
  read
    | .num q => some q
    | _ => none
  read_write _ := rfl

def nat : Codec ℕ where
  write n := .num n
  read
    | .num q => if q.den = 1 ∧ 0 ≤ q.num then some q.num.toNat else none
    | _ => none
  read_write n := by simp

def str : Codec String where
  write := .str
  read
    | .str s => some s
    | _ => none
  read_write _ := rfl

def opt (c : Codec α) (h : ∀ a, c.write a ≠ .null) : Codec (Option α) where
  write
    | none => .null
    | some a => c.write a
  read
    | .null => some none
    | p => (c.read p).map some
  read_write
    | none => rfl
    | some a => by
      have hread := c.read_write a
      have hnull := h a
      cases hp : c.write a with
      | null => exact absurd hp hnull
      | _ =>
        rw [hp] at hread
        simp only [hp, hread, Option.map_some]

def list (c : Codec α) : Codec (List α) where
  write as := .list (as.map c.write)
  read
    | .list items => items.mapM c.read
    | _ => none
  read_write as := by
    induction as with
    | nil => rfl
    | cons a as ih =>
      have htail : (as.map c.write).mapM c.read = some as := ih
      show ((c.write a :: as.map c.write).mapM c.read) = some (a :: as)
      rw [List.mapM_cons, c.read_write, htail]
      rfl

def enum (text : α → String) (ofText : String → Option α) (h : ∀ a, ofText (text a) = some a) :
    Codec α where
  write a := .str (text a)
  read
    | .str s => ofText s
    | _ => none
  read_write := h

end Codec

abbrev Fields := List (String × Plain)

/-- `d.get(key, default)`. -/
def Fields.get {α : Type} (d : Fields) (c : Codec α) (key : String) (default : α) : Option α :=
  match d.lookup key with
  | some p => c.read p
  | none => some default

theorem Fields.get_of_lookup {α : Type} {d : Fields} {c : Codec α} {key : String} {default a : α}
    (h : d.lookup key = some (c.write a)) : d.get c key default = some a := by
  rw [Fields.get, h]
  exact c.read_write a

theorem Fields.get_bind {α β : Type} {d : Fields} {c : Codec α} {key : String} {default a : α}
    {rest : α → Option β} (h : d.lookup key = some (c.write a)) :
    (d.get c key default >>= rest) = rest a := by
  rw [Fields.get_of_lookup h]
  rfl

end TimeCodeSecurity

/-! ## Calls and signatures

How Python binds the arguments of a call to the parameters of a callee: positional arguments in order, the
others by name, each parameter once, and none of the required ones left out.
-/
namespace TimeCodeSecurity.Signatures

structure Param where
  name : String
  required : Bool := true
  /-- Whether the parameter can be given by its name. -/
  named : Bool := true
deriving DecidableEq, Repr

def withDefault (name : String) : Param := { name, required := false }

structure Signature where
  positional : List Param
  keywordOnly : List Param := []
deriving DecidableEq, Repr

namespace Signature

variable (sig : Signature)

def byName (n : ℕ) : List String := (((sig.positional.drop n).filter Param.named) ++ sig.keywordOnly).map Param.name

def owed (n : ℕ) : List String := ((sig.positional.drop n ++ sig.keywordOnly).filter Param.required).map Param.name

end Signature

section
variable {V : Type}

structure Accepts (sig : Signature) (ok : String → V → Bool) (args : List V) (keywords : List (String × V)) : Prop where
  arity : args.length ≤ sig.positional.length
  distinct : (keywords.map Prod.fst).Nodup
  known : ∀ x ∈ keywords.map Prod.fst, x ∈ sig.byName args.length
  given : ∀ x ∈ sig.owed args.length, x ∈ keywords.map Prod.fst
  positional : ∀ p ∈ (sig.positional.map Param.name).zip args, ok p.1 p.2 = true
  keyword : ∀ k ∈ keywords, ok k.1 k.2 = true

instance (sig : Signature) (ok : String → V → Bool) (args : List V) (keywords : List (String × V)) :
    Decidable (Accepts sig ok args keywords) :=
  decidable_of_iff
    ((args.length ≤ sig.positional.length ∧ (keywords.map Prod.fst).Nodup) ∧
      ((∀ x ∈ keywords.map Prod.fst, x ∈ sig.byName args.length) ∧
        ∀ x ∈ sig.owed args.length, x ∈ keywords.map Prod.fst) ∧
      (∀ p ∈ (sig.positional.map Param.name).zip args, ok p.1 p.2 = true) ∧ ∀ k ∈ keywords, ok k.1 k.2 = true)
    ⟨fun ⟨⟨h₁, h₂⟩, ⟨h₃, h₄⟩, h₅, h₆⟩ => ⟨h₁, h₂, h₃, h₄, h₅, h₆⟩,
      fun h => ⟨⟨h.arity, h.distinct⟩, ⟨h.known, h.given⟩, h.positional, h.keyword⟩⟩

namespace Accepts

variable {sig : Signature} {ok : String → V → Bool} {args : List V} {keywords : List (String × V)}

theorem not_mem (h : Accepts sig ok args keywords) {x : String} (hx : x ∉ sig.byName args.length) :
    x ∉ keywords.map Prod.fst := fun hmem => hx (h.known x hmem)

theorem eq_nil (h : Accepts sig ok args keywords) (hopen : sig.byName args.length = []) : keywords = [] := by
  cases keywords with
  | nil => rfl
  | cons k ks =>
    have hmem := h.known k.1 List.mem_cons_self
    rw [hopen] at hmem
    cases hmem

end Accepts

end

end TimeCodeSecurity.Signatures
