import Mathlib.Algebra.Order.BigOperators.Group.List
import Mathlib.Algebra.Order.Ring.Nat

/-! # JSON values and their text

The text of a value with an indentation, as an encoder writes it that escapes everything outside printable
ASCII, and its length. Each item of a list and each field of an object costs its own text and a fixed
frame; whatever takes items away makes the text shorter.
-/
namespace TimeCodeSecurity
set_option autoImplicit false

/-- A float is kept by its text. -/
inductive Json
  | null
  | bool (b : Bool)
  | int (n : ℤ)
  | float (repr : String)
  | str (s : String)
  | arr (items : List Json)
  | obj (fields : List (String × Json))

namespace Json

abbrev JsonFields := List (String × Json)

def get? (key : String) (fs : JsonFields) : Option Json := (fs.find? (·.1 = key)).map Prod.snd

def field? (key : String) : Json → Option Json
  | .obj fs => get? key fs
  | _ => none

def hexDigits (n : ℕ) : List Char :=
  let digits := Nat.toDigits 16 n
  List.replicate (4 - digits.length) '0' ++ digits

def unicodeEscape (n : ℕ) : List Char := '\\' :: 'u' :: hexDigits n

def escapeChar (c : Char) : List Char :=
  if c = '"' then ['\\', '"']
  else if c = '\\' then ['\\', '\\']
  else if c = '\n' then ['\\', 'n']
  else if c = '\r' then ['\\', 'r']
  else if c = '\t' then ['\\', 't']
  else if c.toNat = 8 then ['\\', 'b']
  else if c.toNat = 12 then ['\\', 'f']
  else if 32 ≤ c.toNat ∧ c.toNat ≤ 126 then [c]
  else if c.toNat < 65536 then unicodeEscape c.toNat
  else
    -- a surrogate pair
    unicodeEscape (55296 + (c.toNat - 65536) / 1024) ++ unicodeEscape (56320 + (c.toNat - 65536) % 1024)

def quoted (s : String) : List Char := '"' :: (s.toList.flatMap escapeChar ++ ['"'])

/-- A new line at depth `d`. -/
def newline (indent d : ℕ) : List Char := '\n' :: List.replicate (indent * d) ' '

mutual

/-- `json.dumps(value, indent=indent)` at depth `d`. -/
def dumps (indent d : ℕ) : Json → List Char
  | .null => "null".toList
  | .bool true => "true".toList
  | .bool false => "false".toList
  | .int n => (toString n).toList
  | .float repr => repr.toList
  | .str s => quoted s
  | .arr [] => ['[', ']']
  | .arr (x :: xs) =>
    '[' :: (newline indent (d + 1) ++ (dumps indent (d + 1) x ++
      (dumpsItems indent (d + 1) xs ++ (newline indent d ++ [']']))))
  | .obj [] => ['\x7b', '\x7d']
  | .obj ((k, v) :: fs) =>
    '\x7b' :: (newline indent (d + 1) ++ (quoted k ++ (':' :: ' ' :: (dumps indent (d + 1) v ++
      (dumpsFields indent (d + 1) fs ++ (newline indent d ++ ['\x7d']))))))

def dumpsItems (indent d : ℕ) : List Json → List Char
  | [] => []
  | x :: xs => ',' :: (newline indent d ++ (dumps indent d x ++ dumpsItems indent d xs))

def dumpsFields (indent d : ℕ) : JsonFields → List Char
  | [] => []
  | (k, v) :: fs =>
    ',' :: (newline indent d ++ (quoted k ++ (':' :: ' ' :: (dumps indent d v ++ dumpsFields indent d fs))))

end

def size (indent d : ℕ) (j : Json) : ℕ := (dumps indent d j).length

/-- What an item costs inside a list at depth `d`. -/
def itemCost (indent d : ℕ) (j : Json) : ℕ := 2 + indent * d + size indent d j

def fieldCost (indent d : ℕ) (f : String × Json) : ℕ :=
  4 + indent * d + (quoted f.1).length + size indent d f.2

def itemsCost (indent d : ℕ) (xs : List Json) : ℕ := (xs.map (itemCost indent d)).sum

def fieldsCost (indent d : ℕ) (fs : JsonFields) : ℕ := (fs.map (fieldCost indent d)).sum

@[simp] theorem length_newline (indent d : ℕ) : (newline indent d).length = 1 + indent * d := by
  simp [newline, Nat.add_comm]

theorem length_dumpsItems (indent d : ℕ) (xs : List Json) :
    (dumpsItems indent d xs).length = itemsCost indent d xs := by
  induction xs with
  | nil => rfl
  | cons x xs ih =>
    simp only [dumpsItems, List.length_cons, List.length_append, length_newline, ih, itemsCost,
      List.map_cons, List.sum_cons, itemCost, size]
    omega

theorem length_dumpsFields (indent d : ℕ) (fs : JsonFields) :
    (dumpsFields indent d fs).length = fieldsCost indent d fs := by
  induction fs with
  | nil => rfl
  | cons f fs ih =>
    obtain ⟨k, v⟩ := f
    simp only [dumpsFields, List.length_cons, List.length_append, length_newline, ih, fieldsCost,
      List.map_cons, List.sum_cons, fieldCost, size]
    omega

theorem size_arr (indent d : ℕ) (xs : List Json) :
    size indent d (.arr xs) = 2 + if xs = [] then 0 else indent * d + itemsCost indent (d + 1) xs := by
  cases xs with
  | nil => rfl
  | cons x xs =>
    simp only [size, dumps, List.length_cons, List.length_append, length_newline, length_dumpsItems,
      List.length_nil, itemsCost, List.map_cons, List.sum_cons, itemCost, reduceCtorEq, if_false]
    omega

theorem size_obj (indent d : ℕ) (fs : JsonFields) :
    size indent d (.obj fs) = 2 + if fs = [] then 0 else indent * d + fieldsCost indent (d + 1) fs := by
  cases fs with
  | nil => rfl
  | cons f fs =>
    obtain ⟨k, v⟩ := f
    simp only [size, dumps, List.length_cons, List.length_append, length_newline, length_dumpsFields,
      List.length_nil, fieldsCost, List.map_cons, List.sum_cons, fieldCost, reduceCtorEq, if_false]
    omega

theorem size_arr_mono {indent d : ℕ} {xs ys : List Json}
    (h : itemsCost indent (d + 1) xs ≤ itemsCost indent (d + 1) ys) (hnil : ys = [] → xs = []) :
    size indent d (.arr xs) ≤ size indent d (.arr ys) := by
  rw [size_arr, size_arr]
  by_cases hxs : xs = []
  · rw [if_pos hxs]
    omega
  · rw [if_neg hxs, if_neg (mt hnil hxs)]
    omega

theorem size_obj_mono {indent d : ℕ} {fs gs : JsonFields}
    (h : fieldsCost indent (d + 1) fs ≤ fieldsCost indent (d + 1) gs) (hnil : gs = [] → fs = []) :
    size indent d (.obj fs) ≤ size indent d (.obj gs) := by
  rw [size_obj, size_obj]
  by_cases hfs : fs = []
  · rw [if_pos hfs]
    omega
  · rw [if_neg hfs, if_neg (mt hnil hfs)]
    omega

theorem itemsCost_le_of_sublist {indent d : ℕ} {xs ys : List Json} (h : xs.Sublist ys) :
    itemsCost indent d xs ≤ itemsCost indent d ys :=
  (h.map _).sum_le_sum fun _ _ => Nat.zero_le _

@[simp] theorem fieldsCost_append (indent d : ℕ) (fs gs : JsonFields) :
    fieldsCost indent d (fs ++ gs) = fieldsCost indent d fs + fieldsCost indent d gs := by
  simp [fieldsCost]

end Json

end TimeCodeSecurity
