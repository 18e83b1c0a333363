import DocTree.Double

/-!
# JSON values

An object keeps its members as written: their order, and names that occur more than once.
-/

namespace DocTree

/-- A number: a natural number, without sign, fraction and exponent, or any other decimal,
`± digits · 10 ^ exponent`. -/
inductive JsonNumber
  | natural (n : Nat)
  | decimal (negative : Bool) (digits : Nat) (exponent : Int)
deriving DecidableEq, Repr, Inhabited

namespace JsonNumber

/-- The number is finite when it is reckoned in doubles, as its digits times its power of ten. -/
def inRange : JsonNumber → Bool
  | natural n => Double.isProductFinite n 0
  | decimal _ digits exponent => Double.isProductFinite digits exponent

/-- The number as a 64-bit word, if it is written as a natural number and fits. -/
def word? : JsonNumber → Option UInt64
  | natural n => if n < UInt64.size then some (.ofNat n) else none
  | decimal .. => none

end JsonNumber

inductive Json
  | null
  | bool (b : Bool)
  | number (n : JsonNumber)
  | string (s : String)
  | array (items : List Json)
  | object (members : List (String × Json))

namespace Json

instance : Inhabited Json := ⟨null⟩

def ofNat (n : Nat) : Json := number (.natural n)

/-! ## Nesting -/

mutual
/-- How many arrays and objects are nested at most. -/
def depth : Json → Nat
  | array xs => 1 + depthItems xs
  | object ms => 1 + depthMembers ms
  | _ => 0
def depthItems : List Json → Nat
  | [] => 0
  | x :: xs => max x.depth (depthItems xs)
def depthMembers : List (String × Json) → Nat
  | [] => 0
  | (_, v) :: ms => max v.depth (depthMembers ms)
end

/-! ## Members of an object -/

/-- What an object says about a name. -/
inductive Field
  | missing
  | single (value : Json)
  | repeated

def field (name : String) : List (String × Json) → Field
  | [] => .missing
  | (k, v) :: ms =>
    if k = name then
      match field name ms with
      | .missing => .single v
      | _ => .repeated
    else field name ms

namespace Field

/-- The decoded value of a member that must occur, exactly once. -/
def required {α : Type u} (decode : Json → Option α) : Field → Option α
  | single v => decode v
  | _ => none

/-- The decoded value of a member that may be left out. -/
def optional {α : Type u} (default : α) (decode : Json → Option α) : Field → Option α
  | missing => some default
  | single v => decode v
  | repeated => none

end Field

/-! ## Plain values -/

def bool? : Json → Option Bool
  | bool b => some b
  | _ => none

def string? : Json → Option String
  | string s => some s
  | _ => none

/-- A text or null. -/
def nullableString? : Json → Option (Option String)
  | null => some none
  | string s => some (some s)
  | _ => none

def word? : Json → Option UInt64
  | number n => n.word?
  | _ => none

def array? : Json → Option (List Json)
  | array xs => some xs
  | _ => none

def object? : Json → Option (List (String × Json))
  | object ms => some ms
  | _ => none

end Json

end DocTree
