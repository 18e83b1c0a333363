/-!
# TOML values

A TOML document is a table that its lines build step by step. Whether a line may add to a table
depends on how the table came about, so each table remembers its origin.

`insertKey` adds a value under a dotted key, `openTable` and `openItem` follow the headers `[a.b]`
and `[[a.b]]`. They give `none` where a document must not define a thing twice.
-/

namespace DocTree

namespace Toml

/-- How a table came about. -/
inductive Origin
  /-- Written between braces; complete in itself. -/
  | inline
  /-- Opened by a header of its own. -/
  | header
  /-- Named on the way to another table's header. -/
  | implied
  /-- Named before a dot in a key. -/
  | dotted
deriving DecidableEq, Repr

end Toml

/-- A value of a document. The values of floating-point numbers are not kept. -/
inductive Toml
  | string (s : String)
  | integer (i : Int)
  | float
  | boolean (b : Bool)
  /-- A date, a time or both, in their usual form. -/
  | moment (text : String)
  /-- An array; a growing one is made of headers and can be continued by further ones. -/
  | array (growing : Bool) (items : List Toml)
  | table (origin : Toml.Origin) (entries : List (String × Toml))

namespace Toml

instance : Inhabited Toml := ⟨table .header []⟩

/-- The entries of a table in the order in which their keys were first named. -/
abbrev Entries := List (String × Toml)

/-- Set the value of a key, in its old place if it has one. -/
def put (key : String) (value : Toml) : Entries → Entries
  | [] => [(key, value)]
  | e :: es => if e.1 = key then (key, value) :: es else e :: put key value es

theorem lookup_put (key : String) (value : Toml) (k : String) (es : Entries) :
    (put key value es).lookup k = if k = key then some value else es.lookup k := by
  have other {a : String} (h : k ≠ a) : (k == a) = false := beq_false_of_ne h
  induction es with
  | nil => by_cases h : k = key <;> simp [put, List.lookup_cons, h, other]
  | cons e es ih =>
    obtain ⟨name, v⟩ := e
    simp only [put]
    split
    · rename_i he
      by_cases h : k = key <;> simp [List.lookup_cons, h, he, other]
    · rename_i he
      by_cases h : k = name
      · simp [h, he]
      · simp [List.lookup_cons, h, ih, other]

/-- Change the entries of the last table of an array. -/
def changeLast (f : Entries → Option Entries) : List Toml → Option (List Toml)
  | [] => none
  | [table o es] => (f es).map fun es => [table o es]
  | x :: xs => (changeLast f xs).map (x :: ·)

/-! ## Keys with values -/

/-- Add a value under a dotted key. The parts before the last name tables that keys alone may fill:
new ones, ones named by keys before, and on the way to those the ones implied by headers. `fillable`
tells whether the table at hand may take the value itself. -/
def insertKey (value : Toml) (fillable : Bool) : List String → Entries → Option Entries
  | [], _ => none
  | [k], es => if fillable && (es.lookup k).isNone then some (put k value es) else none
  | k :: ks, es =>
    match es.lookup k with
    | none => (insertKey value true ks []).map fun sub => put k (table .dotted sub) es
    | some (table .dotted sub) =>
      (insertKey value true ks sub).map fun sub => put k (table .dotted sub) es
    | some (table .implied sub) =>
      (insertKey value false ks sub).map fun sub => put k (table .implied sub) es
    | some (array true items) =>
      (changeLast (insertKey value false ks) items).map fun items => put k (array true items) es
    | some _ => none

/-! ## Headers -/

/-- Change what the path of a header leads to. Tables that are missing on the way are implied; an
array of tables on the way stands for its last one. -/
def atHeader (change : Option Toml → Option Toml) : List String → Entries → Option Entries
  | [], _ => none
  | [k], es => (change (es.lookup k)).map fun v => put k v es
  | k :: ks, es =>
    match es.lookup k with
    | none => (atHeader change ks []).map fun sub => put k (table .implied sub) es
    | some (table .inline _) => none
    | some (table o sub) => (atHeader change ks sub).map fun sub => put k (table o sub) es
    | some (array true items) =>
      (changeLast (atHeader change ks) items).map fun items => put k (array true items) es
    | some _ => none

/-- Open the table of a header: a new one, or one that other headers have implied. -/
def openTable : List String → Entries → Option Entries :=
  atHeader fun
    | none => some (table .header [])
    | some (table .implied es) => some (table .header es)
    | some _ => none

/-- Open one more table of an array of tables. -/
def openItem : List String → Entries → Option Entries :=
  atHeader fun
    | none => some (array true [table .header []])
    | some (array true items) => some (array true (items ++ [table .header []]))
    | some _ => none

/-- Change the entries of the table that a header has opened; the empty path is the document. -/
def inTable (path : List String) (f : Entries → Option Entries) (es : Entries) : Option Entries :=
  match path with
  | [] => f es
  | path =>
    atHeader (fun
      | some (table o sub) => (f sub).map (table o)
      | some (array o items) => (changeLast f items).map (array o)
      | _ => none) path es

end Toml

end DocTree
