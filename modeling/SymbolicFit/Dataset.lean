import SymbolicFit.Failure

/-!
Named columns of numbers, labels or vectors, all with the same number of rows.
-/

namespace SymbolicFit

inductive ColumnType where
  | number
  | label
  | vector
deriving DecidableEq, Repr

def ColumnType.name : ColumnType → String
  | number => "double"
  | label => "string"
  | vector => "double vector"

inductive Column (α : Type) where
  | numbers (values : Array α)
  | labels (values : Array String)
  | vectors (values : Array (List α))

namespace Column

variable {α : Type}

def length : Column α → Nat
  | numbers xs => xs.size
  | labels xs => xs.size
  | vectors xs => xs.size

def type : Column α → ColumnType
  | numbers _ => .number
  | labels _ => .label
  | vectors _ => .vector

end Column

/-- A column store; the first column fixes the number of rows. -/
structure Dataset (α : Type) where
  rows : Option Nat
  columns : List (String × Column α)

namespace Dataset

variable {α : Type}

def empty : Dataset α := ⟨none, []⟩

def rowCount (d : Dataset α) : Nat := d.rows.getD 0

/-- Puts a column in place of the one with its name, or at the end. -/
def put (name : String) (column : Column α) : List (String × Column α) → List (String × Column α)
  | [] => [(name, column)]
  | c :: cs => if c.1 = name then (name, column) :: cs else c :: put name column cs

def insert (d : Dataset α) (name : String) (column : Column α) : Except Failure (Dataset α) :=
  if d.rows.all (· = column.length) then
    .ok ⟨some column.length, put name column d.columns⟩
  else .error (.columnLengthMismatch name d.rowCount column.length)

def column? (d : Dataset α) (name : String) : Option (Column α) :=
  (d.columns.find? (·.1 = name)).map (·.2)

def typeOf? (d : Dataset α) (name : String) : Option ColumnType :=
  (d.column? name).map Column.type

def hasType (d : Dataset α) (name : String) (type : ColumnType) : Bool :=
  d.typeOf? name = some type

/-- A row position read as a signed 64-bit word. -/
def signedRow (row : Int) : Int := row.bmod UInt64.size

def checkRow (d : Dataset α) (row : Nat) : Except Failure Unit :=
  if row < d.rowCount then .ok () else .error (.rowOutOfRange (signedRow row) d.rowCount)

/-- The row `lag` rows away; positions wrap around at 64 bits. -/
def laggedRow (d : Dataset α) (row : Nat) (lag : Int) : Except Failure Nat :=
  let r := signedRow (row + lag)
  if 0 ≤ r ∧ r < d.rowCount then .ok r.toNat else .error (.rowOutOfRange r d.rowCount)

/-- The entry of a column at a row, if the column has the wanted type. -/
def read {β : Type} (d : Dataset α) (type : ColumnType) (entries : Column α → Option (Array β))
    (name : String) (row : Nat) : Except Failure β := do
  d.checkRow row
  match d.column? name with
  | none => .error (.unknownVariable name)
  | some c =>
    match entries c with
    | none => .error (.variableTypeMismatch name type.name)
    | some xs =>
      match xs[row]? with
      | none => .error (.rowOutOfRange (signedRow row) d.rowCount)
      | some x => .ok x

def number (d : Dataset α) : String → Nat → Except Failure α :=
  d.read .number fun | .numbers xs => some xs | _ => none

def label (d : Dataset α) : String → Nat → Except Failure String :=
  d.read .label fun | .labels xs => some xs | _ => none

def vector (d : Dataset α) : String → Nat → Except Failure (List α) :=
  d.read .vector fun | .vectors xs => some xs | _ => none

def numbers (d : Dataset α) (name : String) (rows : List Nat) : Except Failure (List α) :=
  rows.mapM (d.number name)

/-- The distinct labels of a column in order of first appearance. -/
def categories (d : Dataset α) (name : String) : Except Failure (List String) :=
  (List.range d.rowCount).foldlM (fun seen row => do
    let label ← d.label name row
    return if label ∈ seen then seen else seen ++ [label]) []

/-- An element of a vector entry. -/
def element (name : String) (xs : List α) (index : Nat) : Except Failure α :=
  match xs[index]? with
  | some x => .ok x
  | none => .error (.indexOutOfRange name index xs.length)

end Dataset

end SymbolicFit
