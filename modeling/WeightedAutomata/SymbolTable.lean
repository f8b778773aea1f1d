-- Symbol tables: columns of names, addressed by position. A table with one column
-- serves every unit of an automaton, a table with as many columns as units gives
-- each unit a column of its own.
namespace WeightedAutomata

/-- Names by column and row. Equal names may stand in several rows. -/
structure SymbolTable where
  columns : List (List String) := []
  deriving DecidableEq

namespace SymbolTable

/-- The table with no columns. -/
def empty : SymbolTable := {}

/-! ## Growing a table -/

/-- Adds a name at the end of the first column, and tells the row it took. -/
def push (table : SymbolTable) (name : String) : Nat × SymbolTable :=
  match table.columns with
  | [] => (0, ⟨[[name]]⟩)
  | column :: later => (column.length, ⟨(column ++ [name]) :: later⟩)

/-- Adds names one after another, and tells the row of each. -/
def pushAll (table : SymbolTable) : List String → List Nat × SymbolTable
  | [] => ([], table)
  | name :: names =>
    let (row, table) := table.push name
    let (rows, table) := table.pushAll names
    (row :: rows, table)

/-- The table that pushing the names onto an empty one gives. -/
def ofNames (names : List String) : SymbolTable := (empty.pushAll names).2

/-! ## Reading a table -/

/-- The name in a row of a column. -/
def nameIn? (table : SymbolTable) (column row : Nat) : Option String :=
  table.columns[column]? >>= (·[row]?)

/-- The name in a row of the first column. -/
def name? (table : SymbolTable) (row : Nat) : Option String := table.nameIn? 0 row

def columnCount (table : SymbolTable) : Nat := table.columns.length

/-- The length of the longest column. -/
def rowCount (table : SymbolTable) : Nat :=
  table.columns.foldl (fun longest column => max longest column.length) 0

/-- A table is empty when it holds no name, whatever its columns. -/
def isEmpty (table : SymbolTable) : Bool := table.rowCount == 0

end SymbolTable

end WeightedAutomata
