/-! Tables of a TOML document. A table may be opened by a header once, and it may be added to by
dotted keys as long as no header has opened it; one that is written in place is closed. -/
namespace SchemaShapes.Toml

/-- How a table came about. -/
inductive Origin where
  /-- A header passed through it on the way to another one. -/
  | passed
  /-- A dotted key led through it. -/
  | dotted
  /-- A header opened it. -/
  | headed
  /-- It was written in place. -/
  | inline
  deriving DecidableEq

mutual

/-- A value. Of numbers, truth values and moments nothing is kept but whether they are in range. -/
inductive Item where
  | text (s : String)
  | scalar (inRange : Bool)
  | array (items : List Item)
  /-- The tables that headers of one array have opened, the latest one first. -/
  | tables (tables : List Table)
  | table (table : Table)

structure Table where
  origin : Origin
  entries : List (String × Item)

end

mutual

/-- Whether all numbers in a value are in range. -/
def Item.isInRange : Item → Bool
  | .text _ => true
  | .scalar inRange => inRange
  | .array items => areInRange items
  | .tables tables => areTablesInRange tables
  | .table table => table.isInRange

/-- Whether all numbers in a table are in range. -/
def Table.isInRange : Table → Bool
  | ⟨_, entries⟩ => areEntriesInRange entries

/-- Whether all numbers in the items of an array are in range. -/
def areInRange : List Item → Bool
  | [] => true
  | item :: rest => item.isInRange && areInRange rest

/-- Whether all numbers in the tables of an array are in range. -/
def areTablesInRange : List Table → Bool
  | [] => true
  | table :: rest => table.isInRange && areTablesInRange rest

/-- Whether all numbers in the entries of a table are in range. -/
def areEntriesInRange : List (String × Item) → Bool
  | [] => true
  | (_, item) :: rest => item.isInRange && areEntriesInRange rest

end

namespace Table

/-- A table that is open for entries. -/
def opened : Table := ⟨.headed, []⟩

def get? (t : Table) (key : String) : Option Item := (t.entries.find? (·.1 = key)).map (·.2)

/-- Put an item under a key, in the place of the one that is there. -/
def set (t : Table) (key : String) (item : Item) : Table :=
  let others := t.entries.filter (·.1 ≠ key)
  { t with entries := others ++ [(key, item)] }

/-- Change the table that keys lead to. Tables on the way that are missing come about, and of an
array of tables the latest one is meant. Dotted keys do not lead into what a header has opened. -/
def atPath (dotted : Bool) (change : Table → Option Table) : List String → Table → Option Table
  | [], t => change t
  | key :: keys, t => do
    let item ←
      match t.get? key with
      | none =>
        (atPath dotted change keys ⟨if dotted then .dotted else .passed, []⟩).map Item.table
      | some (.table inner) =>
        if inner.origin = .inline ∨ (dotted ∧ inner.origin = .headed) then none
        else (atPath dotted change keys inner).map Item.table
      | some (.tables (latest :: earlier)) =>
        (atPath dotted change keys latest).map fun inner => Item.tables (inner :: earlier)
      | some _ => none
    return t.set key item

/-- Define what keys lead to, which must not be defined yet. -/
def define (t : Table) (keys : List String) (item : Item) : Option Table := do
  let key ← keys.getLast?
  let way := keys.dropLast
  t.atPath (way ≠ []) (fun inner =>
    if (inner.origin = .dotted ↔ way ≠ []) ∧ (inner.get? key).isNone then some (inner.set key item)
    else none) way

/-- Open the table that keys lead to. -/
def openTable (t : Table) (keys : List String) : Option Table := do
  let key ← keys.getLast?
  t.atPath false (fun inner =>
    match inner.get? key with
    | none => some (inner.set key (.table opened))
    | some (.table passed) =>
      if passed.origin = .passed then
        some (inner.set key (.table { passed with origin := .headed }))
      else
        none
    | some _ => none) keys.dropLast

/-- Open another table of the array that keys lead to. -/
def openElement (t : Table) (keys : List String) : Option Table := do
  let key ← keys.getLast?
  t.atPath false (fun inner =>
    match inner.get? key with
    | none => some (inner.set key (.tables [opened]))
    | some (.tables tables) => some (inner.set key (.tables (opened :: tables)))
    | some _ => none) keys.dropLast

end Table

end SchemaShapes.Toml
