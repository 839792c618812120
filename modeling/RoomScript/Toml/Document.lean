import RoomScript.Toml

/-!
# The tables of settings files

The statements of a settings file fill nested tables.  A name is defined once; two kinds of places
may be filled again.

* A table that was only implied, by a longer key, may be defined once by a statement of its own.
* A place that holds a list takes a new value.

`Toml.parse?` gives the outermost table of a file.
-/

namespace RoomScript.Toml

/-- A value of a settings file. -/
inductive Value where
  | text (value : String)
  | integer (value : Int)
  | decimal
  | boolean (value : Bool)
  | moment
  | list (items : List Value)
  | table (fields : List (String × Value))
  /-- The tables of a list that headers fill. -/
  | tables (items : List (List (String × Value)))

/-- The fields of a table in the order of their definition. -/
abbrev Table := List (String × Value)

namespace Table

/-- Define a field, in its old place if there is one. -/
def set (t : Table) (name : String) (v : Value) : Table :=
  if (t.lookup name).isSome then t.map fun f => if f.1 = name then (name, v) else f
  else t ++ [(name, v)]

/-- Change the table that names lead to.  In a list of tables they lead to the last one. -/
def updateAt (f : Table → Option Table) : List String → Table → Option Table
  | [], t => f t
  | name :: rest, t =>
    match t.lookup name with
    | some (.table fields) => (updateAt f rest fields).map fun s => t.set name (.table s)
    | some (.tables items) =>
      match items.getLast? with
      | some fields =>
        (updateAt f rest fields).map fun s => t.set name (.tables (items.dropLast ++ [s]))
      | none => none
    | _ => none

/-- Define a field of the table that names lead to, with new tables where there are none. -/
def insertAt (name : String) (v : Value) : List String → Table → Option Table
  | [], t => some (t.set name v)
  | first :: rest, t =>
    match t.lookup first with
    | none => (insertAt name v rest []).map fun s => t.set first (.table s)
    | some (.table fields) => (insertAt name v rest fields).map fun s => t.set first (.table s)
    | some _ => none

end Table

/-! ## Drafts -/

/-- A settings file that is being read. -/
structure Draft where
  root : Table := []
  /-- The keys of tables that are implied only. -/
  implied : List (List String) := []
  /-- The keys of places that hold a list. -/
  lists : List (List String) := []

namespace Draft

/-- Note that a table is implied. -/
def imply (d : Draft) (key : List String) : Draft :=
  { d with implied := key :: d.implied.erase key }

/-- The place whose kind is noted for a name in a table.  The empty name stands for the table
itself. -/
def notedKey (table : List String) (name : String) : List String :=
  match if name = "" then table else table ++ [name] with
  | [] => [""]
  | key => key

/-- Note whether a place holds a list. -/
def note (d : Draft) (table : List String) (name : String) (isList : Bool) : Draft :=
  let key := notedKey table name
  let others := d.lists.filter (· ≠ key)
  { d with lists := if isList then key :: others else others }

/-- Define a name in a table. -/
def define (d : Draft) (table : List String) (name : String) (v : Value) : Option Draft :=
  let key := table ++ [name]
  let settled := { d with implied := d.implied.filter (· ≠ key) }
  let put (t : Table) : Option Table :=
    if (t.lookup name).isNone ∨ key ∈ d.lists then some (t.set name v)
    else if key ∈ d.implied then some t
    else none
  let isNew (t : Table) : Option Table := if (t.lookup name).isNone then some t else none
  match d.root.updateAt put table with
  | none => none
  | some root =>
    if (d.root.updateAt isNew table).isSome then some { d with root } else some { settled with root }

/-- Make sure that names lead to a table, by implying those that are missing; `seen` are the names
before. -/
def implyAll (d : Draft) (seen : List String) : List String → Option Draft
  | [] => some d
  | name :: rest =>
    let add (t : Table) : Option Table :=
      if (t.lookup name).isNone then some (t.set name (.table [])) else none
    match d.root.updateAt add seen with
    | some root => { d.imply (seen ++ [name]) with root }.implyAll (seen ++ [name]) rest
    | none =>
      if (d.root.updateAt some (seen ++ [name])).isSome then d.implyAll (seen ++ [name]) rest
      else none

/-- Open a table. -/
def openTable (d : Draft) (key : List String) : Option Draft :=
  match key.getLast? with
  | none => none
  | some name =>
    (d.implyAll [] key.dropLast).bind fun d => d.define key.dropLast name (.table [])

/-- Open one more table of a list. -/
def openListTable (d : Draft) (key : List String) : Option Draft :=
  match key.getLast? with
  | none => none
  | some name =>
    let add (t : Table) : Option Table :=
      match t.lookup name with
      | none => some (t.set name (.tables [[]]))
      | some (.tables items) => some (t.set name (.tables (items ++ [[]])))
      | some _ => none
    match d.implyAll [] key.dropLast with
    | none => none
    | some d => (d.root.updateAt add key.dropLast).map fun root => { d with root }

/-- Open the tables that a key of several names passes through. -/
def openPath (d : Draft) (table : List String) : List String → Option Draft
  | [] => some d
  | name :: rest =>
    match (d.imply (table ++ [name])).openTable (table ++ [name]) with
    | none => none
    | some d => d.openPath (table ++ [name]) rest

/-- Whether a value is a list. -/
def isList : Value → Bool
  | .list _ => true
  | _ => false

end Draft

/-! ## Values -/

mutual

/-- The value that is written for a name in a table.  Tables within it are filled in their place as
well, where repeated names are noticed. -/
def place (d : Draft) (table : List String) (name : String) (inList : Bool) :
    Written → Option (Value × Draft)
  | .text s => some (.text s, d)
  | .integer n => some (.integer n, d)
  | .decimal => some (.decimal, d)
  | .boolean b => some (.boolean b, d)
  | .moment => some (.moment, d)
  | .list items =>
    (placeItems (d.note table name true) table name items).map fun (vs, d) => (.list vs, d)
  | .table pairs =>
    let key := table ++ [name]
    let d := d.imply key
    match if inList then d.openListTable key else d.openTable key with
    | none => none
    | some d => (placePairs d key [] pairs).map fun (t, d) => (.table t, d)

/-- The values of the items of a list. -/
def placeItems (d : Draft) (table : List String) (name : String) :
    List Written → Option (List Value × Draft)
  | [] => some ([], d)
  | item :: rest =>
    match place d table name true item with
    | none => none
    | some (v, d) => (placeItems d table name rest).map fun (vs, d) => (v :: vs, d)

/-- The fields of a table that is written on one line, behind `fields`. -/
def placePairs (d : Draft) (table : List String) (fields : Table) :
    List (List String × Written) → Option (Table × Draft)
  | [] => some (fields, d)
  | (key, w) :: rest =>
    match key.getLast? with
    | none => none
    | some name =>
      match d.openPath table key.dropLast with
      | none => none
      | some d =>
        let inner := table ++ key.dropLast
        match place d inner name false w with
        | none => none
        | some (v, d) =>
          match d.define inner name v, fields.insertAt name v key.dropLast with
          | some d, some fields =>
            placePairs (d.note inner name (Draft.isList v)) table fields rest
          | _, _ => none

end

/-- Fill in a pair below the table that was opened last. -/
def Draft.pair (d : Draft) (table key : List String) (w : Written) : Option Draft :=
  (placePairs d table [] [(key, w)]).map (·.2)

/-- Fill in statements, the pairs below `table` at first. -/
def Draft.fill (d : Draft) (table : List String) : List Statement → Option Draft
  | [] => some d
  | .header key :: rest =>
    match d.openTable key with
    | none => none
    | some d => (d.note key "" false).fill key rest
  | .listHeader key :: rest =>
    match d.openListTable key with
    | none => none
    | some d => (d.note key "" false).fill key rest
  | .pair key w :: rest =>
    match d.pair table key w with
    | none => none
    | some d => d.fill table rest

/-- The outermost table of a settings file. -/
def parse? (bytes : ByteArray) : Option Table :=
  (statements? bytes).bind fun statements =>
    (Draft.fill {} [] statements).map (·.root)

end RoomScript.Toml
