/-! TOML values and tables. -/
namespace UtilityCss.Toml

mutual

/-- A value. Numbers and dates are kept as written. -/
inductive Value where
  | string (s : String)
  | integer (literal : String)
  | float (literal : String)
  | boolean (b : Bool)
  | datetime (literal : String)
  | array (items : List Value)
  | inline (t : Table)

/-- What a key of a table holds. -/
inductive Item where
  | value (v : Value)
  | table (t : Table)
  /-- The tables under a double header, in order. -/
  | tables (ts : List Table)

/-- A table. It is implicit if it only came to be on the way to another one, and dotted if that way
was a dotted key and not a header. -/
inductive Table where
  | mk (isImplicit dotted : Bool) (items : List (String × Item))

end

/-- Why a text is no document. -/
inductive Fault where
  | unexpectedEnd
  | unexpected (c : Char)
  | badEscape
  | badNumber (literal : String)
  | duplicateKey (key : String)
  | notATable (key : String)
  | tooDeep
  deriving DecidableEq, Repr

def Fault.message : Fault → String
  | unexpectedEnd => "the text ends too early"
  | unexpected c => "unexpected character " ++ c.toString
  | badEscape => "invalid escape"
  | badNumber literal => "invalid value " ++ literal
  | duplicateKey key => "duplicate key " ++ key
  | notATable key => key ++ " is not a table that can be extended"
  | tooDeep => "nesting limit exceeded"

/-- The fault at the front of what is left. -/
def Fault.here : List Char → Fault
  | [] => .unexpectedEnd
  | c :: _ => .unexpected c

/-- How many levels arrays and inline tables may nest, and how many parts a key may have. -/
def maxDepth : Nat := 79

namespace Table

def empty : Table := mk false false []

def isImplicit : Table → Bool
  | mk i _ _ => i

def dotted : Table → Bool
  | mk _ d _ => d

def items : Table → List (String × Item)
  | mk _ _ items => items

def get? (t : Table) (key : String) : Option Item := t.items.lookup key

/-- Puts an item under a key: in the place of the one that is there, or at the end. -/
def put (t : Table) (key : String) (item : Item) : Table :=
  mk t.isImplicit t.dotted <|
    if t.items.any (·.1 == key) then
      t.items.map fun (k, old) => (k, if k == key then item else old)
    else t.items ++ [(key, item)]

/-- Changes the table at the end of a path; tables that are missing on the way come to be. A dotted
key cannot enter a table that a header named. -/
def descend (dotted : Bool) (change : Table → Except Fault Table) :
    List String → Table → Except Fault Table
  | [], t => change t
  | key :: path, t =>
    let enter (sub : Table) : Except Fault Table := descend dotted change path sub
    match t.get? key with
    | none => (enter (mk true dotted [])).map fun sub => t.put key (.table sub)
    | some (.value _) => .error (.notATable key)
    | some (.table sub) =>
      if dotted && !sub.isImplicit then .error (.duplicateKey key)
      else (enter sub).map fun sub => t.put key (.table sub)
    | some (.tables subs) =>
      match subs.getLast? with
      | none => .error (.notATable key)
      | some sub => (enter sub).map fun sub => t.put key (.tables (subs.dropLast ++ [sub]))

/-- Adds a value under a key in the table at the end of a dotted path. A dotted key adds only to
tables that dotted keys made. -/
def addValue (path : List String) (key : String) (v : Value) (t : Table) : Except Fault Table :=
  descend true (fun t =>
    if t.dotted == path.isEmpty || (t.get? key).isSome then .error (.duplicateKey key)
    else .ok (t.put key (.value v))) path t

/-- A header: the table must be new, or a way to others that a header named. -/
def openTable (path : List String) (key : String) (t : Table) : Except Fault Table :=
  descend false (fun t =>
    match t.get? key with
    | none => .ok (t.put key (.table empty))
    | some (.table sub) =>
      if sub.isImplicit && !sub.dotted then .ok (t.put key (.table (mk false false sub.items)))
      else .error (.duplicateKey key)
    | some _ => .error (.duplicateKey key)) path t

/-- A double header: one more table under the key. -/
def openElement (path : List String) (key : String) (t : Table) : Except Fault Table :=
  descend false (fun t =>
    match t.get? key with
    | none => .ok (t.put key (.tables [empty]))
    | some (.tables subs) => .ok (t.put key (.tables (subs ++ [empty])))
    | some _ => .error (.duplicateKey key)) path t

end Table
end UtilityCss.Toml
