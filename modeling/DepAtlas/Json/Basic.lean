import DepAtlas.Json.Decimal

/-! # JSON values

A value in normal form holds each key of an object once, in the order of the keys.
-/

namespace DepAtlas

/-- A number: an integer, or a floating point number by its bits. -/
inductive Json.Number where
  | int (i : Int)
  | float (bits : UInt64)
  deriving DecidableEq, Repr

inductive Json where
  | null
  | bool (b : Bool)
  | num (n : Json.Number)
  | str (s : String)
  | arr (items : List Json)
  | obj (fields : List (String × Json))
  deriving Repr

namespace Json

instance : Inhabited Json := ⟨null⟩

def nat (n : Nat) : Json := num (.int n)

mutual

def beq : Json → Json → Bool
  | null, null => true
  | bool a, bool b => a == b
  | num a, num b => a == b
  | str a, str b => a == b
  | arr a, arr b => beqItems a b
  | obj a, obj b => beqFields a b
  | _, _ => false

def beqItems : List Json → List Json → Bool
  | [], [] => true
  | a :: as, b :: bs => beq a b && beqItems as bs
  | _, _ => false

def beqFields : List (String × Json) → List (String × Json) → Bool
  | [], [] => true
  | (k, a) :: as, (l, b) :: bs => k == l && beq a b && beqFields as bs
  | _, _ => false

end

instance : BEq Json := ⟨beq⟩

/-- Puts a field in its place by key; a later value takes the place of an earlier one. -/
def insertField {α : Type} (key : String) (value : α) : List (String × α) → List (String × α)
  | [] => [(key, value)]
  | (k, v) :: rest =>
    if key < k then (key, value) :: (k, v) :: rest
    else if key = k then (key, value) :: rest
    else (k, v) :: insertField key value rest

/-- Fields in the order of their keys, each key once. -/
def sortFields {α : Type} (fields : List (String × α)) : List (String × α) :=
  fields.foldl (fun acc f => insertField f.1 f.2 acc) []

/-- An object from fields in any order. -/
def object (fields : List (String × Json)) : Json := obj (sortFields fields)

mutual

/-- The value with the fields of each object in order, each key once. -/
def normal : Json → Json
  | arr items => arr (normalItems items)
  | obj fields => object (normalFields fields)
  | j => j

def normalItems : List Json → List Json
  | [] => []
  | j :: js => normal j :: normalItems js

def normalFields : List (String × Json) → List (String × Json)
  | [] => []
  | (k, j) :: fs => (k, normal j) :: normalFields fs

end

/-- An object from fields some of which are left out. -/
def objectOf (fields : List (Option (String × Json))) : Json :=
  object (fields.filterMap id)

/-- A field that is left out where there is no value. -/
def field? {α : Type} (key : String) (value : Option α) (write : α → Json) :
    Option (String × Json) :=
  value.map fun v => (key, write v)

def ofOption {α : Type} (write : α → Json) : Option α → Json
  | none => null
  | some a => write a

def strings (ss : List String) : Json := arr (ss.map str)

def get? (j : Json) (key : String) : Option Json :=
  match j with
  | obj fields => fields.lookup key
  | _ => none

def isNull : Json → Bool
  | null => true
  | _ => false

def string? : Json → Option String
  | str s => some s
  | _ => none

def bool? : Json → Option Bool
  | bool b => some b
  | _ => none

def nat? : Json → Option Nat
  | num (.int (.ofNat n)) => some n
  | _ => none

def items? : Json → Option (List Json)
  | arr xs => some xs
  | _ => none

def fields? : Json → Option (List (String × Json))
  | obj fs => some fs
  | _ => none

mutual

/-- The value with every text, keys included, changed by `f`. -/
def mapText (f : String → String) : Json → Json
  | null => null
  | bool b => bool b
  | num n => num n
  | str s => str (f s)
  | arr xs => arr (mapItems f xs)
  | obj fs => object (mapFields f fs)

def mapItems (f : String → String) : List Json → List Json
  | [] => []
  | x :: xs => mapText f x :: mapItems f xs

def mapFields (f : String → String) : List (String × Json) → List (String × Json)
  | [] => []
  | (k, v) :: fs => (f k, mapText f v) :: mapFields f fs

end

end Json

end DepAtlas
