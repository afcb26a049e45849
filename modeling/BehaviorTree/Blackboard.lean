import BehaviorTree.Vec3
import Std.Data.ExtTreeMap

/-!
# Blackboards

The store that the nodes of a tree share. An entry is identified by its kind and
its key together, so one key may hold a value of each kind. The entries of one kind
form a section.
-/

namespace BehaviorTree

inductive Kind where
  | float
  | int
  | bool
  | vector
  | string
  deriving DecidableEq, Repr

namespace Kind

@[reducible] def Value : Kind → Type
  | float => Float32
  | int => Int32
  | bool => Bool
  | vector => Vec3
  | string => String

def all : List Kind := [float, int, bool, vector, string]

theorem mem_all (k : Kind) : k ∈ all := by cases k <;> decide

def sectionName : Kind → String
  | float => "floats"
  | int => "ints"
  | bool => "bools"
  | vector => "vectors"
  | string => "strings"

end Kind

abbrev Table (α : Type) := Std.ExtTreeMap String α compare

structure Blackboard where
  floats : Table Float32 := ∅
  ints : Table Int32 := ∅
  bools : Table Bool := ∅
  vectors : Table Vec3 := ∅
  strings : Table String := ∅
  deriving Inhabited

namespace Blackboard

def empty : Blackboard := {}

def entries (b : Blackboard) : (k : Kind) → Table k.Value
  | .float => b.floats
  | .int => b.ints
  | .bool => b.bools
  | .vector => b.vectors
  | .string => b.strings

def setEntries (b : Blackboard) : (k : Kind) → Table k.Value → Blackboard
  | .float, t => { b with floats := t }
  | .int, t => { b with ints := t }
  | .bool, t => { b with bools := t }
  | .vector, t => { b with vectors := t }
  | .string, t => { b with strings := t }

@[simp] theorem entries_empty (k : Kind) : empty.entries k = ∅ := by cases k <;> rfl

@[simp] theorem entries_setEntries (b : Blackboard) (k : Kind) (t : Table k.Value) :
    (b.setEntries k t).entries k = t := by
  cases k <;> rfl

theorem entries_setEntries_of_ne (b : Blackboard) {k l : Kind} (t : Table k.Value) (h : l ≠ k) :
    (b.setEntries k t).entries l = b.entries l := by
  cases k <;> cases l <;> simp_all [entries, setEntries]

theorem ext_entries {b c : Blackboard} (h : ∀ k, b.entries k = c.entries k) : b = c := by
  cases b; cases c
  have h1 := h .float; have h2 := h .int; have h3 := h .bool
  have h4 := h .vector; have h5 := h .string
  simp only [entries] at h1 h2 h3 h4 h5
  subst h1 h2 h3 h4 h5
  rfl

def get? (b : Blackboard) (k : Kind) (key : String) : Option k.Value := (b.entries k)[key]?

def getD (b : Blackboard) (k : Kind) (key : String) (fallback : k.Value) : k.Value :=
  (b.get? k key).getD fallback

def contains (b : Blackboard) (k : Kind) (key : String) : Bool := (b.entries k).contains key

def insert (b : Blackboard) (k : Kind) (key : String) (value : k.Value) : Blackboard :=
  b.setEntries k ((b.entries k).insert key value)

def erase (b : Blackboard) (k : Kind) (key : String) : Blackboard :=
  b.setEntries k ((b.entries k).erase key)

/-- Overwrites an entry that is present; an absent one stays absent. -/
def replace (b : Blackboard) (k : Kind) (key : String) (value : k.Value) : Blackboard :=
  if b.contains k key then b.insert k key value else b

def hasKey (b : Blackboard) (key : String) : Bool := Kind.all.any (b.contains · key)

def eraseKey (b : Blackboard) (key : String) : Blackboard := Kind.all.foldl (·.erase · key) b

def remove (b : Blackboard) (k : Kind) (key : String) : Option k.Value × Blackboard :=
  (b.get? k key, b.erase k key)

def removeKey (b : Blackboard) (key : String) : Bool × Blackboard :=
  Kind.all.foldl
    (fun (removed, c) k =>
      let (value, c) := c.remove k key
      (removed || value.isSome, c))
    (false, b)

def modify (b : Blackboard) (k : Kind) (key : String) (f : k.Value → k.Value) :
    Option k.Value × Blackboard :=
  match b.get? k key with
  | some value => (some value, b.replace k key (f value))
  | none => (none, b)

def clear (b : Blackboard) : Blackboard := Kind.all.foldl (fun c k => c.setEntries k ∅) b

def size (b : Blackboard) : Nat := Kind.all.foldl (fun n k => n + (b.entries k).size) 0

def isEmpty (b : Blackboard) : Bool := b.size = 0

/-- All entries of both stores; where both have one, that of `c`. -/
def union (b c : Blackboard) : Blackboard :=
  Kind.all.foldl (fun d k => d.setEntries k (d.entries k ∪ c.entries k)) b

/-- The same entries, values compared as numbers: zeros are equal and a NaN equals nothing. -/
def sameEntries (b c : Blackboard) : Bool :=
  b.floats == c.floats && b.ints == c.ints && b.bools == c.bools && b.vectors == c.vectors &&
    b.strings == c.strings

theorem get?_insert (b : Blackboard) (k : Kind) (key key' : String) (value : k.Value) :
    (b.insert k key value).get? k key' = if key = key' then some value else b.get? k key' := by
  simp [get?, insert, Std.ExtTreeMap.getElem?_insert]

theorem get?_insert_of_ne (b : Blackboard) {k l : Kind} (key key' : String) (value : k.Value)
    (h : l ≠ k) : (b.insert k key value).get? l key' = b.get? l key' := by
  simp [get?, insert, entries_setEntries_of_ne _ _ h]

end Blackboard

end BehaviorTree
