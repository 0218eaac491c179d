import Mathlib.Data.List.Basic

/-!
Python values as the ledger stores them: a block's `data` and every payload of
`pending_data` are `dict[str, Any]` trees that `json.dumps` can serialise. A dict is the list
of its items in insertion order; `bytes` are lists of octets. `iter?` lists what `for x in v`
visits (`none` for the `TypeError`), and `truthy` is an `Optional[bytes]` as `if x:` sees it.
-/

namespace BlockchainMessaging

abbrev Bytes := List UInt8

inductive Json where
  | null
  | bool (b : Bool)
  | int (n : Int)
  | float (x : Float)
  | str (s : String)
  | list (xs : List Json)
  | dict (kvs : List (String × Json))
deriving Inhabited, Repr

abbrev Dict := List (String × Json)

namespace Json

def get? : Json → String → Option Json
  | .dict kvs, k => kvs.lookup k
  | _, _ => none

def asInt? : Json → Option Int
  | .int n => some n
  | _ => none

def asStr? : Json → Option String
  | .str s => some s
  | _ => none

def iter? : Json → Option (List Json)
  | .list xs => some xs
  | .str s => some (s.data.map fun c => .str (String.singleton c))
  | .dict kvs => some (kvs.map fun kv => .str kv.1)
  | _ => none

@[simp] theorem get?_dict (kvs : Dict) (k : String) : (Json.dict kvs).get? k = kvs.lookup k := rfl

end Json

def truthy (o : Option Bytes) : Option Bytes :=
  o.filter fun b => !b.isEmpty

@[simp] theorem truthy_none : truthy none = none := rfl

theorem truthy_some {b : Bytes} (h : b ≠ []) : truthy (some b) = some b := by
  cases b <;> simp_all [truthy]

def startswith (s pre : String) : Bool :=
  pre.data.isPrefixOf s.data

def zeros (n : Int) : String :=
  ⟨List.replicate n.toNat '0'⟩

@[simp] theorem length_zeros (n : Int) : (zeros n).length = n.toNat :=
  List.length_replicate _ _

theorem le_length_of_startswith_zeros {s : String} {n : Int} (h : startswith s (zeros n) = true) :
    n ≤ s.length := by
  have h : (zeros n).length ≤ s.length := (List.isPrefixOf_iff_prefix.mp h).length_le
  rw [length_zeros] at h
  omega

end BlockchainMessaging
