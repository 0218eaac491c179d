import BlockchainMessaging.Values

/-!
`Block` of `core/blockchain.py`. `digest v` stands for
`hashlib.sha256(json.dumps(v, sort_keys=True).encode()).hexdigest()`; `calculate_hash` applies
it to the five hashed fields, so `hash` is never part of its own input. The `while` loop of
`Block.mine` runs here for at most `fuel` nonce increments, and `none` means it has not stopped
by then. `fromDict` reads each field at the type `to_dict` writes it, and is `none` for a missing
key or for a value of another type, which Python's `from_dict` would store as it is.
-/

namespace BlockchainMessaging

structure Block where
  index : Int
  timestamp : Float
  data : Dict
  previousHash : String
  nonce : Int
  hash : String
deriving Inhabited, Repr

namespace Block

variable (digest : Json → String)

def calculateHash (b : Block) : String :=
  digest (.dict [("index", .int b.index), ("timestamp", .float b.timestamp), ("data", .dict b.data),
    ("previous_hash", .str b.previousHash), ("nonce", .int b.nonce)])

def new (index : Int) (timestamp : Float) (data : Dict) (previousHash : String) (nonce : Int) :
    Block :=
  let b : Block := ⟨index, timestamp, data, previousHash, nonce, ""⟩
  { b with hash := b.calculateHash digest }

def incrementNonce (b : Block) : Block :=
  let b' := { b with nonce := b.nonce + 1 }
  { b' with hash := b'.calculateHash digest }

def mine (difficulty : Int) : Nat → Block → Option Block
  | 0, b => if startswith b.hash (zeros difficulty) then some b else none
  | fuel + 1, b =>
    if startswith b.hash (zeros difficulty) then some b
    else mine difficulty fuel (b.incrementNonce digest)

def toDict (b : Block) : Json :=
  .dict [("index", .int b.index), ("timestamp", .float b.timestamp), ("data", .dict b.data),
    ("previous_hash", .str b.previousHash), ("nonce", .int b.nonce), ("hash", .str b.hash)]

@[simp] theorem new_hash (i : Int) (t : Float) (d : Dict) (p : String) (n : Int) :
    (new digest i t d p n).hash = (new digest i t d p n).calculateHash digest := rfl

theorem mine_eq_some {d : Int} {fuel : Nat} {b b' : Block} (h : b.mine digest d fuel = some b') :
    startswith b'.hash (zeros d) = true ∧ b'.index = b.index ∧ b'.timestamp = b.timestamp ∧
      b'.data = b.data ∧ b'.previousHash = b.previousHash ∧
      (b.hash = b.calculateHash digest → b'.hash = b'.calculateHash digest) := by
  induction fuel generalizing b with
  | zero =>
    simp only [mine] at h
    split_ifs at h with hs
    cases h
    exact ⟨hs, rfl, rfl, rfl, rfl, id⟩
  | succ fuel ih =>
    simp only [mine] at h
    split_ifs at h with hs
    · cases h
      exact ⟨hs, rfl, rfl, rfl, rfl, id⟩
    · obtain ⟨hp, hi, ht, hd, hprev, hc⟩ := ih h
      exact ⟨hp, hi, ht, hd, hprev, fun _ => hc rfl⟩

def IsDoc (d : Json) : Prop :=
  ∃ (index : Int) (timestamp : Float) (data : Dict) (previousHash : String) (nonce : Int)
    (hash : String),
    d = .dict [("index", .int index), ("timestamp", .float timestamp), ("data", .dict data),
      ("previous_hash", .str previousHash), ("nonce", .int nonce), ("hash", .str hash)]

theorem isDoc_toDict (b : Block) : IsDoc b.toDict :=
  ⟨_, _, _, _, _, _, rfl⟩

end Block

end BlockchainMessaging
