import BlockchainMessaging.Block

/-!
`Blockchain` of `core/blockchain.py`. Reading the clock is an argument (`now`), and so is the
bound on the mining loop (`fuel`). `history` is what `get_messages()` followed by
`pending_data` returns: every payload the ledger holds, mined or not. `minePending` is `none`
when the call does not return: `latest_block` raises `IndexError` on an empty chain, or mining
has not stopped within `fuel` steps. `messagesOf` is `none` where `extend` meets a value it
cannot iterate.
-/

namespace BlockchainMessaging

structure Blockchain where
  chain : List Block
  pendingData : List Json
  difficulty : Int
deriving Inhabited, Repr

namespace Blockchain

variable (digest : Json → String)

def genesisData : Dict :=
  [("message", .str "Genesis Block"), ("type", .str "system")]

def createGenesisBlock (bc : Blockchain) (now : Float) (fuel : Nat) : Option Blockchain := do
  let genesis ← (Block.new digest 0 now genesisData (zeros 64) 0).mine digest bc.difficulty fuel
  pure { bc with chain := bc.chain ++ [genesis] }

def init (difficulty : Int) (now : Float) (fuel : Nat) : Option Blockchain :=
  createGenesisBlock digest ⟨[], [], difficulty⟩ now fuel

def latestBlock (bc : Blockchain) : Option Block :=
  bc.chain.getLast?

def addData (bc : Blockchain) (data : Json) : Blockchain :=
  { bc with pendingData := bc.pendingData ++ [data] }

def minePending (bc : Blockchain) (fuel : Nat) (now : Float) :
    Option (Blockchain × Option Block) :=
  if bc.pendingData.isEmpty then some (bc, none)
  else do
    let latest ← bc.latestBlock
    let newBlock ← (Block.new digest bc.chain.length now [("messages", .list bc.pendingData)]
      latest.hash 0).mine digest bc.difficulty fuel
    pure ({ bc with chain := bc.chain ++ [newBlock], pendingData := [] }, some newBlock)

def linkValid (difficulty : Int) (previous current : Block) : Bool :=
  current.hash == current.calculateHash digest && current.previousHash == previous.hash &&
    startswith current.hash (zeros difficulty)

def linksValid (difficulty : Int) : Block → List Block → Bool
  | _, [] => true
  | previous, current :: rest =>
    linkValid digest difficulty previous current && linksValid difficulty current rest

def isChainValid (bc : Blockchain) : Bool :=
  match bc.chain with
  | [] => true
  | genesis :: rest => linksValid digest bc.difficulty genesis rest

def messagesOf (block : Block) : Option (List Json) :=
  match block.data.lookup "messages" with
  | some v => v.iter?
  | none => some []

def collectMessages : List Block → Option (List Json)
  | [] => some []
  | block :: blocks => do
    let messages ← messagesOf block
    let rest ← collectMessages blocks
    pure (messages ++ rest)

def getMessages (bc : Blockchain) : Option (List Json) :=
  collectMessages (bc.chain.drop 1)

def history (bc : Blockchain) : Option (List Json) :=
  bc.getMessages.map (· ++ bc.pendingData)

def toDict (bc : Blockchain) : Json :=
  .dict [("difficulty", .int bc.difficulty), ("chain", .list (bc.chain.map Block.toDict)),
    ("pending_data", .list bc.pendingData)]

@[simp] theorem addData_chain (bc : Blockchain) (p : Json) : (bc.addData p).chain = bc.chain := rfl

@[simp] theorem addData_pendingData (bc : Blockchain) (p : Json) :
    (bc.addData p).pendingData = bc.pendingData ++ [p] := rfl

@[simp] theorem addData_difficulty (bc : Blockchain) (p : Json) :
    (bc.addData p).difficulty = bc.difficulty := rfl

theorem minePending_eq_some {bc bc' : Blockchain} {fuel : Nat} {now : Float} {r : Option Block}
    (h : bc.minePending digest fuel now = some (bc', r)) :
    (bc.pendingData = [] ∧ bc' = bc ∧ r = none) ∨
      ∃ latest b, bc.pendingData ≠ [] ∧ bc.latestBlock = some latest ∧
        (Block.new digest bc.chain.length now [("messages", .list bc.pendingData)] latest.hash
          0).mine digest bc.difficulty fuel = some b ∧
        bc' = { bc with chain := bc.chain ++ [b], pendingData := [] } ∧ r = some b := by
  unfold minePending at h
  split_ifs at h with he
  · cases h
    exact .inl ⟨List.isEmpty_iff.mp he, rfl, rfl⟩
  · simp only [Option.bind_eq_bind, Option.bind_eq_some, Option.pure_def, Option.some.injEq,
      Prod.mk.injEq] at h
    obtain ⟨latest, hl, b, hb, rfl, rfl⟩ := h
    exact .inr ⟨latest, b, fun h => he (List.isEmpty_iff.mpr h), hl, hb, rfl, rfl⟩

theorem minePending_of_isEmpty {bc : Blockchain} (fuel : Nat) (now : Float)
    (h : bc.pendingData = []) : bc.minePending digest fuel now = some (bc, none) := by
  simp [minePending, h]

theorem linkValid_iff (d : Int) (previous current : Block) :
    linkValid digest d previous current = true ↔
      current.hash = current.calculateHash digest ∧ current.previousHash = previous.hash ∧
        startswith current.hash (zeros d) = true := by
  simp [linkValid, and_assoc]

theorem linksValid_iff (d : Int) (previous : Block) (l : List Block) :
    linksValid digest d previous l = true ↔
      ∀ (i : Nat) (h : i + 1 < (previous :: l).length),
        linkValid digest d (previous :: l)[i] (previous :: l)[i + 1] = true := by
  induction l generalizing previous with
  | nil => simp [linksValid]
  | cons c rest ih =>
    simp only [linksValid, Bool.and_eq_true, ih, List.length_cons]
    constructor
    · rintro ⟨h0, hrest⟩ i hi
      cases i with
      | zero => exact h0
      | succ j => exact hrest j (by simp; omega)
    · intro h
      exact ⟨h 0 (by omega), fun j hj => h (j + 1) (by simp at hj; omega)⟩

theorem isChainValid_iff (bc : Blockchain) :
    bc.isChainValid digest = true ↔
      ∀ (i : Nat) (h : i + 1 < bc.chain.length),
        linkValid digest bc.difficulty bc.chain[i] bc.chain[i + 1] = true := by
  unfold isChainValid
  split
  · rename_i hc
    simp [hc]
  · rename_i genesis rest hc
    simp only [hc, linksValid_iff]

theorem collectMessages_append (l₁ l₂ : List Block) :
    collectMessages (l₁ ++ l₂) =
      (collectMessages l₁).bind fun xs => (collectMessages l₂).map (xs ++ ·) := by
  induction l₁ with
  | nil => cases h : collectMessages l₂ <;> simp [collectMessages, h]
  | cons b bs ih =>
    rw [List.cons_append, collectMessages, ih, collectMessages]
    cases messagesOf b <;> cases collectMessages bs <;> cases collectMessages l₂ <;>
      simp [List.append_assoc]

theorem getMessages_append {bc : Blockchain} (b : Block) (h : bc.chain ≠ []) :
    collectMessages ((bc.chain ++ [b]).drop 1) =
      bc.getMessages.bind fun xs => (messagesOf b).map (xs ++ ·) := by
  have h1 : 1 ≤ bc.chain.length := List.length_pos.mpr h
  rw [List.drop_append_of_le_length h1, collectMessages_append]
  simp only [collectMessages, getMessages]
  cases collectMessages (bc.chain.drop 1) <;> cases messagesOf b <;> simp

theorem history_addData (bc : Blockchain) (p : Json) :
    (bc.addData p).history = bc.history.map (· ++ [p]) := by
  simp only [history, getMessages, addData_chain, addData_pendingData, Option.map_map]
  cases collectMessages (bc.chain.drop 1) <;> simp

theorem history_minePending {bc bc' : Blockchain} {fuel : Nat} {now : Float} {r : Option Block}
    (h : bc.minePending digest fuel now = some (bc', r)) : bc'.history = bc.history := by
  rcases minePending_eq_some digest h with ⟨-, rfl, -⟩ | ⟨latest, b, -, hl, hb, rfl, -⟩
  · rfl
  have hne : bc.chain ≠ [] := by
    intro hc; simp [latestBlock, hc] at hl
  have hdata := (Block.mine_eq_some digest hb).2.2.2.1
  have hm : messagesOf b = some bc.pendingData := by
    simp [messagesOf, hdata, Block.new, Json.iter?]
  have hg : getMessages { bc with chain := bc.chain ++ [b], pendingData := [] } =
      bc.getMessages.map (· ++ bc.pendingData) := by
    show collectMessages ((bc.chain ++ [b]).drop 1) = _
    rw [getMessages_append b hne, hm]
    cases bc.getMessages <;> rfl
  simp only [history, hg]
  cases bc.getMessages <;> simp

end Blockchain

end BlockchainMessaging
