import BlockchainMessaging.Blockchain

/-!
The nonce search of `Block.mine`, and what it means for `Blockchain(difficulty)` and
`mine_pending`. The loop tries the nonces from the block's own upwards and stops at the first
whose hash starts with `"0" * difficulty`: it stops exactly when such a nonce exists, and it never
stops when the target is longer than every digest.
-/

namespace BlockchainMessaging

namespace Block

variable (digest : Json → String)

@[simp] theorem calculateHash_incrementNonce_nonce (b : Block) (n : Int) :
    { b.incrementNonce digest with nonce := n }.calculateHash digest =
      { b with nonce := n }.calculateHash digest := rfl

theorem mine_skips {d : Int} {fuel : Nat} {b b' : Block} (hb : b.hash = b.calculateHash digest)
    (h : b.mine digest d fuel = some b') :
    b.nonce ≤ b'.nonce ∧ ∀ n, b.nonce ≤ n → n < b'.nonce →
      startswith ({ b with nonce := n }.calculateHash digest) (zeros d) = false := by
  induction fuel generalizing b with
  | zero =>
    simp only [mine, Option.ite_none_right_eq_some, Option.some.injEq] at h
    obtain ⟨-, rfl⟩ := h
    exact ⟨Int.le_refl _, fun n h₁ h₂ => absurd h₂ (by omega)⟩
  | succ fuel ih =>
    simp only [mine] at h
    split_ifs at h with hs
    · cases h
      exact ⟨Int.le_refl _, fun n h₁ h₂ => absurd h₂ (by omega)⟩
    · obtain ⟨hle, hskip⟩ := ih rfl h
      refine ⟨by simp only [incrementNonce] at hle; omega, fun n h₁ h₂ => ?_⟩
      rcases (show b.nonce < n ∨ b.nonce = n by omega) with h₁ | rfl
      · exact hskip n h₁ h₂
      · rw [Bool.eq_false_iff, ← hb]
        exact hs

theorem mine_of_startswith {d : Int} {b : Block} (hb : b.hash = b.calculateHash digest) (k : Nat)
    (hk : startswith ({ b with nonce := b.nonce + k }.calculateHash digest) (zeros d) = true) :
    ∃ b', b.mine digest d k = some b' := by
  induction k generalizing b with
  | zero =>
    rw [show b.nonce + ((0 : Nat) : Int) = b.nonce by omega] at hk
    exact ⟨b, by rw [mine, hb, if_pos hk]⟩
  | succ k ih =>
    by_cases hs : startswith b.hash (zeros d) = true
    · exact ⟨b, by rw [mine, if_pos hs]⟩
    · rw [mine, if_neg hs]
      apply ih rfl
      have e : (b.incrementNonce digest).nonce + k = b.nonce + ↑(k + 1) := by
        simp only [incrementNonce]; omega
      rw [e]
      exact hk

/-- `Block.mine(d)` on a block whose hash is its own, when it returns: the block's nonce is the
least one at or above the starting nonce whose hash starts with `"0" * d`, its hash is the hash of
its contents, and `index`, `timestamp`, `data` and `previous_hash` are the starting block's. -/
theorem mine_least_nonce {d : Int} {fuel : Nat} {b b' : Block}
    (hb : b.hash = b.calculateHash digest) (h : b.mine digest d fuel = some b') :
    b.nonce ≤ b'.nonce ∧
      startswith ({ b with nonce := b'.nonce }.calculateHash digest) (zeros d) = true ∧
      (∀ n, b.nonce ≤ n → n < b'.nonce →
        startswith ({ b with nonce := n }.calculateHash digest) (zeros d) = false) ∧
      b'.hash = b'.calculateHash digest ∧ b'.index = b.index ∧ b'.timestamp = b.timestamp ∧
      b'.data = b.data ∧ b'.previousHash = b.previousHash := by
  obtain ⟨hp, hi, ht, hd, hprev, hc⟩ := mine_eq_some digest h
  obtain ⟨hle, hskip⟩ := mine_skips digest hb h
  have hcalc : b'.calculateHash digest = { b with nonce := b'.nonce }.calculateHash digest := by
    simp only [calculateHash, hi, ht, hd, hprev]
  refine ⟨hle, ?_, hskip, hc hb, hi, ht, hd, hprev⟩
  rw [← hcalc, ← hc hb]
  exact hp

def sampleDigest (v : Json) : String :=
  if (v.get? "nonce" >>= Json.asInt?) = some 1 then "00" else "11"

theorem mine_least_nonce_sampleDigest :
    let b := new sampleDigest 0 0 [] "" 0
    b.hash = b.calculateHash sampleDigest ∧
      b.mine sampleDigest 2 1 = some { b with nonce := 1, hash := "00" } ∧
      ∀ n, b.nonce ≤ n → n < 1 →
        startswith ({ b with nonce := n }.calculateHash sampleDigest) (zeros 2) = false :=
  ⟨rfl, rfl, (@mine_least_nonce sampleDigest 2 1 (new sampleDigest 0 0 [] "" 0)
    ⟨0, 0, [], "", 1, "00"⟩ rfl rfl).2.2.1⟩

theorem new_mine_terminates_iff (d i : Int) (t : Float) (data : Dict) (p : String) :
    (∃ fuel b', (new digest i t data p 0).mine digest d fuel = some b') ↔
      ∃ n : Nat, startswith (new digest i t data p n).hash (zeros d) = true := by
  constructor
  · rintro ⟨fuel, b', h⟩
    obtain ⟨hp, hi, ht, hd, hprev, hc⟩ := mine_eq_some digest h
    have hn : (b'.nonce.toNat : Int) = b'.nonce := Int.toNat_of_nonneg (mine_skips digest rfl h).1
    have hb' : (new digest i t data p b'.nonce.toNat).hash = b'.hash := by
      rw [hc rfl]
      simp only [new, calculateHash, hi, ht, hd, hprev, hn]
    exact ⟨b'.nonce.toNat, hb' ▸ hp⟩
  · rintro ⟨n, hn⟩
    have e : (new digest i t data p 0).nonce + n = n := Int.zero_add _
    obtain ⟨b', h⟩ := mine_of_startswith digest (b := new digest i t data p 0) rfl n (by
      rw [e]
      exact hn)
    exact ⟨n, b', h⟩

theorem mine_eq_none_of_length_lt {d : Int} (hlen : ∀ v, ((digest v).length : Int) < d)
    {b : Block} (hb : b.hash = b.calculateHash digest) (fuel : Nat) :
    b.mine digest d fuel = none := by
  cases h : b.mine digest d fuel with
  | none => rfl
  | some b' =>
    obtain ⟨hp, -, -, -, -, hc⟩ := mine_eq_some digest h
    have hle := le_length_of_startswith_zeros hp
    rw [hc hb] at hle
    exact absurd (hlen _) (Int.not_lt.2 hle)

end Block

/-- `Blockchain(d)` returns, for enough fuel, exactly when some nonce gives the genesis block a
hash starting with `"0" * d`; `mine_pending` returns exactly when nothing is pending, or the
chain has a latest block and some nonce gives the new block such a hash. -/
theorem mining_terminates_iff (digest : Json → String) (now : Float) :
    (∀ d : Int, (∃ fuel bc, Blockchain.init digest d now fuel = some bc) ↔
      ∃ n : Nat, startswith (Block.new digest 0 now Blockchain.genesisData (zeros 64) n).hash
        (zeros d) = true) ∧
    ∀ bc : Blockchain, (∃ fuel r, bc.minePending digest fuel now = some r) ↔
      bc.pendingData = [] ∨ ∃ latest, bc.latestBlock = some latest ∧ ∃ n : Nat,
        startswith (Block.new digest bc.chain.length now [("messages", .list bc.pendingData)]
          latest.hash n).hash (zeros bc.difficulty) = true := by
  refine ⟨fun d => ?_, fun bc => ?_⟩
  · rw [← Block.new_mine_terminates_iff]
    simp only [Blockchain.init, Blockchain.createGenesisBlock, Option.bind_eq_bind,
      Option.bind_eq_some, Option.pure_def, Option.some.injEq]
    exact exists_congr fun _ => ⟨fun ⟨_, g, hg, _⟩ => ⟨g, hg⟩, fun ⟨g, hg⟩ => ⟨_, g, hg, rfl⟩⟩
  · by_cases he : bc.pendingData = []
    · exact iff_of_true ⟨0, _, Blockchain.minePending_of_isEmpty digest 0 now he⟩ (.inl he)
    rw [or_iff_right he]
    constructor
    · rintro ⟨fuel, ⟨bc', r⟩, h⟩
      rcases Blockchain.minePending_eq_some digest h with ⟨he', -⟩ | ⟨latest, b, -, hl, hb, -⟩
      · exact absurd he' he
      · exact ⟨latest, hl, (Block.new_mine_terminates_iff digest _ _ _ _ _).1 ⟨fuel, b, hb⟩⟩
    · rintro ⟨latest, hl, hn⟩
      obtain ⟨fuel, b, hb⟩ := (Block.new_mine_terminates_iff digest _ _ _ _ _).2 hn
      refine ⟨fuel, ({ bc with chain := bc.chain ++ [b], pendingData := [] }, some b), ?_⟩
      simp only [Blockchain.minePending, List.isEmpty_iff, he, if_false, hl, hb,
        Option.bind_eq_bind, Option.some_bind, Option.pure_def]

/-- Even with the digest `"0" * 64` for every input, which meets every target up to 64 zeros,
`Blockchain(65)` never returns: no 64-character hash starts with 65 zeros. -/
theorem init_loops_at_65 : ¬∃ fuel bc, Blockchain.init (fun _ => zeros 64) 65 0 fuel = some bc := by
  rintro ⟨fuel, bc, h⟩
  have hlen : ∀ _ : Json, ((zeros 64).length : Int) < 65 := fun _ => by
    rw [length_zeros]
    decide
  simp only [Blockchain.init, Blockchain.createGenesisBlock, Option.bind_eq_bind,
    Block.mine_eq_none_of_length_lt (fun _ => zeros 64) hlen
      (b := Block.new (fun _ => zeros 64) 0 0 Blockchain.genesisData (zeros 64) 0) rfl,
    Option.none_bind] at h
  cases h

end BlockchainMessaging
