import BlockchainMessaging.Blockchain

/-!
What `is_chain_valid()` establishes when it returns `True`. Its loop starts at `i = 1`: every
later block is checked against its predecessor, while `chain[0]` is never hashed or compared,
and an empty chain passes.
-/

namespace BlockchainMessaging

namespace Blockchain

variable (digest : Json → String)

theorem linksValid_congr {d : Int} {p q : Block} (h : p.hash = q.hash) (l : List Block) :
    linksValid digest d p l = linksValid digest d q l := by
  cases l <;> simp [linksValid, linkValid, h]

/-- A chain whose blocks from index 1 on all pass the loop's checks. Block `0` and the empty
chain are not checked; rewriting the `data` or `previous_hash` of a block at index `i ≥ 1`
(its stored hash kept) so that `calculate_hash()` changes is caught, and any rewrite of block
`0` is not. -/
theorem isChainValid_guarantees :
    (∀ bc : Blockchain, bc.isChainValid digest = true →
      ∀ (i : Nat) (h : i + 1 < bc.chain.length),
        bc.chain[i + 1].hash = bc.chain[i + 1].calculateHash digest ∧
          startswith bc.chain[i + 1].hash (zeros bc.difficulty) = true ∧
          bc.chain[i + 1].previousHash = bc.chain[i].hash) ∧
      (∀ pending d, isChainValid digest ⟨[], pending, d⟩ = true) ∧
      (∀ g pending d, isChainValid digest ⟨[g], pending, d⟩ = true) ∧
      (∀ (bc : Blockchain) (g : Block) (data : Dict) (previousHash : String)
          (rest : List Block), bc.chain = g :: rest →
        isChainValid digest { bc with chain := { g with data, previousHash } :: rest } =
          bc.isChainValid digest) ∧
      (∀ bc : Blockchain, bc.isChainValid digest = true →
        ∀ (i : Nat) (h : i < bc.chain.length), 0 < i → ∀ (data : Dict) (previousHash : String),
          { bc.chain[i] with data, previousHash }.calculateHash digest ≠
            bc.chain[i].calculateHash digest →
          isChainValid digest
            { bc with chain := bc.chain.set i { bc.chain[i] with data, previousHash } } = false) := by
  refine ⟨fun bc hv i h => ?_, fun _ _ => rfl, fun _ _ _ => rfl,
    fun bc g data previousHash rest hc => ?_, fun bc hv i h hi data previousHash hne => ?_⟩
  · have := (isChainValid_iff digest bc).mp hv i h
    rw [linkValid_iff] at this
    exact ⟨this.1, this.2.2, this.2.1⟩
  · simp only [isChainValid, hc]
    exact linksValid_congr digest (by rfl) rest
  · obtain ⟨j, rfl⟩ : ∃ j, i = j + 1 := ⟨i - 1, by omega⟩
    rw [Bool.eq_false_iff]
    intro hv'
    have hlen : j + 1 < (bc.chain.set (j + 1) { bc.chain[j + 1] with data, previousHash }).length := by
      simpa using h
    have hl := (linkValid_iff digest _ _ _).mp ((isChainValid_iff digest _).mp hv' j hlen)
    simp only [List.getElem_set_self] at hl
    have hold := ((linkValid_iff digest _ _ _).mp ((isChainValid_iff digest bc).mp hv j h)).1
    exact hne (hl.1.symm.trans hold)

/-- `is_chain_valid()` passes an empty chain, and a one-block chain whose stored hash is neither
its contents' hash nor mined to the difficulty. -/
theorem isChainValid_skips_genesis :
    isChainValid (fun _ => "00") ⟨[], [], 2⟩ = true ∧
      isChainValid (fun _ => "00") ⟨[⟨0, 0, [], zeros 64, 0, "x"⟩], [], 2⟩ = true ∧
      (⟨0, 0, [], zeros 64, 0, "x"⟩ : Block).hash ≠
        Block.calculateHash (fun _ => "00") ⟨0, 0, [], zeros 64, 0, "x"⟩ ∧
      startswith "x" (zeros 2) = false :=
  ⟨rfl, rfl, by decide, rfl⟩

theorem isChainValid_guarantees_tampered :
    let digest := fun v : Json => ((v.get? "previous_hash").bind Json.asStr?).getD ""
    let bc : Blockchain := ⟨[⟨0, 0, [], "", 0, "g"⟩, ⟨1, 0, [], "g", 0, "g"⟩], [], 0⟩
    bc.isChainValid digest = true ∧
      { bc.chain[1] with data := [], previousHash := "h" }.calculateHash digest ≠
        bc.chain[1].calculateHash digest ∧
      isChainValid digest
        { bc with chain := bc.chain.set 1 { bc.chain[1] with data := [], previousHash := "h" } } =
          false := by
  intro digest bc
  exact ⟨rfl, by decide, (isChainValid_guarantees digest).2.2.2.2 bc rfl 1 (by decide) (by decide)
    [] "h" (by decide)⟩

end Blockchain

end BlockchainMessaging
