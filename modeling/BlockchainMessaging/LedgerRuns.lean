import BlockchainMessaging.Blockchain

/-!
Runs of a ledger from `Blockchain(d)`: any sequence of `add_data` and `mine_pending` calls in
which every mining loop returns. `ChainInvariant` is what every reachable chain satisfies; the
history (`get_messages()` followed by `pending_data`) is every payload passed to `add_data`.
-/

namespace BlockchainMessaging

inductive LedgerCall where
  | addData (data : Json)
  | minePending (now : Float)

def LedgerCall.payload? : LedgerCall → Option Json
  | .addData data => some data
  | .minePending _ => none

variable (digest : Json → String)

inductive LedgerStep : Blockchain → LedgerCall → Blockchain → Prop
  | addData (bc : Blockchain) (data : Json) : LedgerStep bc (.addData data) (bc.addData data)
  | minePending {bc bc' : Blockchain} {fuel : Nat} {now : Float} {r : Option Block} :
      bc.minePending digest fuel now = some (bc', r) → LedgerStep bc (.minePending now) bc'

inductive LedgerRun (d : Int) : List LedgerCall → Blockchain → Prop
  | init {now : Float} {fuel : Nat} {bc : Blockchain} :
      Blockchain.init digest d now fuel = some bc → LedgerRun d [] bc
  | step {calls : List LedgerCall} {bc bc' : Blockchain} {c : LedgerCall} :
      LedgerRun d calls bc → LedgerStep digest bc c bc' → LedgerRun d (calls ++ [c]) bc'

structure ChainInvariant (d : Int) (chain : List Block) : Prop where
  nonempty : chain ≠ []
  genesis : ∀ h : 0 < chain.length, chain[0].previousHash = zeros 64
  index : ∀ (i : Nat) (h : i < chain.length), chain[i].index = i
  hash : ∀ b ∈ chain, b.hash = b.calculateHash digest
  proofOfWork : ∀ b ∈ chain, startswith b.hash (zeros d) = true
  link : ∀ (i : Nat) (h : i + 1 < chain.length), chain[i + 1].previousHash = chain[i].hash

namespace ChainInvariant

variable {digest} {d : Int}

theorem singleton {g : Block} (hi : g.index = 0) (hp : g.previousHash = zeros 64)
    (hh : g.hash = g.calculateHash digest) (hw : startswith g.hash (zeros d) = true) :
    ChainInvariant digest d [g] where
  nonempty := List.cons_ne_nil _ _
  genesis _ := hp
  index i h := by
    obtain rfl : i = 0 := by simp at h; omega
    exact hi
  hash := List.forall_mem_singleton.mpr hh
  proofOfWork := List.forall_mem_singleton.mpr hw
  link i h := by simp at h

theorem append {chain : List Block} {b : Block} (hc : ChainInvariant digest d chain)
    (hi : b.index = chain.length) (hp : chain.getLast?.map Block.hash = some b.previousHash)
    (hh : b.hash = b.calculateHash digest) (hw : startswith b.hash (zeros d) = true) :
    ChainInvariant digest d (chain ++ [b]) where
  nonempty := by simp
  genesis h := by
    have h0 : 0 < chain.length := List.length_pos.mpr hc.nonempty
    rw [List.getElem_append_left h0]
    exact hc.genesis h0
  index i h := by
    rcases Nat.lt_or_ge i chain.length with hlt | hge
    · rw [List.getElem_append_left hlt]; exact hc.index i hlt
    · obtain rfl : i = chain.length := by simp at h; omega
      simp [hi]
  hash := List.forall_mem_append.mpr ⟨hc.hash, List.forall_mem_singleton.mpr hh⟩
  proofOfWork := List.forall_mem_append.mpr ⟨hc.proofOfWork, List.forall_mem_singleton.mpr hw⟩
  link i h := by
    rcases Nat.lt_or_ge (i + 1) chain.length with hlt | hge
    · rw [List.getElem_append_left hlt, List.getElem_append_left (by omega)]
      exact hc.link i hlt
    · obtain hi : i + 1 = chain.length := by simp at h; omega
      have hl : chain.getLast? = some chain[i] := by
        rw [List.getLast?_eq_getElem?, show chain.length - 1 = i by omega]
        exact List.getElem?_eq_getElem _
      have e1 : (chain ++ [b])[i] = chain[i] := List.getElem_append_left _
      have e2 : (chain ++ [b])[i + 1] = b := List.getElem_concat_length _ _ _ hi _
      simp only [hl, Option.map_some', Option.some.injEq] at hp
      rw [e1, e2, hp]

theorem isChainValid {bc : Blockchain} (hc : ChainInvariant digest bc.difficulty bc.chain) :
    bc.isChainValid digest = true := by
  rw [Blockchain.isChainValid_iff]
  intro i h
  rw [Blockchain.linkValid_iff]
  exact ⟨hc.hash _ (List.getElem_mem _), hc.link i h, hc.proofOfWork _ (List.getElem_mem _)⟩

end ChainInvariant

theorem init_eq_some {d : Int} {now : Float} {fuel : Nat} {bc : Blockchain}
    (h : Blockchain.init digest d now fuel = some bc) :
    ∃ g, (Block.new digest 0 now Blockchain.genesisData (zeros 64) 0).mine digest d fuel = some g ∧
      bc = ⟨[g], [], d⟩ := by
  simp only [Blockchain.init, Blockchain.createGenesisBlock, Option.bind_eq_bind,
    Option.bind_eq_some, Option.pure_def, Option.some.injEq] at h
  obtain ⟨g, hg, rfl⟩ := h
  exact ⟨g, hg, rfl⟩

theorem init_invariant {d : Int} {now : Float} {fuel : Nat} {bc : Blockchain}
    (h : Blockchain.init digest d now fuel = some bc) :
    ChainInvariant digest d bc.chain ∧ bc.difficulty = d := by
  obtain ⟨g, hg, rfl⟩ := init_eq_some digest h
  obtain ⟨hw, hi, -, -, hp, hh⟩ := Block.mine_eq_some digest hg
  exact ⟨.singleton hi hp (hh rfl) hw, rfl⟩

theorem init_history {d : Int} {now : Float} {fuel : Nat} {bc : Blockchain}
    (h : Blockchain.init digest d now fuel = some bc) : bc.history = some [] := by
  obtain ⟨g, -, rfl⟩ := init_eq_some digest h
  rfl

theorem step_invariant {d : Int} {bc bc' : Blockchain} {c : LedgerCall}
    (hc : ChainInvariant digest d bc.chain ∧ bc.difficulty = d) (hs : LedgerStep digest bc c bc') :
    ChainInvariant digest d bc'.chain ∧ bc'.difficulty = d := by
  cases hs with
  | addData => exact hc
  | minePending hm =>
    rcases Blockchain.minePending_eq_some digest hm with ⟨-, rfl, -⟩ | ⟨latest, b, -, hl, hb, rfl, -⟩
    · exact hc
    obtain ⟨hw, hi, -, -, hp, hh⟩ := Block.mine_eq_some digest hb
    refine ⟨hc.1.append hi ?_ (hh rfl) (hc.2 ▸ hw), hc.2⟩
    simp only [Blockchain.latestBlock] at hl
    simp [hl, hp, Block.new]

/-- Every state reachable from `Blockchain(d)` by `add_data` and `mine_pending` calls whose
mining returns satisfies the chain invariant, and so passes `is_chain_valid()`. -/
theorem ledger_run_invariant {d : Int} {calls : List LedgerCall} {bc : Blockchain}
    (h : LedgerRun digest d calls bc) :
    ChainInvariant digest d bc.chain ∧ bc.isChainValid digest = true := by
  have hinv : ChainInvariant digest d bc.chain ∧ bc.difficulty = d := by
    induction h with
    | init hi => exact init_invariant digest hi
    | step _ hs ih => exact step_invariant digest ih hs
  exact ⟨hinv.1, ChainInvariant.isChainValid (hinv.2 ▸ hinv.1)⟩

theorem ledger_run_invariant_twoBlocks :
    ChainInvariant (fun _ => "00") 2
        [⟨0, 0, Blockchain.genesisData, zeros 64, 0, "00"⟩,
          ⟨1, 0, [("messages", .list [.str "m"])], "00", 0, "00"⟩] ∧
      Blockchain.isChainValid (fun _ => "00")
        ⟨[⟨0, 0, Blockchain.genesisData, zeros 64, 0, "00"⟩,
          ⟨1, 0, [("messages", .list [.str "m"])], "00", 0, "00"⟩], [], 2⟩ = true :=
  ledger_run_invariant (fun _ => "00")
    (.step (.step (@LedgerRun.init (fun _ => "00") 2 0 0 _ rfl) (.addData _ (.str "m")))
      (@LedgerStep.minePending (fun _ => "00") _ _ 0 0 _ rfl))

theorem minePending_appends {bc bc' : Blockchain} {fuel : Nat} {now : Float} {r : Option Block}
    (h : bc.minePending digest fuel now = some (bc', r)) (hp : bc.pendingData ≠ []) :
    ∃ b, r = some b ∧ bc'.chain = bc.chain ++ [b] ∧ b.index = bc.chain.length ∧
      bc.latestBlock.map Block.hash = some b.previousHash ∧
      b.data = [("messages", .list bc.pendingData)] ∧ bc'.pendingData = [] := by
  rcases Blockchain.minePending_eq_some digest h with ⟨he, -, -⟩ | ⟨latest, b, -, hl, hb, rfl, rfl⟩
  · exact absurd he hp
  obtain ⟨-, hi, -, hd, hprev, -⟩ := Block.mine_eq_some digest hb
  exact ⟨b, rfl, rfl, hi, by simp [hl, hprev, Block.new], hd, rfl⟩

theorem LedgerStep.history {bc bc' : Blockchain} {c : LedgerCall}
    (hs : LedgerStep digest bc c bc') : bc'.history = bc.history.map (· ++ c.payload?.toList) := by
  cases hs with
  | addData p => exact Blockchain.history_addData bc p
  | minePending hm => simp [Blockchain.history_minePending digest hm, LedgerCall.payload?]

theorem LedgerRun.history {d : Int} {calls : List LedgerCall} {bc : Blockchain}
    (h : LedgerRun digest d calls bc) : bc.history = some (calls.filterMap LedgerCall.payload?) := by
  induction h with
  | init hi => exact init_history digest hi
  | @step calls bc bc' c _ hs ih =>
    rw [hs.history, ih, List.filterMap_append]
    cases c <;> rfl

/-- Over every run of `Blockchain(d)`, `mine_pending` either does nothing (empty buffer) or
drains the whole buffer into one appended block, and the ledger's history is exactly the
payloads passed to `add_data`, in call order. -/
theorem ledger_history_conserved {d : Int} {calls : List LedgerCall} {bc : Blockchain}
    (h : LedgerRun digest d calls bc) :
    (∀ fuel now, bc.pendingData = [] → bc.minePending digest fuel now = some (bc, none)) ∧
      (∀ fuel now bc' r, bc.minePending digest fuel now = some (bc', r) → bc.pendingData ≠ [] →
        ∃ b, r = some b ∧ bc'.chain = bc.chain ++ [b] ∧ b.index = bc.chain.length ∧
          bc.latestBlock.map Block.hash = some b.previousHash ∧
          b.data = [("messages", .list bc.pendingData)] ∧ bc'.pendingData = []) ∧
      bc.history = some (calls.filterMap LedgerCall.payload?) := by
  exact ⟨fun fuel now => Blockchain.minePending_of_isEmpty digest fuel now,
    fun _ _ _ _ hm => minePending_appends digest hm, h.history⟩

theorem ledger_history_conserved_twoCalls :
    (Blockchain.history ⟨[⟨0, 0, Blockchain.genesisData, zeros 64, 0, "00"⟩,
        ⟨1, 0, [("messages", .list [.str "m"])], "00", 0, "00"⟩], [.str "n"], 2⟩) =
      some ([LedgerCall.addData (.str "m"), .minePending 0, .addData (.str "n")].filterMap
        LedgerCall.payload?) :=
  (ledger_history_conserved (fun _ => "00")
    (.step (.step (.step (@LedgerRun.init (fun _ => "00") 2 0 0 _ rfl) (.addData _ (.str "m")))
      (@LedgerStep.minePending (fun _ => "00") _ _ 0 0 _ rfl)) (.addData _ (.str "n")))).2.2

/-! ### Runs from any state

A ledger need not start at `Blockchain(d)`: `from_dict` loads any chain it is given. From every
state, the calls only ever append blocks, keep the difficulty, keep `is_chain_valid()` true once
it is, and add to the history exactly the payloads passed to `add_data`. -/

inductive LedgerSteps : Blockchain → List LedgerCall → Blockchain → Prop
  | nil (bc : Blockchain) : LedgerSteps bc [] bc
  | step {bc bc' bc'' : Blockchain} {calls : List LedgerCall} {c : LedgerCall} :
      LedgerSteps bc calls bc' → LedgerStep digest bc' c bc'' → LedgerSteps bc (calls ++ [c]) bc''

namespace Blockchain

theorem linksValid_append (d : Int) (b : Block) : ∀ (previous : Block) (l : List Block),
    linksValid digest d previous (l ++ [b]) =
      (linksValid digest d previous l && linkValid digest d (l.getLast?.getD previous) b)
  | _, [] => by simp [linksValid]
  | p, c :: rest => by
    rw [List.cons_append, linksValid, linksValid, linksValid_append d b c rest, List.getLast?_cons,
      Option.getD_some, Bool.and_assoc]

theorem isChainValid_snoc {bc : Blockchain} {latest : Block} (hl : bc.latestBlock = some latest)
    (b : Block) (p : List Json) :
    isChainValid digest { bc with chain := bc.chain ++ [b], pendingData := p } =
      (bc.isChainValid digest && linkValid digest bc.difficulty latest b) := by
  unfold latestBlock at hl
  cases hc : bc.chain with
  | nil => simp [hc] at hl
  | cons g rest =>
    simp only [hc, List.getLast?_cons, Option.some.injEq] at hl
    simp only [isChainValid, hc, List.cons_append, linksValid_append, hl]

end Blockchain

theorem LedgerStep.preserves {bc bc' : Blockchain} {c : LedgerCall}
    (hs : LedgerStep digest bc c bc') :
    bc.chain <+: bc'.chain ∧ bc'.difficulty = bc.difficulty ∧
      (bc.isChainValid digest = true → bc'.isChainValid digest = true) := by
  cases hs with
  | addData => exact ⟨List.prefix_refl _, rfl, id⟩
  | minePending hm =>
    rcases Blockchain.minePending_eq_some digest hm with
      ⟨-, rfl, -⟩ | ⟨latest, b, -, hl, hb, rfl, -⟩
    · exact ⟨List.prefix_refl _, rfl, id⟩
    obtain ⟨hw, -, -, -, hp, hh⟩ := Block.mine_eq_some digest hb
    refine ⟨List.prefix_append _ _, rfl, fun hv => ?_⟩
    rw [Blockchain.isChainValid_snoc digest hl, hv, Bool.true_and, Blockchain.linkValid_iff]
    exact ⟨hh rfl, hp, hw⟩

/-- From every ledger state, a loaded one included, every run of `add_data` and `mine_pending`
calls whose mining returns only appends blocks (none is removed or changed), keeps the
difficulty, keeps `is_chain_valid()` true once it is, and extends the history by exactly the
payloads passed to `add_data`, in call order. -/
theorem ledger_steps_append_only {bc bc' : Blockchain} {calls : List LedgerCall}
    (h : LedgerSteps digest bc calls bc') :
    bc.chain <+: bc'.chain ∧ bc'.difficulty = bc.difficulty ∧
      (bc.isChainValid digest = true → bc'.isChainValid digest = true) ∧
      bc'.history = bc.history.map (· ++ calls.filterMap LedgerCall.payload?) := by
  induction h with
  | nil => exact ⟨List.prefix_refl _, rfl, id, by cases bc.history <;> simp⟩
  | @step bc₁ bc₂ calls c _ hs ih =>
    obtain ⟨hc, hd, hv, hh⟩ := ih
    obtain ⟨hc', hd', hv'⟩ := hs.preserves
    refine ⟨hc.trans hc', hd'.trans hd, hv' ∘ hv, ?_⟩
    rw [hs.history, hh, List.filterMap_append, Option.map_map]
    cases c <;> simp [Function.comp_def, LedgerCall.payload?]

/-- A loaded one-block chain whose block's stored hash is not its own: one payload, one mined
block, and the chain still passes. -/
theorem ledger_steps_append_only_loaded :
    Blockchain.isChainValid (fun _ => "00")
      ⟨[⟨0, 0, [], zeros 64, 0, "x"⟩, ⟨1, 0, [("messages", .list [.str "m"])], "x", 0, "00"⟩], [],
        2⟩ = true :=
  (ledger_steps_append_only (fun _ => "00")
    (.step (.step (.nil ⟨[⟨0, 0, [], zeros 64, 0, "x"⟩], [], 2⟩) (.addData _ (.str "m")))
      (@LedgerStep.minePending (fun _ => "00") _ _ 0 0 _ rfl))).2.2.1 rfl

end BlockchainMessaging
