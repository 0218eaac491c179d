import BlockchainMessaging.Blockchain

/-!
`to_dict` and `from_dict` of `Block` and `Blockchain`. Loading keeps every stored `hash` as it
is, so a tampered chain stays tampered after a round trip.
-/

namespace BlockchainMessaging

namespace Blockchain

variable (digest : Json → String)

def IsDoc (d : Json) : Prop :=
  ∃ (difficulty : Int) (chain : List Json) (pendingData : List Json),
    (∀ b ∈ chain, Block.IsDoc b) ∧
      d = .dict [("difficulty", .int difficulty), ("chain", .list chain),
        ("pending_data", .list pendingData)]

end Blockchain

end BlockchainMessaging
