import BlockchainMessaging.Utf8
import BlockchainMessaging.Blockchain

/-!
What `engine/engine.py` imports from modules that are not among the sources:
`core/message.py`, `core/crypto.py`, `network/peer.py` and `engine/chunker.py`. Their data
follows the spec's data model; the functions the engine calls are the fields of `Primitives`,
together with the block digest of `core/blockchain.py`: `encrypt_message` is given the random
nonce it draws, `decrypt_message` is `none` where it raises, and `add_chunk` acts on a
reassembler state of type `R`. `Fresh` is what the runtime draws when a message is created
(`uuid4()` and `time.time()`). `Primitives.Sound` is what a delivery relies on, and
`Primitives.plain` is a concrete instance that meets it.
-/

namespace BlockchainMessaging

/-- Modelled from the spec: `MessageType` of `core/message.py`, the five message kinds. -/
inductive MessageType where
  | text
  | ack
  | streamStart
  | streamChunk
  | streamEnd
deriving DecidableEq, Repr

/-- Modelled from the spec: `ChunkInfo` of `core/message.py`. -/
structure ChunkInfo where
  streamId : String
  sequence : Int
  total : Int
deriving DecidableEq, Repr

/-- Modelled from the spec: `MessagePayload` of `core/message.py`. -/
structure MessagePayload where
  id : String
  type : MessageType
  sender : String
  recipient : String
  timestamp : Float
  content : Bytes
  nonce : Option Bytes
  signature : Bytes
  metadata : List (String × String)
  chunkInfo : Option ChunkInfo
deriving Repr

structure Fresh where
  id : String
  timestamp : Float
deriving Repr

/-- Modelled from the spec: `MessagePayload.create` draws the id and the timestamp and leaves
`chunk_info` unset. -/
def MessagePayload.create (fresh : Fresh) (msgType : MessageType) (sender recipient : String)
    (content signature : Bytes) (nonce : Option Bytes) (metadata : List (String × String)) :
    MessagePayload :=
  ⟨fresh.id, msgType, sender, recipient, fresh.timestamp, content, nonce, signature, metadata,
    none⟩

/-- Modelled from the spec: `Peer` of `network/peer.py`, the fields the engine reads. -/
structure Peer where
  id : String
  publicKey : Option Bytes
  encryptionKey : Option Bytes
deriving DecidableEq, Repr

structure KeyPair where
  privateKey : Bytes
  publicKey : Bytes
deriving DecidableEq, Repr

/-- Modelled from the spec: `Wallet` of `core/crypto.py`. -/
structure Wallet where
  address : String
  name : String
  signingKeys : KeyPair
  encryptionKeys : KeyPair
deriving DecidableEq, Repr

/-- Modelled from the spec: `Chunk` of `engine/chunker.py`. -/
structure Chunk where
  streamId : String
  sequence : Int
  total : Int
  data : Bytes
deriving DecidableEq, Repr

structure ReceivedMessage where
  id : String
  sender : String
  senderName : Option String
  content : PyStr
  timestamp : Float
  verified : Bool
deriving Repr

structure Primitives (R : Type) where
  signMessage : Bytes → Bytes → Bytes
  verifySignature : Bytes → Bytes → Bytes → Bool
  deriveSharedSecret : Bytes → Bytes → Bytes
  encryptMessage : Bytes → Bytes → Bytes → Bytes
  decryptMessage : Bytes → Bytes → Bytes → Option Bytes
  getSignableContent : MessagePayload → Bytes
  createAckMessage : String → String → String → (Bytes → Bytes) → Fresh → MessagePayload
  addChunk : R → Chunk → R × Option Bytes
  digest : Json → String

/-- Modelled from the spec: `Wallet.sign` signs with the wallet's private signing key. -/
def Wallet.sign {R : Type} (X : Primitives R) (w : Wallet) (data : Bytes) : Bytes :=
  X.signMessage data w.signingKeys.privateKey

structure Primitives.Sound {R : Type} (X : Primitives R) (a b : Wallet) : Prop where
  verify_sign : ∀ m, X.verifySignature m (a.sign X m) a.signingKeys.publicKey = true
  derive_symm : X.deriveSharedSecret a.encryptionKeys.privateKey b.encryptionKeys.publicKey =
    X.deriveSharedSecret b.encryptionKeys.privateKey a.encryptionKeys.publicKey
  decrypt_encrypt : ∀ plaintext secret nonce,
    X.decryptMessage (X.encryptMessage plaintext secret nonce) secret nonce = some plaintext
  signable_signature : ∀ (m : MessagePayload) (signature : Bytes),
    X.getSignableContent { m with signature } = X.getSignableContent m

def Primitives.plain : Primitives Unit where
  signMessage m k := k ++ m
  verifySignature m s k := s == k ++ m
  deriveSharedSecret a b := List.zipWith (fun x y => UInt8.ofNat (x.toNat + y.toNat)) a b
  encryptMessage m s n := s ++ n ++ m
  decryptMessage c s n := if (s ++ n).isPrefixOf c then some (c.drop (s ++ n).length) else none
  getSignableContent m := m.sender.data.map (fun c => UInt8.ofNat c.toNat) ++ m.content
  createAckMessage sender recipient original sign fresh :=
    let ack := MessagePayload.create fresh .ack sender recipient [] [] none [("original_id", original)]
    { ack with signature := sign ack.content }
  addChunk r _ := (r, none)
  digest _ := "00"

theorem Primitives.plain_sound (a b : Wallet) (ha : a.signingKeys.publicKey = a.signingKeys.privateKey)
    (hae : a.encryptionKeys.publicKey = a.encryptionKeys.privateKey)
    (hbe : b.encryptionKeys.publicKey = b.encryptionKeys.privateKey) : plain.Sound a b where
  verify_sign m := by simp [plain, Wallet.sign, ha]
  derive_symm := by
    simp only [plain, hae, hbe]
    exact List.zipWith_comm_of_comm _ (fun x y => by rw [Nat.add_comm]) _ _
  decrypt_encrypt m s n := by simp [plain, List.append_assoc]
  signable_signature _ _ := rfl

end BlockchainMessaging
