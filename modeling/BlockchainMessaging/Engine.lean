import BlockchainMessaging.Message

/-!
`TransmissionEngine` of `engine/engine.py`. An `async` method runs without interruption up to
its first `await`; `Proc` is what is left of it then: the call it awaits, and how it goes on
from the way that call ended (`except Exception` makes a raising callback end like one that
returned). The peer directory is `getPeer`. The callback list is the one registered when the
handler starts, as no modelled call registers a callback, and all the observers are handed one
`ReceivedMessage` value: an observer that changes the object it is given is outside the model.

`sendText` takes `fresh` for the new message and `nonce` for the random nonce of
`encrypt_message`; an unknown recipient returns `False` and a text that does not encode raises,
and neither records anything. `decryptContent` is `none` where `decrypt_message` raises.
`sendTextNoCache` is `send_text` of an engine without the `_shared_secrets` cache, and
`CacheAgrees` says that the cached secret for a peer is the one its encryption key derives.
-/

namespace BlockchainMessaging

inductive Outcome where
  | returned
  | raised
deriving DecidableEq, Repr

abbrev Callback := Nat

inductive Await where
  | callback (cb : Callback) (received : ReceivedMessage)
  | sendMessage (message : MessagePayload) (peerId : String)
  | broadcast (message : MessagePayload)

inductive Proc (σ : Type) where
  | done
  | await (call : Await) (next : Outcome → σ → σ × Proc σ)

namespace Proc

variable {σ : Type}

def first? : Proc σ → Option Await
  | done => none
  | await c _ => some c

def awaits : Proc σ → σ → List Outcome → List Await
  | done, _, _ => []
  | await c _, _, [] => [c]
  | await c next, s, o :: os => c :: (next o s).2.awaits (next o s).1 os

inductive Inert : Proc σ → Prop
  | done : Inert done
  | await {c : Await} {next : Outcome → σ → σ × Proc σ} :
      (∀ o s, (next o s).1 = s) → (∀ o s, Inert (next o s).2) → Inert (await c next)

end Proc

structure TransmissionEngine (R : Type) where
  wallet : Wallet
  getPeer : String → Option Peer
  blockchain : Blockchain
  reassembler : R
  messageCallbacks : List Callback
  sharedSecrets : List (String × Bytes)

namespace TransmissionEngine

variable {R : Type} (X : Primitives R)

def getSharedSecret (e : TransmissionEngine R) (peer : Peer) :
    TransmissionEngine R × Option Bytes :=
  match truthy peer.encryptionKey with
  | none => (e, none)
  | some key =>
    match e.sharedSecrets.lookup peer.id with
    | some secret => (e, some secret)
    | none =>
      let secret := X.deriveSharedSecret e.wallet.encryptionKeys.privateKey key
      ({ e with sharedSecrets := e.sharedSecrets ++ [(peer.id, secret)] }, some secret)

def messageEntry (m : MessagePayload) : Json :=
  .dict [("type", .str "message"), ("id", .str m.id), ("sender", .str m.sender),
    ("recipient", .str m.recipient), ("timestamp", .float m.timestamp)]

def broadcastEntry (m : MessagePayload) : Json :=
  .dict [("type", .str "broadcast"), ("id", .str m.id), ("sender", .str m.sender),
    ("timestamp", .float m.timestamp)]

def receivedEntry (m : MessagePayload) : Json :=
  .dict [("type", .str "received"), ("id", .str m.id), ("sender", .str m.sender),
    ("timestamp", .float m.timestamp)]

def sign (e : TransmissionEngine R) (m : MessagePayload) : MessagePayload :=
  { m with signature := e.wallet.sign X (X.getSignableContent m) }

def encryptContent (e : TransmissionEngine R) (peer : Peer) (encrypt : Bool)
    (plaintext nonce : Bytes) : TransmissionEngine R × Option Bytes × Bytes :=
  if encrypt && (truthy peer.encryptionKey).isSome then
    let r := e.getSharedSecret X peer
    match truthy r.2 with
    | some s => (r.1, some nonce, X.encryptMessage plaintext s nonce)
    | none => (r.1, none, plaintext)
  else (e, none, plaintext)

def dispatchText (e : TransmissionEngine R) (recipientId : String) (fresh : Fresh)
    (nonce : Option Bytes) (content : Bytes) : TransmissionEngine R × Proc (TransmissionEngine R) :=
  let message := e.sign X (.create fresh .text e.wallet.address recipientId content [] nonce
    [("name", e.wallet.name)])
  ({ e with blockchain := e.blockchain.addData (messageEntry message) },
    .await (.sendMessage message recipientId) fun _ e => (e, .done))

def sendText (e : TransmissionEngine R) (recipientId : String) (text : PyStr) (encrypt : Bool)
    (fresh : Fresh) (nonce : Bytes) : TransmissionEngine R × Proc (TransmissionEngine R) :=
  match e.getPeer recipientId with
  | none => (e, .done)
  | some peer =>
    match Utf8.encode text with
    | none => (e, .done)
    | some plaintext =>
      let r := e.encryptContent X peer encrypt plaintext nonce
      r.1.dispatchText X recipientId fresh r.2.1 r.2.2

def encryptContentNoCache (e : TransmissionEngine R) (peer : Peer) (encrypt : Bool)
    (plaintext nonce : Bytes) : Option Bytes × Bytes :=
  match encrypt, truthy peer.encryptionKey with
  | true, some key =>
    match truthy (some (X.deriveSharedSecret e.wallet.encryptionKeys.privateKey key)) with
    | some s => (some nonce, X.encryptMessage plaintext s nonce)
    | none => (none, plaintext)
  | _, _ => (none, plaintext)

def sendTextNoCache (e : TransmissionEngine R) (recipientId : String) (text : PyStr)
    (encrypt : Bool) (fresh : Fresh) (nonce : Bytes) :
    TransmissionEngine R × Proc (TransmissionEngine R) :=
  match e.getPeer recipientId with
  | none => (e, .done)
  | some peer =>
    match Utf8.encode text with
    | none => (e, .done)
    | some plaintext =>
      let r := e.encryptContentNoCache X peer encrypt plaintext nonce
      e.dispatchText X recipientId fresh r.1 r.2

def broadcastText (e : TransmissionEngine R) (text : PyStr) (fresh : Fresh) :
    TransmissionEngine R × Proc (TransmissionEngine R) :=
  match Utf8.encode text with
  | none => (e, .done)
  | some content =>
    let message := e.sign X (.create fresh .text e.wallet.address "*" content [] none
      [("name", e.wallet.name)])
    ({ e with blockchain := e.blockchain.addData (broadcastEntry message) },
      .await (.broadcast message) fun _ e => (e, .done))

def decryptContent (e : TransmissionEngine R) (message : MessagePayload) (peer : Peer) :
    TransmissionEngine R × Option Bytes :=
  match truthy message.nonce, truthy peer.encryptionKey with
  | some nonce, some _ =>
    let r := e.getSharedSecret X peer
    match truthy r.2 with
    | some s => (r.1, X.decryptMessage message.content s nonce)
    | none => (r.1, some message.content)
  | _, _ => (e, some message.content)

def notifyCallbacks (received : ReceivedMessage) (ack : MessagePayload) (peerId : String) :
    List Callback → Proc (TransmissionEngine R)
  | [] => .await (.sendMessage ack peerId) fun _ e => (e, .done)
  | cb :: cbs => .await (.callback cb received) fun _ e => (e, notifyCallbacks received ack peerId cbs)

def handleTextMessage (e : TransmissionEngine R) (message : MessagePayload) (peer : Peer)
    (verified : Bool) (ackFresh : Fresh) : TransmissionEngine R × Proc (TransmissionEngine R) :=
  let r := e.decryptContent X message peer
  match r.2 with
  | none => (r.1, .done)
  | some content =>
    match Utf8.decode content with
    | none => (r.1, .done)
    | some text =>
      let received : ReceivedMessage :=
        ⟨message.id, message.sender, message.metadata.lookup "name", text, message.timestamp,
          verified⟩
      let ack := X.createAckMessage r.1.wallet.address message.sender message.id
        (r.1.wallet.sign X) ackFresh
      ({ r.1 with blockchain := r.1.blockchain.addData (receivedEntry message) },
        notifyCallbacks received ack peer.id r.1.messageCallbacks)

def handleStreamMessage (e : TransmissionEngine R) (message : MessagePayload) :
    TransmissionEngine R :=
  match message.chunkInfo with
  | none => e
  | some info =>
    { e with reassembler := (X.addChunk e.reassembler
        ⟨info.streamId, info.sequence, info.total, message.content⟩).1 }

def handleIncoming (e : TransmissionEngine R) (message : MessagePayload) (peer : Peer)
    (ackFresh : Fresh) : TransmissionEngine R × Proc (TransmissionEngine R) :=
  match truthy peer.publicKey with
  | none => (e, .done)
  | some publicKey =>
    let verified := X.verifySignature (X.getSignableContent message) message.signature publicKey
    if !verified then (e, .done)
    else
      match message.type with
      | .text => e.handleTextMessage X message peer verified ackFresh
      | .ack => (e, .done)
      | .streamStart | .streamChunk | .streamEnd => (e.handleStreamMessage X message, .done)

def minePending (e : TransmissionEngine R) (fuel : Nat) (now : Float) :
    Option (TransmissionEngine R) :=
  (e.blockchain.minePending X.digest fuel now).map fun r => { e with blockchain := r.1 }

def CacheAgrees (e : TransmissionEngine R) (peer : Peer) : Prop :=
  ∀ s key, e.sharedSecrets.lookup peer.id = some s → truthy peer.encryptionKey = some key →
    s = X.deriveSharedSecret e.wallet.encryptionKeys.privateKey key

theorem getSharedSecret_cases (e : TransmissionEngine R) (peer : Peer) :
    (e.getSharedSecret X peer).1 = e ∨
      e.sharedSecrets.lookup peer.id = none ∧ ∃ key, truthy peer.encryptionKey = some key ∧
        (e.getSharedSecret X peer).1 = { e with sharedSecrets := e.sharedSecrets ++
          [(peer.id, X.deriveSharedSecret e.wallet.encryptionKeys.privateKey key)] } := by
  unfold getSharedSecret
  cases hk : truthy peer.encryptionKey with
  | none => exact .inl rfl
  | some key =>
    cases hl : e.sharedSecrets.lookup peer.id with
    | some s => exact .inl rfl
    | none => exact .inr ⟨rfl, key, rfl, rfl⟩

theorem getSharedSecret_eq (e : TransmissionEngine R) (peer : Peer) :
    ∃ secrets, (e.getSharedSecret X peer).1 = { e with sharedSecrets := secrets } := by
  rcases getSharedSecret_cases X e peer with h | ⟨-, _, -, h⟩ <;> rw [h]
  · exact ⟨_, rfl⟩
  · exact ⟨_, rfl⟩

theorem getSharedSecret_of_key {e : TransmissionEngine R} {peer : Peer} {key : Bytes}
    (hc : CacheAgrees X e peer) (hk : truthy peer.encryptionKey = some key) :
    (e.getSharedSecret X peer).2 =
      some (X.deriveSharedSecret e.wallet.encryptionKeys.privateKey key) := by
  cases hl : e.sharedSecrets.lookup peer.id with
  | none => simp only [getSharedSecret, hk, hl]
  | some s => simp only [getSharedSecret, hk, hl, hc s key hl hk]

theorem cacheAgrees_getSharedSecret {e : TransmissionEngine R} {peer q : Peer}
    (hq : CacheAgrees X e q)
    (hkey : q.id = peer.id → ∀ key key', truthy q.encryptionKey = some key →
      truthy peer.encryptionKey = some key' → key' = key) :
    CacheAgrees X (e.getSharedSecret X peer).1 q := by
  rcases getSharedSecret_cases X e peer with h | ⟨hl, key', hk', h⟩
  · rw [h]; exact hq
  · rw [h]
    intro s key hs hk
    simp only [List.lookup_append] at hs
    cases hq' : e.sharedSecrets.lookup q.id with
    | some s' =>
      rw [hq', Option.or_some] at hs
      exact hq s key (hq'.trans hs) hk
    | none =>
      by_cases hid : q.id = peer.id
      · simp only [hid, hl, List.lookup_cons_self, Option.none_or, Option.some.injEq] at hs
        rw [← hs, hkey hid key key' hk hk']
      · simp [hq', List.lookup_cons, beq_false_of_ne hid] at hs

theorem encryptContent_fst (e : TransmissionEngine R) (peer : Peer) (encrypt : Bool)
    (plaintext nonce : Bytes) :
    (e.encryptContent X peer encrypt plaintext nonce).1 = e ∨
      (e.encryptContent X peer encrypt plaintext nonce).1 = (e.getSharedSecret X peer).1 := by
  unfold encryptContent
  split
  · dsimp only
    split <;> exact .inr rfl
  · exact .inl rfl

theorem encryptContent_eq (e : TransmissionEngine R) (peer : Peer) (encrypt : Bool)
    (plaintext nonce : Bytes) :
    ∃ secrets, (e.encryptContent X peer encrypt plaintext nonce).1 =
      { e with sharedSecrets := secrets } := by
  rcases encryptContent_fst X e peer encrypt plaintext nonce with h | h <;> rw [h]
  · exact ⟨_, rfl⟩
  · exact getSharedSecret_eq X e peer

theorem decryptContent_fst (e : TransmissionEngine R) (message : MessagePayload) (peer : Peer) :
    (e.decryptContent X message peer).1 = e ∨
      (e.decryptContent X message peer).1 = (e.getSharedSecret X peer).1 := by
  unfold decryptContent
  split
  · dsimp only
    split <;> exact .inr rfl
  · exact .inl rfl

theorem decryptContent_eq (e : TransmissionEngine R) (message : MessagePayload) (peer : Peer) :
    ∃ secrets, (e.decryptContent X message peer).1 = { e with sharedSecrets := secrets } := by
  rcases decryptContent_fst X e message peer with h | h <;> rw [h]
  · exact ⟨_, rfl⟩
  · exact getSharedSecret_eq X e peer

theorem decryptContent_of_plain (e : TransmissionEngine R) {message : MessagePayload}
    {peer : Peer} (h : truthy message.nonce = none ∨ truthy peer.encryptionKey = none) :
    e.decryptContent X message peer = (e, some message.content) := by
  unfold decryptContent
  rcases h with h | h <;> rw [h]
  cases truthy message.nonce <;> rfl

theorem decryptContent_of_encrypted (e : TransmissionEngine R) {message : MessagePayload}
    {peer : Peer} {nonce key : Bytes} (hn : truthy message.nonce = some nonce)
    (hk : truthy peer.encryptionKey = some key) :
    e.decryptContent X message peer = ((e.getSharedSecret X peer).1,
      match truthy (e.getSharedSecret X peer).2 with
      | some s => X.decryptMessage message.content s nonce
      | none => some message.content) := by
  simp only [decryptContent, hn, hk]
  split <;> rfl

theorem encryptContent_eq_noCache {e : TransmissionEngine R} {peer : Peer}
    (hc : CacheAgrees X e peer) (encrypt : Bool) (plaintext nonce : Bytes) :
    (e.encryptContent X peer encrypt plaintext nonce).2 =
      e.encryptContentNoCache X peer encrypt plaintext nonce := by
  cases hk : truthy peer.encryptionKey with
  | none => cases encrypt <;> simp [encryptContent, encryptContentNoCache, hk]
  | some key =>
    cases encrypt
    · simp [encryptContent, encryptContentNoCache, hk]
    · simp only [encryptContent, encryptContentNoCache, hk, getSharedSecret_of_key X hc hk,
        Bool.true_and, Option.isSome_some, if_true]
      cases truthy (some (X.deriveSharedSecret e.wallet.encryptionKeys.privateKey key)) <;> rfl

theorem sendText_eq_noCache {e : TransmissionEngine R} {recipientId : String}
    (hc : ∀ peer, e.getPeer recipientId = some peer → CacheAgrees X e peer) (text : PyStr)
    (encrypt : Bool) (fresh : Fresh) (nonce : Bytes) :
    (e.sendText X recipientId text encrypt fresh nonce).2 =
        (e.sendTextNoCache X recipientId text encrypt fresh nonce).2 ∧
      (e.sendText X recipientId text encrypt fresh nonce).1.blockchain =
        (e.sendTextNoCache X recipientId text encrypt fresh nonce).1.blockchain := by
  unfold sendText sendTextNoCache
  cases hp : e.getPeer recipientId with
  | none => exact ⟨rfl, rfl⟩
  | some peer =>
    cases Utf8.encode text with
    | none => exact ⟨rfl, rfl⟩
    | some plaintext =>
      obtain ⟨secrets, h⟩ := encryptContent_eq X e peer encrypt plaintext nonce
      simp only [h, encryptContent_eq_noCache X (hc peer hp)]
      exact ⟨rfl, rfl⟩

theorem handleStreamMessage_eq (e : TransmissionEngine R) (message : MessagePayload) :
    ∃ r, e.handleStreamMessage X message = { e with reassembler := r } := by
  unfold handleStreamMessage
  split
  · exact ⟨_, rfl⟩
  · exact ⟨_, rfl⟩

theorem notifyCallbacks_inert (received : ReceivedMessage) (ack : MessagePayload) (peerId : String)
    (cbs : List Callback) : (notifyCallbacks (R := R) received ack peerId cbs).Inert := by
  induction cbs with
  | nil => exact .await (fun _ _ => rfl) fun _ _ => .done
  | cons cb cbs ih => exact .await (fun _ _ => rfl) fun _ _ => ih

theorem awaits_notifyCallbacks (received : ReceivedMessage) (ack : MessagePayload)
    (peerId : String) (cbs : List Callback) (e : TransmissionEngine R) (os : List Outcome)
    (h : cbs.length ≤ os.length) :
    (notifyCallbacks received ack peerId cbs).awaits e os =
      cbs.map (fun cb => .callback cb received) ++ [.sendMessage ack peerId] := by
  induction cbs generalizing os with
  | nil => cases os <;> simp [notifyCallbacks, Proc.awaits]
  | cons cb cbs ih =>
    obtain ⟨o, os, rfl⟩ := List.exists_cons_of_length_pos (by simp at h; omega : 0 < os.length)
    simp only [notifyCallbacks, Proc.awaits, List.map_cons, List.cons_append]
    rw [ih os (by simp at h; omega)]

theorem handleTextMessage_inert (e : TransmissionEngine R) (message : MessagePayload)
    (peer : Peer) (verified : Bool) (ackFresh : Fresh) :
    (e.handleTextMessage X message peer verified ackFresh).2.Inert := by
  unfold handleTextMessage
  dsimp only
  split
  · exact .done
  · split
    · exact .done
    · exact notifyCallbacks_inert _ _ _ _

theorem handleIncoming_inert (e : TransmissionEngine R) (message : MessagePayload) (peer : Peer)
    (ackFresh : Fresh) : (e.handleIncoming X message peer ackFresh).2.Inert := by
  unfold handleIncoming
  split
  · exact .done
  · dsimp only
    split
    · exact .done
    · split
      · exact handleTextMessage_inert X _ _ _ _ _
      all_goals exact .done

theorem sendText_inert (e : TransmissionEngine R) (recipientId : String) (text : PyStr)
    (encrypt : Bool) (fresh : Fresh) (nonce : Bytes) :
    (e.sendText X recipientId text encrypt fresh nonce).2.Inert := by
  unfold sendText dispatchText
  split
  · exact .done
  · split
    · exact .done
    · exact .await (fun _ _ => rfl) fun _ _ => .done

theorem broadcastText_inert (e : TransmissionEngine R) (text : PyStr) (fresh : Fresh) :
    (e.broadcastText X text fresh).2.Inert := by
  unfold broadcastText
  split
  · exact .done
  · exact .await (fun _ _ => rfl) fun _ _ => .done

end TransmissionEngine

end BlockchainMessaging
