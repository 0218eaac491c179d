import BlockchainMessaging.Engine

/-!
`_handle_incoming` case by case: the rejection, the branch of each message type and, for `TEXT`,
the outcome of decryption and decoding. `Verified` is its first check passing (the origin peer
has a public key and it verifies the signature over the signable content); `delivers` is the
condition under which the observers are called and the `received` entry is recorded. The samples
are an engine with one observer, no directory and an empty ledger, an origin peer with signing
key `[1]` and no encryption key, and a `TEXT` message "hi" signed with that key.
-/

namespace BlockchainMessaging

namespace TransmissionEngine

variable {R : Type} (X : Primitives R)

def Verified (message : MessagePayload) (peer : Peer) : Prop :=
  ∃ pk, truthy peer.publicKey = some pk ∧
    X.verifySignature (X.getSignableContent message) message.signature pk = true

def delivers (e : TransmissionEngine R) (message : MessagePayload) (peer : Peer) : Bool :=
  match truthy peer.publicKey with
  | none => false
  | some pk =>
    X.verifySignature (X.getSignableContent message) message.signature pk &&
      message.type == .text &&
      match (e.decryptContent X message peer).2 with
      | none => false
      | some content => (Utf8.decode content).isSome

def sampleReceiver : TransmissionEngine Unit :=
  ⟨⟨"receiver", "Receiver", ⟨[3], [3]⟩, ⟨[4], [4]⟩⟩, fun _ => none, ⟨[], [], 2⟩, (), [0], []⟩

def sampleOrigin : Peer := ⟨"origin", some [1], none⟩

def sampleText (sender : String) (nonce : Option Bytes) : MessagePayload :=
  let m := MessagePayload.create ⟨"m1", 0⟩ .text sender "receiver" [104, 105] [] nonce []
  { m with signature := Primitives.plain.signMessage (Primitives.plain.getSignableContent m) [1] }

theorem handleIncoming_rejected (e : TransmissionEngine R) {message : MessagePayload}
    {peer : Peer} (ackFresh : Fresh) (h : ¬ Verified X message peer) :
    e.handleIncoming X message peer ackFresh = (e, .done) := by
  cases hp : truthy peer.publicKey with
  | none => simp only [handleIncoming, hp]
  | some pk =>
    have hv : X.verifySignature (X.getSignableContent message) message.signature pk = false := by
      simpa [Verified, hp] using h
    simp [handleIncoming, hp, hv]

theorem handleIncoming_verified (e : TransmissionEngine R) {message : MessagePayload}
    {peer : Peer} {pk : Bytes} (ackFresh : Fresh) (hp : truthy peer.publicKey = some pk)
    (hv : X.verifySignature (X.getSignableContent message) message.signature pk = true) :
    e.handleIncoming X message peer ackFresh =
      match message.type with
      | .text => e.handleTextMessage X message peer true ackFresh
      | .ack => (e, .done)
      | .streamStart | .streamChunk | .streamEnd => (e.handleStreamMessage X message, .done) := by
  simp only [handleIncoming, hp, hv, Bool.not_true]
  cases message.type <;> rfl

theorem handleTextMessage_delivered (e : TransmissionEngine R) {message : MessagePayload}
    {peer : Peer} (verified : Bool) (ackFresh : Fresh) {content : Bytes} {text : PyStr}
    (hd : (e.decryptContent X message peer).2 = some content)
    (ht : Utf8.decode content = some text) :
    e.handleTextMessage X message peer verified ackFresh =
      ({ (e.decryptContent X message peer).1 with
          blockchain := e.blockchain.addData (receivedEntry message) },
        notifyCallbacks ⟨message.id, message.sender, message.metadata.lookup "name", text,
            message.timestamp, verified⟩
          (X.createAckMessage e.wallet.address message.sender message.id (e.wallet.sign X)
            ackFresh) peer.id e.messageCallbacks) := by
  obtain ⟨secrets, h⟩ := decryptContent_eq X e message peer
  simp only [handleTextMessage, hd, ht, h]

theorem handleTextMessage_dropped (e : TransmissionEngine R) {message : MessagePayload}
    {peer : Peer} (verified : Bool) (ackFresh : Fresh)
    (h : ∀ content, (e.decryptContent X message peer).2 = some content →
      Utf8.decode content = none) :
    e.handleTextMessage X message peer verified ackFresh =
      ((e.decryptContent X message peer).1, .done) := by
  cases hd : (e.decryptContent X message peer).2 with
  | none => simp only [handleTextMessage, hd]
  | some content => simp only [handleTextMessage, hd, h content hd]

theorem delivers_eq_true {e : TransmissionEngine R} {message : MessagePayload} {peer : Peer} :
    e.delivers X message peer = true ↔ Verified X message peer ∧ message.type = .text ∧
      ∃ content text, (e.decryptContent X message peer).2 = some content ∧
        Utf8.decode content = some text := by
  unfold delivers Verified
  cases hp : truthy peer.publicKey with
  | none => simp
  | some pk =>
    cases hd : (e.decryptContent X message peer).2 with
    | none => simp
    | some content => simp [Option.isSome_iff_exists, and_assoc]

theorem handleIncoming_of_not_delivers (e : TransmissionEngine R) {message : MessagePayload}
    {peer : Peer} (ackFresh : Fresh) (h : e.delivers X message peer = false) :
    (e.handleIncoming X message peer ackFresh).2 = .done ∧
      (e.handleIncoming X message peer ackFresh).1.blockchain = e.blockchain := by
  by_cases hv : Verified X message peer
  · obtain ⟨pk, hp, hs⟩ := hv
    rw [handleIncoming_verified X e ackFresh hp hs]
    cases ht : message.type with
    | text =>
      have hd : ∀ content, (e.decryptContent X message peer).2 = some content →
          Utf8.decode content = none := by
        intro content hc
        cases hdec : Utf8.decode content with
        | none => rfl
        | some text =>
          have := (delivers_eq_true X).2 ⟨⟨pk, hp, hs⟩, ht, content, text, hc, hdec⟩
          simp [h] at this
      obtain ⟨secrets, he⟩ := decryptContent_eq X e message peer
      rw [handleTextMessage_dropped X e true ackFresh hd, he]
      exact ⟨rfl, rfl⟩
    | ack => exact ⟨rfl, rfl⟩
    | streamStart | streamChunk | streamEnd =>
      obtain ⟨r, he⟩ := handleStreamMessage_eq X e message
      rw [he]
      exact ⟨rfl, rfl⟩
  · rw [handleIncoming_rejected X e ackFresh hv]
    exact ⟨rfl, rfl⟩

theorem handleIncoming_of_delivers (e : TransmissionEngine R) {message : MessagePayload}
    {peer : Peer} (ackFresh : Fresh) (h : e.delivers X message peer = true) :
    ∃ content text, (e.decryptContent X message peer).2 = some content ∧
      Utf8.decode content = some text ∧
      e.handleIncoming X message peer ackFresh =
        ({ (e.decryptContent X message peer).1 with
            blockchain := e.blockchain.addData (receivedEntry message) },
          notifyCallbacks ⟨message.id, message.sender, message.metadata.lookup "name", text,
              message.timestamp, true⟩
            (X.createAckMessage e.wallet.address message.sender message.id (e.wallet.sign X)
              ackFresh) peer.id e.messageCallbacks) := by
  obtain ⟨⟨pk, hp, hv⟩, ht, content, text, hd, hdec⟩ := (delivers_eq_true X).1 h
  refine ⟨content, text, hd, hdec, ?_⟩
  rw [handleIncoming_verified X e ackFresh hp hv, ht]
  exact handleTextMessage_delivered X e true ackFresh hd hdec

theorem handleIncoming_blockchain (e : TransmissionEngine R) (message : MessagePayload)
    (peer : Peer) (ackFresh : Fresh) :
    (e.handleIncoming X message peer ackFresh).1.blockchain =
      if e.delivers X message peer then e.blockchain.addData (receivedEntry message)
      else e.blockchain := by
  cases h : e.delivers X message peer with
  | false => exact (handleIncoming_of_not_delivers X e ackFresh h).2
  | true =>
    obtain ⟨_, _, _, _, he⟩ := handleIncoming_of_delivers X e ackFresh h
    rw [he]
    rfl

theorem handleTextMessage_fst (e : TransmissionEngine R) (message : MessagePayload)
    (peer : Peer) (verified : Bool) (ackFresh : Fresh) :
    ∃ b, (e.handleTextMessage X message peer verified ackFresh).1 =
      { (e.decryptContent X message peer).1 with blockchain := b } := by
  unfold handleTextMessage
  dsimp only
  split
  · exact ⟨_, rfl⟩
  · split
    · exact ⟨_, rfl⟩
    · exact ⟨_, rfl⟩

theorem handleIncoming_frame (e : TransmissionEngine R) (message : MessagePayload) (peer : Peer)
    (ackFresh : Fresh) :
    ∃ e₁, (e₁ = e ∨ e₁ = (e.getSharedSecret X peer).1) ∧ ∃ b r,
      (e.handleIncoming X message peer ackFresh).1 = { e₁ with blockchain := b, reassembler := r } := by
  by_cases hv : Verified X message peer
  · obtain ⟨pk, hp, hs⟩ := hv
    rw [handleIncoming_verified X e ackFresh hp hs]
    cases message.type with
    | text =>
      obtain ⟨b, hb⟩ := handleTextMessage_fst X e message peer true ackFresh
      exact ⟨_, decryptContent_fst X e message peer, b, _, hb⟩
    | ack => exact ⟨e, .inl rfl, _, _, rfl⟩
    | streamStart | streamChunk | streamEnd =>
      obtain ⟨r, hr⟩ := handleStreamMessage_eq X e message
      exact ⟨e, .inl rfl, _, r, hr⟩
  · rw [handleIncoming_rejected X e ackFresh hv]
    exact ⟨e, .inl rfl, _, _, rfl⟩

theorem callback_mem_notifyCallbacks {received r : ReceivedMessage} {ack : MessagePayload}
    {peerId : String} {cbs : List Callback} {cb : Callback} {s : TransmissionEngine R}
    {os : List Outcome}
    (h : Await.callback cb r ∈ (notifyCallbacks received ack peerId cbs).awaits s os) :
    r = received := by
  induction cbs generalizing os s with
  | nil => cases os <;> simp [notifyCallbacks, Proc.awaits] at h
  | cons cb' cbs ih =>
    cases os with
    | nil => simp [notifyCallbacks, Proc.awaits] at h; exact h.2
    | cons o os =>
      simp only [notifyCallbacks, Proc.awaits, List.mem_cons, Await.callback.injEq] at h
      rcases h with ⟨-, rfl⟩ | h
      · rfl
      · exact ih h

theorem handleIncoming_of_callback {e : TransmissionEngine R} {message : MessagePayload}
    {peer : Peer} {ackFresh : Fresh} {os : List Outcome} {cb : Callback} {r : ReceivedMessage}
    (h : Await.callback cb r ∈ (e.handleIncoming X message peer ackFresh).2.awaits
      (e.handleIncoming X message peer ackFresh).1 os) :
    Verified X message peer ∧ ∃ content, (e.decryptContent X message peer).2 = some content ∧
      Utf8.decode content = some r.content ∧
      r = ⟨message.id, message.sender, message.metadata.lookup "name", r.content,
        message.timestamp, true⟩ ∧
      e.handleIncoming X message peer ackFresh =
        ({ (e.decryptContent X message peer).1 with
            blockchain := e.blockchain.addData (receivedEntry message) },
          notifyCallbacks r (X.createAckMessage e.wallet.address message.sender message.id
            (e.wallet.sign X) ackFresh) peer.id e.messageCallbacks) := by
  cases hd : e.delivers X message peer with
  | false =>
    rw [(handleIncoming_of_not_delivers X e ackFresh hd).1] at h
    cases os <;> simp [Proc.awaits] at h
  | true =>
    obtain ⟨content, text, hc, hdec, he⟩ := handleIncoming_of_delivers X e ackFresh hd
    rw [he] at h
    obtain rfl := callback_mem_notifyCallbacks h
    exact ⟨((delivers_eq_true X).1 hd).1, content, hc, hdec, rfl, he⟩

/-- Whatever the origin peer, the observers and the ledger are told the message's own `sender`
field; what the origin peer's key verified is the signature. -/
theorem handleIncoming_attributes_sender {e : TransmissionEngine R} {message : MessagePayload}
    {peer : Peer} {ackFresh : Fresh} {os : List Outcome} {cb : Callback} {r : ReceivedMessage}
    (h : Await.callback cb r ∈ (e.handleIncoming X message peer ackFresh).2.awaits
      (e.handleIncoming X message peer ackFresh).1 os) :
    r.sender = message.sender ∧ r.verified = true ∧ Verified X message peer ∧
      (e.handleIncoming X message peer ackFresh).1.blockchain =
        e.blockchain.addData (receivedEntry message) ∧
      (receivedEntry message).get? "sender" = some (.str message.sender) := by
  obtain ⟨hv, content, -, -, hr, he⟩ := handleIncoming_of_callback X h
  rw [he, hr]
  exact ⟨rfl, rfl, hv, rfl, rfl⟩

/-- The origin's key verifies a message naming another sender, and it is delivered, verified, as
sent by that sender. -/
theorem handleIncoming_forged_sender :
    let res := sampleReceiver.handleIncoming Primitives.plain (sampleText "forger" none)
      sampleOrigin ⟨"a1", 0⟩
    ∃ r, Await.callback 0 r ∈ res.2.awaits res.1 [.returned] ∧ r.verified = true ∧
      r.sender = "forger" ∧ r.sender ≠ sampleOrigin.id :=
  ⟨_, List.Mem.head _, rfl, rfl, by decide⟩

theorem handleIncoming_attributes_sender_forged :
    let res := sampleReceiver.handleIncoming Primitives.plain (sampleText "forger" none)
      sampleOrigin ⟨"a1", 0⟩
    Await.callback 0 ⟨"m1", "forger", none, [104, 105], 0, true⟩ ∈ res.2.awaits res.1 [.returned] ∧
      (⟨"m1", "forger", none, [104, 105], 0, true⟩ : ReceivedMessage).sender =
        (sampleText "forger" none).sender ∧
      (⟨"m1", "forger", none, [104, 105], 0, true⟩ : ReceivedMessage).verified = true ∧
      Verified Primitives.plain (sampleText "forger" none) sampleOrigin ∧
      res.1.blockchain = sampleReceiver.blockchain.addData (receivedEntry (sampleText "forger" none)) ∧
      (receivedEntry (sampleText "forger" none)).get? "sender" =
        some (.str (sampleText "forger" none).sender) :=
  have h : Await.callback 0 ⟨"m1", "forger", none, [104, 105], 0, true⟩ ∈
      (sampleReceiver.handleIncoming Primitives.plain (sampleText "forger" none) sampleOrigin
        ⟨"a1", 0⟩).2.awaits (sampleReceiver.handleIncoming Primitives.plain
          (sampleText "forger" none) sampleOrigin ⟨"a1", 0⟩).1 [.returned] := List.Mem.head _
  ⟨h, handleIncoming_attributes_sender Primitives.plain h⟩

theorem handleIncoming_encrypted_content {e : TransmissionEngine R} {message : MessagePayload}
    {peer : Peer} {ackFresh : Fresh} {os : List Outcome} {cb : Callback} {r : ReceivedMessage}
    {nonce : Bytes} (hn : truthy message.nonce = some nonce)
    (h : Await.callback cb r ∈ (e.handleIncoming X message peer ackFresh).2.awaits
      (e.handleIncoming X message peer ackFresh).1 os) :
    (∀ key secret, truthy peer.encryptionKey = some key →
      truthy (e.getSharedSecret X peer).2 = some secret →
      ∃ plaintext, X.decryptMessage message.content secret nonce = some plaintext ∧
        Utf8.decode plaintext = some r.content) ∧
    (truthy peer.encryptionKey = none ∨ truthy (e.getSharedSecret X peer).2 = none →
      Utf8.decode message.content = some r.content) := by
  obtain ⟨-, content, hc, hdec, -, -⟩ := handleIncoming_of_callback X h
  refine ⟨fun key secret hk hs => ?_, fun hk => ?_⟩
  · rw [decryptContent_of_encrypted X e hn hk] at hc
    simp only [hs] at hc
    exact ⟨content, hc, hdec⟩
  · cases hkey : truthy peer.encryptionKey with
    | none =>
      rw [decryptContent_of_plain X e (.inr hkey)] at hc
      cases hc
      exact hdec
    | some key =>
      have hs : truthy (e.getSharedSecret X peer).2 = none := by simpa [hkey] using hk
      rw [decryptContent_of_encrypted X e hn hkey] at hc
      simp only [hs, Option.some.injEq] at hc
      rwa [hc]

/-- A message carrying a nonce, from an origin peer with no encryption key: its content `"hi"` is
decoded as it came, without decryption, recorded as received, and handed to the observer as
verified text. -/
theorem handleIncoming_surfaces_ciphertext :
    truthy (sampleText "origin" (some [7])).nonce = some [7] ∧ sampleOrigin.encryptionKey = none ∧
      (sampleText "origin" (some [7])).content = [104, 105] ∧
      Await.callback 0 ⟨"m1", "origin", none, [104, 105], 0, true⟩ ∈
        (sampleReceiver.handleIncoming Primitives.plain (sampleText "origin" (some [7]))
          sampleOrigin ⟨"a1", 0⟩).2.awaits
        (sampleReceiver.handleIncoming Primitives.plain (sampleText "origin" (some [7]))
          sampleOrigin ⟨"a1", 0⟩).1 [.returned] ∧
      (sampleReceiver.handleIncoming Primitives.plain (sampleText "origin" (some [7])) sampleOrigin
          ⟨"a1", 0⟩).1.blockchain =
        sampleReceiver.blockchain.addData (receivedEntry (sampleText "origin" (some [7]))) :=
  ⟨rfl, rfl, rfl, List.Mem.head _, rfl⟩

theorem getSharedSecret_idem (e : TransmissionEngine R) (peer : Peer) :
    (e.getSharedSecret X peer).1.getSharedSecret X peer =
      ((e.getSharedSecret X peer).1, (e.getSharedSecret X peer).2) := by
  unfold getSharedSecret
  cases hk : truthy peer.encryptionKey with
  | none => rfl
  | some key =>
    cases hl : e.sharedSecrets.lookup peer.id with
    | some s => simp only [hk, hl]
    | none => simp [hk, List.lookup_append, hl]

theorem decryptContent_idem (e : TransmissionEngine R) (message : MessagePayload) (peer : Peer) :
    (e.decryptContent X message peer).1.decryptContent X message peer =
      ((e.decryptContent X message peer).1, (e.decryptContent X message peer).2) := by
  unfold decryptContent
  cases truthy message.nonce with
  | none => rfl
  | some nonce =>
    cases truthy peer.encryptionKey with
    | none => rfl
    | some key =>
      dsimp only
      cases hs : truthy (e.getSharedSecret X peer).2 <;> dsimp only <;>
        rw [getSharedSecret_idem] <;> simp only [hs]

theorem getSharedSecret_with_blockchain (e : TransmissionEngine R) (b : Blockchain) (peer : Peer) :
    { e with blockchain := b }.getSharedSecret X peer =
      ({ (e.getSharedSecret X peer).1 with blockchain := b }, (e.getSharedSecret X peer).2) := by
  unfold getSharedSecret
  cases truthy peer.encryptionKey with
  | none => rfl
  | some key =>
    dsimp only
    cases e.sharedSecrets.lookup peer.id <;> rfl

theorem decryptContent_with_blockchain (e : TransmissionEngine R) (b : Blockchain)
    (message : MessagePayload) (peer : Peer) :
    { e with blockchain := b }.decryptContent X message peer =
      ({ (e.decryptContent X message peer).1 with blockchain := b },
        (e.decryptContent X message peer).2) := by
  unfold decryptContent
  cases truthy message.nonce with
  | none => rfl
  | some nonce =>
    cases truthy peer.encryptionKey with
    | none => rfl
    | some key =>
      dsimp only
      rw [getSharedSecret_with_blockchain]
      cases truthy (e.getSharedSecret X peer).2 <;> rfl

/-- `_handle_incoming` keeps no record of what it has delivered: the same message delivered
again, with any fresh `ACK`, is delivered again, with the same text to the same observers, and
recorded a second time. -/
theorem handleIncoming_replay (e : TransmissionEngine R) {message : MessagePayload} {peer : Peer}
    (ackFresh ackFresh' : Fresh) (h : e.delivers X message peer = true) :
    let e' := (e.handleIncoming X message peer ackFresh).1
    e'.delivers X message peer = true ∧
      e'.handleIncoming X message peer ackFresh' =
        ({ e' with blockchain := e'.blockchain.addData (receivedEntry message) },
          (e.handleIncoming X message peer ackFresh').2) := by
  intro e'
  obtain ⟨_, _, -, -, he₁⟩ := handleIncoming_of_delivers X e ackFresh h
  obtain ⟨content, text, hd, hdec, he⟩ := handleIncoming_of_delivers X e ackFresh' h
  have he' : e' = { (e.decryptContent X message peer).1 with
      blockchain := e.blockchain.addData (receivedEntry message) } := by
    show (e.handleIncoming X message peer ackFresh).1 = _
    rw [he₁]
  -- the secret is cached by now, so decrypting again gives the same content
  have hdc : e'.decryptContent X message peer = (e', some content) := by
    rw [he', decryptContent_with_blockchain, decryptContent_idem, hd]
  have hdel : e'.delivers X message peer = true := by
    obtain ⟨hv, ht, -⟩ := (delivers_eq_true X).1 h
    exact (delivers_eq_true X).2 ⟨hv, ht, content, text, by rw [hdc], hdec⟩
  refine ⟨hdel, ?_⟩
  obtain ⟨c', t', hd', hdec', he''⟩ := handleIncoming_of_delivers X e' ackFresh' hdel
  rw [hdc, Option.some.injEq] at hd'
  subst hd'
  rw [hdec, Option.some.injEq] at hdec'
  subst hdec'
  obtain ⟨secrets, hs⟩ := decryptContent_eq X e message peer
  rw [he'', he, hdc, he', hs]

/-- The same signed message from `origin`, delivered twice, is reported and recorded twice. -/
theorem handleIncoming_replay_sample :
    let e' := (sampleReceiver.handleIncoming Primitives.plain (sampleText "origin" none)
      sampleOrigin ⟨"a1", 0⟩).1
    sampleReceiver.delivers Primitives.plain (sampleText "origin" none) sampleOrigin = true ∧
      e'.delivers Primitives.plain (sampleText "origin" none) sampleOrigin = true ∧
      e'.handleIncoming Primitives.plain (sampleText "origin" none) sampleOrigin ⟨"a2", 0⟩ =
        ({ e' with blockchain := e'.blockchain.addData (receivedEntry (sampleText "origin" none)) },
          (sampleReceiver.handleIncoming Primitives.plain (sampleText "origin" none) sampleOrigin
            ⟨"a2", 0⟩).2) :=
  ⟨rfl, @handleIncoming_replay Unit Primitives.plain sampleReceiver (sampleText "origin" none)
    sampleOrigin ⟨"a1", 0⟩ ⟨"a2", 0⟩ rfl⟩

end TransmissionEngine

end BlockchainMessaging
