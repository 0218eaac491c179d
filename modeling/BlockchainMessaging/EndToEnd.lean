import BlockchainMessaging.EngineRuns

/-!
One message from engine `A` to engine `B`: what `send_text` or `broadcast_text` of `A` hands to
the transport, and what `_handle_incoming` of `B` does with it when it arrives unchanged from
`B`'s record of `A`. `ReceivesText` is what `B` does with a delivered text: one `received` entry
and otherwise only the cache, every observer once with the text as sent by `A`, verified, then one
`ACK`; `Delivers` is that outcome for a send and for a broadcast. Each side's step is proved on its
own; the join needs the crypto contracts, matching records, and caches that agree with the
records, which every run of the two engines on keyed directories provides.
-/

namespace BlockchainMessaging

namespace TransmissionEngine

variable {R : Type} (X : Primitives R)

def ReceivesText (B : TransmissionEngine R) (peer : Peer) (ackFresh : Fresh)
    (message : MessagePayload) (a : Wallet) (text : PyStr) : Prop :=
  (∃ secrets, (B.handleIncoming X message peer ackFresh).1 =
    { B with sharedSecrets := secrets,
             blockchain := B.blockchain.addData (receivedEntry message) }) ∧
  (B.handleIncoming X message peer ackFresh).2.Inert ∧
  ∀ os, B.messageCallbacks.length ≤ os.length →
    (B.handleIncoming X message peer ackFresh).2.awaits
        (B.handleIncoming X message peer ackFresh).1 os =
      B.messageCallbacks.map (fun cb => .callback cb
          ⟨message.id, a.address, some a.name, text, message.timestamp, true⟩) ++
        [.sendMessage (X.createAckMessage B.wallet.address a.address message.id (B.wallet.sign X)
          ackFresh) peer.id]

theorem verified_sign {a b : Wallet} (hX : X.Sound a b) {e : TransmissionEngine R}
    (hw : e.wallet = a) {peer : Peer} (hpk : truthy peer.publicKey = some a.signingKeys.publicKey)
    (m : MessagePayload) : Verified X (e.sign X m) peer :=
  ⟨_, hpk, by simp only [sign, hX.signable_signature, hw]; exact hX.verify_sign _⟩

theorem receivesText_of_decrypt {B : TransmissionEngine R} {peer : Peer} {a : Wallet}
    {message : MessagePayload} {text : PyStr} (ackFresh : Fresh) (hv : Verified X message peer)
    (ht : message.type = .text) (hs : message.sender = a.address)
    (hname : message.metadata.lookup "name" = some a.name)
    (hd : ∃ plaintext, (B.decryptContent X message peer).2 = some plaintext ∧
      Utf8.decode plaintext = some text) :
    ReceivesText X B peer ackFresh message a text := by
  obtain ⟨pk, hp, hsig⟩ := hv
  obtain ⟨plaintext, hc, hdec⟩ := hd
  obtain ⟨secrets, he⟩ := decryptContent_eq X B message peer
  have h := handleIncoming_verified X B ackFresh hp hsig
  rw [ht, handleTextMessage_delivered X B true ackFresh hc hdec, he, hs, hname] at h
  refine ⟨⟨secrets, by rw [h]⟩, handleIncoming_inert X B message peer ackFresh, fun os hos => ?_⟩
  rw [h]
  exact awaits_notifyCallbacks _ _ _ _ _ os hos

theorem sendText_known {A : TransmissionEngine R} {recipientId : String} {peer : Peer}
    {text : PyStr} {plaintext : Bytes} (hB : A.getPeer recipientId = some peer)
    (ht : Utf8.encode text = some plaintext) (encrypt : Bool) (fresh : Fresh) (nonce : Bytes) :
    A.sendText X recipientId text encrypt fresh nonce =
      (A.encryptContent X peer encrypt plaintext nonce).1.dispatchText X recipientId fresh
        (A.encryptContent X peer encrypt plaintext nonce).2.1
        (A.encryptContent X peer encrypt plaintext nonce).2.2 := by
  simp only [sendText, hB, ht]

def Delivers (A B : TransmissionEngine R) (pA pB : Peer) (nonce : Bytes) (text : PyStr)
    (encrypt : Bool) (fresh ackFresh : Fresh) : Prop :=
  (∃ m, (A.sendText X pB.id text encrypt fresh nonce).2.first? = some (.sendMessage m pB.id) ∧
    m.id = fresh.id ∧
    (A.sendText X pB.id text encrypt fresh nonce).1.blockchain =
      A.blockchain.addData (messageEntry m) ∧
    (A.sendText X pB.id text encrypt fresh nonce).2.Inert ∧
    ReceivesText X B pA ackFresh m A.wallet text) ∧
  (∃ m, (A.broadcastText X text fresh).2.first? = some (.broadcast m) ∧ m.id = fresh.id ∧
    (A.broadcastText X text fresh).1.blockchain = A.blockchain.addData (broadcastEntry m) ∧
    (A.broadcastText X text fresh).2.Inert ∧
    ReceivesText X B pA ackFresh m A.wallet text)

def sampleWalletA : Wallet := ⟨"peerA", "A", ⟨[1], [1]⟩, ⟨[2], [2]⟩⟩

def sampleWalletB : Wallet := ⟨"peerB", "B", ⟨[3], [3]⟩, ⟨[4], [4]⟩⟩

def sampleRecordA : Peer := ⟨"peerA", some [1], some [2]⟩

def sampleRecordB : Peer := ⟨"peerB", some [3], some [4]⟩

def sampleDirectoryA (k : String) : Option Peer :=
  if k = "peerB" then some sampleRecordB else none

def sampleDirectoryB (k : String) : Option Peer :=
  if k = "peerA" then some sampleRecordA else none

def sampleA (secrets : List (String × Bytes)) : TransmissionEngine Unit :=
  ⟨sampleWalletA, sampleDirectoryA, sampleLedger, (), [], secrets⟩

def sampleB : TransmissionEngine Unit :=
  ⟨sampleWalletB, sampleDirectoryB, sampleLedger, (), [0], []⟩

section Delivery

variable {A B : TransmissionEngine R} {pA pB : Peer}

theorem decryptContent_encryptContent (hX : X.Sound A.wallet B.wallet)
    (hkeys : (truthy pB.encryptionKey = some B.wallet.encryptionKeys.publicKey ∧
        truthy pA.encryptionKey = some A.wallet.encryptionKeys.publicKey) ∨
      (truthy pB.encryptionKey = none ∧ truthy pA.encryptionKey = none))
    (hcA : CacheAgrees X A pB) (hcB : CacheAgrees X B pA) {nonce : Bytes} (hn : nonce ≠ [])
    (encrypt : Bool) (plaintext : Bytes) {message : MessagePayload}
    (hm : message.nonce = (A.encryptContent X pB encrypt plaintext nonce).2.1)
    (hc : message.content = (A.encryptContent X pB encrypt plaintext nonce).2.2) :
    (B.decryptContent X message pA).2 = some plaintext := by
  rw [encryptContent_eq_noCache X hcA] at hm hc
  have plain (h : message.nonce = none ∧ message.content = plaintext) :
      (B.decryptContent X message pA).2 = some plaintext := by
    rw [decryptContent_of_plain X B (.inl (by rw [h.1]; rfl)), h.2]
  cases encrypt with
  | false => exact plain ⟨hm, hc⟩
  | true =>
    rcases hkeys with ⟨hkB, hkA⟩ | ⟨hkB, -⟩
    · simp only [encryptContentNoCache, hkB] at hm hc
      cases hS : truthy (some (X.deriveSharedSecret A.wallet.encryptionKeys.privateKey
          B.wallet.encryptionKeys.publicKey)) with
      | none =>
        rw [hS] at hm hc
        exact plain ⟨hm, hc⟩
      | some secret =>
        rw [hS] at hm hc
        rw [decryptContent_of_encrypted X B (by rw [hm]; exact truthy_some hn) hkA,
          getSharedSecret_of_key X hcB hkA, ← hX.derive_symm, hS, hc]
        exact hX.decrypt_encrypt plaintext secret nonce
    · simp only [encryptContentNoCache, hkB] at hm hc
      exact plain ⟨hm, hc⟩

theorem send_delivers (hX : X.Sound A.wallet B.wallet)
    (hB : A.getPeer pB.id = some pB)
    (hpk : truthy pA.publicKey = some A.wallet.signingKeys.publicKey)
    (hkeys : (truthy pB.encryptionKey = some B.wallet.encryptionKeys.publicKey ∧
        truthy pA.encryptionKey = some A.wallet.encryptionKeys.publicKey) ∨
      (truthy pB.encryptionKey = none ∧ truthy pA.encryptionKey = none))
    (hcA : CacheAgrees X A pB) (hcB : CacheAgrees X B pA) {nonce : Bytes} (hn : nonce ≠ [])
    {text : PyStr} (ht : (Utf8.encode text).isSome) (encrypt : Bool) (fresh ackFresh : Fresh) :
    Delivers X A B pA pB nonce text encrypt fresh ackFresh := by
  obtain ⟨plaintext, hpt⟩ := Option.isSome_iff_exists.1 ht
  have hdec := Utf8.decode_encode hpt
  obtain ⟨secrets, hr⟩ := encryptContent_eq X A pB encrypt plaintext nonce
  have hw : (A.encryptContent X pB encrypt plaintext nonce).1.wallet = A.wallet := by rw [hr]
  constructor
  · rw [sendText_known X hB hpt]
    refine ⟨_, rfl, rfl, by simp only [dispatchText, hr], .await (fun _ _ => rfl) fun _ _ => .done,
      receivesText_of_decrypt X ackFresh (verified_sign X hX hw hpk _) rfl (by rw [← hw]; rfl)
        (by rw [← hw]; rfl) ⟨plaintext, ?_, hdec⟩⟩
    exact decryptContent_encryptContent X hX hkeys hcA hcB hn encrypt plaintext rfl rfl
  · simp only [broadcastText, hpt]
    refine ⟨A.sign X (.create fresh .text A.wallet.address "*" plaintext [] none
        [("name", A.wallet.name)]), rfl, rfl, rfl, .await (fun _ _ => rfl) fun _ _ => .done,
      receivesText_of_decrypt X ackFresh (verified_sign X hX rfl hpk _) rfl rfl rfl
        ⟨plaintext, ?_, hdec⟩⟩
    exact congrArg Prod.snd (decryptContent_of_plain X B (.inl (by rfl)))

/-- A text `A` sends to its record of `B`, or broadcasts, reaches `B` from `B`'s record of `A`
as that text from `A`, verified, given the crypto contracts, records that carry the right keys
(an encryption key on both or on neither), caches that agree with the records, and a non-empty
nonce. `A` records one entry before it hands the message over. -/
theorem send_delivers_end_to_end (hX : X.Sound A.wallet B.wallet)
    (hB : A.getPeer pB.id = some pB)
    (hpk : truthy pA.publicKey = some A.wallet.signingKeys.publicKey)
    (hkeys : (truthy pB.encryptionKey = some B.wallet.encryptionKeys.publicKey ∧
        truthy pA.encryptionKey = some A.wallet.encryptionKeys.publicKey) ∨
      (truthy pB.encryptionKey = none ∧ truthy pA.encryptionKey = none))
    (hcA : CacheAgrees X A pB) (hcB : CacheAgrees X B pA) {nonce : Bytes} (hn : nonce ≠ [])
    {text : PyStr} (ht : (Utf8.encode text).isSome) (encrypt : Bool) (fresh ackFresh : Fresh) :
    (∃ m, (A.sendText X pB.id text encrypt fresh nonce).2.first? = some (.sendMessage m pB.id) ∧
      m.id = fresh.id ∧
      (A.sendText X pB.id text encrypt fresh nonce).1.blockchain =
        A.blockchain.addData (messageEntry m) ∧
      (A.sendText X pB.id text encrypt fresh nonce).2.Inert ∧
      ReceivesText X B pA ackFresh m A.wallet text) ∧
    (∃ m, (A.broadcastText X text fresh).2.first? = some (.broadcast m) ∧ m.id = fresh.id ∧
      (A.broadcastText X text fresh).1.blockchain = A.blockchain.addData (broadcastEntry m) ∧
      (A.broadcastText X text fresh).2.Inert ∧
      ReceivesText X B pA ackFresh m A.wallet text) :=
  send_delivers X hX hB hpk hkeys hcA hcB hn ht encrypt fresh ackFresh

/-- With a stale secret for `B` in `A`'s cache, the records and the primitives as required, `B`
cannot decrypt what `A` sends: no observer is called, nothing is recorded, no `ACK` is sent. -/
theorem send_stale_cache_dropped :
    Primitives.plain.Sound sampleWalletA sampleWalletB ∧
      (sampleA [("peerB", [9])]).getPeer "peerB" = some sampleRecordB ∧
      sampleB.getPeer "peerA" = some sampleRecordA ∧
      (sampleA [("peerB", [9])]).sharedSecrets.lookup "peerB" = some [9] ∧
      Primitives.plain.deriveSharedSecret [2] [4] = [6] ∧
      ∃ m, ((sampleA [("peerB", [9])]).sendText Primitives.plain "peerB" [104, 105] true
          ⟨"m1", 0⟩ [0]).2.first? = some (.sendMessage m "peerB") ∧
        (sampleB.handleIncoming Primitives.plain m sampleRecordA ⟨"a1", 0⟩).2.first? = none ∧
        (sampleB.handleIncoming Primitives.plain m sampleRecordA ⟨"a1", 0⟩).1.blockchain =
          sampleB.blockchain :=
  ⟨Primitives.plain_sound _ _ rfl rfl rfl, rfl, rfl, rfl, rfl, _, rfl, rfl, rfl⟩

theorem send_delivers_end_to_end_plain :
    (∃ m, ((sampleA []).sendText Primitives.plain sampleRecordB.id [104, 105] true ⟨"m1", 0⟩
          [0]).2.first? = some (.sendMessage m sampleRecordB.id) ∧
      m.id = (⟨"m1", 0⟩ : Fresh).id ∧
      ((sampleA []).sendText Primitives.plain sampleRecordB.id [104, 105] true ⟨"m1", 0⟩
          [0]).1.blockchain = (sampleA []).blockchain.addData (messageEntry m) ∧
      ((sampleA []).sendText Primitives.plain sampleRecordB.id [104, 105] true ⟨"m1", 0⟩
          [0]).2.Inert ∧
      ReceivesText Primitives.plain sampleB sampleRecordA ⟨"a1", 0⟩ m (sampleA []).wallet
        [104, 105]) ∧
    (∃ m, ((sampleA []).broadcastText Primitives.plain [104, 105] ⟨"m1", 0⟩).2.first? =
          some (.broadcast m) ∧ m.id = (⟨"m1", 0⟩ : Fresh).id ∧
      ((sampleA []).broadcastText Primitives.plain [104, 105] ⟨"m1", 0⟩).1.blockchain =
        (sampleA []).blockchain.addData (broadcastEntry m) ∧
      ((sampleA []).broadcastText Primitives.plain [104, 105] ⟨"m1", 0⟩).2.Inert ∧
      ReceivesText Primitives.plain sampleB sampleRecordA ⟨"a1", 0⟩ m (sampleA []).wallet
        [104, 105]) :=
  @send_delivers_end_to_end Unit Primitives.plain (sampleA []) sampleB sampleRecordA
    sampleRecordB (Primitives.plain_sound _ _ rfl rfl rfl) rfl rfl (.inl ⟨rfl, rfl⟩)
    (fun _ _ h => by cases h) (fun _ _ h => by cases h) [0] (by decide) [104, 105] rfl true
    ⟨"m1", 0⟩ ⟨"a1", 0⟩

end Delivery

/-- Along any runs of two engines on directories keyed by peer id, where every inbound peer object
has its directory's encryption key for its id, the caches agree with the records: a text the first
sends to its record of the second, or broadcasts, reaches the second from its record of the first
as that text from the first, verified, given the crypto contracts, records that carry the right
keys, and a non-empty nonce. -/
theorem send_delivers_along_runs {dA dB : Int} {dirA dirB : String → Option Peer} {rA rB : R}
    {callsA callsB : List (EngineCall × TransmissionEngine R)} {sA sB : Sys R}
    (hrA : EngineRun X dA dirA rA callsA sA) (hrB : EngineRun X dB dirB rB callsB sB)
    (hdirA : ∀ k q, dirA k = some q → q.id = k) (hdirB : ∀ k q, dirB k = some q → q.id = k)
    (hinA : ∀ c ∈ callsA, ∀ peer, c.1.inboundPeer? = some peer → KeyAgrees dirA peer)
    (hinB : ∀ c ∈ callsB, ∀ peer, c.1.inboundPeer? = some peer → KeyAgrees dirB peer)
    {pA pB : Peer} (hB : dirA pB.id = some pB) (hA : dirB pA.id = some pA)
    (hX : X.Sound sA.engine.wallet sB.engine.wallet)
    (hpk : truthy pA.publicKey = some sA.engine.wallet.signingKeys.publicKey)
    (hkeys : (truthy pB.encryptionKey = some sB.engine.wallet.encryptionKeys.publicKey ∧
        truthy pA.encryptionKey = some sA.engine.wallet.encryptionKeys.publicKey) ∨
      (truthy pB.encryptionKey = none ∧ truthy pA.encryptionKey = none))
    {nonce : Bytes} (hn : nonce ≠ []) {text : PyStr} (ht : (Utf8.encode text).isSome)
    (encrypt : Bool) (fresh ackFresh : Fresh) :
    Delivers X sA.engine sB.engine pA pB nonce text encrypt fresh ackFresh := by
  have hB' : sA.engine.getPeer pB.id = some pB := by rw [hrA.invariant.getPeer]; exact hB
  have hA' : sB.engine.getPeer pA.id = some pA := by rw [hrB.invariant.getPeer]; exact hA
  exact send_delivers X hX hB' hpk hkeys (hrA.cacheSound hdirA hinA _ _ hB')
    (hrB.cacheSound hdirB hinB _ _ hA') hn ht encrypt fresh ackFresh

/-- `B`, having cached its secret for `A` while dropping an earlier message from `A`, receives
what `A` sends next. -/
theorem send_delivers_along_runs_cached :
    Delivers Primitives.plain (sampleA [])
      (sampleB.handleIncoming Primitives.plain (sampleText "peerA" (some [0])) sampleRecordA
        ⟨"a0", 0⟩).1 sampleRecordA sampleRecordB [0] [104, 105] true ⟨"m1", 0⟩ ⟨"a1", 0⟩ := by
  have hrA : EngineRun Primitives.plain 2 sampleDirectoryA () [] ⟨sampleA [], []⟩ :=
    @EngineRun.init Unit Primitives.plain 2 sampleDirectoryA () _ [] 0 0 _ rfl
  have hrB : EngineRun Primitives.plain 2 sampleDirectoryB ()
      [(.handleIncoming (sampleText "peerA" (some [0])) sampleRecordA ⟨"a0", 0⟩, sampleB)]
      ⟨(sampleB.handleIncoming Primitives.plain (sampleText "peerA" (some [0])) sampleRecordA
          ⟨"a0", 0⟩).1,
        [(sampleB.handleIncoming Primitives.plain (sampleText "peerA" (some [0])) sampleRecordA
          ⟨"a0", 0⟩).2]⟩ :=
    .start (@EngineRun.init Unit Primitives.plain 2 sampleDirectoryB () _ [0] 0 0 _ rfl) rfl
  have keyedB : ∀ k q, sampleDirectoryB k = some q → q.id = k := keyed_of_single rfl
  exact send_delivers_along_runs Primitives.plain hrA hrB (keyed_of_single rfl) keyedB
    (fun _ h => absurd h (List.not_mem_nil _))
    (fun c hc peer hp => by
      rw [List.mem_singleton.1 hc] at hp
      cases hp
      exact keyAgrees_of_directory keyedB (k := "peerA") rfl)
    (show sampleDirectoryA sampleRecordB.id = some sampleRecordB from rfl)
    (show sampleDirectoryB sampleRecordA.id = some sampleRecordA from rfl)
    (Primitives.plain_sound _ _ rfl rfl rfl) rfl (.inl ⟨rfl, rfl⟩)
    (show ([0] : Bytes) ≠ [] by decide) (show (Utf8.encode [104, 105]).isSome from rfl) true
    ⟨"m1", 0⟩ ⟨"a1", 0⟩

end TransmissionEngine

end BlockchainMessaging
