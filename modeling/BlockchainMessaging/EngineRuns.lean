import BlockchainMessaging.Inbound
import BlockchainMessaging.LedgerRuns

/-!
Runs of one engine: calls start in any order, and each runs up to its first `await`; the
event loop resumes suspended tasks in any order, with any outcome of what they awaited. The peer
directory is fixed; the transport hands `_handle_incoming` any peer object. `start` is a call up
to its first `await` (`none` where the mining loop does not return within its fuel), `entry?`
the ledger entry it records and `chunk?` the chunk it hands the reassembler. An `EngineRun`
starts from an engine just built on a fresh ledger `Blockchain(d)`, with the directory and the
reassembler it is indexed by, and lists each started call with the state it started in.
`on_message` is not a step: the observers are those the engine was built with.

Every ledger append happens before a call's first `await`, so the engine's ledger goes through a
run of `LedgerRun` whose calls are the engine calls' own, in the order they started. Along a run
the engine only accumulates (`Keeps`), and its reassembler is fed the verified stream chunks in
arrival order.
-/

namespace BlockchainMessaging

inductive EngineCall where
  | sendText (recipientId : String) (text : PyStr) (encrypt : Bool) (fresh : Fresh)
      (nonce : Bytes)
  | broadcastText (text : PyStr) (fresh : Fresh)
  | handleIncoming (message : MessagePayload) (peer : Peer) (ackFresh : Fresh)
  | minePending (fuel : Nat) (now : Float)

def EngineCall.inboundPeer? : EngineCall → Option Peer
  | .handleIncoming _ peer _ => some peer
  | _ => none

namespace TransmissionEngine

variable {R : Type} (X : Primitives R)

def start (e : TransmissionEngine R) :
    EngineCall → Option (TransmissionEngine R × Proc (TransmissionEngine R))
  | .sendText recipientId text encrypt fresh nonce =>
    some (e.sendText X recipientId text encrypt fresh nonce)
  | .broadcastText text fresh => some (e.broadcastText X text fresh)
  | .handleIncoming message peer ackFresh => some (e.handleIncoming X message peer ackFresh)
  | .minePending fuel now => (e.minePending X fuel now).map fun e => (e, .done)

def entry? (e : TransmissionEngine R) : EngineCall → Option Json
  | .sendText recipientId text _ fresh _ =>
    if (e.getPeer recipientId).isSome && (Utf8.encode text).isSome then
      some (.dict [("type", .str "message"), ("id", .str fresh.id),
        ("sender", .str e.wallet.address), ("recipient", .str recipientId),
        ("timestamp", .float fresh.timestamp)])
    else none
  | .broadcastText text fresh =>
    if (Utf8.encode text).isSome then
      some (.dict [("type", .str "broadcast"), ("id", .str fresh.id),
        ("sender", .str e.wallet.address), ("timestamp", .float fresh.timestamp)])
    else none
  | .handleIncoming message peer _ =>
    if e.delivers X message peer then
      some (.dict [("type", .str "received"), ("id", .str message.id),
        ("sender", .str message.sender), ("timestamp", .float message.timestamp)])
    else none
  | .minePending _ _ => none

theorem entry?_content {e : TransmissionEngine R} {c : EngineCall} {j : Json}
    (h : e.entry? X c = some j) : j.get? "content" = none := by
  cases c <;> simp only [entry?] at h <;> (try split at h) <;> cases h <;> rfl

def ledgerCall? (e : TransmissionEngine R) : EngineCall → Option LedgerCall
  | .minePending _ now => some (.minePending now)
  | c => (e.entry? X c).map .addData

theorem ledgerCall?_payload (e : TransmissionEngine R) (c : EngineCall) :
    (e.ledgerCall? X c).bind LedgerCall.payload? = e.entry? X c := by
  cases c <;> first | rfl | (simp only [ledgerCall?]; cases e.entry? X _ <;> rfl)

theorem sendText_blockchain (e : TransmissionEngine R) (recipientId : String) (text : PyStr)
    (encrypt : Bool) (fresh : Fresh) (nonce : Bytes) :
    (e.sendText X recipientId text encrypt fresh nonce).1.blockchain =
      (e.entry? X (.sendText recipientId text encrypt fresh nonce)).elim e.blockchain
        e.blockchain.addData := by
  unfold sendText
  cases hp : e.getPeer recipientId with
  | none => simp [entry?, hp]
  | some peer =>
    cases ht : Utf8.encode text with
    | none => simp [entry?, hp, ht]
    | some plaintext =>
      obtain ⟨secrets, h⟩ := encryptContent_eq X e peer encrypt plaintext nonce
      simp only [h, dispatchText, entry?, hp, ht]
      rfl

theorem broadcastText_blockchain (e : TransmissionEngine R) (text : PyStr) (fresh : Fresh) :
    (e.broadcastText X text fresh).1.blockchain =
      (e.entry? X (.broadcastText text fresh)).elim e.blockchain e.blockchain.addData := by
  unfold broadcastText
  cases ht : Utf8.encode text with
  | none => simp [entry?, ht]
  | some content =>
    simp only [entry?, ht]
    rfl

theorem ledgerStep_of_entry {e e' : TransmissionEngine R} {c : EngineCall}
    (hb : e'.blockchain = (e.entry? X c).elim e.blockchain e.blockchain.addData)
    (hc : e.ledgerCall? X c = (e.entry? X c).map .addData) :
    (∀ lc, e.ledgerCall? X c = some lc → LedgerStep X.digest e.blockchain lc e'.blockchain) ∧
      (e.ledgerCall? X c = none → e'.blockchain = e.blockchain) := by
  rw [hc, hb]
  cases e.entry? X c with
  | none => exact ⟨fun _ h => (nomatch h), fun _ => rfl⟩
  | some j => exact ⟨fun _ h => by cases h; exact .addData _ _, fun h => nomatch h⟩

theorem start_ledgerStep {e : TransmissionEngine R} {c : EngineCall}
    {r : TransmissionEngine R × Proc (TransmissionEngine R)} (h : e.start X c = some r) :
    (∀ lc, e.ledgerCall? X c = some lc → LedgerStep X.digest e.blockchain lc r.1.blockchain) ∧
      (e.ledgerCall? X c = none → r.1.blockchain = e.blockchain) := by
  cases c with
  | sendText recipientId text encrypt fresh nonce =>
    cases h
    exact ledgerStep_of_entry X (sendText_blockchain X e recipientId text encrypt fresh nonce) rfl
  | broadcastText text fresh =>
    cases h
    exact ledgerStep_of_entry X (broadcastText_blockchain X e text fresh) rfl
  | handleIncoming message peer ackFresh =>
    cases h
    refine ledgerStep_of_entry X ?_ rfl
    rw [handleIncoming_blockchain]
    simp only [entry?]
    cases e.delivers X message peer <;> rfl
  | minePending fuel now =>
    simp only [start, minePending, Option.map_map, Option.map_eq_some'] at h
    obtain ⟨⟨bc, b⟩, hm, rfl⟩ := h
    exact ⟨fun _ h => by cases h; exact .minePending hm, fun h => nomatch h⟩

theorem start_inert {e : TransmissionEngine R} {c : EngineCall}
    {r : TransmissionEngine R × Proc (TransmissionEngine R)} (h : e.start X c = some r) :
    r.2.Inert := by
  cases c with
  | sendText recipientId text encrypt fresh nonce =>
    cases h
    exact sendText_inert X e recipientId text encrypt fresh nonce
  | broadcastText text fresh =>
    cases h
    exact broadcastText_inert X e text fresh
  | handleIncoming message peer ackFresh =>
    cases h
    exact handleIncoming_inert X e message peer ackFresh
  | minePending fuel now =>
    simp only [start, Option.map_eq_some'] at h
    obtain ⟨_, _, rfl⟩ := h
    exact .done

theorem start_frame {e : TransmissionEngine R} {c : EngineCall}
    {r : TransmissionEngine R × Proc (TransmissionEngine R)} (h : e.start X c = some r) :
    ∃ e₁, (e₁ = e ∨ ∃ peer, (c.inboundPeer? = some peer ∨ ∃ k, e.getPeer k = some peer) ∧
        e₁ = (e.getSharedSecret X peer).1) ∧
      ∃ b reassembler, r.1 = { e₁ with blockchain := b, reassembler } := by
  cases c with
  | sendText recipientId text encrypt fresh nonce =>
    cases h
    unfold sendText
    cases hp : e.getPeer recipientId with
    | none => exact ⟨e, .inl rfl, _, _, rfl⟩
    | some peer =>
      cases Utf8.encode text with
      | none => exact ⟨e, .inl rfl, _, _, rfl⟩
      | some plaintext =>
        rcases encryptContent_fst X e peer encrypt plaintext nonce with he | he <;>
          simp only [dispatchText, he]
        · exact ⟨e, .inl rfl, _, _, rfl⟩
        · exact ⟨_, .inr ⟨peer, .inr ⟨recipientId, hp⟩, rfl⟩, _, _, rfl⟩
  | broadcastText text fresh =>
    cases h
    unfold broadcastText
    cases Utf8.encode text <;> exact ⟨e, .inl rfl, _, _, rfl⟩
  | handleIncoming message peer ackFresh =>
    cases h
    obtain ⟨e₁, he₁, b, reassembler, he⟩ := handleIncoming_frame X e message peer ackFresh
    refine ⟨e₁, ?_, b, reassembler, he⟩
    rcases he₁ with rfl | rfl
    · exact .inl rfl
    · exact .inr ⟨peer, .inl rfl, rfl⟩
  | minePending fuel now =>
    simp only [start, minePending, Option.map_map, Option.map_eq_some'] at h
    obtain ⟨_, _, rfl⟩ := h
    exact ⟨e, .inl rfl, _, _, rfl⟩

def CacheSound (e : TransmissionEngine R) : Prop :=
  ∀ k peer, e.getPeer k = some peer → CacheAgrees X e peer

end TransmissionEngine

def KeyAgrees (directory : String → Option Peer) (peer : Peer) : Prop :=
  ∀ q key key', directory peer.id = some q → truthy q.encryptionKey = some key →
    truthy peer.encryptionKey = some key' → key' = key

theorem keyAgrees_of_directory {directory : String → Option Peer}
    (hdir : ∀ k q, directory k = some q → q.id = k) {k : String} {peer : Peer}
    (h : directory k = some peer) : KeyAgrees directory peer := by
  intro q key key' hq hkq hkp
  rw [hdir k peer h, h] at hq
  cases hq
  exact Option.some.inj (hkp.symm.trans hkq)

namespace TransmissionEngine

variable {R : Type} (X : Primitives R)

theorem cacheSound_getSharedSecret {e : TransmissionEngine R} {peer : Peer}
    (hdir : ∀ k q, e.getPeer k = some q → q.id = k) (hk : KeyAgrees e.getPeer peer)
    (hc : CacheSound X e) : CacheSound X (e.getSharedSecret X peer).1 := by
  obtain ⟨secrets, hs⟩ := getSharedSecret_eq X e peer
  intro k q hq
  have hq : e.getPeer k = some q := by rw [hs] at hq; exact hq
  refine cacheAgrees_getSharedSecret X (hc k q hq) fun hid key key' hkq hkp => ?_
  exact hk q key key' (by rw [← hid, hdir k q hq]; exact hq) hkq hkp

theorem start_cacheSound {e : TransmissionEngine R} {c : EngineCall}
    {r : TransmissionEngine R × Proc (TransmissionEngine R)}
    (hdir : ∀ k q, e.getPeer k = some q → q.id = k)
    (hin : ∀ peer, c.inboundPeer? = some peer → KeyAgrees e.getPeer peer)
    (hc : CacheSound X e) (h : e.start X c = some r) : CacheSound X r.1 := by
  obtain ⟨e₁, he₁, b, reassembler, he⟩ := start_frame X h
  rw [he]
  rcases he₁ with rfl | ⟨peer, hpeer, rfl⟩
  · exact hc
  · refine cacheSound_getSharedSecret X hdir ?_ hc
    rcases hpeer with hpeer | ⟨k, hk⟩
    · exact hin peer hpeer
    · exact keyAgrees_of_directory hdir hk

theorem start_getPeer {e : TransmissionEngine R} {c : EngineCall}
    {r : TransmissionEngine R × Proc (TransmissionEngine R)} (h : e.start X c = some r) :
    r.1.getPeer = e.getPeer := by
  obtain ⟨e₁, he₁, b, reassembler, he⟩ := start_frame X h
  rw [he]
  rcases he₁ with rfl | ⟨peer, -, rfl⟩
  · rfl
  · obtain ⟨secrets, hs⟩ := getSharedSecret_eq X e peer
    rw [hs]

def chunk? : EngineCall → Option Chunk
  | .handleIncoming message peer _ =>
    match truthy peer.publicKey with
    | none => none
    | some pk =>
      if X.verifySignature (X.getSignableContent message) message.signature pk &&
          message.type != .text && message.type != .ack then
        message.chunkInfo.map fun info => ⟨info.streamId, info.sequence, info.total, message.content⟩
      else none
  | _ => none

def feedChunk (c : EngineCall) (reassembler : R) : R :=
  ((chunk? X c).map fun ch => (X.addChunk reassembler ch).1).getD reassembler

theorem sendText_reassembler (e : TransmissionEngine R) (recipientId : String) (text : PyStr)
    (encrypt : Bool) (fresh : Fresh) (nonce : Bytes) :
    (e.sendText X recipientId text encrypt fresh nonce).1.reassembler = e.reassembler := by
  unfold sendText
  cases e.getPeer recipientId with
  | none => rfl
  | some peer =>
    cases Utf8.encode text with
    | none => rfl
    | some plaintext =>
      obtain ⟨secrets, h⟩ := encryptContent_eq X e peer encrypt plaintext nonce
      simp only [dispatchText, h]

theorem handleIncoming_reassembler (e : TransmissionEngine R) (message : MessagePayload)
    (peer : Peer) (ackFresh : Fresh) :
    (e.handleIncoming X message peer ackFresh).1.reassembler =
      feedChunk X (.handleIncoming message peer ackFresh) e.reassembler := by
  unfold handleIncoming feedChunk chunk?
  dsimp only
  cases truthy peer.publicKey with
  | none => rfl
  | some pk =>
    dsimp only
    cases X.verifySignature (X.getSignableContent message) message.signature pk with
    | false => rfl
    | true =>
      cases ht : message.type with
      | text =>
        obtain ⟨b, hb⟩ := handleTextMessage_fst X e message peer true ackFresh
        obtain ⟨secrets, hs⟩ := decryptContent_eq X e message peer
        simp [hb, hs]
      | ack => rfl
      | streamStart | streamChunk | streamEnd =>
        unfold handleStreamMessage
        cases message.chunkInfo <;> rfl

theorem start_reassembler {e : TransmissionEngine R} {c : EngineCall}
    {r : TransmissionEngine R × Proc (TransmissionEngine R)} (h : e.start X c = some r) :
    r.1.reassembler = feedChunk X c e.reassembler := by
  cases c with
  | sendText recipientId text encrypt fresh nonce =>
    cases h
    exact sendText_reassembler X e recipientId text encrypt fresh nonce
  | broadcastText text fresh =>
    cases h
    unfold broadcastText
    cases Utf8.encode text <;> rfl
  | handleIncoming message peer ackFresh =>
    cases h
    exact handleIncoming_reassembler X e message peer ackFresh
  | minePending fuel now =>
    simp only [start, minePending, Option.map_map, Option.map_eq_some'] at h
    obtain ⟨_, _, rfl⟩ := h
    rfl

structure Keeps (e e' : TransmissionEngine R) : Prop where
  wallet : e'.wallet = e.wallet
  getPeer : e'.getPeer = e.getPeer
  messageCallbacks : e'.messageCallbacks = e.messageCallbacks
  sharedSecrets : e.sharedSecrets <+: e'.sharedSecrets
  chain : e.blockchain.chain <+: e'.blockchain.chain
  difficulty : e'.blockchain.difficulty = e.blockchain.difficulty

namespace Keeps

theorem refl (e : TransmissionEngine R) : Keeps e e :=
  ⟨rfl, rfl, rfl, List.prefix_refl _, List.prefix_refl _, rfl⟩

theorem trans {e₁ e₂ e₃ : TransmissionEngine R} (h₁ : Keeps e₁ e₂) (h₂ : Keeps e₂ e₃) :
    Keeps e₁ e₃ :=
  ⟨h₂.wallet.trans h₁.wallet, h₂.getPeer.trans h₁.getPeer,
    h₂.messageCallbacks.trans h₁.messageCallbacks, h₁.sharedSecrets.trans h₂.sharedSecrets,
    h₁.chain.trans h₂.chain, h₂.difficulty.trans h₁.difficulty⟩

end Keeps

theorem getSharedSecret_keeps (e : TransmissionEngine R) (peer : Peer) :
    Keeps e (e.getSharedSecret X peer).1 ∧ ((e.sharedSecrets.map Prod.fst).Nodup →
      ((e.getSharedSecret X peer).1.sharedSecrets.map Prod.fst).Nodup) := by
  rcases getSharedSecret_cases X e peer with h | ⟨hl, key, -, h⟩ <;> rw [h]
  · exact ⟨.refl e, id⟩
  refine ⟨⟨rfl, rfl, rfl, List.prefix_append _ _, List.prefix_refl _, rfl⟩, fun hn => ?_⟩
  rw [List.map_append, List.Nodup, List.pairwise_append]
  refine ⟨hn, List.pairwise_singleton _ _, fun a ha b hb he => ?_⟩
  obtain ⟨p, hp, rfl⟩ := List.mem_map.1 ha
  have := List.lookup_eq_none_iff.1 hl p hp
  simp [he, List.mem_singleton.1 hb] at this

theorem start_keeps {e : TransmissionEngine R} {c : EngineCall}
    {r : TransmissionEngine R × Proc (TransmissionEngine R)} (h : e.start X c = some r) :
    Keeps e r.1 ∧
      ((e.sharedSecrets.map Prod.fst).Nodup → (r.1.sharedSecrets.map Prod.fst).Nodup) := by
  obtain ⟨e₁, he₁, b, reassembler, he⟩ := start_frame X h
  have hledger : e.blockchain.chain <+: r.1.blockchain.chain ∧
      r.1.blockchain.difficulty = e.blockchain.difficulty := by
    obtain ⟨hstep, hnone⟩ := start_ledgerStep X h
    cases hl : e.ledgerCall? X c with
    | none => rw [hnone hl]; exact ⟨List.prefix_refl _, rfl⟩
    | some lc =>
      obtain ⟨hp, hd, -⟩ := (hstep lc hl).preserves
      exact ⟨hp, hd⟩
  obtain ⟨hk, hn⟩ : Keeps e e₁ ∧ ((e.sharedSecrets.map Prod.fst).Nodup →
      (e₁.sharedSecrets.map Prod.fst).Nodup) := by
    rcases he₁ with rfl | ⟨peer, -, rfl⟩
    · exact ⟨.refl _, id⟩
    · exact getSharedSecret_keeps X e peer
  have hs : r.1.sharedSecrets = e₁.sharedSecrets := by rw [he]
  refine ⟨⟨?_, ?_, ?_, hs ▸ hk.sharedSecrets, hledger.1, hledger.2⟩, fun h => hs ▸ hn h⟩ <;>
    rw [he]
  · exact hk.wallet
  · exact hk.getPeer
  · exact hk.messageCallbacks

end TransmissionEngine

structure Sys (R : Type) where
  engine : TransmissionEngine R
  tasks : List (Proc (TransmissionEngine R))

variable {R : Type} (X : Primitives R)

inductive EngineRun (d : Int) (directory : String → Option Peer) (reassembler : R) :
    List (EngineCall × TransmissionEngine R) → Sys R → Prop
  | init {wallet : Wallet} {callbacks : List Callback} {now : Float} {fuel : Nat}
      {bc : Blockchain} :
      Blockchain.init X.digest d now fuel = some bc →
      EngineRun d directory reassembler []
        ⟨⟨wallet, directory, bc, reassembler, callbacks, []⟩, []⟩
  | start {calls : List (EngineCall × TransmissionEngine R)} {s : Sys R} {c : EngineCall}
      {r : TransmissionEngine R × Proc (TransmissionEngine R)} :
      EngineRun d directory reassembler calls s → s.engine.start X c = some r →
      EngineRun d directory reassembler (calls ++ [(c, s.engine)]) ⟨r.1, s.tasks ++ [r.2]⟩
  | resume {calls : List (EngineCall × TransmissionEngine R)} {s : Sys R} {i : Nat}
      {call : Await} {next : Outcome → TransmissionEngine R → TransmissionEngine R × Proc (TransmissionEngine R)}
      (o : Outcome) :
      EngineRun d directory reassembler calls s → s.tasks[i]? = some (.await call next) →
      EngineRun d directory reassembler calls
        ⟨(next o s.engine).1, s.tasks.set i (next o s.engine).2⟩

structure RunInvariant (directory : String → Option Peer) (s : Sys R) : Prop where
  getPeer : s.engine.getPeer = directory
  inert : ∀ p ∈ s.tasks, p.Inert

def sampleRecord : Peer := ⟨"peerB", some [1], some [2]⟩

def sampleDirectory (k : String) : Option Peer :=
  if k = "peerB" then some sampleRecord else none

theorem keyed_of_single {id : String} {p : Peer} (hp : p.id = id) (k : String) (q : Peer)
    (h : (if k = id then some p else none) = some q) : q.id = k := by
  split at h
  · cases h
    rw [hp]
    exact (by assumption : k = id).symm
  · cases h

theorem sampleDirectory_keyed (k : String) (q : Peer) (h : sampleDirectory k = some q) :
    q.id = k :=
  keyed_of_single (p := sampleRecord) rfl k q h

def sampleLedger : Blockchain := ⟨[⟨0, 0, Blockchain.genesisData, zeros 64, 0, "00"⟩], [], 2⟩

def sampleEngine : TransmissionEngine Unit :=
  ⟨⟨"peerA", "A", ⟨[1], [1]⟩, ⟨[1], [1]⟩⟩, sampleDirectory, sampleLedger, (), [], []⟩

theorem sampleEngine_run : EngineRun Primitives.plain 2 sampleDirectory () [] ⟨sampleEngine, []⟩ :=
  @EngineRun.init Unit Primitives.plain 2 sampleDirectory () _ [] 0 0 _ rfl

theorem sampleEngine_start (c : EngineCall) {r : TransmissionEngine Unit × Proc (TransmissionEngine Unit)}
    (h : sampleEngine.start Primitives.plain c = some r) :
    EngineRun Primitives.plain 2 sampleDirectory () [(c, sampleEngine)] ⟨r.1, [r.2]⟩ :=
  .start sampleEngine_run h

variable {X} {d : Int} {directory : String → Option Peer} {r₀ : R}

theorem RunInvariant.resume {s : Sys R} {i : Nat} {call : Await}
    {next : Outcome → TransmissionEngine R → TransmissionEngine R × Proc (TransmissionEngine R)}
    (hs : RunInvariant directory s) (hi : s.tasks[i]? = some (.await call next)) (o : Outcome) :
    (next o s.engine).1 = s.engine ∧
      RunInvariant directory ⟨(next o s.engine).1, s.tasks.set i (next o s.engine).2⟩ := by
  obtain ⟨hfst, hsnd⟩ : (∀ o s, (next o s).1 = s) ∧ ∀ o s, (next o s).2.Inert := by
    cases hs.inert _ (List.getElem?_mem hi) with
    | await h1 h2 => exact ⟨h1, h2⟩
  refine ⟨hfst o s.engine, ?_⟩
  rw [hfst o s.engine]
  refine ⟨hs.getPeer, fun p hp => ?_⟩
  rcases List.mem_or_eq_of_mem_set hp with hp | rfl
  · exact hs.inert p hp
  · exact hsnd o s.engine

theorem EngineRun.invariant {calls : List (EngineCall × TransmissionEngine R)} {s : Sys R}
    (h : EngineRun X d directory r₀ calls s) : RunInvariant directory s := by
  induction h with
  | init => exact ⟨rfl, by simp⟩
  | start _ hs ih =>
    refine ⟨(TransmissionEngine.start_getPeer X hs).trans ih.getPeer, fun q hq => ?_⟩
    rcases List.mem_append.1 hq with hq | hq
    · exact ih.inert q hq
    · rw [List.mem_singleton.1 hq]
      exact TransmissionEngine.start_inert X hs
  | resume o _ hi ih => exact (ih.resume hi o).2

theorem EngineRun.ledgerRun {calls : List (EngineCall × TransmissionEngine R)} {s : Sys R}
    (h : EngineRun X d directory r₀ calls s) :
    LedgerRun X.digest d (calls.filterMap fun c => c.2.ledgerCall? X c.1) s.engine.blockchain := by
  induction h with
  | init hi => exact .init hi
  | @start calls s c r _ hs ih =>
    obtain ⟨hstep, hnone⟩ := TransmissionEngine.start_ledgerStep X hs
    rw [List.filterMap_append]
    cases hl : s.engine.ledgerCall? X c with
    | none =>
      simp only [List.filterMap_cons, List.filterMap_nil, hl, List.append_nil, hnone hl]
      exact ih
    | some lc =>
      simp only [List.filterMap_cons, List.filterMap_nil, hl]
      exact .step ih (hstep lc hl)
  | resume o hrun hi ih =>
    rw [(hrun.invariant.resume hi o).1]
    exact ih

/-- Every run on a fresh ledger: the history is one entry per recording call, in the order the
calls started, and no entry holds a message's content. -/
theorem engine_history_entries {calls : List (EngineCall × TransmissionEngine R)} {s : Sys R}
    (h : EngineRun X d directory r₀ calls s) :
    s.engine.blockchain.history = some (calls.filterMap fun c => c.2.entry? X c.1) ∧
      ∀ j ∈ calls.filterMap (fun c => c.2.entry? X c.1), j.get? "content" = none := by
  refine ⟨?_, fun j hj => ?_⟩
  · rw [h.ledgerRun.history, List.filterMap_filterMap]
    simp only [TransmissionEngine.ledgerCall?_payload]
  · obtain ⟨c, -, hc⟩ := List.mem_filterMap.1 hj
    exact TransmissionEngine.entry?_content X hc

/-- A broadcast of a text holding a lone surrogate raises before it records anything. -/
theorem broadcastText_surrogate_unrecorded :
    EngineRun Primitives.plain 2 sampleDirectory ()
        [(.broadcastText [0xD800] ⟨"b1", 0⟩, sampleEngine)]
        ⟨(sampleEngine.broadcastText Primitives.plain [0xD800] ⟨"b1", 0⟩).1, [.done]⟩ ∧
      (sampleEngine.broadcastText Primitives.plain [0xD800] ⟨"b1", 0⟩).1.blockchain.history =
        some [] :=
  ⟨.start sampleEngine_run rfl, rfl⟩

theorem engine_history_entries_sendText :
    (sampleEngine.sendText Primitives.plain "peerB" [104, 105] true ⟨"m1", 0⟩ [0]).1.blockchain.history =
        some ([(EngineCall.sendText "peerB" [104, 105] true ⟨"m1", 0⟩ [0], sampleEngine)].filterMap
          fun c => c.2.entry? Primitives.plain c.1) ∧
      ∀ j ∈ [(EngineCall.sendText "peerB" [104, 105] true ⟨"m1", 0⟩ [0], sampleEngine)].filterMap
          (fun c => c.2.entry? Primitives.plain c.1), j.get? "content" = none :=
  engine_history_entries (sampleEngine_start (.sendText "peerB" [104, 105] true ⟨"m1", 0⟩ [0]) rfl)

theorem EngineRun.cacheSound {calls : List (EngineCall × TransmissionEngine R)} {s : Sys R}
    (h : EngineRun X d directory r₀ calls s) (hdir : ∀ k q, directory k = some q → q.id = k)
    (hin : ∀ c ∈ calls, ∀ peer, c.1.inboundPeer? = some peer → KeyAgrees directory peer) :
    TransmissionEngine.CacheSound X s.engine := by
  induction h with
  | init _ =>
    intro k peer _ secret key hs
    simp at hs
  | @start calls s c r hrun hs ih =>
    have hg := hrun.invariant.getPeer
    have hdir' : ∀ k q, s.engine.getPeer k = some q → q.id = k := by rw [hg]; exact hdir
    refine TransmissionEngine.start_cacheSound X hdir' (fun peer hp => ?_)
      (ih fun c hc => hin c (List.mem_append_left _ hc)) hs
    rw [hg]
    exact hin _ (List.mem_append_right _ (List.mem_singleton_self _)) peer hp
  | resume o hrun hi ih =>
    rw [(hrun.invariant.resume hi o).1]
    exact ih hin

/-- In every run whose directory is keyed by peer id, and where every inbound peer object has
the directory's encryption key for its id, the secret `send_text` uses for a recipient is the
fresh derivation from its record: `send_text` sends and records what an engine without the cache
would. -/
theorem sendText_refines_noCache {calls : List (EngineCall × TransmissionEngine R)} {s : Sys R}
    (h : EngineRun X d directory r₀ calls s) (hdir : ∀ k q, directory k = some q → q.id = k)
    (hin : ∀ c ∈ calls, ∀ peer, c.1.inboundPeer? = some peer → KeyAgrees directory peer) :
    (∀ k q key, directory k = some q → truthy q.encryptionKey = some key →
      (s.engine.getSharedSecret X q).2 =
        some (X.deriveSharedSecret s.engine.wallet.encryptionKeys.privateKey key)) ∧
    ∀ recipientId text encrypt fresh nonce,
      (s.engine.sendText X recipientId text encrypt fresh nonce).2 =
          (s.engine.sendTextNoCache X recipientId text encrypt fresh nonce).2 ∧
        (s.engine.sendText X recipientId text encrypt fresh nonce).1.blockchain =
          (s.engine.sendTextNoCache X recipientId text encrypt fresh nonce).1.blockchain := by
  have hc := h.cacheSound hdir hin
  have hg := h.invariant.getPeer
  exact ⟨fun k q key hq hk => TransmissionEngine.getSharedSecret_of_key X (hc k q (hg ▸ hq)) hk,
    fun recipientId text encrypt fresh nonce =>
      TransmissionEngine.sendText_eq_noCache X (fun peer hp => hc _ peer hp) text encrypt fresh
        nonce⟩

/-- A peer object with the id `peerB` but another encryption key fills the cache for `peerB`;
`send_text` to `peerB` then encrypts under that secret and not the one the directory's record
derives. -/
theorem sendText_uses_cached_secret :
    let e := (sampleEngine.handleIncoming Primitives.plain
      (TransmissionEngine.sampleText "peerB" (some [0])) ⟨"peerB", some [1], some [5]⟩ ⟨"a1", 0⟩).1
    EngineRun Primitives.plain 2 sampleDirectory ()
        [(.handleIncoming (TransmissionEngine.sampleText "peerB" (some [0]))
          ⟨"peerB", some [1], some [5]⟩ ⟨"a1", 0⟩, sampleEngine)] ⟨e, [.done]⟩ ∧
      sampleDirectory "peerB" = some sampleRecord ∧
      (e.getSharedSecret Primitives.plain sampleRecord).2 = some [6] ∧
      Primitives.plain.deriveSharedSecret e.wallet.encryptionKeys.privateKey [2] = [3] ∧
      (e.encryptContent Primitives.plain sampleRecord true [104, 105] [0]).2.2 = [6, 0, 104, 105] ∧
      (e.encryptContentNoCache Primitives.plain sampleRecord true [104, 105] [0]).2 =
        [3, 0, 104, 105] :=
  ⟨.start sampleEngine_run rfl, rfl, rfl, rfl, rfl, rfl⟩

theorem sendText_refines_noCache_consistent :
    let e := (sampleEngine.handleIncoming Primitives.plain
      (TransmissionEngine.sampleText "peerB" (some [0])) sampleRecord ⟨"a1", 0⟩).1
    (∀ k q key, sampleDirectory k = some q → truthy q.encryptionKey = some key →
      (e.getSharedSecret Primitives.plain q).2 =
        some (Primitives.plain.deriveSharedSecret e.wallet.encryptionKeys.privateKey key)) ∧
    ∀ recipientId text encrypt fresh nonce,
      (e.sendText Primitives.plain recipientId text encrypt fresh nonce).2 =
          (e.sendTextNoCache Primitives.plain recipientId text encrypt fresh nonce).2 ∧
        (e.sendText Primitives.plain recipientId text encrypt fresh nonce).1.blockchain =
          (e.sendTextNoCache Primitives.plain recipientId text encrypt fresh nonce).1.blockchain :=
  sendText_refines_noCache (sampleEngine_start (.handleIncoming
      (TransmissionEngine.sampleText "peerB" (some [0])) sampleRecord ⟨"a1", 0⟩) rfl)
    sampleDirectory_keyed
    fun c hc peer hp => by
      rw [List.mem_singleton.1 hc] at hp
      cases hp
      exact @keyAgrees_of_directory _ sampleDirectory_keyed "peerB" _ rfl

/-- Over every run the engine only accumulates. The state each call started in is kept by the
state the run reaches: the same wallet, directory and observers, every cached secret still there
under its id (none is replaced or dropped), every block still in its place, and the same
difficulty. And no peer id ever has two cached secrets. -/
theorem engine_run_accumulates {calls : List (EngineCall × TransmissionEngine R)} {s : Sys R}
    (h : EngineRun X d directory r₀ calls s) :
    (s.engine.sharedSecrets.map Prod.fst).Nodup ∧
      ∀ c ∈ calls, TransmissionEngine.Keeps c.2 s.engine := by
  induction h with
  | init => exact ⟨List.nodup_nil, fun _ h => absurd h (List.not_mem_nil _)⟩
  | @start calls s c r _ hs ih =>
    obtain ⟨hk, hn⟩ := TransmissionEngine.start_keeps X hs
    refine ⟨hn ih.1, fun c' hc' => ?_⟩
    rcases List.mem_append.1 hc' with hc' | hc'
    · exact (ih.2 c' hc').trans hk
    · rw [List.mem_singleton.1 hc']
      exact hk
  | resume o hrun hi ih =>
    rw [(hrun.invariant.resume hi o).1]
    exact ih

theorem engine_run_accumulates_inbound :
    let e := (sampleEngine.handleIncoming Primitives.plain
      (TransmissionEngine.sampleText "peerB" (some [0])) sampleRecord ⟨"a1", 0⟩).1
    e.sharedSecrets = [("peerB", [3])] ∧ (e.sharedSecrets.map Prod.fst).Nodup ∧
      ∀ c ∈ [(EngineCall.handleIncoming (TransmissionEngine.sampleText "peerB" (some [0]))
        sampleRecord ⟨"a1", 0⟩, sampleEngine)], TransmissionEngine.Keeps c.2 e :=
  ⟨rfl, engine_run_accumulates (sampleEngine_start (.handleIncoming
    (TransmissionEngine.sampleText "peerB" (some [0])) sampleRecord ⟨"a1", 0⟩) rfl)⟩

/-- Over every run, the reassembler is the one the engine was built with, fed exactly the chunks
of the stream messages that passed the signature check and carry `chunk_info`, in the order
those calls started; no other call, and no resumed task, touches it. -/
theorem engine_reassembler_chunks {calls : List (EngineCall × TransmissionEngine R)} {s : Sys R}
    (h : EngineRun X d directory r₀ calls s) :
    s.engine.reassembler =
      (calls.filterMap fun c => TransmissionEngine.chunk? X c.1).foldl
        (fun r ch => (X.addChunk r ch).1) r₀ := by
  induction h with
  | init => rfl
  | @start calls s c r _ hs ih =>
    rw [List.filterMap_append, List.foldl_append, ← ih]
    show r.1.reassembler = _
    rw [TransmissionEngine.start_reassembler X hs, TransmissionEngine.feedChunk]
    cases hc : TransmissionEngine.chunk? X c <;> simp [hc]
  | resume o hrun hi ih =>
    rw [(hrun.invariant.resume hi o).1]
    exact ih

def Primitives.recording : Primitives (List Chunk) where
  signMessage := Primitives.plain.signMessage
  verifySignature := Primitives.plain.verifySignature
  deriveSharedSecret := Primitives.plain.deriveSharedSecret
  encryptMessage := Primitives.plain.encryptMessage
  decryptMessage := Primitives.plain.decryptMessage
  getSignableContent := Primitives.plain.getSignableContent
  createAckMessage := Primitives.plain.createAckMessage
  addChunk r ch := (r ++ [ch], none)
  digest := Primitives.plain.digest

def recordingEngine : TransmissionEngine (List Chunk) :=
  ⟨sampleEngine.wallet, sampleDirectory, sampleLedger, [], [], []⟩

def sampleChunk : MessagePayload :=
  { TransmissionEngine.sampleText "peerB" none with
    type := .streamChunk, chunkInfo := some ⟨"s1", 0, 1⟩ }

/-- A reassembler that records what it is fed, built empty: after a text from `peerB` and a chunk
of stream `s1` from `peerB`'s record, it holds that chunk alone. -/
theorem engine_reassembler_chunks_stream :
    let text := TransmissionEngine.sampleText "peerB" none
    let e₁ := (recordingEngine.handleIncoming Primitives.recording text sampleRecord ⟨"a1", 0⟩).1
    (e₁.handleIncoming Primitives.recording sampleChunk sampleRecord ⟨"a2", 0⟩).1.reassembler =
      [⟨"s1", 0, 1, [104, 105]⟩] := by
  intro text e₁
  have run₀ : EngineRun Primitives.recording 2 sampleDirectory [] [] ⟨recordingEngine, []⟩ :=
    @EngineRun.init _ Primitives.recording 2 sampleDirectory [] _ [] 0 0 _ rfl
  have run₁ : EngineRun Primitives.recording 2 sampleDirectory []
      [(.handleIncoming text sampleRecord ⟨"a1", 0⟩, recordingEngine)]
      ⟨e₁, [(recordingEngine.handleIncoming Primitives.recording text sampleRecord ⟨"a1", 0⟩).2]⟩ :=
    .start (c := .handleIncoming text sampleRecord ⟨"a1", 0⟩) run₀ rfl
  exact (engine_reassembler_chunks
    (.start (c := .handleIncoming sampleChunk sampleRecord ⟨"a2", 0⟩) run₁ rfl)).trans rfl

end BlockchainMessaging
